import Mathlib.Data.BitVec
import Mathlib.Data.List.Range
import Mathlib.Logic.Function.Basic

/-!
# Ring buffers

A queue in a memory of `2 ^ w` places, between two pointers that wrap around, with a count beside
them that tells a full buffer from an empty one.

- `RingBuffer.contents`: the queue;
- `RingBuffer.Valid`: the pointers agree with the count;
- `RingBuffer.contents_push`, `RingBuffer.contents_pop`, `RingBuffer.contents_shift`: what the
  operations do to the queue;
- `RingBuffer.contents_overwrite`: what a write into a full buffer does.
-/

/-- A memory with the place that is written next, the place that is read next, and a count. -/
structure RingBuffer (w : ℕ) (α : Type*) where
  mem : BitVec w → α
  top : BitVec w
  bottom : BitVec w
  count : ℕ

namespace RingBuffer

variable {w : ℕ} {α : Type*} (b : RingBuffer w α) (d : α)

/-- The place `i` places behind `p`, around the end of the memory. -/
def place (p : BitVec w) (i : ℕ) : BitVec w := p + BitVec.ofNat w i

/-- The queue that the buffer stands for, the oldest entry first. -/
def contents : List α := (List.range b.count).map fun i => b.mem (place b.bottom i)

/-- The two pointers agree with the count, which does not exceed the size of the memory. -/
structure Valid : Prop where
  top : b.top = place b.bottom b.count
  le : b.count ≤ 2 ^ w

/-- Write an entry at the top and count it. -/
def push : RingBuffer w α :=
  { b with mem := Function.update b.mem b.top d, top := b.top + 1, count := b.count + 1 }

/-- Let go of the oldest entry by moving the bottom. -/
def pop : RingBuffer w α := { b with bottom := b.bottom + 1, count := b.count - 1 }

/-- Write an entry at the top and let go of the oldest one at the same time. -/
def shift : RingBuffer w α :=
  { b with mem := Function.update b.mem b.top d, top := b.top + 1, bottom := b.bottom + 1 }

/-- Write an entry at the top, but leave the pointers as they are. -/
def overwrite : RingBuffer w α := { b with mem := Function.update b.mem b.top d }

/-! ## Places -/

/-- The place zero places behind a place is the place itself. -/
theorem place_zero (p : BitVec w) : place p 0 = p := BitVec.add_zero p

/-- Counted from the next place, everything is one place further. -/
theorem place_add_one (p : BitVec w) (i : ℕ) : place (p + 1) i = place p (i + 1) := by
  rw [place, place, BitVec.ofNat_add, BitVec.add_comm (BitVec.ofNat w i), ← BitVec.add_assoc]
  rfl

/-- The next place is one place further behind. -/
theorem place_succ (p : BitVec w) (i : ℕ) : place p i + 1 = place p (i + 1) := by
  rw [place, place, BitVec.ofNat_add, ← BitVec.add_assoc]
  rfl

/-- The places of one round differ. -/
theorem place_inj {p : BitVec w} {i j : ℕ} (hi : i < 2 ^ w) (hj : j < 2 ^ w) :
    place p i = place p j ↔ i = j := by
  rw [place, place, BitVec.add_right_inj, ← BitVec.toNat_inj, BitVec.toNat_ofNat,
    BitVec.toNat_ofNat, Nat.mod_eq_of_lt hi, Nat.mod_eq_of_lt hj]

/-- Behind a whole round one is back at the start. -/
theorem place_two_pow (p : BitVec w) : place p (2 ^ w) = p := by
  rw [place, ← BitVec.toNat_inj, BitVec.toNat_add, BitVec.toNat_ofNat, Nat.mod_self, Nat.add_zero,
    Nat.mod_eq_of_lt p.isLt]

/-- Within a round one is not back at the start. -/
theorem place_ne {p : BitVec w} {i : ℕ} (hpos : 0 < i) (hi : i < 2 ^ w) : place p i ≠ p := by
  intro h
  have hzero := (place_inj hi (Nat.two_pow_pos w)).mp (h.trans (place_zero p).symm)
  omega

variable {b d}

/-- The queue has as many entries as the count says. -/
@[simp]
theorem length_contents : b.contents.length = b.count := by
  rw [contents, List.length_map, List.length_range]

/-- The queue is empty if and only if the count is zero. -/
theorem contents_eq_nil : b.contents = [] ↔ b.count = 0 := by
  rw [← List.length_eq_zero_iff, length_contents]

/-! ## The operations -/

/-- Writing an entry keeps the pointers in agreement with the count, unless the buffer is full. -/
theorem Valid.push (h : b.Valid) (hlt : b.count < 2 ^ w) : (b.push d).Valid :=
  ⟨by rw [RingBuffer.push, h.top, place_succ], hlt⟩

/-- Letting go of an entry keeps the pointers in agreement with the count, unless the buffer is
empty. -/
theorem Valid.pop (h : b.Valid) (hpos : 0 < b.count) : b.pop.Valid := by
  refine ⟨?_, (Nat.sub_le _ 1).trans h.le⟩
  simp only [RingBuffer.pop]
  rw [place_add_one, Nat.sub_add_cancel hpos, h.top]

/-- Writing and letting go at the same time keeps the pointers in agreement with the count. -/
theorem Valid.shift (h : b.Valid) : (b.shift d).Valid := by
  refine ⟨?_, h.le⟩
  simp only [RingBuffer.shift]
  rw [place_add_one, ← place_succ, h.top]

/-- Overwriting an entry keeps the pointers in agreement with the count. -/
theorem Valid.overwrite (h : b.Valid) : (b.overwrite d).Valid := ⟨h.top, h.le⟩

/-- An entry that is written to a buffer with room comes last in the queue. -/
theorem contents_push (h : b.Valid) (hlt : b.count < 2 ^ w) :
    (b.push d).contents = b.contents ++ [d] := by
  simp only [contents, push, List.range_succ, List.map_append, List.map_singleton, ← h.top,
    Function.update_self]
  congr 1
  apply List.map_congr_left
  intro i hi
  rw [List.mem_range] at hi
  apply Function.update_of_ne
  rw [h.top, ne_eq, place_inj (hi.trans hlt) hlt]
  exact hi.ne

/-- The oldest entry of a queue that is not empty is the one at the bottom, and letting go of it
leaves the others. -/
theorem contents_pop (hpos : 0 < b.count) : b.contents = b.mem b.bottom :: b.pop.contents := by
  obtain ⟨n, hn⟩ := Nat.exists_eq_succ_of_ne_zero hpos.ne'
  rw [contents, hn, List.range_succ_eq_map, List.map_cons, List.map_map, place_zero]
  simp only [contents, pop, hn, Nat.succ_eq_add_one, Nat.add_sub_cancel, place_add_one]
  rfl

/-- Writing and letting go at the same time both take effect on the queue, in a full buffer as
well. -/
theorem contents_shift (h : b.Valid) (hpos : 0 < b.count) :
    (b.shift d).contents = b.pop.contents ++ [d] := by
  obtain ⟨n, hn⟩ := Nat.exists_eq_succ_of_ne_zero hpos.ne'
  have hle := h.le
  have htop : b.top = place b.bottom (n + 1) := by rw [h.top, hn]
  -- the new entry is the last one, and the others move up by one place
  simp only [contents, shift, pop, hn, Nat.succ_eq_add_one, Nat.add_sub_cancel, place_add_one,
    List.range_succ, List.map_append, List.map_singleton]
  rw [← htop, Function.update_self]
  congr 1
  apply List.map_congr_left
  intro i hi
  rw [List.mem_range] at hi
  apply Function.update_of_ne
  rw [htop]
  -- if the buffer is full its top is its bottom, which none of the others is at
  rcases Nat.eq_or_lt_of_le (show n + 1 ≤ 2 ^ w by omega) with hfull | hlt
  · rw [hfull, place_two_pow]
    exact place_ne (Nat.succ_pos i) (by omega)
  · rw [ne_eq, place_inj (by omega) hlt]
    omega

/-- The place of an entry that goes may be cleared. -/
theorem contents_clear (hle : b.count ≤ 2 ^ w) :
    { b.pop with mem := Function.update b.mem b.bottom d }.contents = b.pop.contents := by
  simp only [contents, pop]
  apply List.map_congr_left
  intro i hi
  rw [List.mem_range] at hi
  apply Function.update_of_ne
  rw [place_add_one]
  exact place_ne i.succ_pos (by omega)

/-- Writing and letting go at the same time leaves an empty queue empty, so that the entry is
lost. -/
theorem contents_shift_empty (h : b.count = 0) : (b.shift d).contents = [] :=
  contents_eq_nil.mpr h

/-- A write into a full buffer replaces the oldest entry. -/
theorem contents_overwrite (h : b.Valid) (hfull : b.count = 2 ^ w) :
    (b.overwrite d).contents = d :: b.pop.contents := by
  -- with a full buffer the top is at the bottom
  have htop : b.top = b.bottom := by rw [h.top, hfull, place_two_pow]
  have hpos : 0 < (b.overwrite d).count := by
    change 0 < b.count
    rw [hfull]
    exact Nat.two_pow_pos w
  rw [contents_pop hpos]
  congr 1
  -- the new entry comes first, and the others are at other places
  · change Function.update b.mem b.top d b.bottom = d
    rw [htop, Function.update_self]
  · simp only [contents, pop, overwrite]
    apply List.map_congr_left
    intro i hi
    rw [List.mem_range] at hi
    apply Function.update_of_ne
    rw [htop, place_add_one]
    exact place_ne (Nat.succ_pos i) (by omega)

end RingBuffer

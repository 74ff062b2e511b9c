import Mathlib.Algebra.Order.Field.Basic
import Mathlib.Data.BitVec
import Mathlib.Data.List.Chain
import Mathlib.Tactic.Linarith

/-!
# Asynchronous serial lines

A line that carries bytes as frames of a start bit, eight data bits from the least significant one
and a stop bit, and a receiver that samples it by its own clock. Nothing here names a receiver.

- `Serial.Shows`: what the line may show at a given time, changes of level being left open;
- `Serial.window`: a clock that is off by a few percent still hits the right bits of a frame;
- `Serial.cut`: text cut after each newline.
-/

namespace Serial

/-! ## Frames -/

/-- A frame: when its start bit begins, and its byte. -/
structure Frame (K : Type*) where
  start : K
  byte : BitVec 8

/-- The level of the start bit and of the eight data bits. -/
def Frame.bit {K : Type*} (f : Frame K) : ℕ → Bool
  | 0 => false
  | j + 1 => f.byte.getLsbD j

section Line

variable {K : Type*} [Field K] [LinearOrder K] [IsStrictOrderedRing K]

/-- A line with bit period `P` that carries `frames` may show `v` at time `t`. It is high for the
stop bit and between frames. Where its level changes, both are possible. -/
structure Shows (P : K) (frames : List (Frame K)) (t : K) (v : Bool) : Prop where
  bit : ∀ f ∈ frames, ∀ j < (9 : ℕ), f.start + j * P < t → t < f.start + (j + 1) * P → v = f.bit j
  high : (∀ f ∈ frames, t < f.start ∨ f.start + 9 * P < t) → v = true

/-- The stop bit of the frame is over at time `t`, ten bit times after its start. -/
def Frame.EndsBy (P : K) (f : Frame K) (t : K) : Prop := f.start + 10 * P ≤ t

/-- The frames follow each other in the order of the list, each after the end of the one before,
with any gaps. -/
def InOrder (P : K) (frames : List (Frame K)) : Prop :=
  frames.Pairwise fun f g => f.EndsBy P g.start

/-- The receiver takes a bit for `B` units of its clock, which is off by at most four percent one
way and five percent the other. -/
structure Near (B : ℕ) (P : K) : Prop where
  le : 1000 ≤ B
  slow : 96 * (B : K) ≤ 100 * P
  fast : 100 * P ≤ 105 * (B : K)

/-- The start bit that begins at `F` has been noticed at `T`. -/
structure Noticed (B : ℕ) (F : K) (T : ℕ) : Prop where
  ge : F ≤ T
  le : 100 * (T : K) ≤ 100 * F + B

variable {B T t k : ℕ} {F P : K}

/-- A sample taken soon after the middle of bit `k`, by the clock of the receiver, is one of bit
`k`. -/
theorem window (hB : Near B P) (hT : Noticed B F T) (hk : k ≤ 9) (hlo : T + B / 2 + k * B < t)
    (hhi : 100 * t ≤ 100 * (T + B / 2 + k * B) + B) :
    F + k * P < t ∧ (t : K) < F + (k + 1) * P := by
  have hhalf : (B : K) ≤ 2 * (B / 2 : ℕ) + 1 ∧ (2 * (B / 2 : ℕ) : K) ≤ B := by
    constructor <;> norm_cast <;> omega
  have hlo' : (T : K) + (B / 2 : ℕ) + k * B < t := by exact_mod_cast hlo
  have hhi' : 100 * (t : K) ≤ 100 * (T + (B / 2 : ℕ) + k * B) + B := by exact_mod_cast hhi
  have hB' : (1000 : K) ≤ B := by exact_mod_cast hB.le
  have hk0 : (0 : K) ≤ k := k.cast_nonneg
  have hk9 : (k : K) ≤ 9 := by exact_mod_cast hk
  -- the drift within the frame is at most nine times that of a bit
  have hslow : 96 * (k * (B : K)) ≤ 100 * (k * P) := by
    have := mul_le_mul_of_nonneg_left hB.slow hk0
    linarith
  have hfast : 100 * (k * P) ≤ 105 * (k * (B : K)) := by
    have := mul_le_mul_of_nonneg_left hB.fast hk0
    linarith
  have hdrift : (k : K) * B ≤ 9 * B := mul_le_mul_of_nonneg_right hk9 (by linarith)
  have hge := hT.ge
  have hle := hT.le
  have hP := hB.slow
  constructor
  · linarith
  · linarith

/-- The samples of a frame are all taken before its end. -/
theorem wait_lt (hB : Near B P) (hT : Noticed B F T) (hk : k ≤ 9) :
    ((T + B / 2 + k * B : ℕ) : K) < F + 10 * P := by
  have hhalf : (2 * (B / 2 : ℕ) : K) ≤ B := by
    norm_cast
    omega
  have hB' : (1000 : K) ≤ B := by exact_mod_cast hB.le
  have hk9 : (k : K) ≤ 9 := by exact_mod_cast hk
  have hdrift : (k : K) * B ≤ 9 * B := mul_le_mul_of_nonneg_right hk9 (by linarith)
  have hle := hT.le
  have hP := hB.slow
  push_cast
  linarith

end Line

/-! ## Lines of text -/

/-- The newline character, which ends a line of the text. -/
def newline : BitVec 8 := 0x0a

/-- Text cut after each newline: the lines, and what is behind the last of them. `rest` comes in
front. -/
def cut (rest : List (BitVec 8)) : List (BitVec 8) → List (List (BitVec 8)) × List (BitVec 8)
  | [] => ([], rest)
  | c :: cs =>
    if c = newline then ((rest ++ [c]) :: (cut [] cs).1, (cut [] cs).2) else cut (rest ++ [c]) cs

/-- One more character either ends the line under way or is added to it. -/
theorem cut_append (rest text : List (BitVec 8)) (c : BitVec 8) :
    cut rest (text ++ [c]) =
      if c = newline then ((cut rest text).1 ++ [(cut rest text).2 ++ [c]], [])
      else ((cut rest text).1, (cut rest text).2 ++ [c]) := by
  induction text generalizing rest with
  | nil => simp [cut]
  | cons d ds ih =>
    rw [List.cons_append, cut, cut, ih, ih]
    split_ifs <;> rfl

/-- The lines and the rest together are the text, in order, so that cutting loses nothing. -/
theorem cut_flatten (rest text : List (BitVec 8)) :
    (cut rest text).1.flatten ++ (cut rest text).2 = rest ++ text := by
  induction text generalizing rest with
  | nil => simp [cut]
  | cons c cs ih =>
    rw [cut]
    split_ifs with hc
    · have := ih []
      rw [List.nil_append] at this
      simp [List.append_assoc, this]
    · rw [ih]
      simp

/-- More text at the end leaves the lines that there are as they are. -/
theorem cut_prefix (rest text more : List (BitVec 8)) :
    (cut rest text).1 <+: (cut rest (text ++ more)).1 := by
  induction text generalizing rest with
  | nil => exact List.nil_prefix
  | cons c text ih =>
    rw [List.cons_append, cut, cut]
    split_ifs
    · exact List.cons_prefix_cons.mpr ⟨rfl, ih []⟩
    · exact ih (rest ++ [c])

/-- A text that goes on with the rest of a line and a newline has this line first, and then the
lines of what follows. -/
theorem cut_line {l : List (BitVec 8)} (hl : newline ∉ l) (rest text : List (BitVec 8)) :
    (cut rest (l ++ newline :: text)).1 = (rest ++ l ++ [newline]) :: (cut [] text).1 := by
  induction l generalizing rest with
  | nil => rw [List.nil_append, cut, if_pos rfl, List.append_nil]
  | cons c l ih =>
    rw [List.mem_cons, not_or] at hl
    rw [List.cons_append, cut, if_neg (Ne.symm hl.1), ih hl.2, List.append_assoc rest]
    rfl

/-- Lines that are written one behind the other are cut again. -/
theorem cut_lines {lines : List (List (BitVec 8))}
    (h : ∀ line ∈ lines, ∃ l, newline ∉ l ∧ line = l ++ [newline]) :
    (cut [] lines.flatten).1 = lines := by
  induction lines with
  | nil => rfl
  | cons line lines ih =>
    obtain ⟨l, hl, rfl⟩ := h line List.mem_cons_self
    rw [List.flatten_cons, List.append_assoc, List.singleton_append, cut_line hl,
      ih fun line hline => h line (List.mem_cons_of_mem _ hline)]
    rfl

/-- Every line that has been cut off ends in a newline. -/
theorem exists_of_mem_cut {rest text l : List (BitVec 8)} (h : l ∈ (cut rest text).1) :
    ∃ l', l = l' ++ [newline] := by
  induction text generalizing rest with
  | nil => simp [cut] at h
  | cons c cs ih =>
    rw [cut] at h
    split_ifs at h with hc
    · rcases List.mem_cons.mp h with rfl | h
      · exact ⟨rest, by rw [hc]⟩
      · exact ih h
    · exact ih h

end Serial

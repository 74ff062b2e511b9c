import Mathlib.Data.BitVec
import Mathlib.Data.List.Pairwise
import Mathlib.Tactic.Ring
import RvPipelineCore.Lib.Serial

/-!
# Frames of any format

Frames with a start bit, five to eight data bits, a parity bit or none, and a stop bit of any
length, on a line that is driven by a clock of sixteen ticks to a bit.

- `Serial.Format.bit`: the bits of a frame;
- `Serial.Format.Drives`: the level of a line in every tick;
- `Serial.Format.Spaced`: frames that leave each other room for their stop bits;
- `Serial.Format.Drives.ofTicks`: a line that is driven tick by tick, in time;
- `Serial.Format.Drives.shows`: with eight data bits and no parity it is a line of `Serial.Shows`.
-/

namespace Serial

/-- What a parity bit is made of: the parity of the data bits, which it makes odd or even, or a
fixed level. -/
inductive Parity
  | odd
  | even
  | stick (level : Bool)
  deriving DecidableEq

/-- The exclusive or of the low `n` bits of a byte, which an even parity bit repeats. -/
def xorBits (byte : BitVec 8) : ℕ → Bool
  | 0 => false
  | n + 1 => xorBits byte n ^^ byte.getLsbD n

/-- The parity bit for data bits with the exclusive or `x`. -/
def Parity.bit (x : Bool) : Parity → Bool
  | odd => !x
  | even => x
  | stick level => level

/-- A format. The length of the stop bit is counted in sixteenths of a bit. -/
structure Format where
  dataBits : ℕ
  parity : Option Parity
  stop : ℕ
  deriving DecidableEq

namespace Format

variable (fmt : Format)

/-- The number of bits in front of the stop bit: the start bit, the data bits and the parity bit if
there is one. -/
def length : ℕ :=
  match fmt.parity with
  | none => fmt.dataBits + 1
  | some _ => fmt.dataBits + 2

/-- Bit `i` of the frame of a byte; the stop bit and what follows it are high. -/
def bit (byte : BitVec 8) (i : ℕ) : Bool :=
  if i = 0 then false
  else if i ≤ fmt.dataBits then byte.getLsbD (i - 1)
  else if i = fmt.dataBits + 1 then
    match fmt.parity with
    | none => true
    | some p => p.bit (xorBits byte fmt.dataBits)
  else true

/-- The length of a frame with its stop bit, in sixteenths of a bit. -/
def ticks : ℕ := 16 * fmt.length + fmt.stop

/-- The frames follow each other, with any gaps, at `D` units of time to a sixteenth of a bit. -/
def Spaced (D : ℕ) (frames : List (Frame ℕ)) : Prop :=
  frames.Pairwise fun f g => f.start + D * fmt.ticks ≤ g.start

/-- A line that carries `frames` has the level `v` at time `t`. -/
structure Drives (D : ℕ) (frames : List (Frame ℕ)) (t : ℕ) (v : Bool) : Prop where
  bit : ∀ f ∈ frames, ∀ i < fmt.length, f.start + 16 * D * i ≤ t →
    t < f.start + 16 * D * (i + 1) → v = fmt.bit f.byte i
  high : (∀ f ∈ frames, t < f.start ∨ f.start + 16 * D * fmt.length ≤ t) → v = true

variable {fmt} {D t : ℕ} {frames rest : List (Frame ℕ)} {v : Bool} {f : Frame ℕ}

/-- Whether a line drives the frames at a time can be decided by looking at their bits. -/
instance : Decidable (fmt.Drives D frames t v) :=
  decidable_of_iff
    ((∀ f ∈ frames, ∀ i < fmt.length, f.start + 16 * D * i ≤ t →
      t < f.start + 16 * D * (i + 1) → v = fmt.bit f.byte i) ∧
    ((∀ f ∈ frames, t < f.start ∨ f.start + 16 * D * fmt.length ≤ t) → v = true))
    ⟨fun h => ⟨h.1, h.2⟩, fun h => ⟨h.bit, h.high⟩⟩

/-- Frames that begin later do not matter for the level of the line yet. -/
theorem Drives.append (h : fmt.Drives D frames t v) (hrest : ∀ f ∈ rest, t < f.start) :
    fmt.Drives D (frames ++ rest) t v := by
  refine ⟨fun f hf i hi hlo hhi => ?_, fun hout => ?_⟩
  · rcases List.mem_append.mp hf with hf | hf
    · exact h.bit f hf i hi hlo hhi
    · have hlt := hrest f hf
      omega
  · exact h.high fun f hf => hout f (List.mem_append_left _ hf)

/-- The bits in front of the stop bit take no longer than the whole frame. -/
theorem length_le_ticks (fmt : Format) (D : ℕ) : 16 * D * fmt.length ≤ D * fmt.ticks := by
  rw [ticks, Nat.mul_add, ← Nat.mul_assoc, Nat.mul_comm D 16]
  exact Nat.le_add_right _ _

/-- Behind the bits of all frames the line is high. -/
theorem drives_high (hv : v = true)
    (hold : ∀ f ∈ frames, f.start + 16 * D * fmt.length ≤ t) : fmt.Drives D frames t v := by
  refine ⟨fun f hf i hi hlo hhi => ?_, fun _ => hv⟩
  have hle := hold f hf
  have hmul : 16 * D * (i + 1) ≤ 16 * D * fmt.length := Nat.mul_le_mul_left _ hi
  omega

/-- Within the last frame the line drives the frames if it has the bit of this frame. -/
theorem drives_last {past : List (Frame ℕ)} {i : ℕ}
    (hold : ∀ g ∈ past, g.start + D * fmt.ticks ≤ f.start)
    (hi : i < fmt.length) (hlo : f.start + 16 * D * i ≤ t) (hhi : t < f.start + 16 * D * (i + 1))
    (hv : v = fmt.bit f.byte i) : fmt.Drives D (past ++ [f]) t v := by
  refine ⟨fun g hg j hj hlo' hhi' => ?_, fun hout => ?_⟩
  · rcases List.mem_append.mp hg with hg | hg
    · have hle := hold g hg
      have hmul : 16 * D * (j + 1) ≤ 16 * D * fmt.length := Nat.mul_le_mul_left _ hj
      have hticks := length_le_ticks fmt D
      omega
    · obtain rfl := List.mem_singleton.mp hg
      -- the bits do not overlap
      rcases Nat.lt_trichotomy i j with hij | rfl | hij
      · have hmul : 16 * D * (i + 1) ≤ 16 * D * j := Nat.mul_le_mul_left _ hij
        omega
      · exact hv
      · have hmul : 16 * D * (j + 1) ≤ 16 * D * i := Nat.mul_le_mul_left _ hij
        omega
  · rcases hout f (List.mem_append_right _ (List.mem_singleton_self f)) with hlt | hge
    · omega
    · have hmul : 16 * D * (i + 1) ≤ 16 * D * fmt.length := Nat.mul_le_mul_left _ hi
      omega

/-! ## Ticks -/

/-- The ticks in front of time `u`, where a tick takes `D` units and the first one is over behind
unit `e`. -/
def ticksBefore (e D u : ℕ) : ℕ := (u - e + (D - 1)) / D

/-- A frame whose start is counted in ticks, in units of time. -/
def atTicks (e D : ℕ) (f : Frame ℕ) : Frame ℕ := ⟨e + 1 + D * (f.start - 1), f.byte⟩

/-- Before the first cycle there is no tick. -/
theorem ticksBefore_zero (e D : ℕ) : ticksBefore e D 0 = 0 := by
  rw [ticksBefore, Nat.zero_sub, Nat.zero_add]
  rcases D.eq_zero_or_pos with rfl | hD
  · exact Nat.div_zero _
  · exact Nat.div_eq_of_lt (by omega)

/-- One cycle adds a tick if the cycle is at a multiple of the divisor behind the first one. -/
theorem ticksBefore_succ (hD : 0 < D) (e u : ℕ) :
    ticksBefore e D (u + 1) = ticksBefore e D u + if e ≤ u ∧ D ∣ u - e then 1 else 0 := by
  rw [ticksBefore, ticksBefore]
  rcases Nat.lt_or_ge u e with hlt | hge
  · rw [if_neg (by omega), Nat.sub_eq_zero_of_le hlt, Nat.sub_eq_zero_of_le hlt.le, Nat.add_zero]
  · have hnum : u + 1 - e + (D - 1) = (u - e + (D - 1)) + 1 := by omega
    have hdvd : D ∣ u - e + (D - 1) + 1 ↔ D ∣ u - e := by
      rw [Nat.add_assoc, Nat.sub_add_cancel hD, Nat.dvd_add_self_right]
    rw [hnum, Nat.succ_div]
    simp only [hdvd, hge, true_and]

/-- So many ticks have been if and only if the cycle of the last of them is over. -/
theorem le_ticksBefore (hD : 0 < D) {e u m : ℕ} (hm : 0 < m) :
    m ≤ ticksBefore e D u ↔ e + 1 + D * (m - 1) ≤ u := by
  obtain ⟨m, rfl⟩ := Nat.exists_eq_add_of_lt hm
  rw [ticksBefore, Nat.le_div_iff_mul_le hD, Nat.zero_add, Nat.add_sub_cancel, Nat.mul_comm,
    Nat.mul_succ]
  omega

/-- For `n` more ticks it takes `n + 1` periods of the divisor at most. -/
theorem ticksBefore_add_le (hD : 0 < D) {e : ℕ} (he : e ≤ D) (u n : ℕ) :
    ticksBefore e D u + n ≤ ticksBefore e D (u + D * (n + 1)) := by
  rw [ticksBefore, ticksBefore, ← Nat.add_mul_div_left _ _ hD]
  refine Nat.div_le_div_right ?_
  rw [Nat.mul_succ]
  omega

/-- The time counted in units of `c` from `o` on. -/
theorem ticksBefore_div {c o e τ : ℕ} (hc : 0 < c) (hD : 0 < D) :
    ticksBefore e D ((τ - o) / c) = ticksBefore (o + c * (e + 1) - 1) (c * D) τ := by
  refine eq_of_forall_le_iff fun m => ?_
  rcases m.eq_zero_or_pos with rfl | hm
  · exact iff_of_true (Nat.zero_le _) (Nat.zero_le _)
  · have hpos : 0 < c * (e + 1) := Nat.mul_pos hc e.succ_pos
    have hmul : c * (e + 1 + D * (m - 1)) = c * (e + 1) + c * D * (m - 1) := by ring
    rw [le_ticksBefore hD hm, le_ticksBefore (Nat.mul_pos hc hD) hm, Nat.le_div_iff_mul_le hc,
      Nat.mul_comm _ c, hmul]
    omega

/-- The beginning of bit `j` of a frame in cycles is the cycle after the tick at which the bit
begins. -/
theorem atTicks_start (D e : ℕ) (hpos : 0 < f.start) (j : ℕ) :
    (atTicks e D f).start + 16 * D * j = e + 1 + D * (f.start + 16 * 1 * j - 1) := by
  have hsub : f.start + 16 * 1 * j - 1 = f.start - 1 + 16 * j := by omega
  rw [atTicks, hsub, Nat.mul_add]
  ring

/-- A line that is driven tick by tick is driven in time. -/
theorem Drives.ofTicks {e u : ℕ} (hD : 0 < D) (hpos : ∀ f ∈ frames, 0 < f.start)
    (h : fmt.Drives 1 frames (ticksBefore e D u) v) :
    fmt.Drives D (frames.map (atTicks e D)) u v := by
  have hle {f : Frame ℕ} (hf : f ∈ frames) (j : ℕ) :
      f.start + 16 * 1 * j ≤ ticksBefore e D u ↔ (atTicks e D f).start + 16 * D * j ≤ u := by
    rw [le_ticksBefore hD (Nat.add_pos_left (hpos f hf) _), atTicks_start D e (hpos f hf)]
  refine ⟨fun g hg i hi hlo hhi => ?_, fun hout => h.high fun f hf => ?_⟩
  · obtain ⟨f, hf, rfl⟩ := List.mem_map.mp hg
    have hnot := (hle hf (i + 1)).not.mpr (not_le.mpr hhi)
    exact h.bit f hf i hi ((hle hf i).mpr hlo) (not_le.mp hnot)
  · have hzero := hle hf 0
    rw [Nat.mul_zero, Nat.add_zero, Nat.mul_zero, Nat.add_zero] at hzero
    rcases hout _ (List.mem_map_of_mem hf) with hlt | hge
    · exact .inl (not_le.mp (hzero.not.mpr (not_le.mpr hlt)))
    · exact .inr ((hle hf fmt.length).mpr hge)

/-- Frames that leave each other room do so in time. -/
theorem Spaced.ofTicks (e D : ℕ) (hpos : ∀ f ∈ frames, 0 < f.start) (h : fmt.Spaced 1 frames) :
    fmt.Spaced D (frames.map (atTicks e D)) := by
  rw [Spaced, List.pairwise_map]
  refine List.Pairwise.imp_of_mem (fun {f g} hf hg hfg => ?_) h
  have hf0 := hpos f hf
  have hsub : f.start - 1 + fmt.ticks ≤ g.start - 1 := by omega
  have hmul := Nat.mul_le_mul_left D hsub
  rw [Nat.mul_add] at hmul
  change e + 1 + D * (f.start - 1) + D * fmt.ticks ≤ e + 1 + D * (g.start - 1)
  omega

/-! ## Bytes without parity -/

/-- A frame of eight data bits without parity is a frame. -/
theorem bit_eq {stop i : ℕ} (hi : i < 9) : bit ⟨8, none, stop⟩ f.byte i = f.bit i := by
  cases i with
  | zero => rfl
  | succ i =>
    have hle : i + 1 ≤ 8 := by omega
    rw [bit, if_neg (Nat.succ_ne_zero i), if_pos hle]
    rfl

section Line

variable {K : Type*} [Field K] [LinearOrder K] [IsStrictOrderedRing K] {stop : ℕ}

variable (K) in
/-- The frame with its start as an element of the field `K`. -/
def cast (f : Frame ℕ) : Frame K := ⟨f.start, f.byte⟩

omit [LinearOrder K] [IsStrictOrderedRing K] in
/-- The beginning of bit `j` of a frame, computed in the field or before. -/
theorem cast_add (f : Frame ℕ) (D j : ℕ) :
    (cast K f).start + j * (16 * D) = ((f.start + 16 * D * j : ℕ) : K) := by
  rw [cast]
  push_cast
  ring

/-- A line that drives frames of eight data bits without parity shows these frames, with a bit time
of sixteen divisors. -/
theorem Drives.shows (h : Drives ⟨8, none, stop⟩ D frames t v) :
    Shows (16 * D : K) (frames.map (cast K)) t v := by
  constructor
  -- The j-th symbol of a frame is on the line for one bit time.
  · intro g hg j hj hlo hhi
    obtain ⟨f, hf, rfl⟩ := List.mem_map.mp hg
    rw [cast_add] at hlo
    have hhi' : (t : K) < ((f.start + 16 * D * (j + 1) : ℕ) : K) := by
      rw [← cast_add]
      exact_mod_cast hhi
    rw [h.bit f hf j hj (Nat.cast_lt.mp hlo).le (Nat.cast_lt.mp hhi'), bit_eq hj]
    rfl
  -- Outside of all frames the line is idle.
  · intro hout
    refine h.high fun f hf => ?_
    rcases hout _ (List.mem_map_of_mem hf) with hlt | hgt
    · exact .inl (Nat.cast_lt.mp hlt)
    · have hgt' : ((f.start + 16 * D * 9 : ℕ) : K) < t := by
        rw [← cast_add]
        exact_mod_cast hgt
      exact .inr (Nat.cast_lt.mp hgt').le

/-- A frame of eight data bits without parity has 144 sixteenths in front of its stop bit. -/
theorem ticks_eight (stop : ℕ) : ticks ⟨8, none, stop⟩ = 144 + stop := rfl

/-- Frames that leave each other room are in order, provided that the stop bit has its full
length. -/
theorem Spaced.inOrder (hstop : 16 ≤ stop) (h : Spaced ⟨8, none, stop⟩ D frames) :
    InOrder (16 * D : K) (frames.map (cast K)) := by
  rw [InOrder, List.pairwise_map]
  refine h.imp fun {f g} hfg => ?_
  have hticks : 16 * D * 10 ≤ D * ticks ⟨8, none, stop⟩ := by
    rw [Nat.mul_comm 16 D, Nat.mul_assoc]
    exact Nat.mul_le_mul_left D (by rw [ticks_eight]; omega)
  have hle : ((f.start + 16 * D * 10 : ℕ) : K) ≤ g.start := by
    exact_mod_cast (Nat.add_le_add_left hticks _).trans hfg
  rw [← cast_add, Nat.cast_ofNat] at hle
  exact hle

end Line

end Format

end Serial

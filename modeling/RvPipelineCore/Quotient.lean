import RvPipelineCore.Divide
import RvPipelineCore.Lib.Division

/-!
# What the divider computes

The divider follows `ShiftSubtract.Underway` on the absolute values of the operands that it samples
in the cycle of the rising edge.

- `Divider.Dividing`: the registers with some of the steps left;
- `Divider.Dividing.divResult`: the result of the division is there when it completes;
- `Divider.Started.divides`: a whole division, from the rising edge to the result.
-/

namespace RvPipelineCore

/-- The operation of a division. Like the source, it takes every other `funct3` for a `remu`. -/
def divOp (funct3 : BitVec 3) : Rv32.DivOp :=
  if funct3 = 0b100 then .div
  else if funct3 = 0b101 then .divu
  else if funct3 = 0b110 then .rem
  else .remu

/-- The operation that `div` performs for a `funct3` is the one that the instruction set gives to
it. -/
theorem divOp_of_decodeDiv {f : BitVec 3} {o : Rv32.DivOp} (h : Rv32.decodeDiv f = some o) :
    divOp f = o := by
  unfold Rv32.decodeDiv at h
  unfold divOp
  split_ifs at h ⊢ <;> exact Option.some.inj h

/-- The operands of a signed operation are divided as absolute values. -/
theorem magnitude_divOp (f : BitVec 3) (a : BitVec 32) : (divOp f).magnitude a =
    if a.getLsbD 31 = true ∧ (f = 0b100 ∨ f = 0b110) then 0 - a else a := by
  have hs : (divOp f).signed = decide (f = 0b100 ∨ f = 0b110) := by
    revert f
    decide
  rw [Rv32.DivOp.magnitude, hs, BitVec.msb_eq_getLsbD_last]
  simp [and_comm]

/-- `invert_result`: the result of an operation is negated for a signed quotient with operands of
different signs, and for a signed remainder of a negative dividend. -/
theorem negates_divOp (f : BitVec 3) (a b : BitVec 32) : (divOp f).negates a b =
    decide ((f = 0b100 ∧ a.getLsbD 31 ≠ b.getLsbD 31 ∧ b ≠ 0) ∨
      (f = 0b110 ∧ a.getLsbD 31 = true)) := by
  unfold divOp
  split_ifs with h₁ h₂ h₃
  · subst h₁
    simp [Rv32.DivOp.negates, BitVec.msb_eq_getLsbD_last]
  · subst h₂
    simp [Rv32.DivOp.negates]
  · subst h₃
    simp [Rv32.DivOp.negates, BitVec.msb_eq_getLsbD_last]
  · rw [Rv32.DivOp.negates, eq_comm, decide_eq_false_iff_not]
    rintro (⟨h, -⟩ | ⟨h, -⟩)
    · exact h₁ h
    · exact h₃ h

/-- The result register takes the quotient for the two division codes and the remainder for the
other two. -/
theorem unsigned_divOp (f : BitVec 3) (a b : BitVec 32) : (divOp f).unsigned a b =
    if f = 0b100 ∨ f = 0b101 then (if b = 0 then .allOnes 32 else a.udiv b) else a.umod b := by
  unfold divOp
  split_ifs <;> simp_all [Rv32.DivOp.unsigned]

namespace Divider

/-- The divider works on `a` and `b`, with `n` steps of the loop left. -/
structure Dividing (d : Divider) (o : Rv32.DivOp) (a b : BitVec 32) (n : ℕ) : Prop where
  invert : d.invertResult = o.negates a b
  divisor : d.divisor = (o.magnitude b ++ 0#31) >>> (32 - n)
  loop : ShiftSubtract.Underway 32 (o.magnitude a).toNat (o.magnitude b).toNat n d.dividend.toNat
    d.quotient.toNat

variable {d : Divider} {o : Rv32.DivOp} {n : ℕ} {a b : BitVec 32}

/-- The bit of the mask with `n + 1` steps left. -/
theorem toNat_mask (hn : n < 32) : (0x80000000#32 >>> (32 - (n + 1))).toNat = 2 ^ n := by
  have h : ∀ n < 32, (0x80000000#32 >>> (32 - (n + 1))).toNat = 2 ^ n := by decide
  exact h n hn

/-- The divisor starts above all bits of the dividend, and comes down bit by bit. -/
theorem toNat_divisor (b : BitVec 32) (hn : n < 32) :
    ((b ++ 0#31) >>> (32 - (n + 1))).toNat = b.toNat * 2 ^ n := by
  have hpow : 2 ^ 31 = 2 ^ n * 2 ^ (31 - n) := by
    rw [← Nat.pow_add]
    congr 1
    omega
  rw [BitVec.toNat_ushiftRight, BitVec.toNat_append, BitVec.toNat_zero, Nat.or_zero,
    Nat.shiftLeft_eq, Nat.shiftRight_eq_div_pow, show 32 - (n + 1) = 31 - n by omega, hpow,
    ← Nat.mul_assoc, Nat.mul_div_cancel _ (Nat.two_pow_pos _)]

/-- The operands are sampled in the cycle of the rising edge. -/
theorem dividing_of_start (h : d.start = true) (a b : BitVec 32) (divStart : Bool)
    (f : BitVec 3) : (d.next false a b divStart f).Dividing (divOp f) a b 32 := by
  simp only [Divider.next, h, Bool.false_eq_true, if_false, if_true]
  refine ⟨?_, ?_, ?_⟩
  · rw [negates_divOp]
  · rw [magnitude_divOp]
    rfl
  · rw [← magnitude_divOp]
    exact .start (BitVec.isLt _)

/-- With `n + 1` steps left the shifted divisor is the magnitude of the divisor times `2 ^ n`. -/
theorem Dividing.toNat_divisor (h : d.Dividing o a b (n + 1)) (hn : n < 32) :
    d.divisor.toNat = (o.magnitude b).toNat * 2 ^ n := by
  rw [h.divisor, Divider.toNat_divisor _ hn]

/-- Where the divisor fits into the dividend, its low half is all of it. -/
theorem toNat_divisor_low (h : d.divisor ≤ d.dividend.setWidth 63) :
    (d.divisor.setWidth 32).toNat = d.divisor.toNat ∧
      d.divisor.toNat ≤ d.dividend.toNat := by
  rw [BitVec.le_def, BitVec.toNat_setWidth_of_le (by decide)] at h
  rw [BitVec.toNat_setWidth, Nat.mod_eq_of_lt (h.trans_lt (BitVec.isLt _))]
  exact ⟨rfl, h⟩

/-- One step of the loop keeps the relation between the registers and the division, with one step
less to go. -/
theorem Dividing.next (hr : d.Looping (n + 1)) (hstart : d.start = false)
    (h : d.Dividing o a b (n + 1)) (a' b' : BitVec 32) (divStart : Bool) (f : BitVec 3) :
    (d.next false a' b' divStart f).Dividing o a b n := by
  have hn : n < 32 := hr.le
  have hdiv := h.toNat_divisor hn
  -- the comparison is that of the natural numbers
  have hfit : d.divisor ≤ d.dividend.setWidth 63 ↔
      (o.magnitude b).toNat * 2 ^ n ≤ d.dividend.toNat := by
    rw [BitVec.le_def, hdiv, BitVec.toNat_setWidth_of_le (by decide)]
  simp only [Divider.next, hstart, hr.not_completed, hr.busy, Bool.false_eq_true, if_false,
    if_true]
  refine ⟨h.invert, ?_, ?_⟩
  · rw [h.divisor, Bits.zero_append_extract (n := 62), ← BitVec.shiftRight_add,
      show 32 - (n + 1) + 1 = 32 - n by omega]
  · have hstep := h.loop.step hn
    have hsub : (if d.divisor ≤ d.dividend.setWidth 63 then
        d.dividend - d.divisor.setWidth 32 else d.dividend).toNat =
          if (o.magnitude b).toNat * 2 ^ n ≤ d.dividend.toNat then
            d.dividend.toNat - (o.magnitude b).toNat * 2 ^ n else d.dividend.toNat := by
      by_cases hle : d.divisor ≤ d.dividend.setWidth 63
      · obtain ⟨hlow, hsub⟩ := toNat_divisor_low hle
        rw [if_pos hle, if_pos (hfit.mp hle), BitVec.toNat_sub_of_le, hlow, hdiv]
        rw [BitVec.le_def, hlow]
        exact hsub
      · rw [if_neg hle, if_neg (hfit.not.mp hle)]
    have hor : (if d.divisor ≤ d.dividend.setWidth 63 then d.quotient ||| d.mask
        else d.quotient).toNat = if (o.magnitude b).toNat * 2 ^ n ≤ d.dividend.toNat then
          d.quotient.toNat ||| 2 ^ n else d.quotient.toNat := by
      by_cases hle : d.divisor ≤ d.dividend.setWidth 63
      · rw [if_pos hle, if_pos (hfit.mp hle), BitVec.toNat_or, hr.mask, toNat_mask hn]
      · rw [if_neg hle, if_neg (hfit.not.mp hle)]
    rw [hsub, hor]
    exact hstep

/-- The cycle of completion puts the sign back, so that the result register holds the result of the
operation. -/
theorem Dividing.divResult {f : BitVec 3} (hr : d.Looping 0) (hstart : d.start = false)
    (h : d.Dividing (divOp f) a b 0) (a' b' : BitVec 32) (divStart : Bool) :
    (d.next false a' b' divStart f).divResult = (divOp f).eval a b := by
  obtain ⟨hrem, hquo⟩ := h.loop.words
  have hres : (if f = 0b100 ∨ f = 0b101 then d.quotient else d.dividend) =
      (divOp f).unsigned ((divOp f).magnitude a) ((divOp f).magnitude b) := by
    rw [unsigned_divOp, hrem, hquo]
  rw [Rv32.DivOp.eval_eq, ← hres, ← h.invert]
  simp only [Divider.next, hstart, hr.completed, Bool.false_eq_true, if_false, if_true]
  split_ifs <;> simp

/-! ## A whole division -/

/-- The inputs of `div` in one cycle: its reset, its operands, the start line and the kind of the
division. -/
structure Ports where
  reset : Bool
  a : BitVec 32
  b : BitVec 32
  divStart : Bool
  funct3 : BitVec 3

/-- The divider after `t` clock edges with the given inputs. -/
def after (d : Divider) (i : ℕ → Ports) : ℕ → Divider
  | 0 => d
  | t + 1 => (after d i t).next (i t).reset (i t).a (i t).b (i t).divStart (i t).funct3

/-- `div_start` rises in cycle 0 at an idle divider, and not again before the division is done.
There is no reset, and `funct3` holds from the cycle in which the operands are sampled on. -/
structure Started (d : Divider) (i : ℕ → Ports) (f : BitVec 3) : Prop where
  idle : d.divBusy = false
  low : d.detectStart.firstReg = false
  rise : (i 0).divStart = true
  once : ∀ t < 33, (i (t + 1)).divStart = true → (i t).divStart = true
  reset : ∀ t < 35, (i t).reset = false
  funct3 : ∀ t < 35, 1 ≤ t → (i t).funct3 = f

/-- The divider divides `a` by `b` in the 32 cycles from cycle 2 on, and is done in cycle 34. -/
structure Divides (d : Divider) (i : ℕ → Ports) (o : Rv32.DivOp) (a b : BitVec 32) : Prop where
  iterates : ∀ t < 34, 2 ≤ t → (d.after i t).start = false ∧ (d.after i t).divBusy = true
  completed : ∀ t < 36, (d.after i t).divCompleted (i t).reset = decide (t = 34)
  result : (d.after i 35).divResult = o.eval a b
  invariant : ∀ t < 35, 2 ≤ t → (d.after i t).dividend.toNat +
    (d.after i t).quotient.toNat * (o.magnitude b).toNat = (o.magnitude a).toNat
  no_underflow : ∀ t < 34, 2 ≤ t →
    (d.after i t).divisor ≤ (d.after i t).dividend.setWidth 63 →
      ((d.after i t).divisor.setWidth 32).toNat = (d.after i t).divisor.toNat ∧
        (d.after i t).divisor.toNat ≤ (d.after i t).dividend.toNat

namespace Started

variable {i : ℕ → Ports} {f : BitVec 3}

/-- As long as the divide is on the inputs, the edge detector samples the start line of every
cycle. -/
theorem detectStart_succ (h : d.Started i f) {t : ℕ} (ht : t < 35) :
    (d.after i (t + 1)).detectStart =
      ⟨(i t).divStart, (d.after i t).detectStart.firstReg⟩ := by
  have hnext : (d.after i (t + 1)).detectStart =
      (d.after i t).detectStart.next (i t).reset (i t).divStart := by
    simp only [after, Divider.next]
    split_ifs <;> rfl
  rw [hnext, h.reset t ht]
  rfl

/-- The rising edge is seen in cycle 1, while the divider is idle, and not again. -/
theorem start_one (h : d.Started i f) :
    (d.after i 1).start = true ∧ (d.after i 1).divBusy = false := by
  constructor
  · rw [start, h.detectStart_succ (by decide), EdgeDetector.edgeDetected, h.rise]
    simp [after, h.low]
  · have hquiet := Quiet.of_low h.idle h.low
    exact (hquiet.next_eq _ _ _ _ _).1

/-- After the first pulse of the edge detector no further start is seen while the divide is on the
inputs. -/
theorem start_later (h : d.Started i f) {t : ℕ} (ht : t < 33) :
    (d.after i (t + 2)).start = false := by
  rw [start, h.detectStart_succ (by omega), h.detectStart_succ (by omega),
    EdgeDetector.edgeDetected]
  cases hlater : (i (t + 1)).divStart with
  | false => rfl
  | true => simp [h.once t ht hlater]

/-- Step by step, the loop is running from the third cycle on and divides the operands of the second
one. -/
theorem underway (h : d.Started i f) (k : ℕ) (hk : k ≤ 32) :
    (d.after i (2 + k)).Looping (32 - k) ∧
      (d.after i (2 + k)).Dividing (divOp f) (i 1).a (i 1).b (32 - k) := by
  induction k with
  | zero =>
    have hstart := h.start_one.1
    rw [Nat.add_zero, after, h.reset 1 (by decide), h.funct3 1 (by decide) le_rfl]
    exact ⟨looping_of_start hstart _ _ _ _, dividing_of_start hstart _ _ _ _⟩
  | succ k ih =>
    obtain ⟨hloop, hdiv⟩ := ih (by omega)
    have hstart : (d.after i (2 + k)).start = false := by
      rw [Nat.add_comm]
      exact h.start_later (by omega)
    rw [show 32 - k = 32 - (k + 1) + 1 by omega] at hloop hdiv
    rw [← Nat.add_assoc, after, h.reset (2 + k) (by omega)]
    exact ⟨hloop.next hstart _ _ _ _, hdiv.next hloop hstart _ _ _ _⟩

/-- In each cycle of the loop the steps left are those that the cycle number says. -/
theorem loop (h : d.Started i f) {t : ℕ} (ht : t < 35) (h2 : 2 ≤ t) :
    (d.after i t).start = false ∧ (d.after i t).Looping (34 - t) ∧
      (d.after i t).Dividing (divOp f) (i 1).a (i 1).b (34 - t) := by
  obtain ⟨k, rfl⟩ := Nat.exists_eq_add_of_le h2
  have hk := h.underway k (by omega)
  rw [show 32 - k = 34 - (2 + k) by omega] at hk
  refine ⟨?_, hk⟩
  rw [Nat.add_comm]
  exact h.start_later (by omega)

/-- The last clock edge is one with the divide on the inputs and no reset. -/
theorem after_last (h : d.Started i f) :
    d.after i 35 = (d.after i 34).next false (i 34).a (i 34).b (i 34).divStart f := by
  rw [after, h.reset 34 (by decide), h.funct3 34 (by decide) (by decide)]

/-- Among the 36 cycles from the start on, completion shows in the one with the number 34 and in no
other. -/
theorem divCompleted_eq (h : d.Started i f) {t : ℕ} (ht : t < 36) :
    (d.after i t).divCompleted (i t).reset = decide (t = 34) := by
  rcases Nat.lt_or_ge t 2 with h2 | h2
  · -- before the loop the divider is idle
    have hbusy : (d.after i t).divBusy = false := by
      obtain rfl | rfl : t = 0 ∨ t = 1 := by omega
      · exact h.idle
      · exact h.start_one.2
    simp only [divCompleted, hbusy, Bool.false_and]
    exact (decide_eq_false (by omega)).symm
  rcases Nat.lt_or_eq_of_le (Nat.le_of_lt_succ ht) with hlt | rfl
  · obtain ⟨-, hloop, -⟩ := h.loop hlt h2
    rw [h.reset t hlt]
    rcases Nat.lt_or_eq_of_le (Nat.le_of_lt_succ hlt) with hlt' | rfl
    · rw [show 34 - t = 33 - t + 1 by omega] at hloop
      rw [hloop.not_completed]
      exact (decide_eq_false (by omega)).symm
    · exact hloop.completed
  · -- completion has cleared the busy flag
    obtain ⟨hstart, hloop, -⟩ := h.loop (t := 34) (by decide) (by decide)
    have hbusy : (d.after i 35).divBusy = false := by
      rw [h.after_last]
      simp [Divider.next, hstart, hloop.completed]
    simp [divCompleted, hbusy]

/-- A rising edge at an idle divider gives the result of the division of the operands sampled, after
32 steps. -/
theorem divides (h : d.Started i f) {o : Rv32.DivOp} (ho : Rv32.decodeDiv f = some o) :
    d.Divides i o (i 1).a (i 1).b := by
  have hop := divOp_of_decodeDiv ho
  refine ⟨fun t ht h2 => ?_, fun t ht => h.divCompleted_eq ht, ?_, fun t ht h2 => ?_,
    fun t ht h2 hle => toNat_divisor_low hle⟩
  · obtain ⟨hstart, hloop, -⟩ := h.loop (t := t) (by omega) h2
    exact ⟨hstart, hloop.busy⟩
  · obtain ⟨hstart, hloop, hdiv⟩ := h.loop (t := 34) (by decide) (by decide)
    rw [h.after_last, ← hop]
    exact hdiv.divResult hloop hstart _ _ _
  · obtain ⟨-, -, hdiv⟩ := h.loop ht h2
    rw [← hop]
    exact hdiv.loop.add_eq

/-- The signed quotient of minus seven and two is minus three, rounded towards zero, and the divider
gives it. -/
theorem divides_neg :
    Divides ⟨.cleared, false, false, 0, 0, 0, 0, 0⟩ (fun _ => ⟨false, -7, 2, true, 0b100⟩) .div
        (-7) 2 ∧
      Rv32.DivOp.div.eval (-7) 2 = -3 :=
  ⟨divides (f := 0b100) ⟨rfl, rfl, rfl, fun _ _ _ => rfl, fun _ _ => rfl, fun _ _ _ => rfl⟩ rfl,
    by decide⟩

end Started

end Divider

end RvPipelineCore

import Mathlib.Data.BitVec

/-!
# Division by shift and subtract

Long division in base two, and the divisions of the RISC-V M extension, which it computes on
absolute values. Nothing here names a processor.

- `ShiftSubtract.Underway`: the remainder and the quotient with some of the bits still to come, kept
  by `Underway.step`;
- `Rv32.DivOp.eval_eq`: a signed division is an unsigned one of the magnitudes, with the sign put
  back.
-/

namespace ShiftSubtract

/-- A division of `a` by `b` in `N` steps, of which `n` are left: the bits of the quotient from `n`
on are there, and the remainder is the one by the divisor shifted that far. Each step of a division
by zero sets its bit. -/
structure Underway (N a b n rem quo : ℕ) : Prop where
  rem_eq : rem = a % (b * 2 ^ n)
  quo_eq : quo = if b = 0 then 2 ^ N - 2 ^ n else a / (b * 2 ^ n) * 2 ^ n

variable {N a b n rem quo : ℕ}

/-- Before the first step the remainder is the dividend and the quotient is zero. -/
theorem Underway.start (ha : a < 2 ^ N) : Underway N a b N a 0 := by
  rcases Nat.eq_zero_or_pos b with rfl | hb
  · constructor <;> simp
  · have hlt : a < b * 2 ^ N := ha.trans_le (Nat.le_mul_of_pos_left _ hb)
    constructor
    · rw [Nat.mod_eq_of_lt hlt]
    · rw [if_neg hb.ne', Nat.div_eq_of_lt hlt, Nat.zero_mul]

/-- After the last step both are the ones of the division. -/
theorem Underway.done (h : Underway N a b 0 rem quo) :
    rem = a % b ∧ quo = if b = 0 then 2 ^ N - 1 else a / b := by
  simpa using And.intro h.rem_eq h.quo_eq

/-- What has been subtracted from the dividend so far is the quotient times the divisor. -/
theorem Underway.add_eq (h : Underway N a b n rem quo) : rem + quo * b = a := by
  rw [h.rem_eq, h.quo_eq]
  split_ifs with hb
  · simp [hb]
  · rw [Nat.mul_assoc, Nat.mul_comm (2 ^ n) b, Nat.mul_comm (a / _)]
    exact Nat.mod_add_div _ _

/-- The low bits of the quotient, for which the steps are still to come, are clear. -/
theorem Underway.dvd_quo (h : Underway N a b n rem quo) (hn : n ≤ N) : 2 ^ n ∣ quo := by
  rw [h.quo_eq]
  split_ifs
  · exact Nat.dvd_sub (Nat.pow_dvd_pow 2 hn) dvd_rfl
  · exact Nat.dvd_mul_left _ _

/-- Setting the next bit of the quotient adds this bit to it, since the bit is clear. -/
theorem Underway.or_eq_add (h : Underway N a b (n + 1) rem quo) (hn : n < N) :
    quo ||| 2 ^ n = quo + 2 ^ n := by
  obtain ⟨k, rfl⟩ := h.dvd_quo hn
  exact (Nat.two_pow_add_eq_or_of_lt (Nat.pow_lt_pow_right (by decide) n.lt_succ_self) k).symm

/-- One step: the shifted divisor is subtracted where it fits, and its bit of the quotient set. -/
theorem Underway.step (h : Underway N a b (n + 1) rem quo) (hn : n < N) :
    Underway N a b n (if b * 2 ^ n ≤ rem then rem - b * 2 ^ n else rem)
      (if b * 2 ^ n ≤ rem then quo ||| 2 ^ n else quo) := by
  rw [h.or_eq_add hn]
  have hdouble : b * 2 ^ (n + 1) = b * 2 ^ n * 2 := by rw [Nat.pow_succ, Nat.mul_assoc]
  rcases Nat.eq_zero_or_pos b with rfl | hb
  · -- zero always fits
    have hpow : 2 ^ (n + 1) ≤ 2 ^ N := Nat.pow_le_pow_right (by decide) hn
    rw [Nat.pow_succ] at hpow
    constructor
    · simp [h.rem_eq]
    · rw [h.quo_eq, Nat.pow_succ]
      simp only [Nat.zero_mul, Nat.zero_le, if_true]
      omega
  · -- whether it fits is the last bit of the longer quotient
    have hpos : 0 < b * 2 ^ n := Nat.mul_pos hb (Nat.two_pow_pos n)
    have hrem : rem = a % (b * 2 ^ n) + b * 2 ^ n * (a / (b * 2 ^ n) % 2) := by
      rw [h.rem_eq, hdouble, Nat.mod_mul]
    have hquo : quo = a / (b * 2 ^ n) / 2 * 2 * 2 ^ n := by
      rw [h.quo_eq, if_neg hb.ne', hdouble, ← Nat.div_div_eq_div_mul, Nat.pow_succ',
        Nat.mul_assoc]
    have hlt := Nat.mod_lt a hpos
    rcases Nat.mod_two_eq_zero_or_one (a / (b * 2 ^ n)) with hbit | hbit
    · have hfit : ¬ b * 2 ^ n ≤ rem := by
        rw [hrem, hbit]
        omega
      rw [if_neg hfit, if_neg hfit]
      constructor
      · rw [hrem, hbit, Nat.mul_zero, Nat.add_zero]
      · rw [if_neg hb.ne', hquo]
        congr 1
        omega
    · have hfit : b * 2 ^ n ≤ rem := by
        rw [hrem, hbit]
        omega
      rw [if_pos hfit, if_pos hfit]
      constructor
      · rw [hrem, hbit, Nat.mul_one, Nat.add_sub_cancel]
      · rw [if_neg hb.ne', hquo, ← Nat.succ_mul]
        congr 1
        omega

/-- On words the loop computes the unsigned division, with all bits set for a quotient by zero. -/
theorem Underway.words {w : ℕ} {a b r q : BitVec w}
    (h : Underway w a.toNat b.toNat 0 r.toNat q.toNat) :
    r = a.umod b ∧ q = if b = 0 then BitVec.allOnes w else a.udiv b := by
  obtain ⟨hr, hq⟩ := h.done
  constructor
  · apply BitVec.eq_of_toNat_eq
    rw [hr, BitVec.umod_eq, BitVec.toNat_umod]
  · apply BitVec.eq_of_toNat_eq
    rw [hq]
    by_cases hb : b = 0
    · have hzero : b.toNat = 0 := by simp [hb]
      rw [if_pos hzero, if_pos hb, BitVec.toNat_allOnes]
    · have hzero : b.toNat ≠ 0 := fun h => hb (BitVec.eq_of_toNat_eq (by simpa using h))
      rw [if_neg hzero, if_neg hb, BitVec.udiv_eq, BitVec.toNat_udiv]

end ShiftSubtract

namespace Rv32

/-- The four division instructions: quotient and remainder, each signed and unsigned. -/
inductive DivOp
  | div
  | divu
  | rem
  | remu
  deriving DecidableEq

/-- The division with this `funct3`. The other four values belong to the multiplications. -/
def decodeDiv (f : BitVec 3) : Option DivOp :=
  if f = 0b100 then some .div
  else if f = 0b101 then some .divu
  else if f = 0b110 then some .rem
  else if f = 0b111 then some .remu
  else none

namespace DivOp

variable (a b : BitVec 32)

/-- The result: a quotient by zero has all bits set, a remainder by zero is the dividend, and the
quotient that overflows is the dividend. -/
def eval : DivOp → BitVec 32
  | div => if b = 0 then .allOnes 32 else a.sdiv b
  | divu => if b = 0 then .allOnes 32 else a.udiv b
  | rem => if b = 0 then a else a.srem b
  | remu => if b = 0 then a else a.umod b

/-- The operation takes its operands as signed numbers. -/
def signed : DivOp → Bool
  | div | rem => true
  | divu | remu => false

/-- What the operation divides: the absolute values of its operands if it is signed, and the
operands themselves otherwise. -/
def magnitude (o : DivOp) : BitVec 32 := if o.signed && a.msb then -a else a

/-- Whether the result of the unsigned division changes its sign. -/
def negates : DivOp → Bool
  | div => decide (a.msb ≠ b.msb ∧ b ≠ 0)
  | rem => a.msb
  | divu | remu => false

/-- The result of the operation on unsigned numbers, with all ones as the quotient of a division by
zero and the dividend as its remainder. -/
def unsigned : DivOp → BitVec 32
  | div | divu => if b = 0 then .allOnes 32 else a.udiv b
  | rem | remu => a.umod b

/-- A signed division is an unsigned one of the magnitudes, with the sign put back. -/
theorem eval_eq (o : DivOp) : o.eval a b =
    if o.negates a b then -o.unsigned (o.magnitude a) (o.magnitude b)
    else o.unsigned (o.magnitude a) (o.magnitude b) := by
  by_cases hb : b = 0#32
  · subst hb
    cases o with
    | div | divu | remu => simp [eval, negates, unsigned, magnitude, signed]
    | rem => cases ha : a.msb <;> simp [eval, negates, unsigned, magnitude, signed, ha]
  · cases o with
    | div =>
      -- the quotient is negative when the signs differ
      simp only [eval, BitVec.sdiv_eq]
      cases ha : a.msb <;> cases hb' : b.msb <;>
        simp [negates, unsigned, magnitude, signed, ha, hb', hb]
    | divu => simp [eval, negates, unsigned, magnitude, signed]
    | rem =>
      -- the remainder has the sign of the dividend
      simp only [eval, BitVec.srem_eq]
      cases ha : a.msb <;> cases hb' : b.msb <;>
        simp [negates, unsigned, magnitude, signed, ha, hb', hb]
    | remu => simp [eval, negates, unsigned, magnitude, signed, hb]

end DivOp

end Rv32

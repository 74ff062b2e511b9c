import RvPipelineCore.Control.Decoders
import RvPipelineCore.Datapath.Arithmetic
import RvPipelineCore.Lib.Rv32

/-!
# The units compute the operations of RV32

What the arithmetic units and the decoders in front of them have to do with the operations of
`Rv32`. `alu` forms a 33-bit sum and takes every comparison from its top bits; `mul` multiplies
65-bit operands and takes a slice of the product.

- `alu_eval`, `mul_eval`, `branchCheck_holds`: the values;
- `mul_product`: the multiplier, on integers;
- `extendImm_immI` and its siblings: the immediates;
- `aluDecoder_op`, `aluDecoder_opImm`: the codes.
-/

namespace RvPipelineCore

open Rv32

/-! ## Sums and differences -/

/-- The 33-bit sum that `alu` forms for a subtraction: the first operand, the complement of the
second, and one. -/
def subSum (a b : BitVec 32) : BitVec 33 :=
  a.setWidth 33 + (~~~b).setWidth 33 + (BitVec.ofBool true).setWidth 33

/-- The subtraction sum as a number: the first operand plus what the second lacks to `2 ^ 32`. -/
theorem toNat_subSum (a b : BitVec 32) : (subSum a b).toNat = a.toNat + (2 ^ 32 - b.toNat) := by
  have ha := a.isLt
  have hb := b.isLt
  simp only [subSum, BitVec.toNat_add, BitVec.toNat_setWidth, BitVec.toNat_not,
    BitVec.toNat_ofBool, Bool.toNat_true]
  omega

/-- The lower 32 bits of the subtraction sum are the difference. -/
theorem subSum_setWidth (a b : BitVec 32) : (subSum a b).setWidth 32 = a - b := by
  apply BitVec.eq_of_toNat_eq
  rw [BitVec.toNat_setWidth, toNat_subSum, BitVec.toNat_sub, Nat.add_comm]

/-- The carry of a subtraction is the negated borrow. -/
theorem subSum_carry (a b : BitVec 32) : (subSum a b).getLsbD 32 = !a.ult b := by
  have ha := a.isLt
  have hb := b.isLt
  rw [← BitVec.msb_eq_getLsbD_last (w := 33), BitVec.msb_eq_decide, toNat_subSum,
    BitVec.ult_eq_decide, Bool.eq_iff_iff]
  simp only [decide_eq_true_eq, Bool.not_eq_true', decide_eq_false_iff_not]
  omega

/-- The negative flag of a subtraction is the sign of the difference. -/
theorem subSum_sign (a b : BitVec 32) : (subSum a b).getLsbD 31 = (a - b).msb := by
  rw [← subSum_setWidth, BitVec.msb_eq_getLsbD_last, BitVec.getLsbD_setWidth]
  rfl

/-- The sign of the difference and the overflow give the signed comparison. -/
theorem slt_eq_sign_xor_overflow (a b : BitVec 32) :
    a.slt b = xor (a - b).msb (xor a.msb (a - b).msb && xor a.msb b.msb) := by
  have ha := a.isLt
  have hb := b.isLt
  rw [BitVec.slt_eq_ult]
  cases hm : a.msb <;> cases hn : b.msb <;>
    simp [BitVec.msb_eq_decide, BitVec.ult_eq_decide, BitVec.toNat_sub] at hm hn ⊢ <;> omega

/-! ## The ALU -/

/-- The code on the control input of `alu` that stands for the operation. -/
def aluCode : AluOp → BitVec 4
  | .add => 0b0000
  | .sub => 0b0001
  | .and => 0b0010
  | .or => 0b0011
  | .xor => 0b0100
  | .slt => 0b0101
  | .sll => 0b0110
  | .srl => 0b0111
  | .sra => 0b1000
  | .sltu => 0b1001

/-- What the codes that subtract share: the sum and the flags. -/
theorem alu_sub_flags (a b : BitVec 32) {c : BitVec 4} (h0 : c.getLsbD 0 = true)
    (h1 : c.getLsbD 1 = false) :
    (alu a b c).carry = (!a.ult b) ∧ (alu a b c).negative = (a - b).msb ∧
      xor (alu a b c).negative (alu a b c).overflow = a.slt b := by
  have hsum : a.setWidth 33 + (if c.getLsbD 0 then ~~~b else b).setWidth 33 +
      (BitVec.ofBool (c.getLsbD 0)).setWidth 33 = subSum a b := by
    rw [h0, if_pos rfl, subSum]
  simp only [alu, hsum]
  simp only [subSum_carry, subSum_sign, h0, h1, Bool.not_false, Bool.and_true, Bool.true_and,
    Bool.xor_true, Bool.not_not]
  refine ⟨trivial, trivial, ?_⟩
  rw [slt_eq_sign_xor_overflow]
  rfl

/-- With the code of an operation `alu` computes this operation on all operands. -/
theorem alu_eval (o : AluOp) (a b : BitVec 32) : (alu a b (aluCode o)).result = o.eval a b := by
  -- the shifts take the low five bits of the second operand
  have hshift : (b.extractLsb' 0 5).toNat = b.toNat % 32 := by
    rw [BitVec.extractLsb'_toNat, Nat.shiftRight_zero]
  cases o with
  | add => exact alu_add a b
  | sub =>
    change (subSum a b).setWidth 32 = a - b
    exact subSum_setWidth a b
  | sll =>
    change a <<< (b.extractLsb' 0 5).toNat = _
    rw [hshift, AluOp.eval]
  | slt =>
    obtain ⟨-, -, h⟩ := alu_sub_flags a b (c := 0b0101) rfl rfl
    change (BitVec.ofBool (xor (alu a b 0b0101).negative (alu a b 0b0101).overflow)).setWidth 32 = _
    rw [h, AluOp.eval]
    cases a.slt b <;> rfl
  | sltu =>
    obtain ⟨h, -, -⟩ := alu_sub_flags a b (c := 0b1001) rfl rfl
    change (BitVec.ofBool (!(alu a b 0b1001).carry)).setWidth 32 = _
    rw [h, Bool.not_not, AluOp.eval]
    cases a.ult b <;> rfl
  | xor => rfl
  | srl =>
    change a >>> (b.extractLsb' 0 5).toNat = _
    rw [hshift, AluOp.eval]
  | sra =>
    change a.sshiftRight (b.extractLsb' 0 5).toNat = _
    rw [hshift, AluOp.eval]
  | or => rfl
  | and => rfl

/-- The zero flag of a subtraction says whether the two operands are equal. -/
theorem alu_sub_zero (a b : BitVec 32) : (alu a b 0b0001).zero = (a == b) := by
  have hres : (alu a b 0b0001).result = a - b := alu_eval .sub a b
  change ((alu a b 0b0001).result == 0) = (a == b)
  rw [hres, Bool.eq_iff_iff, beq_iff_eq, beq_iff_eq]
  refine ⟨fun h => ?_, fun h => ?_⟩
  · exact sub_eq_zero.mp h
  · rw [h, sub_self]

/-- The comparisons of `branch_check` are those of the branches. -/
theorem branchCheck_holds {f : BitVec 3} {c : Cond} (h : decodeCond f = some c) (a b : BitVec 32)
    {zero negative overflow carry : Bool} (hz : zero = (a == b))
    (hs : xor negative overflow = a.slt b) (hc : carry = !a.ult b) :
    branchCheck true f zero negative overflow carry = c.holds a b := by
  subst hz hc
  unfold decodeCond at h
  split_ifs at h with h₀ h₁ h₂ h₃ h₄ h₅ <;> obtain rfl := Option.some.inj h <;>
    simp only [branchCheck, Cond.holds, bne, hs, h₀, if_true, Bool.not_not]
  all_goals simp_all

/-- The flags of a subtraction decide every branch as its condition says, for all operands. -/
theorem branchCheck_alu {f : BitVec 3} {c : Cond} (h : decodeCond f = some c) (a b : BitVec 32) :
    branchCheck true f (alu a b 0b0001).zero (alu a b 0b0001).negative (alu a b 0b0001).overflow
      (alu a b 0b0001).carry = c.holds a b := by
  obtain ⟨hcarry, -, hslt⟩ := alu_sub_flags a b (c := 0b0001) rfl rfl
  exact branchCheck_holds h a b (alu_sub_zero a b) hslt hcarry

/-! ## The multiplier -/

/-- The lower word of the product register of `mul` is the product cut to 32 bits. -/
theorem extract_low (v : BitVec 130) : v.extractLsb' 0 32 = v.setWidth 32 := by
  ext i hi
  simp

/-- The second word of the product register of `mul` is the upper half of the product cut to 64
bits. -/
theorem extract_high (v : BitVec 130) :
    v.extractLsb' 32 32 = (v.setWidth 64).extractLsb' 32 32 := by
  ext i hi
  simp
  omega

/-- An extended operand, seen through its low 64 bits. -/
theorem operand_signExtend (a : BitVec 32) :
    ((BitVec.fill 33 (a.getLsbD 31) ++ a).setWidth 130).setWidth 64 = a.signExtend 64 := by
  rw [show a.getLsbD 31 = a.msb from (BitVec.msb_eq_getLsbD_last a).symm,
    Bits.fill_append_signExtend, BitVec.setWidth_setWidth_of_le _ (by decide)]
  ext i hi
  rw [BitVec.getElem_setWidth, BitVec.getLsbD_signExtend, BitVec.getElem_signExtend]
  split_ifs with h
  · simp [show i < 65 by omega, h]
  · simp [show i < 65 by omega]

/-- An operand that `mul` widens with zeros is, modulo `2 ^ 64`, the unsigned operand. -/
theorem operand_setWidth (a : BitVec 32) :
    ((BitVec.fill 33 false ++ a).setWidth 130).setWidth 64 = a.setWidth 64 := by
  rw [Bits.fill_append_setWidth, BitVec.setWidth_setWidth_of_le _ (by decide),
    BitVec.setWidth_setWidth_of_le _ (by decide)]

/-- The high half of the product, through 64 bits. -/
theorem mul_high (u v : BitVec 65) :
    (u.setWidth 130 * v.setWidth 130).extractLsb' 32 32 =
      ((u.setWidth 130).setWidth 64 * (v.setWidth 130).setWidth 64).extractLsb' 32 32 := by
  rw [extract_high, BitVec.setWidth_mul _ _ (by decide)]

/-- `mul` computes the multiplication that its `funct3` names, for all operands. -/
theorem mul_eval {f : BitVec 3} {m : MulOp} (h : decodeMul f = some m) (a b : BitVec 32) :
    mul a b f = m.eval a b := by
  -- the 33-bit extensions of the source do for all three high halves
  unfold decodeMul at h
  split_ifs at h with h₀ h₁ h₂ h₃ <;> obtain rfl := Option.some.inj h <;> subst f
  · change ((BitVec.fill 33 false ++ a).setWidth 130 *
      (BitVec.fill 33 false ++ b).setWidth 130).extractLsb' 0 32 = a * b
    rw [extract_low, BitVec.setWidth_mul _ _ (by decide), Bits.fill_append_setWidth,
      Bits.fill_append_setWidth]
    simp
  · change ((BitVec.fill 33 (a.getLsbD 31) ++ a).setWidth 130 *
      (BitVec.fill 33 (b.getLsbD 31) ++ b).setWidth 130).extractLsb' 32 32 = _
    rw [mul_high, operand_signExtend, operand_signExtend, MulOp.eval]
  · change ((BitVec.fill 33 (a.getLsbD 31) ++ a).setWidth 130 *
      (BitVec.fill 33 false ++ b).setWidth 130).extractLsb' 32 32 = _
    rw [mul_high, operand_signExtend, operand_setWidth, MulOp.eval]
  · change ((BitVec.fill 33 false ++ a).setWidth 130 *
      (BitVec.fill 33 false ++ b).setWidth 130).extractLsb' 32 32 = _
    rw [mul_high, operand_setWidth, operand_setWidth, MulOp.eval]

/-- Bits 63 to 32 of an integer are the integer divided by `2 ^ 32`, rounded down, modulo `2 ^
32`. -/
theorem extract_high_ofInt (p : ℤ) :
    (BitVec.ofInt 64 p).extractLsb' 32 32 = BitVec.ofInt 32 (p / 2 ^ 32) := by
  apply BitVec.eq_of_toNat_eq
  rw [BitVec.extractLsb'_toNat, BitVec.toNat_ofInt, BitVec.toNat_ofInt, Nat.shiftRight_eq_div_pow]
  omega

/-- The sign extension of a word is the integer that the word stands for, modulo `2 ^ 64`. -/
theorem signExtend_eq_ofInt (a : BitVec 32) : a.signExtend 64 = BitVec.ofInt 64 a.toInt := rfl

/-- The zero extension of a word is the number that the word stands for, modulo `2 ^ 64`. -/
theorem setWidth_eq_ofInt (a : BitVec 32) : a.setWidth 64 = BitVec.ofInt 64 a.toNat := by
  rw [BitVec.ofInt_natCast, BitVec.ofNat_toNat]

/-- The multiplier, on integers: the low half of the product for `mul`, whatever the signs, and the
bits above it for the three others. -/
theorem mul_product (a b : BitVec 32) :
    (mul a b 0b000 = BitVec.ofInt 32 (a.toInt * b.toInt) ∧
        mul a b 0b000 = BitVec.ofInt 32 (a.toNat * b.toNat)) ∧
      mul a b 0b001 = BitVec.ofInt 32 (a.toInt * b.toInt / 2 ^ 32) ∧
      mul a b 0b010 = BitVec.ofInt 32 (a.toInt * b.toNat / 2 ^ 32) ∧
      mul a b 0b011 = BitVec.ofInt 32 (a.toNat * b.toNat / 2 ^ 32) := by
  -- the low halves of the products with and without signs are the same
  refine ⟨⟨?_, ?_⟩, ?_, ?_, ?_⟩
  · rw [mul_eval (m := .mul) rfl, MulOp.eval, BitVec.ofInt_mul, BitVec.ofInt_toInt,
      BitVec.ofInt_toInt]
  · rw [mul_eval (m := .mul) rfl, MulOp.eval, BitVec.ofInt_mul, BitVec.ofInt_natCast,
      BitVec.ofInt_natCast, BitVec.ofNat_toNat, BitVec.ofNat_toNat, BitVec.setWidth_eq,
      BitVec.setWidth_eq]
  · rw [mul_eval (m := .mulh) rfl, MulOp.eval, signExtend_eq_ofInt, signExtend_eq_ofInt,
      ← BitVec.ofInt_mul, extract_high_ofInt]
  · rw [mul_eval (m := .mulhsu) rfl, MulOp.eval, signExtend_eq_ofInt, setWidth_eq_ofInt,
      ← BitVec.ofInt_mul, extract_high_ofInt]
  · rw [mul_eval (m := .mulhu) rfl, MulOp.eval, setWidth_eq_ofInt, setWidth_eq_ofInt,
      ← BitVec.ofInt_mul, extract_high_ofInt]

/-! ## Immediates -/

/-- The code `000` of `extend_imm` gives the immediate of the I format. -/
theorem extendImm_immI (w : BitVec 32) : extendImm w 0b000 = immI w := by
  have h : w.getLsbD 31 = (w.extractLsb' 20 12).msb := by simp [BitVec.msb_eq_getLsbD_last]
  rw [extendImm, if_pos rfl, h, immI]
  exact Bits.fill_append_signExtend 20 _

/-- The code `001` of `extend_imm` gives the immediate of the S format. -/
theorem extendImm_immS (w : BitVec 32) : extendImm w 0b001 = immS w := by
  have h : w.getLsbD 31 = (w.extractLsb' 25 7).msb := by simp [BitVec.msb_eq_getLsbD_last]
  refine Eq.trans ?_ (Bits.signExtend_append 27 (w.extractLsb' 25 7) (w.extractLsb' 7 5)
    (by decide)).symm
  rw [← Bits.fill_append_signExtend 20, ← h]
  rfl

/-- The code `010` of `extend_imm` gives the immediate of the B format. -/
theorem extendImm_immB (w : BitVec 32) : extendImm w 0b010 = immB w := by
  refine Eq.trans ?_ (Bits.signExtend_append₄ 20 (w.extractLsb' 31 1) (w.extractLsb' 7 1)
    (w.extractLsb' 25 6) (w.extractLsb' 8 4) 0#1 (by decide)).symm
  rw [Bits.signExtend_bit]
  rfl

/-- The code `011` of `extend_imm` gives the immediate of the J format. -/
theorem extendImm_immJ (w : BitVec 32) : extendImm w 0b011 = immJ w := by
  refine Eq.trans ?_ (Bits.signExtend_append₄ 12 (w.extractLsb' 31 1) (w.extractLsb' 12 8)
    (w.extractLsb' 20 1) (w.extractLsb' 21 10) 0#1 (by decide)).symm
  rw [Bits.signExtend_bit]
  rfl

/-- The code `100` of `extend_imm` gives the immediate of the U format. -/
theorem extendImm_immU (w : BitVec 32) : extendImm w 0b100 = immU w := rfl

/-- The target multiplexer of the core clears the low bit of the target of a `jalr`, as the
instruction set does. -/
theorem jalr_target (v : BitVec 32) : v.extractLsb' 1 31 ++ 0#1 = v &&& ~~~1#32 := by
  ext i hi
  rw [BitVec.getElem_append]
  split_ifs with h
  · obtain rfl : i = 0 := by omega
    simp
  · rw [BitVec.getElem_and, BitVec.getElem_not, BitVec.getElem_one, BitVec.getElem_extractLsb',
      show 1 + (i - 1) = i by omega, decide_eq_false (by omega), Bool.not_false, Bool.and_true]
    exact BitVec.getLsbD_eq_getElem hi

/-! ## Codes -/

/-- For an instruction on an immediate `alu_decoder` gives the code of the operation that the word
encodes. -/
theorem aluDecoder_opImm {f : BitVec 3} {f7 : BitVec 7} {o : AluOp}
    (h : decodeOpImm f f7 = some o) :
    aluDecoder false f (f7.getLsbD 5) 0b10 = aluCode o := by
  unfold decodeOpImm at h
  split_ifs at h <;> obtain rfl := Option.some.inj h <;> simp_all [aluDecoder, aluCode]

/-- For an instruction on two registers `alu_decoder` gives the code of the operation, and bit 0 of
`funct7` is clear. -/
theorem aluDecoder_op {f : BitVec 3} {f7 : BitVec 7} {o : AluOp}
    (h : decodeOp f f7 = some (.op o)) :
    aluDecoder true f (f7.getLsbD 5) 0b10 = aluCode o ∧ f7.getLsbD 0 = false := by
  unfold decodeOp at h
  -- `funct7` is zero, that of `sub` and `sra`, or that of a multiplication
  split_ifs at h with h₀ h₁ h₂ h₃ h₄
  · obtain rfl := Op.op.inj (Option.some.inj h)
    subst h₀
    refine ⟨?_, rfl⟩
    unfold baseOp
    split_ifs <;> simp_all [aluDecoder, aluCode]
  · obtain rfl := Op.op.inj (Option.some.inj h)
    subst h₁ h₂
    exact ⟨rfl, rfl⟩
  · obtain rfl := Op.op.inj (Option.some.inj h)
    subst h₁ h₃
    exact ⟨rfl, rfl⟩
  · obtain ⟨m, -, hm⟩ := Option.map_eq_some_iff.mp h
    exact Op.noConfusion hm

/-- A register instruction that is decoded as a multiplication has the `funct3` of this
multiplication and bit 0 of `funct7` set. -/
theorem decodeOp_mul {f : BitVec 3} {f7 : BitVec 7} {m : MulOp}
    (h : decodeOp f f7 = some (.mul m)) : decodeMul f = some m ∧ f7.getLsbD 0 = true := by
  unfold decodeOp at h
  split_ifs at h with h₀ h₁ h₂ h₃ h₄
  · exact Op.noConfusion (Option.some.inj h)
  · exact Op.noConfusion (Option.some.inj h)
  · exact Op.noConfusion (Option.some.inj h)
  · obtain ⟨m', hm, heq⟩ := Option.map_eq_some_iff.mp h
    obtain rfl := Op.mul.inj heq
    subst h₄
    exact ⟨hm, rfl⟩

end RvPipelineCore

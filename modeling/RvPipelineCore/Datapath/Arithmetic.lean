import RvPipelineCore.Common
import RvPipelineCore.Lib.Bits

/-!
# The arithmetic units

`adder`, `alu`, `mul` and `extend_imm` of `rtl/core/datapath`.
-/

namespace RvPipelineCore

/-- `adder`: the sum of two words without its carry, used for the next PC and for the targets of
branches. -/
def adder (a b : BitVec 32) : BitVec 32 := a + b

/-- The outputs of `alu`: the result and the four flags, of which the branches use those of a
subtraction. -/
structure AluOut where
  result : BitVec 32
  zero : Bool
  negative : Bool
  carry : Bool
  overflow : Bool

/-- `alu`. The source leaves the result of the codes `1010` to `1111` undefined; `alu_decoder`
emits none of them. -/
def alu (a b : BitVec 32) (alucontrol : BitVec 4) : AluOut :=
  -- One adder for both: a subtraction adds the complement with a carry in.
  let bvar := if alucontrol.getLsbD 0 then ~~~b else b
  let sum : BitVec 33 :=
    a.setWidth 33 + bvar.setWidth 33 + (BitVec.ofBool (alucontrol.getLsbD 0)).setWidth 33
  let carry := sum.getLsbD 32 && !alucontrol.getLsbD 1
  let overflow := !alucontrol.getLsbD 1 && xor (a.getLsbD 31) (sum.getLsbD 31) &&
    xor (!(xor (a.getLsbD 31) (b.getLsbD 31))) (alucontrol.getLsbD 0)
  let slt := xor (sum.getLsbD 31) overflow
  let sltu := !carry
  let result : BitVec 32 :=
    if alucontrol = 0b0000 then sum.setWidth 32
    else if alucontrol = 0b0001 then sum.setWidth 32
    else if alucontrol = 0b0010 then a &&& b
    else if alucontrol = 0b0011 then a ||| b
    else if alucontrol = 0b0100 then a ^^^ b
    else if alucontrol = 0b0101 then (BitVec.ofBool slt).setWidth 32
    else if alucontrol = 0b0110 then a <<< (b.extractLsb' 0 5).toNat
    else if alucontrol = 0b0111 then a >>> (b.extractLsb' 0 5).toNat
    else if alucontrol = 0b1000 then a.sshiftRight (b.extractLsb' 0 5).toNat
    else if alucontrol = 0b1001 then (BitVec.ofBool sltu).setWidth 32
    else 0
  { result, zero := result == 0, negative := sum.getLsbD 31, carry, overflow }

/-- The operation code `0000` adds, which gives the address of a load or a store. -/
@[simp] theorem alu_add (a b : BitVec 32) : (alu a b 0b0000).result = a + b := by
  simp [alu, BitVec.setWidth_add]

/-- `mul`: the operands are sign-extended to 65 bits where `funct3` reads them as signed, and a
slice of the unsigned 130-bit product is taken. -/
def mul (a b : BitVec 32) (funct3 : BitVec 3) : BitVec 32 :=
  let signBitA := if funct3 = 0b001 ∨ funct3 = 0b010 then a.getLsbD 31 else false
  let operandA : BitVec 65 := BitVec.fill 33 signBitA ++ a
  let signBitB := if funct3 = 0b001 then b.getLsbD 31 else false
  let operandB : BitVec 65 := BitVec.fill 33 signBitB ++ b
  let result : BitVec 130 := operandA.setWidth 130 * operandB.setWidth 130
  if funct3 = 0b000 then result.extractLsb' 0 32 else result.extractLsb' 32 32

/-- `extend_imm`: the 32-bit immediate of an instruction for the format that `type_of_imm` names (I,
S, B, J, U, or the zero-extended field of the CSR instructions). -/
def extendImm (instr : BitVec 32) (typeOfImm : BitVec 3) : BitVec 32 :=
  if typeOfImm = 0b000 then
    BitVec.fill 20 (instr.getLsbD 31) ++ instr.extractLsb' 20 12
  else if typeOfImm = 0b001 then
    BitVec.fill 20 (instr.getLsbD 31) ++ instr.extractLsb' 25 7 ++ instr.extractLsb' 7 5
  else if typeOfImm = 0b010 then
    BitVec.fill 20 (instr.getLsbD 31) ++ instr.extractLsb' 7 1 ++ instr.extractLsb' 25 6 ++
      instr.extractLsb' 8 4 ++ 0#1
  else if typeOfImm = 0b011 then
    BitVec.fill 12 (instr.getLsbD 31) ++ instr.extractLsb' 12 8 ++ instr.extractLsb' 20 1 ++
      instr.extractLsb' 21 10 ++ 0#1
  else if typeOfImm = 0b100 then
    instr.extractLsb' 12 20 ++ 0#12
  else if typeOfImm = 0b101 then
    0#27 ++ instr.extractLsb' 15 5
  else 0

/-- The immediates of branches and of `jal` are even, since their lowest bit is not in the word. -/
theorem extendImm_even (instr : BitVec 32) {typeOfImm : BitVec 3}
    (h : typeOfImm = 0b010 ∨ typeOfImm = 0b011) :
    (extendImm instr typeOfImm).getLsbD 0 = false := by
  rcases h with rfl | rfl
  · exact Bits.getLsbD_append_zero _
  · exact Bits.getLsbD_append_zero _

end RvPipelineCore

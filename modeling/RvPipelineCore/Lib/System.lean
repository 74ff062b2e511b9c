import RvPipelineCore.Lib.Rv32

/-!
# CSR instructions and legal words

What an RV32IM core with machine mode has beyond `Rv32.decode`, after the RISC-V specification.

- `Rv32.CsrOp`: what the CSR instructions make of the old value and their operand;
- `Rv32.Legal`: the legal words, with an equation for each opcode that looks at other fields.
-/

namespace Rv32

/-- The CSR instructions, each with its operand from a register or an immediate. -/
inductive CsrOp
  | write
  | set
  | clear
  deriving DecidableEq

/-- The value for the CSR, from its old value and the operand. -/
def CsrOp.eval (old v : BitVec 32) : CsrOp → BitVec 32
  | write => v
  | set => old ||| v
  | clear => old &&& ~~~v

/-- Bit 2 of `funct3` chooses between a register and an immediate operand. -/
def decodeCsr (f : BitVec 3) : Option CsrOp :=
  if f.extractLsb' 0 2 = 0b01 then some .write
  else if f.extractLsb' 0 2 = 0b10 then some .set
  else if f.extractLsb' 0 2 = 0b11 then some .clear
  else none

/-! ## Legal words -/

/-- The legal words of RV32IM with Zicsr, `fence.i` and `mret`: an operation of `decode`, a
division, a `fence.i`, a CSR instruction, or `ecall`, `ebreak` and `mret`, in which all is fixed. -/
def Legal (w : BitVec 32) : Prop :=
  (decode w).isSome = true ∨
  (opcode w = 0b0110011 ∧ funct7 w = 0b0000001 ∧ (funct3 w).getLsbD 2 = true) ∨
  (opcode w = 0b0001111 ∧ funct3 w = 0b001) ∨
  (opcode w = 0b1110011 ∧ (decodeCsr (funct3 w)).isSome = true) ∨
  (opcode w = 0b1110011 ∧ funct3 w = 0b000 ∧ rs1 w = 0 ∧ rd w = 0 ∧
    (w.extractLsb' 20 12 = 0x000 ∨ w.extractLsb' 20 12 = 0x001 ∨ w.extractLsb' 20 12 = 0x302))

/-- Whether a word is legal can be decided from its fields. -/
instance (w : BitVec 32) : Decidable (Legal w) := inferInstanceAs (Decidable (_ ∨ _))

section Legal

variable {w : BitVec 32}

/-- A word with the opcode of the loads is legal if and only if its `funct3` belongs to a load. -/
theorem legal_load (h : opcode w = 0b0000011) :
    Legal w ↔ (decodeLoad (funct3 w)).isSome = true := by
  simp [Legal, decode, h]

/-- A word with the opcode of the stores is legal if and only if its `funct3` belongs to a store. -/
theorem legal_store (h : opcode w = 0b0100011) :
    Legal w ↔ (decodeStore (funct3 w)).isSome = true := by
  simp [Legal, decode, h]

/-- A word with the opcode of the branches is legal if and only if its `funct3` belongs to a
condition. -/
theorem legal_branch (h : opcode w = 0b1100011) :
    Legal w ↔ (decodeCond (funct3 w)).isSome = true := by
  simp [Legal, decode, h]

/-- A word with the opcode of `jalr` is legal if and only if its `funct3` is zero. -/
theorem legal_jalr (h : opcode w = 0b1100111) : Legal w ↔ funct3 w = 0 := by
  simp [Legal, decode, h]

/-- A word with the opcode of the immediate instructions is legal if and only if its function fields
belong to an operation. -/
theorem legal_opImm (h : opcode w = 0b0010011) :
    Legal w ↔ (decodeOpImm (funct3 w) (funct7 w)).isSome = true := by
  simp [Legal, decode, h]

/-- A word with the opcode of the register instructions is legal if and only if it is decoded, or
has the fields of a division or remainder. -/
theorem legal_op (h : opcode w = 0b0110011) :
    Legal w ↔ (decodeOp (funct3 w) (funct7 w)).isSome = true ∨
      funct7 w = 1 ∧ (funct3 w).getLsbD 2 = true := by
  simp [Legal, decode, h]

/-- A word with the opcode of the fences is legal if and only if it is `fence` or `fence.i`. -/
theorem legal_miscMem (h : opcode w = 0b0001111) : Legal w ↔ funct3 w = 0 ∨ funct3 w = 1 := by
  simp [Legal, decode, h]

/-- A `SYSTEM` word is legal if and only if it is a CSR instruction, or `ecall`, `ebreak` or `mret`
with its other fields zero. -/
theorem legal_system (h : opcode w = 0b1110011) :
    Legal w ↔ (decodeCsr (funct3 w)).isSome = true ∨ funct3 w = 0 ∧ rs1 w = 0 ∧ rd w = 0 ∧
      (w.extractLsb' 20 12 = 0 ∨ w.extractLsb' 20 12 = 1 ∨ w.extractLsb' 20 12 = 0x302) := by
  simp [Legal, decode, h]

/-- For the remaining opcodes there are no fields to look at: such a word is legal if and only if it
is `lui`, `auipc` or `jal`. -/
theorem legal_other (h : opcode w ≠ 0b0000011 ∧ opcode w ≠ 0b0100011 ∧ opcode w ≠ 0b1100011 ∧
      opcode w ≠ 0b1100111 ∧ opcode w ≠ 0b0010011 ∧ opcode w ≠ 0b0110011 ∧
      opcode w ≠ 0b0001111 ∧ opcode w ≠ 0b1110011) :
    Legal w ↔ opcode w = 0b0110111 ∨ opcode w = 0b0010111 ∨ opcode w = 0b1101111 := by
  obtain ⟨h1, h2, h3, h4, h5, h6, h7, h8⟩ := h
  simp only [Legal, decode, h1, h2, h3, h4, h5, h6, h7, h8, if_false, false_and, or_false]
  by_cases hlui : opcode w = 0b0110111
  · simp [hlui]
  by_cases hauipc : opcode w = 0b0010111
  · simp [hauipc]
  by_cases hjal : opcode w = 0b1101111
  · simp [hjal]
  · rw [if_neg hlui, if_neg hauipc, if_neg hjal]
    simp only [Option.isSome_none, Bool.false_eq_true, false_iff, not_or]
    exact ⟨hlui, hauipc, hjal⟩

end Legal

end Rv32

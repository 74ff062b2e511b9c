import RvPipelineCore.Common

/-!
# The decoders

The combinational entities of `rtl/core/control`: `main_decoder`, `alu_decoder`,
`mul_div_decoder`, `branch_check` and `memory_decoder`.

Two features of the source shape `mainDecoder`. A `-` in a control pattern leaves the bit to
synthesis, so the decoder takes a `DontCare` that fills it, and every result about the core holds
for every filling. A branch of the case that raises `illegal_instruction` leaves `out_control`
unassigned, so the process is a latch there; `mainDecoder` returns `none` for it and the caller
holds the previous value.
-/

namespace RvPipelineCore

/-- `out_control` of `main_decoder`, field by field from bit 18 down to bit 0. -/
structure OutControl where
  regWrite : Bool
  immSrc : BitVec 3
  aluSrcA : Bool
  aluSrcB : Bool
  memWrite : Bool
  resultSrc : BitVec 2
  branch : Bool
  aluOp : BitVec 2
  jump : Bool
  loadInstr : Bool
  pcTargetSrc : Bool
  loadStore : Bool
  csrWrite : Bool
  mretInstr : Bool
  envCallInstr : Bool
  deriving DecidableEq

/-- The control signals with every bit low, which is what the decoder puts out for a bubble and for
`fence`. -/
instance : Zero OutControl :=
  ⟨⟨false, 0, false, false, false, 0, false, 0, false, false, false, false, false, false, false⟩⟩

/-- With every control signal low an instruction is no branch. -/
@[simp] theorem OutControl.zero_branch : (0 : OutControl).branch = false := rfl

/-- With every control signal low an instruction is no jump. -/
@[simp] theorem OutControl.zero_jump : (0 : OutControl).jump = false := rfl

/-- With every control signal low an instruction is no `mret`. -/
@[simp] theorem OutControl.zero_mretInstr : (0 : OutControl).mretInstr = false := rfl

/-- The values synthesis gives to the bits the source leaves as `-`: those of `out_control`, as a
function of the instruction word, and those of `mem_control`. -/
structure DontCare where
  outControl : BitVec 32 → OutControl
  memControl : BitVec 4

/-- The outputs of `main_decoder`: `out_control`, or `none` where the process does not assign it,
and `illegal_instruction`. -/
structure MainDecoderOut where
  outControl : Option OutControl
  illegalInstruction : Bool

section Fields

variable (instr : BitVec 32)

/-- `instr(6 downto 0)`: the opcode, from which `main_decoder` takes the format of the
instruction. -/
def opcodeOf : BitVec 7 := instr.extractLsb' 0 7

/-- `instr(14 downto 12)`: the field that selects the operation within an opcode, and the width of a
memory access. -/
def funct3Of : BitVec 3 := instr.extractLsb' 12 3

/-- `instr(19 downto 15)`: the number of the first source register, or the immediate of the CSR
instructions that have one. -/
def rs1Of : BitVec 5 := instr.extractLsb' 15 5

/-- `instr(24 downto 20)`: the number of the second source register. -/
def rs2Of : BitVec 5 := instr.extractLsb' 20 5

/-- `instr(11 downto 7)`: the number of the destination register. -/
def rdOf : BitVec 5 := instr.extractLsb' 7 5

/-- `instr(31 downto 20)`: the immediate of an I-type word, which for a `SYSTEM` word is the CSR
address or the code of `ecall`, `ebreak` and `mret`. -/
def immITypeOf : BitVec 12 := instr.extractLsb' 20 12

end Fields

/-- `main_decoder`. `x` holds the values of the `-` bits. -/
def mainDecoder (x : OutControl) (op : BitVec 7) (funct3 : BitVec 3) (rs1 rd : BitVec 5)
    (immIType : BitVec 12) (isDecodeFlushD : Bool) : MainDecoderOut :=
  -- loads
  if op = 0b0000011 then
    ⟨some ⟨true, 0b000, false, true, false, 0b01, false, 0b00, false, true, x.pcTargetSrc, true,
      false, false, false⟩, false⟩
  -- stores
  else if op = 0b0100011 then
    ⟨some ⟨false, 0b001, false, true, true, x.resultSrc, false, 0b00, false, false, x.pcTargetSrc,
      true, false, false, false⟩, false⟩
  -- R type
  else if op = 0b0110011 then
    ⟨some ⟨true, x.immSrc, false, false, false, 0b00, false, 0b10, false, false, x.pcTargetSrc,
      false, false, false, false⟩, false⟩
  -- branches
  else if op = 0b1100011 then
    ⟨some ⟨false, 0b010, false, false, false, x.resultSrc, true, 0b01, false, false, true, false,
      false, false, false⟩, false⟩
  -- I type
  else if op = 0b0010011 then
    ⟨some ⟨true, 0b000, false, true, false, 0b00, false, 0b10, false, false, x.pcTargetSrc, false,
      false, false, false⟩, false⟩
  -- jal
  else if op = 0b1101111 then
    ⟨some ⟨true, 0b011, x.aluSrcA, x.aluSrcB, false, 0b10, false, x.aluOp, true, false, true,
      false, false, false, false⟩, false⟩
  -- lui
  else if op = 0b0110111 then
    ⟨some ⟨true, 0b100, true, true, false, 0b00, false, 0b00, false, false, x.pcTargetSrc, false,
      false, false, false⟩, false⟩
  -- jalr
  else if op = 0b1100111 then
    ⟨some ⟨true, 0b000, x.aluSrcA, x.aluSrcB, false, 0b10, false, x.aluOp, true, false, false,
      false, false, false, false⟩, false⟩
  -- auipc
  else if op = 0b0010111 then
    ⟨some ⟨true, 0b100, x.aluSrcA, x.aluSrcB, false, 0b11, false, x.aluOp, false, false, true,
      false, false, false, false⟩, false⟩
  -- privilege
  else if op = 0b1110011 then
    if funct3 = 0b000 then
      if rs1 = 0 ∧ rd = 0 then
        -- mret
        if immIType = 770 then
          ⟨some ⟨false, x.immSrc, x.aluSrcA, x.aluSrcB, false, 0b00, false, x.aluOp, true, false,
            x.pcTargetSrc, false, false, true, false⟩, false⟩
        -- ecall, ebreak
        else if immIType = 0 ∨ immIType = 1 then
          ⟨some ⟨false, x.immSrc, x.aluSrcA, x.aluSrcB, false, 0b00, false, x.aluOp, false, false,
            x.pcTargetSrc, false, false, false, true⟩, false⟩
        else ⟨none, true⟩
      else ⟨none, true⟩
    -- csr
    else
      ⟨some ⟨true, 0b101, x.aluSrcA, x.aluSrcB, false, 0b00, false, x.aluOp, false, false,
        x.pcTargetSrc, false, true, false, false⟩, false⟩
  -- fence
  else if op = 0b0001111 then ⟨some 0, false⟩
  -- the zero of a flushed decode register
  else if op = 0b0000000 then ⟨some 0, isDecodeFlushD⟩
  else ⟨none, true⟩

/-- `alu_decoder`: the operation of the ALU. Loads and stores add, branches subtract, and the
remaining instructions are told apart by `funct3` and by bit 5 of `funct7`. -/
def aluDecoder (op5 : Bool) (funct3 : BitVec 3) (func7b5 : Bool) (aluOp : BitVec 2) : BitVec 4 :=
  if aluOp = 0b00 then 0b0000
  else if aluOp = 0b01 then 0b0001
  else if aluOp = 0b10 then
    -- add, sub; an immediate has no sub
    if funct3 = 0b000 then (if op5 && func7b5 then 0b0001 else 0b0000)
    else if funct3 = 0b001 then 0b0110
    else if funct3 = 0b010 then 0b0101
    else if funct3 = 0b011 then 0b1001
    else if funct3 = 0b100 then 0b0100
    -- sra, srl
    else if funct3 = 0b101 then (if func7b5 then 0b1000 else 0b0111)
    else if funct3 = 0b110 then 0b0011
    else 0b0010
  else 0b0000

/-- `mul_div_decoder`: the pair of `mul_instr` and `div_instr`. A register instruction with bit 0 of
`funct7` set is a multiplication for the lower four values of `funct3` and a division for the
others. -/
def mulDivDecoder (op : BitVec 7) (funct3 : BitVec 3) (funct7b0 : Bool) : Bool × Bool :=
  if op = 0b0110011 ∧ funct7b0 = true then
    -- mul, mulh, mulhsu, mulhu
    if funct3 = 0b000 ∨ funct3 = 0b001 ∨ funct3 = 0b010 ∨ funct3 = 0b011 then (true, false)
    else (false, true)
  else (false, false)

/-- `branch_check`: whether a conditional branch is taken, from `funct3` and the flags that `alu`
gives for the difference of the two source registers. The two values of `funct3` without a branch
are never taken. -/
def branchCheck (branch : Bool) (funct3 : BitVec 3) (zero negative overflow carry : Bool) : Bool :=
  if branch then
    -- beq, bne, blt, bltu, bge, bgeu
    if funct3 = 0b000 then zero
    else if funct3 = 0b001 then !zero
    else if funct3 = 0b100 then xor negative overflow
    else if funct3 = 0b110 then !carry
    else if funct3 = 0b101 then !(xor negative overflow)
    else if funct3 = 0b111 then carry
    else false
  else false

/-- `memory_decoder`: the byte enables of a store. `x` holds the values of the `-` bits. -/
def memoryDecoder (x : BitVec 4) (memWrite : Bool) (funct3 : BitVec 3) (readAddr : BitVec 2) :
    BitVec 4 :=
  if memWrite then
    -- sb
    if funct3 = 0b000 then
      if readAddr = 0b00 then 0b0001
      else if readAddr = 0b01 then 0b0010
      else if readAddr = 0b10 then 0b0100
      else 0b1000
    -- sh
    else if funct3 = 0b001 then (if readAddr.getLsbD 1 then 0b1100 else 0b0011)
    -- sw
    else 0b1111
  else x

end RvPipelineCore

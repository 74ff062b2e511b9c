import RvPipelineCore.Control.Decoders

/-!
# Instruction words

What `main_decoder` makes of a word: one equation for each opcode, and from them which words raise
which control signal.
-/

namespace RvPipelineCore

/-- The outputs of `main_decoder` for the word `w` when decode holds a valid word, with the
don't-care bits of the source filled by `x`. -/
def decode (x : DontCare) (w : BitVec 32) : MainDecoderOut :=
  mainDecoder (x.outControl w) (opcodeOf w) (funct3Of w) (rs1Of w) (rdOf w) (immITypeOf w) true

section Kinds

variable (w : BitVec 32)

/-- The word has the opcode of the conditional branches, whichever its `funct3` is. -/
def isBranch : Bool := opcodeOf w == 0b1100011

/-- The word is an `mret` as `main_decoder` recognises it: a `SYSTEM` word with the immediate 770
whose other three fields are zero. -/
def isMret : Bool :=
  opcodeOf w == 0b1110011 && funct3Of w == 0 && rs1Of w == 0 && rdOf w == 0 && immITypeOf w == 770

/-- The instruction with this opcode has a source operand in `rs1`: a load, a store, a branch, an
ALU or a multiply or divide instruction. -/
def usesRs1 (op : BitVec 7) : Bool :=
  op == 0b0000011 || op == 0b0100011 || op == 0b1100011 || op == 0b0110011 || op == 0b0010011

/-- The word has a register number in `rs2`, which is the case for a store, a branch and an
instruction on two registers. -/
def usesRs2 (op : BitVec 7) : Bool :=
  op == 0b0100011 || op == 0b1100011 || op == 0b0110011

/-- The word is one of the three unconditional transfers that the core resolves in execute: `jal`,
`jalr` or `mret`. -/
def isJump : Bool := opcodeOf w == 0b1101111 || opcodeOf w == 0b1100111 || isMret w

end Kinds

section Decode

variable (x : DontCare) {w : BitVec 32}

/-- The control signals of a load: it writes a register from memory and its address is the sum of
`rs1` and an I-type immediate. -/
theorem decode_load (h : opcodeOf w = 0b0000011) :
    decode x w = ⟨some ⟨true, 0b000, false, true, false, 0b01, false, 0b00, false, true,
      (x.outControl w).pcTargetSrc, true, false, false, false⟩, false⟩ := by
  simp [decode, mainDecoder, h]

/-- The control signals of a store: it writes memory, no register, and its address is the sum of
`rs1` and an S-type immediate. -/
theorem decode_store (h : opcodeOf w = 0b0100011) :
    decode x w = ⟨some ⟨false, 0b001, false, true, true, (x.outControl w).resultSrc, false, 0b00,
      false, false, (x.outControl w).pcTargetSrc, true, false, false, false⟩, false⟩ := by
  simp [decode, mainDecoder, h]

/-- The control signals of an instruction on two registers, the multiplications and divisions
included: the result of the ALU goes to a register. -/
theorem decode_rType (h : opcodeOf w = 0b0110011) :
    decode x w = ⟨some ⟨true, (x.outControl w).immSrc, false, false, false, 0b00, false, 0b10,
      false, false, (x.outControl w).pcTargetSrc, false, false, false, false⟩, false⟩ := by
  simp [decode, mainDecoder, h]

/-- The control signals of a conditional branch: it writes nothing, compares by a subtraction and
has its target relative to the PC. -/
theorem decode_branch (h : opcodeOf w = 0b1100011) :
    decode x w = ⟨some ⟨false, 0b010, false, false, false, (x.outControl w).resultSrc, true, 0b01,
      false, false, true, false, false, false, false⟩, false⟩ := by
  simp [decode, mainDecoder, h]

/-- The control signals of an instruction on a register and an immediate: the result of the ALU goes
to a register. -/
theorem decode_iType (h : opcodeOf w = 0b0010011) :
    decode x w = ⟨some ⟨true, 0b000, false, true, false, 0b00, false, 0b10, false, false,
      (x.outControl w).pcTargetSrc, false, false, false, false⟩, false⟩ := by
  simp [decode, mainDecoder, h]

/-- The control signals of `jal`: it jumps relative to the PC and writes the address of the next
instruction to a register. -/
theorem decode_jal (h : opcodeOf w = 0b1101111) :
    decode x w = ⟨some ⟨true, 0b011, (x.outControl w).aluSrcA, (x.outControl w).aluSrcB, false,
      0b10, false, (x.outControl w).aluOp, true, false, true, false, false, false, false⟩,
      false⟩ := by
  simp [decode, mainDecoder, h]

/-- The control signals of `lui`: the ALU adds the U-type immediate to zero and the sum goes to a
register. -/
theorem decode_lui (h : opcodeOf w = 0b0110111) :
    decode x w = ⟨some ⟨true, 0b100, true, true, false, 0b00, false, 0b00, false, false,
      (x.outControl w).pcTargetSrc, false, false, false, false⟩, false⟩ := by
  simp [decode, mainDecoder, h]

/-- The control signals of `jalr`: it jumps relative to `rs1` and writes the address of the next
instruction to a register. -/
theorem decode_jalr (h : opcodeOf w = 0b1100111) :
    decode x w = ⟨some ⟨true, 0b000, (x.outControl w).aluSrcA, (x.outControl w).aluSrcB, false,
      0b10, false, (x.outControl w).aluOp, true, false, false, false, false, false, false⟩,
      false⟩ := by
  simp [decode, mainDecoder, h]

/-- The control signals of `auipc`: the adder of the branch targets gives the value for the
register. -/
theorem decode_auipc (h : opcodeOf w = 0b0010111) :
    decode x w = ⟨some ⟨true, 0b100, (x.outControl w).aluSrcA, (x.outControl w).aluSrcB, false,
      0b11, false, (x.outControl w).aluOp, false, false, true, false, false, false, false⟩,
      false⟩ := by
  simp [decode, mainDecoder, h]

/-- A `fence` has all its control signals low, so it passes through the pipeline without an
effect. -/
theorem decode_fence (h : opcodeOf w = 0b0001111) : decode x w = ⟨some 0, false⟩ := by
  simp [decode, mainDecoder, h]

/-- The all-zero opcode of a bubble is illegal in a fetched word. -/
theorem decode_zero (h : opcodeOf w = 0b0000000) : decode x w = ⟨some 0, true⟩ := by
  simp [decode, mainDecoder, h]

/-- The control signals of `mret`: it is a jump that writes no register and restores the interrupt
enable in write-back. -/
theorem decode_mret (h : isMret w = true) :
    decode x w = ⟨some ⟨false, (x.outControl w).immSrc, (x.outControl w).aluSrcA,
      (x.outControl w).aluSrcB, false, 0b00, false, (x.outControl w).aluOp, true, false,
      (x.outControl w).pcTargetSrc, false, false, true, false⟩, false⟩ := by
  simp only [isMret, Bool.and_eq_true, beq_iff_eq] at h
  obtain ⟨⟨⟨⟨ho, hf⟩, hs⟩, hd⟩, hi⟩ := h
  simp [decode, mainDecoder, ho, hf, hs, hd, hi]

/-- The control signals of `ecall` and `ebreak`, which the decoder does not tell apart: an
environment call that writes nothing. -/
theorem decode_environment (ho : opcodeOf w = 0b1110011) (hf : funct3Of w = 0)
    (hr : rs1Of w = 0 ∧ rdOf w = 0) (hi : immITypeOf w = 0 ∨ immITypeOf w = 1) :
    decode x w = ⟨some ⟨false, (x.outControl w).immSrc, (x.outControl w).aluSrcA,
      (x.outControl w).aluSrcB, false, 0b00, false, (x.outControl w).aluOp, false, false,
      (x.outControl w).pcTargetSrc, false, false, false, true⟩, false⟩ := by
  rcases hi with hi | hi <;> simp [decode, mainDecoder, ho, hf, hr, hi]

/-- The control signals of the CSR instructions: they write a register and a CSR, and those with an
immediate take it from the `rs1` field. -/
theorem decode_csr (ho : opcodeOf w = 0b1110011) (hf : funct3Of w ≠ 0#3) :
    decode x w = ⟨some ⟨true, 0b101, (x.outControl w).aluSrcA, (x.outControl w).aluSrcB, false,
      0b00, false, (x.outControl w).aluOp, false, false, (x.outControl w).pcTargetSrc, false, true,
      false, false⟩, false⟩ := by
  simp [decode, mainDecoder, ho, hf]

/-- The words with the `SYSTEM` opcode that are no CSR instruction, no `ecall`, no `ebreak` and no
`mret` are illegal. -/
theorem decode_system_illegal (ho : opcodeOf w = 0b1110011) (hf : funct3Of w = 0)
    (hr : ¬ ((rs1Of w = 0#5 ∧ rdOf w = 0#5) ∧
      (immITypeOf w = 770#12 ∨ immITypeOf w = 0#12 ∨ immITypeOf w = 1#12))) :
    decode x w = ⟨none, true⟩ := by
  by_cases h : rs1Of w = 0#5 ∧ rdOf w = 0#5
  · obtain ⟨h1, h2, h3⟩ :
        immITypeOf w ≠ 770#12 ∧ immITypeOf w ≠ 0#12 ∧ immITypeOf w ≠ 1#12 := by
      simpa [h] using hr
    simp [decode, mainDecoder, ho, hf, h, h1, h2, h3]
  · simp [decode, mainDecoder, ho, hf, h]

/-- An opcode is one of the twelve that `main_decoder` lists, or different from all of them. -/
theorem opcode_cases (op : BitVec 7) :
    (op = 0b0000011 ∨ op = 0b0100011 ∨ op = 0b0110011 ∨ op = 0b1100011 ∨ op = 0b0010011 ∨
      op = 0b1101111 ∨ op = 0b0110111 ∨ op = 0b1100111 ∨ op = 0b0010111 ∨ op = 0b1110011 ∨
      op = 0b0001111 ∨ op = 0b0000000) ∨
    (op ≠ 0b0000011 ∧ op ≠ 0b0100011 ∧ op ≠ 0b0110011 ∧ op ≠ 0b1100011 ∧ op ≠ 0b0010011 ∧
      op ≠ 0b1101111 ∧ op ≠ 0b0110111 ∧ op ≠ 0b1100111 ∧ op ≠ 0b0010111 ∧ op ≠ 0b1110011 ∧
      op ≠ 0b0001111 ∧ op ≠ 0b0000000) := by
  tauto

/-- A word with none of the twelve listed opcodes is illegal, and the decoder leaves its control
signals as they were. -/
theorem decode_other (h : opcodeOf w ≠ 0b0000011 ∧ opcodeOf w ≠ 0b0100011 ∧
      opcodeOf w ≠ 0b0110011 ∧ opcodeOf w ≠ 0b1100011 ∧ opcodeOf w ≠ 0b0010011 ∧
      opcodeOf w ≠ 0b1101111 ∧ opcodeOf w ≠ 0b0110111 ∧ opcodeOf w ≠ 0b1100111 ∧
      opcodeOf w ≠ 0b0010111 ∧ opcodeOf w ≠ 0b1110011 ∧ opcodeOf w ≠ 0b0001111 ∧
      opcodeOf w ≠ 0b0000000) :
    decode x w = ⟨none, true⟩ := by
  obtain ⟨h1, h2, h3, h4, h5, h6, h7, h8, h9, h10, h11, h12⟩ := h
  rw [decode, mainDecoder, if_neg h1, if_neg h2, if_neg h3, if_neg h4, if_neg h5, if_neg h6,
    if_neg h7, if_neg h8, if_neg h9, if_neg h10, if_neg h11, if_neg h12]

/-- What the control signals of a word have in common, whatever the word: the kinds of instruction
exclude each other. -/
structure ControlOf (w : BitVec 32) (c : OutControl) : Prop where
  branch : c.branch = isBranch w
  jump : c.jump = isJump w
  mret : c.mretInstr = isMret w
  memWrite : c.memWrite = true → c.loadStore = true
  loadInstr : c.loadInstr = true → c.loadStore = true
  loadStore : c.loadStore = true → c.branch = false ∧ c.jump = false ∧ c.csrWrite = false ∧
    c.envCallInstr = false ∧ (c.regWrite = true → c.resultSrc = 0b01)
  address : c.loadStore = true → c.aluOp = 0b00
  transfer : c.branch = true ∨ c.jump = true → c.csrWrite = false ∧ c.envCallInstr = false
  env : c.envCallInstr = true → c.csrWrite = false ∧ c.mretInstr = false ∧
    (immITypeOf w = 0 ∨ immITypeOf w = 1)
  rType : opcodeOf w = 0b0110011 → c.loadStore = false ∧ c.csrWrite = false ∧ c.branch = false ∧
    c.jump = false ∧ c.envCallInstr = false

/-- A CSR access neither transfers control nor uses the data port. -/
theorem ControlOf.csrWrite {c : OutControl} (h : ControlOf w c) (hc : c.csrWrite = true) :
    c.branch = false ∧ c.jump = false ∧ c.loadStore = false := by
  refine ⟨?_, ?_, ?_⟩ <;> by_contra hcon <;> rw [Bool.not_eq_false] at hcon
  · simp [(h.transfer (.inl hcon)).1] at hc
  · simp [(h.transfer (.inr hcon)).1] at hc
  · simp [(h.loadStore hcon).2.2.1] at hc

/-- The control signals of an `mret` include those of a jump, so the fetch stage is redirected by
it. -/
theorem ControlOf.mretInstr {c : OutControl} (h : ControlOf w c) (hc : c.mretInstr = true) :
    c.jump = true := by
  rw [h.mret] at hc
  simp [h.jump, isJump, hc]

/-- A word has control signals, or it is illegal and has none. -/
theorem decode_cases (x : DontCare) (w : BitVec 32) :
    (∃ c, decode x w = ⟨some c, false⟩ ∧ ControlOf w c) ∨
      ∃ o, decode x w = ⟨o, true⟩ ∧ o.getD 0 = 0 := by
  rcases opcode_cases (opcodeOf w) with
    (ho | ho | ho | ho | ho | ho | ho | ho | ho | ho | ho | ho) | ho
  · refine .inl ⟨_, decode_load x ho, ?_⟩
    constructor <;> simp [isBranch, isJump, isMret, ho]
  · refine .inl ⟨_, decode_store x ho, ?_⟩
    constructor <;> simp [isBranch, isJump, isMret, ho]
  · refine .inl ⟨_, decode_rType x ho, ?_⟩
    constructor <;> simp [isBranch, isJump, isMret, ho]
  · refine .inl ⟨_, decode_branch x ho, ?_⟩
    constructor <;> simp [isBranch, isJump, isMret, ho]
  · refine .inl ⟨_, decode_iType x ho, ?_⟩
    constructor <;> simp [isBranch, isJump, isMret, ho]
  · refine .inl ⟨_, decode_jal x ho, ?_⟩
    constructor <;> simp [isBranch, isJump, isMret, ho]
  · refine .inl ⟨_, decode_lui x ho, ?_⟩
    constructor <;> simp [isBranch, isJump, isMret, ho]
  · refine .inl ⟨_, decode_jalr x ho, ?_⟩
    constructor <;> simp [isBranch, isJump, isMret, ho]
  · refine .inl ⟨_, decode_auipc x ho, ?_⟩
    constructor <;> simp [isBranch, isJump, isMret, ho]
  -- A SYSTEM word is mret, ecall or ebreak, a CSR access, or it is illegal.
  · by_cases hf : funct3Of w = 0#3
    · by_cases hr : (rs1Of w = 0#5 ∧ rdOf w = 0#5) ∧
          (immITypeOf w = 770#12 ∨ immITypeOf w = 0#12 ∨ immITypeOf w = 1#12)
      · obtain ⟨hr, hi | hi⟩ := hr
        · have hm : isMret w = true := by simp [isMret, ho, hf, hr, hi]
          refine .inl ⟨_, decode_mret x hm, ?_⟩
          constructor <;> simp [isBranch, isJump, hm, ho]
        · refine .inl ⟨_, decode_environment x ho hf hr hi, ?_⟩
          rcases hi with hi | hi <;> constructor <;> simp [isBranch, isJump, isMret, ho, hi]
      · exact .inr ⟨none, decode_system_illegal x ho hf hr, rfl⟩
    · refine .inl ⟨_, decode_csr x ho hf, ?_⟩
      constructor <;> simp [isBranch, isJump, isMret, ho, hf]
  · refine .inl ⟨_, decode_fence x ho, ?_⟩
    constructor <;> simp [isBranch, isJump, isMret, ho]
  · exact .inr ⟨some 0, decode_zero x ho, rfl⟩
  · exact .inr ⟨none, decode_other x ho, rfl⟩

/-- A legal word drives all its control signals, and they stand in the relation `ControlOf` to the
word. -/
theorem decode_of_legal (h : (decode x w).illegalInstruction = false) :
    ∃ c, (decode x w).outControl = some c ∧ ControlOf w c := by
  rcases decode_cases x w with ⟨c, hc, hof⟩ | ⟨o, hc, -⟩
  · exact ⟨c, by rw [hc], hof⟩
  · simp [hc] at h

/-- A conditional branch is none of the three unconditional transfers, since their opcodes
differ. -/
theorem isJump_of_isBranch (h : isBranch w = true) : isJump w = false := by
  simp only [isBranch, beq_iff_eq] at h
  simp [isJump, isMret, h]

/-- Every branch, every jump and every `mret` is legal, so a transfer of control never raises an
illegal-instruction exception. -/
theorem decode_legal_of_transfer (h : isBranch w = true ∨ isJump w = true) :
    (decode x w).illegalInstruction = false := by
  simp only [isBranch, isJump, Bool.or_eq_true, beq_iff_eq] at h
  rcases h with h | (h | h) | h
  · rw [decode_branch x h]
  · rw [decode_jal x h]
  · rw [decode_jalr x h]
  · rw [decode_mret x h]

/-- Where a word that writes a register has its result: in `alu_result`, in the loaded data, in
`pc_plus_4` or in `pc_target`. A CSR access has it in `alu_result`. -/
theorem result_of_decode {c : OutControl} (h : (decode x w).outControl = some c) :
    (c.regWrite = true → c.resultSrc = 0b00 ∨ c.loadInstr = true ∨ c.jump = true ∨
        c.resultSrc = 0b11) ∧
      (c.csrWrite = true → c.resultSrc = 0b00) := by
  -- opcode by opcode, from what the decoder drives
  rcases opcode_cases (opcodeOf w) with
    (ho | ho | ho | ho | ho | ho | ho | ho | ho | ho | ho | ho) | ho
  · rw [decode_load x ho, Option.some.injEq] at h
    simp [← h]
  · rw [decode_store x ho, Option.some.injEq] at h
    simp [← h]
  · rw [decode_rType x ho, Option.some.injEq] at h
    simp [← h]
  · rw [decode_branch x ho, Option.some.injEq] at h
    simp [← h]
  · rw [decode_iType x ho, Option.some.injEq] at h
    simp [← h]
  · rw [decode_jal x ho, Option.some.injEq] at h
    simp [← h]
  · rw [decode_lui x ho, Option.some.injEq] at h
    simp [← h]
  · rw [decode_jalr x ho, Option.some.injEq] at h
    simp [← h]
  · rw [decode_auipc x ho, Option.some.injEq] at h
    simp [← h]
  · by_cases hf : funct3Of w = 0#3
    · by_cases hr : (rs1Of w = 0#5 ∧ rdOf w = 0#5) ∧
          (immITypeOf w = 770#12 ∨ immITypeOf w = 0#12 ∨ immITypeOf w = 1#12)
      · obtain ⟨hr, hi | hi⟩ := hr
        · have hm : isMret w = true := by simp [isMret, ho, hf, hr, hi]
          rw [decode_mret x hm, Option.some.injEq] at h
          simp [← h]
        · rw [decode_environment x ho hf hr hi, Option.some.injEq] at h
          simp [← h]
      · simp [decode_system_illegal x ho hf hr] at h
    · rw [decode_csr x ho hf, Option.some.injEq] at h
      simp [← h]
  · rw [decode_fence x ho, Option.some.injEq] at h
    simp [← h]
  · rw [decode_zero x ho, Option.some.injEq] at h
    simp [← h]
  · simp [decode_other x ho] at h

end Decode

end RvPipelineCore

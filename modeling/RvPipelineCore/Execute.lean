import RvPipelineCore.Control.Words
import RvPipelineCore.Datapath.Operations
import RvPipelineCore.Step

/-!
# An instruction in execute

What the execute stage computes for a word of `Rv32` when nothing is forwarded into it, against the
effects that `Rv32` gives the word.

- `State.Executes`: execute holds a word with given register values;
- `State.Executes.nextPc_eq`: where it redirects to;
- `State.Executes.result_eq`: what it has write-back put into the register file.
-/

namespace RvPipelineCore

/-- `out_control` of the word `w` when decode holds it as a valid word behind a bubble, whose
latched signals are all low. -/
def controlOf (x : DontCare) (w : BitVec 32) : OutControl :=
  (decode x w).outControl.getD 0

/-- What `register_execute` takes from the valid word `w` of address `pc`, with `a` and `b` the
values of its source registers. -/
def executeWord (x : DontCare) (w pc a b : BitVec 32) : ExecuteReg where
  rd1 := a
  rd2 := b
  pc := pc
  rs1 := rs1Of w
  rs2 := rs2Of w
  rd := rdOf w
  immExt := extendImm w (controlOf x w).immSrc
  pcPlus4 := pc + 4
  funct3 := funct3Of w
  csrAddress := immITypeOf w
  csrWrite := (controlOf x w).csrWrite
  illegalInstruction := (decode x w).illegalInstruction
  op := opcodeOf w
  envCallInstr := (controlOf x w).envCallInstr
  validPc := true

/-- What `control_reg_e` takes from the valid word `w`. -/
def controlWordE (x : DontCare) (w : BitVec 32) : ControlRegE where
  funct3 := funct3Of w
  regWrite := (controlOf x w).regWrite
  resultSrc := (controlOf x w).resultSrc
  memWrite := (controlOf x w).memWrite
  jump := (controlOf x w).jump
  branch := (controlOf x w).branch
  aluControl := aluDecoder (w.getLsbD 5) (funct3Of w) (w.getLsbD 30) (controlOf x w).aluOp
  aluSrcA := (controlOf x w).aluSrcA
  aluSrcB := (controlOf x w).aluSrcB
  pcTargetSrc := (controlOf x w).pcTargetSrc
  loadStore := (controlOf x w).loadStore
  loadInstr := (controlOf x w).loadInstr
  mretInstr := (controlOf x w).mretInstr
  mulInstr := (mulDivDecoder (opcodeOf w) (funct3Of w) (w.getLsbD 25)).1
  divInstr := (mulDivDecoder (opcodeOf w) (funct3Of w) (w.getLsbD 25)).2

/-! ## The control signals of the operations -/

section Control

variable (x : DontCare) {w : BitVec 32} {o : Rv32.Op}

/-- A word that encodes an operation of the base set is legal for `main_decoder`. -/
theorem legal_of_encodes (ho : o.Encodes w) : (decode x w).illegalInstruction = false := by
  cases o with
  | lui => rw [decode_lui x ho.opcode]
  | auipc => rw [decode_auipc x ho.opcode]
  | jal => rw [decode_jal x ho.opcode]
  | jalr => rw [decode_jalr x ho.opcode]
  | branch c => rw [decode_branch x ho.opcode]
  | load wd u => rw [decode_load x ho.opcode]
  | store wd => rw [decode_store x ho.opcode]
  | opImm f => rw [decode_iType x ho.opcode]
  | op f => rw [decode_rType x ho.opcode]
  | mul m => rw [decode_rType x ho.opcode]
  | fence => rw [decode_fence x ho.opcode]

/-- A legal word has the control signals of its kind. -/
theorem controlOf_of_legal (h : (decode x w).illegalInstruction = false) :
    ControlOf w (controlOf x w) := by
  obtain ⟨c, hc, hof⟩ := decode_of_legal x h
  rwa [controlOf, hc]

/-- The control signals of a word are those that `main_decoder` drives for it, if it drives any. -/
theorem controlOf_eq {c : OutControl} {i : Bool} (h : decode x w = ⟨some c, i⟩) :
    controlOf x w = c := by
  rw [controlOf, h]
  rfl

/-- The opcode of a word that encodes an operation differs from every other opcode. -/
theorem opcodeOf_ne (ho : o.Encodes w) {op : BitVec 7} (h : o.opcode ≠ op) : opcodeOf w ≠ op :=
  fun hop => h (ho.opcode.symm.trans hop)

/-- Bit 5 of a word is bit 5 of its opcode, which `alu_decoder` looks at. -/
theorem opcodeOf_bit (w : BitVec 32) : w.getLsbD 5 = (opcodeOf w).getLsbD 5 := by
  simp [opcodeOf]

/-- The bits of `funct7` are the upper seven bits of the word. -/
theorem funct7_bit (w : BitVec 32) {i : ℕ} (hi : i < 7) :
    (Rv32.funct7 w).getLsbD i = w.getLsbD (25 + i) := by
  simp [Rv32.funct7, hi]

/-- The multiplier and the divider stand by for the words of other opcodes. -/
theorem mulDivDecoder_other {op : BitVec 7} (h : op ≠ 0b0110011) (f : BitVec 3) (b : Bool) :
    mulDivDecoder op f b = (false, false) := by
  rw [mulDivDecoder, if_neg fun hc => h hc.1]

/-- No word that encodes an operation of the base set uses the divider. -/
theorem divInstr_of_encodes (ho : o.Encodes w) : (controlWordE x w).divInstr = false := by
  -- the divider shares its opcode with the ALU and the multiplier
  by_cases hop : o.opcode = 0b0110011
  · cases o with
    | op f =>
      have h0 := (aluDecoder_op ho.fields).2
      rw [funct7_bit w (by decide)] at h0
      simp only [controlWordE, mulDivDecoder, h0, Bool.false_eq_true, and_false, if_false]
    | mul m =>
      have hf : funct3Of w = 0b000 ∨ funct3Of w = 0b001 ∨ funct3Of w = 0b010 ∨
          funct3Of w = 0b011 := by
        obtain ⟨hm, -⟩ := decodeOp_mul ho.fields
        unfold Rv32.decodeMul at hm
        split_ifs at hm with h₀ h₁ h₂ h₃
        · exact .inl h₀
        · exact .inr (.inl h₁)
        · exact .inr (.inr (.inl h₂))
        · exact .inr (.inr (.inr h₃))
      simp only [controlWordE, mulDivDecoder, hf, if_true]
      split_ifs <;> rfl
    | _ => exact absurd hop (by simp [Rv32.Op.opcode])
  · simp only [controlWordE, mulDivDecoder_other (opcodeOf_ne ho hop)]

/-- No word of `Rv32` touches a CSR or the environment. -/
theorem quiet_of_encodes (ho : o.Encodes w) : (controlOf x w).csrWrite = false ∧
    (controlOf x w).envCallInstr = false ∧ (controlOf x w).mretInstr = false := by
  cases o with
  | lui => rw [controlOf_eq x (decode_lui x ho.opcode)]; exact ⟨rfl, rfl, rfl⟩
  | auipc => rw [controlOf_eq x (decode_auipc x ho.opcode)]; exact ⟨rfl, rfl, rfl⟩
  | jal => rw [controlOf_eq x (decode_jal x ho.opcode)]; exact ⟨rfl, rfl, rfl⟩
  | jalr => rw [controlOf_eq x (decode_jalr x ho.opcode)]; exact ⟨rfl, rfl, rfl⟩
  | branch c => rw [controlOf_eq x (decode_branch x ho.opcode)]; exact ⟨rfl, rfl, rfl⟩
  | load wd u => rw [controlOf_eq x (decode_load x ho.opcode)]; exact ⟨rfl, rfl, rfl⟩
  | store wd => rw [controlOf_eq x (decode_store x ho.opcode)]; exact ⟨rfl, rfl, rfl⟩
  | opImm f => rw [controlOf_eq x (decode_iType x ho.opcode)]; exact ⟨rfl, rfl, rfl⟩
  | op f => rw [controlOf_eq x (decode_rType x ho.opcode)]; exact ⟨rfl, rfl, rfl⟩
  | mul m => rw [controlOf_eq x (decode_rType x ho.opcode)]; exact ⟨rfl, rfl, rfl⟩
  | fence => rw [controlOf_eq x (decode_fence x ho.opcode)]; exact ⟨rfl, rfl, rfl⟩

end Control

/-! ## The instruction in execute -/

namespace State

/-- Execute holds the word `w` of address `pc`, with `a` and `b` the values of its registers, and
forwards nothing into it. -/
structure Executes (s : State) (x : DontCare) (w pc a b : BitVec 32) : Prop where
  e : s.e = executeWord x w pc a b
  ce : s.ce = controlWordE x w
  forwardA : s.forwardAE = 0b00
  forwardB : s.forwardBE = 0b00

namespace Executes

variable {s : State} {x : DontCare} {w pc a b : BitVec 32} {o : Rv32.Op}

/-- Without forwarding the first source operand is the value read in decode. -/
theorem srcAForwardE (h : s.Executes x w pc a b) : s.srcAForwardE = a := by
  rw [State.srcAForwardE, h.forwardA, h.e]
  rfl

/-- Without forwarding the second source operand is the value read in decode. -/
theorem writeDataE (h : s.Executes x w pc a b) : s.writeDataE = b := by
  rw [State.writeDataE, h.forwardB, h.e]
  rfl

/-- The first input of the ALU is the first source operand, or zero for `lui`. -/
theorem srcAE (h : s.Executes x w pc a b) :
    s.srcAE = if (controlOf x w).aluSrcA then 0 else a := by
  rw [State.srcAE, h.srcAForwardE, h.ce]
  rfl

/-- The second input of the ALU is the immediate, or the second source operand for the formats
without one. -/
theorem srcBE (h : s.Executes x w pc a b) :
    s.srcBE = if (controlOf x w).aluSrcB then extendImm w (controlOf x w).immSrc else b := by
  rw [State.srcBE, h.writeDataE, h.ce, h.e]
  rfl

/-- The target of a word other than `jalr` that jumps relative to the PC is the sum of its address
and its immediate. -/
theorem pcTargetE (h : s.Executes x w pc a b) (hop : opcodeOf w ≠ 0b1100111)
    (hc : (controlOf x w).pcTargetSrc = true) :
    s.pcTargetE = pc + extendImm w (controlOf x w).immSrc := by
  rw [State.pcTargetE, if_neg (by rw [h.e]; exact hop), State.pcTargetCalcE, State.pcSrcAE, h.ce,
    h.e]
  simp only [controlWordE, executeWord, hc, mux2, if_true, adder]

/-- What execute hands on is the value of the ALU, but for the multiplications. -/
theorem dataOutput_alu (h : s.Executes x w pc a b) (ho : o.Encodes w)
    (hm : (controlWordE x w).mulInstr = false) :
    s.dataOutputFromExecute = (alu s.srcAE s.srcBE (controlWordE x w).aluControl).result := by
  have hcsr := (quiet_of_encodes x ho).1
  have hd := divInstr_of_encodes x ho
  rw [State.dataOutputFromExecute, State.aluOrMuldivResultE, State.aluE, h.ce, hm, hd, h.e]
  simp only [executeWord, hcsr, Bool.or_self]
  rfl

/-- For loads, stores and `lui` the value handed on is the sum of the base and the immediate. -/
theorem dataOutput_add (h : s.Executes x w pc a b) (ho : o.Encodes w)
    (hop : opcodeOf w ≠ 0b0110011) (hc : (controlOf x w).aluOp = 0b00)
    (hb : (controlOf x w).aluSrcB = true) :
    s.dataOutputFromExecute = (if (controlOf x w).aluSrcA then 0 else a) +
      extendImm w (controlOf x w).immSrc := by
  rw [h.dataOutput_alu ho (by simp only [controlWordE, mulDivDecoder_other hop]), h.srcAE, h.srcBE,
    if_pos hb, show (controlWordE x w).aluControl = 0b0000 by simp [controlWordE, aluDecoder, hc],
    alu_add]

/-! ### Where the next instruction is -/

/-- A word that is no branch does not take one. -/
theorem takeBranchE_of_not_branch (h : s.Executes x w pc a b)
    (hb : (controlOf x w).branch = false) : s.takeBranchE = false := by
  simp [State.takeBranchE, branchCheck, h.ce, controlWordE, hb]

/-- The target of a word that encodes an operation of the base set is never the saved PC, since
`mret` is not among them. -/
theorem jumpPcTargetE (h : s.Executes x w pc a b) (ho : o.Encodes w) :
    s.jumpPcTargetE = s.pcTargetE := by
  have hm := (quiet_of_encodes x ho).2.2
  rw [State.jumpPcTargetE, if_neg]
  simp [h.ce, controlWordE, hm]

/-- A branch goes to the sum of its address and its immediate. -/
theorem branch_target (h : s.Executes x w pc a b) (ho : o.Encodes w)
    (hb : opcodeOf w = 0b1100011) : s.jumpPcTargetE = pc + Rv32.immB w := by
  have hop : opcodeOf w ≠ 0b1100111 := by
    rw [hb]
    decide
  have hc := controlOf_eq x (decode_branch x hb)
  rw [h.jumpPcTargetE ho, h.pcTargetE hop (by rw [hc]), hc, extendImm_immB]

/-- A branch in execute is taken if and only if its condition holds of the two source operands. -/
theorem takeBranchE (h : s.Executes x w pc a b) {c : Rv32.Cond}
    (ho : (Rv32.Op.branch c).Encodes w) : s.takeBranchE = c.holds a b := by
  have hc := controlOf_eq x (decode_branch x ho.opcode)
  have ha : s.ce.aluControl = 0b0001 := by
    rw [h.ce]
    simp [controlWordE, aluDecoder, hc]
  have hbr : s.ce.branch = true := by
    rw [h.ce]
    simp [controlWordE, hc]
  have hf : s.ce.funct3 = Rv32.funct3 w := by
    rw [h.ce]
    rfl
  rw [State.takeBranchE, State.aluE, h.srcAE, h.srcBE, ha, hbr, hf, hc]
  exact branchCheck_alu ho.fields a b

/-- The next instruction is at the target of a jump or taken branch, and at the following address
otherwise. -/
theorem nextPc_eq (h : s.Executes x w pc a b) (ho : o.Encodes w) :
    Rv32.nextPc o w pc a b =
      if s.ce.jump || s.takeBranchE then s.jumpPcTargetE else pc + 4 := by
  have hjump : s.ce.jump = (controlOf x w).jump := by
    rw [h.ce]
    rfl
  have hplain : (controlOf x w).branch = false → (controlOf x w).jump = false →
      (if s.ce.jump || s.takeBranchE then s.jumpPcTargetE else pc + 4) = pc + 4 := by
    intro hb hj
    rw [hjump, hj, h.takeBranchE_of_not_branch hb]
    rfl
  -- three kinds of words leave the straight path
  cases o with
  | jal =>
    have hop : opcodeOf w ≠ 0b1100111 := opcodeOf_ne ho (by decide)
    have hc := controlOf_eq x (decode_jal x ho.opcode)
    rw [hjump, h.jumpPcTargetE ho, h.pcTargetE hop (by rw [hc]), hc, extendImm_immJ]
    rfl
  | jalr =>
    have hc := controlOf_eq x (decode_jalr x ho.opcode)
    have hop : s.e.op = 0b1100111 := by
      rw [h.e]
      exact ho.opcode
    have himm : s.pcTargetCalcE = a + Rv32.immI w := by
      rw [State.pcTargetCalcE, State.pcSrcAE, h.ce, h.e, ← extendImm_immI]
      simp only [controlWordE, executeWord, hc]
      rfl
    rw [hjump, h.jumpPcTargetE ho, State.pcTargetE, if_pos hop, himm, jalr_target, hc]
    rfl
  | branch c =>
    have hc := controlOf_eq x (decode_branch x ho.opcode)
    rw [hjump, hc, h.takeBranchE ho, h.branch_target ho ho.opcode]
    rfl
  | _ =>
    have hop : opcodeOf w = _ := ho.opcode
    have hof := controlOf_of_legal x (legal_of_encodes x ho)
    refine (hplain ?_ ?_).symm
    · rw [hof.branch, isBranch, hop]
      rfl
    · rw [hof.jump, isJump, isMret, hop]
      rfl

/-! ### What write-back gets -/

/-- The code of the ALU for a register or immediate instruction. -/
theorem aluE_eval (h : s.Executes x w pc a b) (ho : o.Encodes w) {f : Rv32.AluOp}
    (hm : (controlWordE x w).mulInstr = false)
    (hcode : (controlWordE x w).aluControl = aluCode f) :
    s.dataOutputFromExecute = f.eval s.srcAE s.srcBE := by
  rw [h.dataOutput_alu ho hm, hcode, alu_eval]

/-- An instruction on an immediate hands on the value of its operation. -/
theorem dataOutput_opImm (h : s.Executes x w pc a b) {f : Rv32.AluOp}
    (ho : (Rv32.Op.opImm f).Encodes w) : s.dataOutputFromExecute = f.eval a (Rv32.immI w) := by
  have hc := controlOf_eq x (decode_iType x ho.opcode)
  have hop : opcodeOf w ≠ 0b0110011 := opcodeOf_ne ho (by simp [Rv32.Op.opcode])
  -- bit 5 of the opcode is clear, so bit 30 of an `addi` does not count
  have h5 : w.getLsbD 5 = false := by
    rw [opcodeOf_bit, show opcodeOf w = 0b0010011 from ho.opcode]
    rfl
  have hcode : (controlWordE x w).aluControl = aluCode f := by
    rw [← aluDecoder_opImm ho.fields, funct7_bit w (by decide)]
    simp only [controlWordE, hc, h5]
    rfl
  rw [h.aluE_eval ho (by simp only [controlWordE, mulDivDecoder_other hop]) hcode, h.srcAE,
    h.srcBE, hc, extendImm_immI]
  rfl

/-- An instruction on two registers hands on the value of its operation. -/
theorem dataOutput_op (h : s.Executes x w pc a b) {f : Rv32.AluOp}
    (ho : (Rv32.Op.op f).Encodes w) : s.dataOutputFromExecute = f.eval a b := by
  have hc := controlOf_eq x (decode_rType x ho.opcode)
  obtain ⟨halu, h25⟩ := aluDecoder_op ho.fields
  have hmul : (controlWordE x w).mulInstr = false := by
    rw [funct7_bit w (by decide)] at h25
    simp only [controlWordE, mulDivDecoder, h25, Bool.false_eq_true, and_false, if_false]
  -- bit 5 of the opcode is set, so bit 30 tells `sub` from `add`
  have h5 : w.getLsbD 5 = true := by
    rw [opcodeOf_bit, show opcodeOf w = 0b0110011 from ho.opcode]
    rfl
  have hcode : (controlWordE x w).aluControl = aluCode f := by
    rw [← halu, funct7_bit w (by decide)]
    simp only [controlWordE, hc, h5]
    rfl
  rw [h.aluE_eval ho hmul hcode, h.srcAE, h.srcBE, hc]
  rfl

/-- A multiplication in execute hands on the product that its `funct3` asks for. -/
theorem dataOutput_mul (h : s.Executes x w pc a b) {m : Rv32.MulOp}
    (ho : (Rv32.Op.mul m).Encodes w) : s.dataOutputFromExecute = m.eval a b := by
  have hc := controlOf_eq x (decode_rType x ho.opcode)
  obtain ⟨hm, h25⟩ := decodeOp_mul ho.fields
  have hd := divInstr_of_encodes x ho
  -- the word is for the multiplier, since it is not for the divider
  have hmul : (controlWordE x w).mulInstr = true := by
    have hop : opcodeOf w = 0b0110011 := ho.opcode
    rw [funct7_bit w (by decide)] at h25
    simp only [controlWordE, mulDivDecoder, hop, h25, and_self, if_true] at hd ⊢
    split_ifs at hd ⊢
    rfl
  have hres : s.mulResultE = m.eval a b := by
    rw [State.mulResultE, h.srcAE, h.srcBE, hc, h.e]
    exact mul_eval hm a b
  rw [State.dataOutputFromExecute, State.aluOrMuldivResultE, h.ce, hmul, hd, h.e, hres]
  simp only [executeWord, hc]
  rfl

/-- The value for the destination register, if there is one. `data` is what the memory stage reads
for a load. -/
theorem result_eq (h : s.Executes x w pc a b) (ho : o.Encodes w)
    {mem : BitVec 32 → BitVec 8} {data : BitVec 32}
    (hd : ∀ wd u, o = .load wd u → data = Rv32.loadValue mem wd u (a + Rv32.immI w)) :
    Rv32.result o w pc a b mem =
      if s.ce.regWrite then
        some (mux4 s.dataOutputFromExecute data (pc + 4) s.pcTargetE s.ce.resultSrc)
      else none := by
  have hregWrite : s.ce.regWrite = (controlOf x w).regWrite := by
    rw [h.ce]
    rfl
  have hresultSrc : s.ce.resultSrc = (controlOf x w).resultSrc := by
    rw [h.ce]
    rfl
  rw [hregWrite, hresultSrc]
  -- `result_src` chooses among the four inputs of the last multiplexer
  cases o with
  | lui =>
    have hc := controlOf_eq x (decode_lui x ho.opcode)
    have hop : opcodeOf w ≠ 0b0110011 := opcodeOf_ne ho (by decide)
    rw [h.dataOutput_add ho hop (by rw [hc]) (by rw [hc]), hc, extendImm_immU]
    simp [mux4, Rv32.result]
  | auipc =>
    have hc := controlOf_eq x (decode_auipc x ho.opcode)
    have hop : opcodeOf w ≠ 0b1100111 := opcodeOf_ne ho (by decide)
    rw [h.pcTargetE hop (by rw [hc]), hc, extendImm_immU]
    rfl
  | jal =>
    rw [controlOf_eq x (decode_jal x ho.opcode)]
    rfl
  | jalr =>
    rw [controlOf_eq x (decode_jalr x ho.opcode)]
    rfl
  | branch c =>
    rw [controlOf_eq x (decode_branch x ho.opcode)]
    rfl
  | load wd u =>
    rw [controlOf_eq x (decode_load x ho.opcode), hd wd u rfl]
    rfl
  | store wd =>
    rw [controlOf_eq x (decode_store x ho.opcode)]
    rfl
  | opImm f =>
    rw [h.dataOutput_opImm ho, controlOf_eq x (decode_iType x ho.opcode)]
    rfl
  | op f =>
    rw [h.dataOutput_op ho, controlOf_eq x (decode_rType x ho.opcode)]
    rfl
  | mul m =>
    rw [h.dataOutput_mul ho, controlOf_eq x (decode_rType x ho.opcode)]
    rfl
  | fence =>
    rw [controlOf_eq x (decode_fence x ho.opcode)]
    rfl

end Executes

end State

end RvPipelineCore

import RvPipelineCore.State
import RvPipelineCore.Datapath.Arithmetic
import RvPipelineCore.Datapath.Lanes

/-!
# The signals of the core

The combinational signals of `core_riscv`, `control_unit`, `datapath` and `hazard_unit`, as
functions of the state and, from the handshakes on, of the inputs of the cycle. A signal keeps its
source name with its stage suffix; registered signals are the fields of `State` (`pc_e` is
`s.e.pc`). Only the decode stage reads the `DontCare` values.
-/

namespace RvPipelineCore

namespace State

variable (x : DontCare) (s : State) (i : Inputs)

/-! ## Decode -/

/-- The outputs of `main_decoder` for the word in decode, whose validity decides whether a word
without a listed opcode is illegal. -/
def mainDec : MainDecoderOut :=
  mainDecoder (x.outControl s.d.instr) (opcodeOf s.d.instr) (funct3Of s.d.instr) (rs1Of s.d.instr)
    (rdOf s.d.instr) (immITypeOf s.d.instr) s.d.isDecodeFlush

/-- `out_control`: the control signals of the word in decode. For an illegal word they keep the
value of the previous cycle, since its process is a latch there. -/
def outControlD : OutControl := (s.mainDec x).outControl.getD s.outControl

/-- `illegal_instruction_d`: the word in decode is valid and has no meaning for `main_decoder`. -/
def illegalInstructionD : Bool := (s.mainDec x).illegalInstruction

/-- `alu_control_d`: the operation that the instruction in decode will ask of the ALU. -/
def aluControlD : BitVec 4 :=
  aluDecoder (s.d.instr.getLsbD 5) (funct3Of s.d.instr) (s.d.instr.getLsbD 30)
    (s.outControlD x).aluOp

/-- `mul_instr_d`: the word in decode is a multiplication. -/
def mulInstrD : Bool :=
  (mulDivDecoder (opcodeOf s.d.instr) (funct3Of s.d.instr) (s.d.instr.getLsbD 25)).1

/-- `div_instr_d`: the word in decode is a division or a remainder. -/
def divInstrD : Bool :=
  (mulDivDecoder (opcodeOf s.d.instr) (funct3Of s.d.instr) (s.d.instr.getLsbD 25)).2

/-- `imm_ext_d`: the immediate of the word in decode, extended for its format. -/
def immExtD : BitVec 32 := extendImm s.d.instr (s.outControlD x).immSrc

/-! ## Write-back -/

/-- `is_instr_exception_w`: the instruction in write-back raises an exception or carries an
interrupt, so its register write is suppressed. -/
def isInstrExceptionW : Bool :=
  s.w.instrAddrMisaligned || s.w.illegalInstruction || s.w.storeMisaligned ||
    s.w.loadMisaligned || s.w.interruptExternal || s.w.interruptTimer || s.w.envCallInstr

/-- `result_w`: the value that the instruction in write-back gives to its register. -/
def resultW : BitVec 32 :=
  mux4 s.w.aluResult s.w.readData s.w.pcPlus4 s.w.pcTarget s.cw.resultSrc

/-- `addr_except_w`: the value that a trap puts into `mtval`. It is the target of a misaligned jump,
the PC of an environment call, and the address of the access otherwise. -/
def addrExceptW : BitVec 32 :=
  if s.w.instrAddrMisaligned then s.w.pcTarget
  else if s.w.envCallInstr then s.w.pc
  else s.w.aluResult

/-- The write-back side of the `csr_unit` port map: what `csr_exec` is told about the instruction
there. -/
def csrWriteback : CsrWriteback where
  csrAddressWrite := s.w.csrAddress
  writeEnable := s.w.csrWrite
  writeValue := s.w.outWriteCsr
  envCallInstr := s.w.envCallInstr
  illegalInstruction := s.w.illegalInstruction
  instrAddrMisaligned := s.w.instrAddrMisaligned
  loadMisaligned := s.w.loadMisaligned
  storeMisaligned := s.w.storeMisaligned
  interruptExternalW := s.w.interruptExternal
  interruptTimerW := s.w.interruptTimer
  instrExceptPc := s.w.pc
  addrExcept := s.addrExceptW
  mretInstr := s.w.mretInstr
  validPcW := s.w.validPc

/-- `trap_caught_w`: the instruction in write-back is trapped, which redirects fetch to the trap
vector. -/
def trapCaughtW : Bool := s.csrWriteback.trapCaught

/-- The write enable of `reg_file`: the instruction in write-back writes a register and is not
trapped. -/
def regFileWriteEnable : Bool := s.cw.regWrite && !s.isInstrExceptionW

/-- `reg_mem` after the falling edge in the middle of the cycle, which is what decode reads in its
second half. -/
def regMemNext : BitVec 5 → BitVec 32 := fun r =>
  -- `x0` is written like any other and masked when it is read
  if s.regFileWriteEnable = true ∧ r = s.w.rd then s.resultW else s.regMem r

/-- A read port of `register_file`: the value of the register after the write of this cycle, and
zero for `x0`. -/
def readReg (a : BitVec 5) : BitVec 32 := if a ≠ 0 then s.regMemNext a else 0

/-- `rd1_d`: the value of the first source register, as decode reads it. -/
def rd1D : BitVec 32 := s.readReg (rs1Of s.d.instr)

/-- `rd2_d`: the value of the second source register, as decode reads it. -/
def rd2D : BitVec 32 := s.readReg (rs2Of s.d.instr)

/-! ## Memory -/

/-- `read_address_m`: the offset of the access in its word, which selects the lanes. -/
def readAddressM : BitVec 2 := s.m.aluResult.extractLsb' 0 2

/-- `store_misaligned_m`: the instruction in the memory stage is a store at an address that does not
suit its width. -/
def storeMisalignedM : Bool := storeMisaligned s.m.funct3 s.readAddressM s.cm.memWrite

/-- `load_misaligned_m`: the instruction in the memory stage is a load at an address that does not
suit its width. -/
def loadMisalignedM : Bool :=
  loadMisaligned s.readAddressM s.m.funct3 (s.cm.loadStore && !s.cm.memWrite)

/-- `is_instr_exception_m`: the instruction in the memory stage raises an exception, or an interrupt
is attached to it in this cycle. -/
def isInstrExceptionM : Bool :=
  s.m.instrAddrMisaligned || s.m.illegalInstruction || s.storeMisalignedM ||
    s.loadMisalignedM || s.csr.interruptExternalM || s.csr.interruptTimerM || s.m.envCallInstr

/-- `write_data_m`: the value to be stored, moved to the lanes of its address. -/
def writeDataM : BitVec 32 :=
  RvPipelineCore.writeDataOutput s.m.preWriteData s.m.funct3 s.readAddressM s.cm.memWrite
    s.writeDataOutput

/-- `mem_control_m`: the lanes of a store, and the unspecified value of its decoder for anything
else. -/
def memControlM : BitVec 4 :=
  memoryDecoder x.memControl s.cm.memWrite s.cm.funct3 s.readAddressM

/-- `d_sel`: the lanes of the access. A store selects those it writes, a load reads the whole
word. -/
def dSel : BitVec 4 :=
  -- a load reads the whole word
  if s.cm.memWrite then s.memControlM x else 0b1111

/-- `d_we`: the access in the memory stage is a write and its instruction raises nothing. -/
def dWe : Bool := s.cm.memWrite && !s.isInstrExceptionM

/-- `d_valid`: the memory stage asks for a transfer, which an exception or an interrupt
suppresses. -/
def dValid : Bool := s.cm.loadStore && !s.isInstrExceptionM

/-- `read_data_ext_m`: the part of the word on the data bus that the load selects, extended to 32
bits. -/
def readDataExtM : BitVec 32 := maskExtend i.dWbDataR s.readAddressM s.m.funct3

/-! ## Execute -/

/-- `forward_a_e`: where the first source operand is taken from, which is the register read in
decode unless an instruction ahead writes the register. -/
def forwardAE : BitVec 2 :=
  HazardUnit.forward s.e.rs1 s.m.rd s.w.rd s.cm.regWrite s.cw.regWrite

/-- `forward_b_e`: where the second source operand is taken from, by the same rule as for the first
one. -/
def forwardBE : BitVec 2 :=
  HazardUnit.forward s.e.rs2 s.m.rd s.w.rd s.cm.regWrite s.cw.regWrite

/-- `src_a_forward_e`: the first source operand after forwarding from write-back or from the memory
stage. -/
def srcAForwardE : BitVec 32 := mux3 s.e.rd1 s.resultW s.m.aluResult s.forwardAE

/-- `src_a_e`: the first input of the ALU, the forwarded operand or zero. -/
def srcAE : BitVec 32 := mux2 s.srcAForwardE 0 s.ce.aluSrcA

/-- `write_data_e`: the second source operand after forwarding, which is also the value that a store
writes. -/
def writeDataE : BitVec 32 := mux3 s.e.rd2 s.resultW s.m.aluResult s.forwardBE

/-- `src_b_e`: the second input of the ALU, the forwarded operand or the immediate. -/
def srcBE : BitVec 32 := mux2 s.writeDataE s.e.immExt s.ce.aluSrcB

/-- The outputs of `alu_block`, the ALU of the execute stage, on its two inputs. -/
def aluE : AluOut := alu s.srcAE s.srcBE s.ce.aluControl

/-- `mul_result_e`: the product of the two ALU inputs, cut as `funct3` says. -/
def mulResultE : BitVec 32 := mul s.srcAE s.srcBE s.e.funct3

/-- `alu_or_muldiv_result_e`: the result of the ALU, of the multiplier or of the divider, as the
instruction asks for. -/
def aluOrMuldivResultE : BitVec 32 :=
  mux2 s.aluE.result (mux2 s.mulResultE s.div.divResult s.ce.divInstr)
    (s.ce.mulInstr || s.ce.divInstr)

/-- `data_output_from_execute`: the value passed on to the memory stage, which is the CSR read for
an instruction that writes a CSR. -/
def dataOutputFromExecute : BitVec 32 :=
  mux2 s.aluOrMuldivResultE (s.csr.readCsr s.e.csrAddress) s.e.csrWrite

/-- `out_write_csr_e`: the value that the CSR instruction in execute will write when it reaches
write-back. -/
def outWriteCsrE : BitVec 32 :=
  -- `rd1_e` as decode has read it: nothing is forwarded to the CSR unit
  s.csr.outWriteCsr s.e.funct3 s.e.csrAddress s.e.rd1 s.e.immExt

/-- `pc_src_a_e`: the base of the target address, the PC of the instruction or its first source
register. -/
def pcSrcAE : BitVec 32 :=
  -- nor to the target adder
  mux2 s.e.rd1 s.e.pc s.ce.pcTargetSrc

/-- `pc_target_calc_e`: the sum of the base and the immediate, before the low bit is cleared. -/
def pcTargetCalcE : BitVec 32 := adder s.pcSrcAE s.e.immExt

/-- `pc_target_e`: the target of the instruction in execute, with the low bit cleared for a
`jalr`. -/
def pcTargetE : BitVec 32 :=
  -- jalr
  if s.e.op = 0b1100111 then s.pcTargetCalcE.extractLsb' 1 31 ++ 0#1 else s.pcTargetCalcE

/-- `jump_pc_target_e`: the target of the instruction, or the saved PC for an `mret`. -/
def jumpPcTargetE : BitVec 32 := if s.ce.mretInstr then s.csr.mepc else s.pcTargetE

/-- `take_branch_e`: the instruction in execute is a branch whose condition holds of its
operands. -/
def takeBranchE : Bool :=
  branchCheck s.ce.branch s.ce.funct3 s.aluE.zero s.aluE.negative s.aluE.overflow s.aluE.carry

/-- The two outputs of `branch_mispredict`, which compares what fetch did after the branch with what
the branch decides. -/
def branchMispredict : Bool × Bool :=
  branchMisprediction s.e.validPc s.d.isDecodeFlush s.ce.branch s.takeBranchE s.jumpPcTargetE s.pcF
    s.d.pc s.e.pcPlus4

/-- `is_mispredict_tbranch_e`: a taken branch is in execute and fetch has not gone to its target. -/
def isMispredictTbranchE : Bool := s.branchMispredict.1

/-- `is_mispredict_ntbranch_e`: a branch that is not taken is in execute and fetch has not gone on
behind it. -/
def isMispredictNtbranchE : Bool := s.branchMispredict.2

/-- `pc_src_e`: the instruction in execute redirects fetch, being a jump or a mispredicted
branch. -/
def pcSrcE : Bool :=
  s.takeBranchE && s.isMispredictTbranchE || s.ce.jump || s.isMispredictNtbranchE

/-- `misaligned_pc_e`: the redirect goes to an address that is no multiple of four. -/
def misalignedPcE : Bool := s.pcSrcE && s.jumpPcTargetE.getLsbD 1

/-- `is_instr_exception_e`: the instruction in execute raises one of the three exceptions that are
known by then. -/
def isInstrExceptionE : Bool :=
  s.e.illegalInstruction || s.misalignedPcE || s.e.envCallInstr

/-- `jump_target_e`: the address to which execute redirects fetch. For a wrongly predicted branch
that is not taken it is the address after the branch. -/
def jumpTargetE : BitVec 32 :=
  if s.isMispredictNtbranchE then s.e.pcPlus4 else s.jumpPcTargetE

/-! ## Fetch -/

/-- `pc_plus4_f`: the address of the word after the one being fetched. -/
def pcPlus4F : BitVec 32 := adder s.pcF 4

/-- `pc_next_f`: the address that fetch goes to when the PC register is enabled. -/
def pcNextF : BitVec 32 :=
  -- a trap wins over a redirect, and a redirect over a prediction
  if s.trapCaughtW then s.csr.trapJumpAddr
  else if s.pcSrcE then s.jumpTargetE
  else if s.predictor.branchPredicted s.pcF then s.predictor.predictedPc s.pcF
  else s.pcPlus4F

/-! ## Hazards -/

/-- `jump_instr`: a redirect from execute that takes effect, since neither its instruction nor one
ahead of it raises an exception. -/
def jumpInstr : Bool :=
  s.pcSrcE && !s.isInstrExceptionE && !s.isInstrExceptionM && !s.isInstrExceptionW

/-- `lw_stall_d`: the word in decode names the destination of the load in execute, so it has to wait
for one cycle. -/
def lwStallD : Bool :=
  HazardUnit.lwStallD s.ce.loadInstr s.e.rd (rs1Of s.d.instr) (rs2Of s.d.instr)

/-- `is_instruction_valid`: `wb_reset` is low, so the instruction port may begin transfers. It
always is in the runs modelled here. -/
def isInstructionValid : Bool := true

/-- `raw_instr_mem_handshake`: the instruction slave acknowledges a transfer in this cycle. -/
def rawInstrMemHandshake : Bool := i.instrWbAck && isInstructionValid

/-- `instr_mem_handshake`: the acknowledged word belongs to the current PC, because no redirect
happened during its transfer. -/
def instrMemHandshake : Bool := rawInstrMemHandshake i && !s.hazard.ignoreInstrMemHandshake

/-- `waiting_on_instruction`: fetch has no word for decode in this cycle. -/
def waitingOnInstruction : Bool := !s.instrMemHandshake i && isInstructionValid

/-- `stall_m`: the memory stage holds an access that has not been acknowledged. -/
def stallM : Bool := s.cm.loadStore && !i.dWbAck

/-- `stall_e`: execute has to keep its instruction, because the memory stage does or because a
division is under way. -/
def stallE : Bool := s.stallM i || s.hazard.divPending

/-- `stall_d`: decode has to keep its word, because of a load ahead of it, a stalled execute stage
or the CSR interlock. -/
def stallD : Bool := s.lwStallD || s.stallE i || s.hazard.csrPending

/-- `stall_f`: the PC keeps its value, because decode does, because no word has arrived, or because
an exception is on its way to write-back. -/
def stallF : Bool :=
  s.lwStallD || s.waitingOnInstruction i || s.stallD i || s.hazard.csrPending ||
    s.hazard.pendingExceptionF || s.hazard.pendingExceptionM

/-- `flush_d`: decode is cleared at the end of the cycle instead of taking a word or keeping its
own. -/
def flushD : Bool :=
  -- without a word, or behind an illegal one, decode gets a bubble unless it is held
  s.jumpInstr || (s.waitingOnInstruction i && !s.stallD i) ||
    (s.hazard.pendingExceptionF && !s.stallD i) || s.hazard.pendingExceptionM

/-- `flush_e`: execute is cleared at the end of the cycle. A load ahead of its user, a redirect, the
CSR interlock and a trap do so. -/
def flushE : Bool :=
  s.lwStallD || s.jumpInstr || s.hazard.csrPending || s.hazard.pendingExceptionM

/-- `flush_m`: the memory stage is cleared at the end of the cycle, by a trap or as long as a
division is under way. -/
def flushM : Bool := s.hazard.pendingExceptionM || s.hazard.divPending

/-- `flush_w`: write-back is never cleared, as the source ties the signal to zero. -/
def flushW : Bool := false

/-- The enable of `pc_register`: fetch is not stalled, or a redirect or a trap replaces the PC. -/
def pcEnable : Bool :=
  -- an exception in execute or a misaligned access ahead of it holds back a redirect
  !s.stallF i ||
    (s.pcSrcE && (!s.isInstrExceptionE && !(s.loadMisalignedM || s.storeMisalignedM))) ||
    s.trapCaughtW

/-- `div_completed_e`: the divider ends its division in this cycle and is not cleared by a flush of
execute. -/
def divCompletedE : Bool := s.div.divCompleted s.flushE

end State

end RvPipelineCore

import RvPipelineCore.Signals

/-!
# One clock cycle

`State.step` is the next state of `processor`: what each register of the source loads at the clock
edge that ends a cycle with state `s` and inputs `i`, `wb_reset` being low.

`regMem` changes at the falling edge inside the cycle; the state of the next cycle holds the value
written there.
-/

namespace RvPipelineCore

/-- The process of the instruction port for one clock edge: an idle port begins a transfer from the
current PC, an active one waits for the acknowledge. -/
def InstrPort.next (p : InstrPort) (instrValid : Bool) (instrAdr : BitVec 32) (ack : Bool) :
    InstrPort :=
  match p.state with
  -- the address keeps its value after the transfer
  | .idle =>
    if instrValid then ⟨.active, instrAdr, true, true⟩
    else { p with cyc := false, stb := false }
  | .active =>
    if ack then { p with state := .idle, cyc := false, stb := false } else p

/-- The process of the data port for one clock edge: an idle port begins the transfer that the
memory stage asks for, an active one waits for the acknowledge. -/
def DataPort.next (p : DataPort) (dValid dWe : Bool) (dAdr dDataW : BitVec 32) (dSel : BitVec 4)
    (ack : Bool) : DataPort :=
  match p.state with
  | .idle =>
    if dValid then ⟨.active, dAdr, dDataW, true, true, dWe, dSel⟩
    else { p with cyc := false, stb := false, we := false }
  | .active =>
    if ack then { p with state := .idle, cyc := false, stb := false, we := false } else p

namespace State

variable (x : DontCare) (s : State) (i : Inputs)

/-- The data input of `register_decode`: the word on the instruction bus with the current PC, marked
as valid. -/
def decodeInput : DecodeReg := ⟨i.instrWbData, s.pcF, s.pcPlus4F, true⟩

/-- The data input of `register_execute`: what decode has read and found out about its word. -/
def executeInput : ExecuteReg where
  rd1 := s.rd1D
  rd2 := s.rd2D
  pc := s.d.pc
  rs1 := rs1Of s.d.instr
  rs2 := rs2Of s.d.instr
  rd := rdOf s.d.instr
  immExt := s.immExtD x
  pcPlus4 := s.d.pcPlus4
  funct3 := funct3Of s.d.instr
  csrAddress := immITypeOf s.d.instr
  csrWrite := (s.outControlD x).csrWrite
  illegalInstruction := s.illegalInstructionD x
  op := opcodeOf s.d.instr
  envCallInstr := (s.outControlD x).envCallInstr
  validPc := s.d.isDecodeFlush

/-- The data input of `control_reg_e`: the control signals of the word in decode. -/
def controlInputE : ControlRegE where
  funct3 := funct3Of s.d.instr
  regWrite := (s.outControlD x).regWrite
  resultSrc := (s.outControlD x).resultSrc
  memWrite := (s.outControlD x).memWrite
  jump := (s.outControlD x).jump
  branch := (s.outControlD x).branch
  aluControl := s.aluControlD x
  aluSrcA := (s.outControlD x).aluSrcA
  aluSrcB := (s.outControlD x).aluSrcB
  pcTargetSrc := (s.outControlD x).pcTargetSrc
  loadStore := (s.outControlD x).loadStore
  loadInstr := (s.outControlD x).loadInstr
  mretInstr := (s.outControlD x).mretInstr
  mulInstr := s.mulInstrD
  divInstr := s.divInstrD

/-- The data input of `register_memory`: the results of the instruction in execute and the
exceptions found up to there. -/
def memoryInput : MemoryReg where
  aluResult := s.dataOutputFromExecute
  preWriteData := s.writeDataE
  rd := s.e.rd
  pcPlus4 := s.e.pcPlus4
  pcTarget := s.pcTargetE
  funct3 := s.e.funct3
  csrAddress := s.e.csrAddress
  csrWrite := s.e.csrWrite
  outWriteCsr := s.outWriteCsrE
  instrAddrMisaligned := s.misalignedPcE
  pc := s.e.pc
  illegalInstruction := s.e.illegalInstruction
  mretInstr := s.ce.mretInstr
  envCallInstr := s.e.envCallInstr
  validPc := s.e.validPc

/-- The data input of `control_reg_m`: the control signals of execute that the later stages need. -/
def controlInputM : ControlRegM where
  regWrite := s.ce.regWrite
  resultSrc := s.ce.resultSrc
  memWrite := s.ce.memWrite
  loadStore := s.ce.loadStore
  funct3 := s.ce.funct3

/-- The data input of `register_writeback`: what the memory stage holds, with the loaded value and
the exceptions and interrupts found there. -/
def writebackInput : WritebackReg where
  aluResult := s.m.aluResult
  readData := s.readDataExtM i
  rd := s.m.rd
  pcPlus4 := s.m.pcPlus4
  pcTarget := s.m.pcTarget
  csrAddress := s.m.csrAddress
  csrWrite := s.m.csrWrite
  outWriteCsr := s.m.outWriteCsr
  instrAddrMisaligned := s.m.instrAddrMisaligned
  pc := s.m.pc
  illegalInstruction := s.m.illegalInstruction
  storeMisaligned := s.storeMisalignedM
  loadMisaligned := s.loadMisalignedM
  interruptExternal := s.csr.interruptExternalM
  interruptTimer := s.csr.interruptTimerM
  mretInstr := s.m.mretInstr
  envCallInstr := s.m.envCallInstr
  validPc := s.m.validPc

/-- The clocked processes of `hazard_unit`. `core_riscv` feeds its inputs `csr_instr_e` and
`csr_instr_w` from two signals that nothing drives: the outputs of the datapath of these names are
left open. -/
def hazardNext : HazardUnit where
  ignoreInstrMemHandshake :=
    s.hazard.ignoreNext s.jumpInstr s.trapCaughtW (rawInstrMemHandshake i)
  csrPending := s.hazard.csrPendingNext false false
  divPending := s.hazard.divPendingNext s.divInstrD s.divCompletedE
  pendingExceptionF :=
    s.hazard.pendingExceptionFNext (s.illegalInstructionD x) s.w.illegalInstruction
  pendingExceptionM :=
    s.hazard.pendingExceptionMNext s.isInstrExceptionM s.isInstrExceptionW

/-- One clock cycle of `processor`: the next state of every register, from the state and the inputs
of the cycle. -/
def step : State where
  -- `processor`
  instrPort := s.instrPort.next isInstructionValid s.pcF i.instrWbAck
  dPort := s.dPort.next s.dValid s.dWe s.m.aluResult s.writeDataM (s.dSel x) i.dWbAck
  -- `hazard_unit`
  hazard := s.hazardNext x i
  -- `datapath` and `control_unit`
  pcF := flopenr (s.pcEnable i) s.pcNextF s.pcF
  d := flopenrc (s.flushD i) (!s.stallD i) (s.decodeInput i) s.d
  e := flopenrc s.flushE (!s.stallE i) (s.executeInput x) s.e
  ce := flopenrc s.flushE (!s.stallE i) (s.controlInputE x) s.ce
  m := flopenrc s.flushM (!s.stallM i) s.memoryInput s.m
  cm := flopenrc s.flushM (!s.stallM i) s.controlInputM s.cm
  w := floprc flushW (s.writebackInput i)
  cw := floprc flushW ⟨s.cm.regWrite, s.cm.resultSrc⟩
  -- the units of the datapath
  regMem := s.regMemNext
  csr := s.csr.next s.csrWriteback i.interruptExternal i.interruptTimer s.e.pc
  div := s.div.next s.flushE s.srcAE s.srcBE s.ce.divInstr s.e.funct3
  predictor := s.predictor.next s.e.pc s.ce.branch s.takeBranchE s.jumpPcTargetE
  -- the two latches hold what they drove in the cycle
  outControl := s.outControlD x
  writeDataOutput := s.writeDataM

end State

end RvPipelineCore

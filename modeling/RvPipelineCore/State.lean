import RvPipelineCore.Control.Decoders
import RvPipelineCore.Datapath.CsrExec
import RvPipelineCore.Datapath.Divider
import RvPipelineCore.Datapath.Predictor
import RvPipelineCore.HazardUnit

/-!
# The state of the processor

Every register of `processor` and of the units below it: the two Wishbone ports, the hazard
unit, the four pipeline registers of `datapath` with the three of `control_unit`, the register
file, the CSRs, the divider and the branch predictor. Two further fields are the latches that
`main_decoder` and `memory_store` infer.

`State.reset` is what an edge with `wb_reset` high does to them. The runs of the later modules
start after such an edge and keep `wb_reset` low.
-/

namespace RvPipelineCore

/-- `wb_state`: the two states of a Wishbone port, without and with a transfer under way. -/
inductive WbState
  | idle
  | active
  deriving DecidableEq

/-- The registers of the instruction port of `core_riscv`: its state, the address of the transfer,
and the two lines that request it. -/
structure InstrPort where
  state : WbState
  adr : BitVec 32
  cyc : Bool
  stb : Bool
  deriving DecidableEq

/-- The registers of the data port of `core_riscv`: its state, the address, the data and the lanes
of the transfer, and the lines that request it. -/
structure DataPort where
  state : WbState
  adr : BitVec 32
  dataW : BitVec 32
  cyc : Bool
  stb : Bool
  we : Bool
  sel : BitVec 4
  deriving DecidableEq

/-- What `register_decode` carries from fetch to decode. `isDecodeFlush` is the validity bit, low
for a bubble. -/
structure DecodeReg where
  instr : BitVec 32
  pc : BitVec 32
  pcPlus4 : BitVec 32
  isDecodeFlush : Bool
  deriving DecidableEq

/-- The content of `register_decode` after a clear: a bubble at address zero. -/
instance : Zero DecodeReg := ⟨⟨0, 0, 0, false⟩⟩

/-- A cleared `register_decode` holds no valid word. -/
@[simp]
theorem DecodeReg.zero_isDecodeFlush : (0 : DecodeReg).isDecodeFlush = false := rfl

/-- What `register_execute` carries from decode to execute: the operands, the fields of the word and
its validity. The control signals are in `ControlRegE`. -/
structure ExecuteReg where
  rd1 : BitVec 32
  rd2 : BitVec 32
  pc : BitVec 32
  rs1 : BitVec 5
  rs2 : BitVec 5
  rd : BitVec 5
  immExt : BitVec 32
  pcPlus4 : BitVec 32
  funct3 : BitVec 3
  csrAddress : BitVec 12
  csrWrite : Bool
  illegalInstruction : Bool
  op : BitVec 7
  envCallInstr : Bool
  validPc : Bool
  deriving DecidableEq

/-- The content of `register_execute` after a clear: a bubble that writes no CSR and raises no
exception. -/
instance : Zero ExecuteReg :=
  ⟨⟨0, 0, 0, 0, 0, 0, 0, 0, 0, 0, false, false, 0, false, false⟩⟩

/-- A cleared `register_execute` holds no valid instruction. -/
@[simp]
theorem ExecuteReg.zero_validPc : (0 : ExecuteReg).validPc = false := rfl

/-- A cleared `register_execute` writes no CSR. -/
@[simp]
theorem ExecuteReg.zero_csrWrite : (0 : ExecuteReg).csrWrite = false := rfl

/-- A cleared `register_execute` holds no illegal instruction. -/
@[simp]
theorem ExecuteReg.zero_illegalInstruction : (0 : ExecuteReg).illegalInstruction = false := rfl

/-- What `control_reg_e` carries from decode to execute: the control signals of the instruction
there. -/
structure ControlRegE where
  funct3 : BitVec 3
  regWrite : Bool
  resultSrc : BitVec 2
  memWrite : Bool
  jump : Bool
  branch : Bool
  aluControl : BitVec 4
  aluSrcA : Bool
  aluSrcB : Bool
  pcTargetSrc : Bool
  loadStore : Bool
  loadInstr : Bool
  mretInstr : Bool
  mulInstr : Bool
  divInstr : Bool
  deriving DecidableEq

/-- The content of `control_reg_e` after a clear, with every control signal low. -/
instance : Zero ControlRegE :=
  ⟨⟨0, false, 0, false, false, false, 0, false, false, false, false, false, false, false, false⟩⟩

/-- A cleared `control_reg_e` holds no branch. -/
@[simp]
theorem ControlRegE.zero_branch : (0 : ControlRegE).branch = false := rfl

/-- A cleared `control_reg_e` holds no jump. -/
@[simp]
theorem ControlRegE.zero_jump : (0 : ControlRegE).jump = false := rfl

/-- A cleared `control_reg_e` holds no load. -/
@[simp]
theorem ControlRegE.zero_loadInstr : (0 : ControlRegE).loadInstr = false := rfl

/-- A cleared `control_reg_e` holds no `mret`. -/
@[simp]
theorem ControlRegE.zero_mretInstr : (0 : ControlRegE).mretInstr = false := rfl

/-- A cleared `control_reg_e` holds no divide. -/
@[simp]
theorem ControlRegE.zero_divInstr : (0 : ControlRegE).divInstr = false := rfl

/-- What `register_memory` carries from execute to memory: the result, the value to store, the CSR
write and the exceptions found so far. -/
structure MemoryReg where
  aluResult : BitVec 32
  preWriteData : BitVec 32
  rd : BitVec 5
  pcPlus4 : BitVec 32
  pcTarget : BitVec 32
  funct3 : BitVec 3
  csrAddress : BitVec 12
  csrWrite : Bool
  outWriteCsr : BitVec 32
  instrAddrMisaligned : Bool
  pc : BitVec 32
  illegalInstruction : Bool
  mretInstr : Bool
  envCallInstr : Bool
  validPc : Bool
  deriving DecidableEq

/-- The content of `register_memory` after a clear: a bubble that writes no CSR and raises no
exception. -/
instance : Zero MemoryReg :=
  ⟨⟨0, 0, 0, 0, 0, 0, 0, false, 0, false, 0, false, false, false, false⟩⟩

/-- A cleared `register_memory` writes no CSR. -/
@[simp]
theorem MemoryReg.zero_csrWrite : (0 : MemoryReg).csrWrite = false := rfl

/-- A cleared `register_memory` holds no illegal instruction. -/
@[simp]
theorem MemoryReg.zero_illegalInstruction : (0 : MemoryReg).illegalInstruction = false := rfl

/-- A cleared `register_memory` holds no `mret`. -/
@[simp]
theorem MemoryReg.zero_mretInstr : (0 : MemoryReg).mretInstr = false := rfl

/-- A cleared `register_memory` holds no valid instruction. -/
@[simp]
theorem MemoryReg.zero_validPc : (0 : MemoryReg).validPc = false := rfl

/-- What `control_reg_m` carries from execute to memory: the control signals of the instruction
there. -/
structure ControlRegM where
  regWrite : Bool
  resultSrc : BitVec 2
  memWrite : Bool
  loadStore : Bool
  funct3 : BitVec 3
  deriving DecidableEq

/-- The content of `control_reg_m` after a clear, with every control signal low. -/
instance : Zero ControlRegM := ⟨⟨false, 0, false, false, 0⟩⟩

/-- A cleared `control_reg_m` writes no register. -/
@[simp]
theorem ControlRegM.zero_regWrite : (0 : ControlRegM).regWrite = false := rfl

/-- A cleared `control_reg_m` makes no access to memory. -/
@[simp]
theorem ControlRegM.zero_loadStore : (0 : ControlRegM).loadStore = false := rfl

/-- What `register_writeback` carries from memory to write-back: the values to choose the result
from, the CSR write, and all exceptions and interrupts of the instruction. -/
structure WritebackReg where
  aluResult : BitVec 32
  readData : BitVec 32
  rd : BitVec 5
  pcPlus4 : BitVec 32
  pcTarget : BitVec 32
  csrAddress : BitVec 12
  csrWrite : Bool
  outWriteCsr : BitVec 32
  instrAddrMisaligned : Bool
  pc : BitVec 32
  illegalInstruction : Bool
  storeMisaligned : Bool
  loadMisaligned : Bool
  interruptExternal : Bool
  interruptTimer : Bool
  mretInstr : Bool
  envCallInstr : Bool
  validPc : Bool
  deriving DecidableEq

/-- The content of `register_writeback` after a clear: a bubble that writes no CSR and raises no
trap. -/
instance : Zero WritebackReg :=
  ⟨⟨0, 0, 0, 0, 0, 0, false, 0, false, 0, false, false, false, false, false, false, false, false⟩⟩

/-- What `control_reg_w` carries from memory to write-back: whether a register is written, and from
which value. -/
structure ControlRegW where
  regWrite : Bool
  resultSrc : BitVec 2
  deriving DecidableEq

/-- The content of `control_reg_w` after a clear: no register is written. -/
instance : Zero ControlRegW := ⟨⟨false, 0⟩⟩

/-- The state of `processor`: the registers of the core and of the units it is built from, as one
record. -/
structure State where
  instrPort : InstrPort
  dPort : DataPort
  hazard : HazardUnit
  /-- `pc_f`. -/
  pcF : BitVec 32
  d : DecodeReg
  e : ExecuteReg
  ce : ControlRegE
  m : MemoryReg
  cm : ControlRegM
  w : WritebackReg
  cw : ControlRegW
  /-- `reg_mem`. -/
  regMem : BitVec 5 → BitVec 32
  csr : CsrExec
  div : Divider
  predictor : BranchPredictor
  /-- The latch of `main_decoder`: `out_control` in the previous cycle. -/
  outControl : OutControl
  /-- The latch of `memory_store`: `write_data_output` in the previous cycle. -/
  writeDataOutput : BitVec 32

/-- The inputs of `processor` in one cycle, `wb_reset` being low. -/
structure Inputs where
  interruptExternal : Bool
  interruptTimer : Bool
  instrWbData : BitVec 32
  instrWbAck : Bool
  dWbDataR : BitVec 32
  dWbAck : Bool

/-- An edge with `wb_reset` high. The register file, the predictor tables, the data registers of
the divider, `mstatus_mpie` and the latches have no reset. -/
def State.reset (s : State) : State where
  instrPort := ⟨.idle, 0, false, false⟩
  dPort := ⟨.idle, 0, 0, false, false, false, 0⟩
  hazard := 0
  pcF := 0
  d := 0
  e := 0
  ce := 0
  m := 0
  cm := 0
  w := 0
  cw := 0
  -- no reset
  regMem := s.regMem
  csr := s.csr.reset
  div := { s.div with detectStart := EdgeDetector.cleared, divBusy := false }
  predictor := s.predictor
  outControl := s.outControl
  writeDataOutput := s.writeDataOutput

/-- A power-on state: the predictor tables hold the initial values of their signals, whatever the
other registers hold, and one reset edge has passed. -/
def State.PowerOn (s : State) : Prop :=
  ∃ s₀ : State, s₀.predictor = BranchPredictor.initial ∧ s = s₀.reset

end RvPipelineCore

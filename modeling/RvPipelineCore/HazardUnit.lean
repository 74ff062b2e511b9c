import RvPipelineCore.Common

/-!
# The hazard unit

`hazard_unit`: forwarding, stalls and flushes, and the five flip-flops that remember a pending
redirect, CSR access, division, illegal instruction and exception.
-/

namespace RvPipelineCore

/-- The registers of `hazard_unit`: five flags, each set and cleared by an event of the pipeline. -/
structure HazardUnit where
  ignoreInstrMemHandshake : Bool
  csrPending : Bool
  divPending : Bool
  pendingExceptionF : Bool
  pendingExceptionM : Bool
  deriving DecidableEq

/-- The hazard unit after a reset, with all five flags low. -/
instance : Zero HazardUnit := ⟨⟨false, false, false, false, false⟩⟩

namespace HazardUnit

/-- `forward_a_e` and `forward_b_e`: the same selection for the two source registers. -/
def forward (rsE rdM rdW : BitVec 5) (regWriteM regWriteW : Bool) : BitVec 2 :=
  -- the memory stage has the younger value
  if rsE ≠ 0 then
    if rsE = rdM ∧ regWriteM = true then 0b10
    else if rsE = rdW ∧ regWriteW = true then 0b01
    else 0b00
  else 0b00

/-- Nothing is forwarded from stages that write no register. -/
@[simp] theorem forward_false (rsE rdM rdW : BitVec 5) :
    forward rsE rdM rdW false false = 0b00 := by
  simp [forward]

/-- `lw_stall_d`: the instruction in execute is a load into one of the two registers that the word
in decode names. -/
def lwStallD (loadInstrE : Bool) (rdE rs1D rs2D : BitVec 5) : Bool :=
  loadInstrE && (rdE == rs1D || rdE == rs2D)

/-- The next value of `ignore_instr_mem_handshake`: set by a jump or a trap, cleared by the
acknowledge of the fetch that was under way. -/
def ignoreNext (h : HazardUnit) (jumpInstr trapCaught rawInstrMemHandshake : Bool) : Bool :=
  -- set by a change of the PC, cleared by the acknowledge of the transfer that was under way
  if h.ignoreInstrMemHandshake then
    if rawInstrMemHandshake then false else h.ignoreInstrMemHandshake
  else
    if jumpInstr || trapCaught then true else h.ignoreInstrMemHandshake

/-- A set/clear flip-flop, set having priority: the shape of the four pending flags. -/
def setClear (set clear q : Bool) : Bool :=
  if set then true else if clear then false else q

/-- The next value of `csr_pending`: set by a CSR instruction in execute and cleared by one in
write-back, as far as the two inputs are driven. -/
def csrPendingNext (h : HazardUnit) (csrInstrE csrInstrW : Bool) : Bool :=
  setClear csrInstrE csrInstrW h.csrPending

/-- The next value of `div_pending`: set by a divide in decode and cleared when the divider
completes. -/
def divPendingNext (h : HazardUnit) (divInstrD divCompletedE : Bool) : Bool :=
  setClear divInstrD divCompletedE h.divPending

/-- The next value of `pending_exception_f`: set by an illegal word in decode while no exception is
pending in memory, cleared by an illegal instruction in write-back. -/
def pendingExceptionFNext (h : HazardUnit) (illegalInstructionD illegalInstructionW : Bool) :
    Bool :=
  setClear (illegalInstructionD && !h.pendingExceptionM) illegalInstructionW h.pendingExceptionF

/-- The next value of `pending_exception_m`: set by an exception in memory and cleared by one in
write-back. -/
def pendingExceptionMNext (h : HazardUnit) (isInstrExceptionM isInstrExceptionW : Bool) : Bool :=
  setClear isInstrExceptionM isInstrExceptionW h.pendingExceptionM

end HazardUnit

end RvPipelineCore

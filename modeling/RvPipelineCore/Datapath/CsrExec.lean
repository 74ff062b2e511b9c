import RvPipelineCore.Common

/-!
# The CSR unit

`csr_exec` of `rtl/core/datapath`: the machine-mode CSRs, trap entry and the interrupt logic. CSRs
are read in execute and written from write-back.
-/

namespace RvPipelineCore

/-- The addresses of the CSRs that `csr_exec` implements, as the constants of its source give
them. -/
def csrMcycleAddr : BitVec 12 := 0xB00
@[inherit_doc csrMcycleAddr] def csrMcyclehAddr : BitVec 12 := 0xB80
@[inherit_doc csrMcycleAddr] def csrMinstretAddr : BitVec 12 := 0xB02
@[inherit_doc csrMcycleAddr] def csrMinstrethAddr : BitVec 12 := 0xB82
@[inherit_doc csrMcycleAddr] def csrMvendorIdAddr : BitVec 12 := 0xF11
@[inherit_doc csrMcycleAddr] def csrMarchitectureIdAddr : BitVec 12 := 0xF12
@[inherit_doc csrMcycleAddr] def csrMimplementationIdAddr : BitVec 12 := 0xF13
@[inherit_doc csrMcycleAddr] def csrMhartIdAddr : BitVec 12 := 0xF14
@[inherit_doc csrMcycleAddr] def csrMisaAddr : BitVec 12 := 0x301
@[inherit_doc csrMcycleAddr] def csrMstatusAddr : BitVec 12 := 0x300
@[inherit_doc csrMcycleAddr] def csrMtvecAddr : BitVec 12 := 0x305
@[inherit_doc csrMcycleAddr] def csrMieAddr : BitVec 12 := 0x304
@[inherit_doc csrMcycleAddr] def csrMipAddr : BitVec 12 := 0x344
@[inherit_doc csrMcycleAddr] def csrMepcAddr : BitVec 12 := 0x341
@[inherit_doc csrMcycleAddr] def csrMcauseAddr : BitVec 12 := 0x342
@[inherit_doc csrMcycleAddr] def csrMtvalAddr : BitVec 12 := 0x343
@[inherit_doc csrMcycleAddr] def csrMscratchAddr : BitVec 12 := 0x340

/-- The identification generics of `csr_exec`, with the values that `datapath` instantiates it
with. -/
def vendorId : BitVec 32 := 32
@[inherit_doc vendorId] def architectureId : BitVec 32 := 0
@[inherit_doc vendorId] def implementationId : BitVec 32 := 0
@[inherit_doc vendorId] def hartId : BitVec 32 := 0

/-- The registers of `csr_exec`. `mtrapCause` is the latch the cause process infers. -/
structure CsrExec where
  cycle : BitVec 64
  minstret : BitVec 64
  mstatusMie : Bool
  mstatusMpie : Bool
  mtvecBase : BitVec 30
  mtvecMode : BitVec 2
  meie : Bool
  mtie : Bool
  msie : Bool
  meip : Bool
  mtip : Bool
  msip : Bool
  mepcR : BitVec 31
  interrupt : Bool
  exceptionCode : BitVec 4
  mtval : BitVec 32
  mscratch : BitVec 32
  mtrapCause : BitVec 4
  interruptExternalEdge : EdgeDetector
  interruptTimerEdge : EdgeDetector

/-- The inputs that `csr_exec` takes from write-back: the write port of the CSRs, the exceptions and
interrupts of the instruction, its PC and its validity. -/
structure CsrWriteback where
  csrAddressWrite : BitVec 12
  writeEnable : Bool
  writeValue : BitVec 32
  envCallInstr : Bool
  illegalInstruction : Bool
  instrAddrMisaligned : Bool
  loadMisaligned : Bool
  storeMisaligned : Bool
  interruptExternalW : Bool
  interruptTimerW : Bool
  instrExceptPc : BitVec 32
  addrExcept : BitVec 32
  mretInstr : Bool
  validPcW : Bool

namespace CsrWriteback

variable (w : CsrWriteback)

/-- `is_exception`: the instruction in write-back raises one of the five synchronous exceptions. -/
def isException : Bool :=
  w.instrAddrMisaligned || w.illegalInstruction || w.loadMisaligned || w.storeMisaligned ||
    w.envCallInstr

/-- `trap_caught`: the instruction in write-back raises an exception, or an interrupt was attached
to it in memory. -/
def trapCaught : Bool :=
  w.isException || w.interruptExternalW || w.interruptTimerW

/-- The write port of write-back is enabled and addresses the CSR at `addr`. -/
def writes (addr : BitVec 12) : Bool :=
  w.csrAddressWrite == addr && w.writeEnable

/-- `mtrap_cause`, a latch holding `q` where the process does not assign it. -/
def mtrapCause (q : BitVec 4) : BitVec 4 :=
  -- an exception hides an interrupt on the same instruction
  if w.isException then
    if w.instrAddrMisaligned then 0
    else if w.illegalInstruction then 2
    else if w.loadMisaligned then 4
    else if w.storeMisaligned then 6
    -- ecall and ebreak, told apart by their immediate
    else if w.envCallInstr = true ∧ w.csrAddressWrite = 0 then 11
    else if w.envCallInstr = true ∧ w.csrAddressWrite = 1 then 3
    else q
  else
    if w.interruptExternalW then 11
    else if w.interruptTimerW then 7
    else q

end CsrWriteback

namespace CsrExec

variable (c : CsrExec)

/-- `csr_misa`: the constant that announces the base instruction set with multiplication and
division. -/
def misa : BitVec 32 := 0x40001100

/-- `csr_mstatus`: the two interrupt enables at bits 3 and 7, with the previous privilege fixed to
machine mode. -/
def mstatus : BitVec 32 :=
  0#19 ++ 3#2 ++ 0#3 ++ BitVec.ofBool c.mstatusMpie ++ 0#3 ++ BitVec.ofBool c.mstatusMie ++ 0#3

/-- `csr_mtvec`: the base of the trap vector above its two mode bits. -/
def mtvec : BitVec 32 := c.mtvecBase ++ c.mtvecMode

/-- The layout `csr_mie` and `csr_mip` share: bits 11, 7 and 3. -/
def interruptBits (e t s : Bool) : BitVec 32 :=
  0#20 ++ BitVec.ofBool e ++ 0#3 ++ BitVec.ofBool t ++ 0#3 ++ BitVec.ofBool s ++ 0#3

/-- `csr_mie`: the enables of the external, timer and software interrupt, each at its bit. -/
def mie : BitVec 32 := interruptBits c.meie c.mtie c.msie

/-- `csr_mip`: the pending flags of the external, timer and software interrupt, each at its bit. -/
def mip : BitVec 32 := interruptBits c.meip c.mtip c.msip

/-- `csr_mepc`, which is also `out_mepc`: the saved PC, whose lowest bit is always zero. -/
def mepc : BitVec 32 := c.mepcR ++ 0#1

/-- `csr_mcause`: the code of the last trap, with the interrupt flag as its highest bit. -/
def mcause : BitVec 32 := BitVec.ofBool c.interrupt ++ 0#27 ++ c.exceptionCode

/-- `trap_jump_addr`: the base of the trap vector, where fetch continues after every trap, whatever
the mode bits say. -/
def trapJumpAddr : BitVec 32 := c.mtvecBase ++ 0#2

/-- `read_csr`, which is also `out_write_reg`: the value of the CSR at the address, or zero if there
is no such CSR. -/
def readCsr (csrAddressRead : BitVec 12) : BitVec 32 :=
  if csrAddressRead = csrMcycleAddr then c.cycle.extractLsb' 0 32
  else if csrAddressRead = csrMcyclehAddr then c.cycle.extractLsb' 32 32
  else if csrAddressRead = csrMinstretAddr then c.minstret.extractLsb' 0 32
  else if csrAddressRead = csrMinstrethAddr then c.minstret.extractLsb' 32 32
  else if csrAddressRead = csrMvendorIdAddr then vendorId
  else if csrAddressRead = csrMarchitectureIdAddr then architectureId
  else if csrAddressRead = csrMimplementationIdAddr then implementationId
  else if csrAddressRead = csrMhartIdAddr then hartId
  else if csrAddressRead = csrMisaAddr then misa
  else if csrAddressRead = csrMstatusAddr then c.mstatus
  else if csrAddressRead = csrMtvecAddr then c.mtvec
  else if csrAddressRead = csrMieAddr then c.mie
  else if csrAddressRead = csrMipAddr then c.mip
  else if csrAddressRead = csrMepcAddr then c.mepc
  else if csrAddressRead = csrMcauseAddr then c.mcause
  else if csrAddressRead = csrMtvalAddr then c.mtval
  else if csrAddressRead = csrMscratchAddr then c.mscratch
  else 0

/-- Reading at the address of `mstatus` gives `csr_mstatus`. -/
@[simp] theorem readCsr_mstatus : c.readCsr csrMstatusAddr = c.mstatus := rfl

/-- Reading at the address of `mtvec` gives `csr_mtvec`. -/
@[simp] theorem readCsr_mtvec : c.readCsr csrMtvecAddr = c.mtvec := rfl

/-- Reading at the address of `mie` gives `csr_mie`. -/
@[simp] theorem readCsr_mie : c.readCsr csrMieAddr = c.mie := rfl

/-- Reading at the address of `mip` gives `csr_mip`. -/
@[simp] theorem readCsr_mip : c.readCsr csrMipAddr = c.mip := rfl

/-- Reading at the address of `mepc` gives `csr_mepc`. -/
@[simp] theorem readCsr_mepc : c.readCsr csrMepcAddr = c.mepc := rfl

/-- Reading at the address of `mcause` gives `csr_mcause`. -/
@[simp] theorem readCsr_mcause : c.readCsr csrMcauseAddr = c.mcause := rfl

/-- Reading at the address of `mtval` gives the register of `mtval`. -/
@[simp] theorem readCsr_mtval : c.readCsr csrMtvalAddr = c.mtval := rfl

/-- Reading at the address of `mscratch` gives the register of `mscratch`. -/
@[simp] theorem readCsr_mscratch : c.readCsr csrMscratchAddr = c.mscratch := rfl

/-! The registers, as bits of what is read. -/

/-- The interrupt enable and its saved value stand at bits 3 and 7 of `mstatus`. -/
theorem mstatus_bits :
    c.mstatus.getLsbD 3 = c.mstatusMie ∧ c.mstatus.getLsbD 7 = c.mstatusMpie := by
  simp only [mstatus]
  cases c.mstatusMpie <;> cases c.mstatusMie <;> exact ⟨rfl, rfl⟩

/-- The flags of the external, timer and software interrupt stand at bits 11, 7 and 3. -/
theorem interruptBits_bits (e t s : Bool) :
    (interruptBits e t s).getLsbD 11 = e ∧ (interruptBits e t s).getLsbD 7 = t ∧
      (interruptBits e t s).getLsbD 3 = s := by
  cases e <;> cases t <;> cases s <;> exact ⟨rfl, rfl, rfl⟩

/-- The base and the mode of the trap vector are the upper thirty and the lower two bits of
`mtvec`. -/
theorem mtvec_parts :
    c.mtvec.extractLsb' 2 30 = c.mtvecBase ∧ c.mtvec.extractLsb' 0 2 = c.mtvecMode := by
  refine ⟨BitVec.extractLsb'_append_eq_left, ?_⟩
  rw [mtvec, BitVec.extractLsb'_append_eq_of_add_le le_rfl, BitVec.extractLsb'_eq_self]

/-- The stored part of `mepc` is everything above its lowest bit. -/
theorem mepc_part : c.mepc.extractLsb' 1 31 = c.mepcR := BitVec.extractLsb'_append_eq_left

/-- `out_write_csr`: the value that a CSR instruction in execute will write, from the value read and
its operand. It replaces, sets or clears bits as `funct3` says. -/
def outWriteCsr (funct3 : BitVec 3) (csrAddressRead : BitVec 12) (rd1 immExt : BitVec 32) :
    BitVec 32 :=
  -- csrrw, csrrwi, csrrs, csrrsi, csrrc, csrrci
  if funct3 = 0b001 then rd1
  else if funct3 = 0b101 then immExt
  else if funct3 = 0b010 then c.readCsr csrAddressRead ||| rd1
  else if funct3 = 0b110 then c.readCsr csrAddressRead ||| immExt
  else if funct3 = 0b011 then c.readCsr csrAddressRead &&& ~~~rd1
  else if funct3 = 0b111 then c.readCsr csrAddressRead &&& ~~~immExt
  else 0

/-- `intr_ext_async`: the level in front of the edge detector of the external interrupt. -/
def intrExtAsync (interruptExternal : Bool) (pcE : BitVec 32) : Bool :=
  -- `valid_pc`: a bubble in execute has address 0
  c.mstatusMie && c.meie && interruptExternal && pcE != 0

/-- `intr_timer_async`: the level in front of the edge detector of the timer interrupt. -/
def intrTimerAsync (interruptTimer : Bool) (pcE : BitVec 32) : Bool :=
  c.mstatusMie && c.mtie && interruptTimer && pcE != 0

/-- `interrupt_external_m`: the external line rose one cycle ago, as the edge detector sees it. -/
def interruptExternalM : Bool := c.interruptExternalEdge.edgeDetected

/-- `interrupt_timer_m`: the timer line rose one cycle ago, as the edge detector sees it. -/
def interruptTimerM : Bool := c.interruptTimerEdge.edgeDetected

/-- One clock edge of `csr_exec`: the counters go on, a write from write-back replaces the CSR it
addresses, and a trap or an `mret` updates the trap registers. -/
def next (w : CsrWriteback) (interruptExternal interruptTimer : Bool) (pcE : BitVec 32) :
    CsrExec where
  mscratch := if w.writes csrMscratchAddr then w.writeValue else c.mscratch
  -- a write to one half stops the count for a cycle
  cycle :=
    if w.writes csrMcycleAddr then c.cycle.extractLsb' 32 32 ++ w.writeValue
    else if w.writes csrMcyclehAddr then w.writeValue ++ c.cycle.extractLsb' 0 32
    else c.cycle + 1
  minstret :=
    if w.writes csrMinstretAddr then c.minstret.extractLsb' 32 32 ++ w.writeValue
    else if w.writes csrMinstrethAddr then w.writeValue ++ c.minstret.extractLsb' 0 32
    else if w.validPcW then c.minstret + 1
    else c.minstret
  -- one level of nesting: a trap pushes `MIE`, an `mret` pops it
  mstatusMie :=
    if w.trapCaught then false
    else if w.mretInstr then c.mstatusMpie
    else if w.writes csrMstatusAddr then w.writeValue.getLsbD 3
    else c.mstatusMie
  mstatusMpie :=
    if w.trapCaught then c.mstatusMie
    else if w.mretInstr then true
    else c.mstatusMpie
  mtvecBase := if w.writes csrMtvecAddr then w.writeValue.extractLsb' 2 30 else c.mtvecBase
  mtvecMode := if w.writes csrMtvecAddr then w.writeValue.extractLsb' 0 2 else c.mtvecMode
  meie := if w.writes csrMieAddr then w.writeValue.getLsbD 11 else c.meie
  mtie := if w.writes csrMieAddr then w.writeValue.getLsbD 7 else c.mtie
  msie := if w.writes csrMieAddr then w.writeValue.getLsbD 3 else c.msie
  -- the software write comes last in the process and wins over the hardware set
  meip :=
    if w.writes csrMipAddr then w.writeValue.getLsbD 11
    else if w.interruptExternalW then true else c.meip
  mtip :=
    if w.writes csrMipAddr then w.writeValue.getLsbD 7
    else if w.interruptTimerW then true else c.mtip
  msip := if w.writes csrMipAddr then w.writeValue.getLsbD 3 else c.msip
  -- a trap wins over a write
  mepcR :=
    if w.trapCaught then w.instrExceptPc.extractLsb' 1 31
    else if w.writes csrMepcAddr then w.writeValue.extractLsb' 1 31
    else c.mepcR
  interrupt := if w.trapCaught then !w.isException else c.interrupt
  exceptionCode := if w.trapCaught then w.mtrapCause c.mtrapCause else c.exceptionCode
  mtval :=
    if w.trapCaught then (if w.illegalInstruction then 0 else w.addrExcept)
    else if w.writes csrMtvalAddr then w.writeValue
    else c.mtval
  mtrapCause := w.mtrapCause c.mtrapCause
  -- `reset` is low in every cycle of a run
  interruptExternalEdge :=
    c.interruptExternalEdge.next false (c.intrExtAsync interruptExternal pcE)
  interruptTimerEdge :=
    c.interruptTimerEdge.next false (c.intrTimerAsync interruptTimer pcE)

/-- What a reset leaves. `mstatus_mpie` and the cause latch are not reset. -/
def reset : CsrExec where
  mscratch := 0
  cycle := 0
  minstret := 0
  mstatusMie := false
  mstatusMpie := c.mstatusMpie
  mtvecBase := 0
  mtvecMode := 0
  meie := false
  mtie := false
  msie := false
  meip := false
  mtip := false
  msip := false
  mepcR := 0
  interrupt := false
  exceptionCode := 0
  mtval := 0
  mtrapCause := c.mtrapCause
  interruptExternalEdge := EdgeDetector.cleared
  interruptTimerEdge := EdgeDetector.cleared

end CsrExec

end RvPipelineCore

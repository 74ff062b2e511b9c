import Mathlib.Data.Fin.VecNotation
import RvPipelineCore.Lib.Bits
import RvPipelineCore.Soc.Uart.Receiver
import RvPipelineCore.Soc.Uart.Transmitter

/-!
# The registers of the UART

`uart_regs` of `rtl/soc/uart`: the registers that the bus sees, the divider that makes `enable`, the
line status, and the interrupt. The transmitter and the receiver are in it.
-/

namespace RvPipelineCore

/-- The two registers behind an interrupt: it as it was in the cycle before, and whether it is
pending. -/
structure IntFlag where
  d : Bool
  pnd : Bool
  deriving Inhabited

/-- What becomes of the registers of the interrupt `int`, which `ier` masks by `mask`. -/
def IntFlag.next (f : IntFlag) (clear int mask : Bool) : IntFlag where
  d := int
  pnd := if clear then false else if int && !f.d then true else f.pnd && mask

/-- The registers of `uart_regs`: the transmitter, the receiver, the registers that software sees,
and the flip-flops of the interrupts. -/
structure UartRegs where
  transmitter : UartTransmitter
  receiver : UartReceiver
  /-- `flop_0` and `sync_dat_o` of `uart_sync_flops`. -/
  flop0 : Bool
  srxPad : Bool
  enable : Bool
  ier : BitVec 4
  iir : BitVec 4
  fcr : BitVec 2
  mcr : BitVec 5
  lcr : BitVec 8
  msr : BitVec 8
  dl : BitVec 16
  scratch : BitVec 8
  startDlc : Bool
  lsrMaskD : Bool
  msiReset : Bool
  dlc : BitVec 16
  intO : Bool
  rxReset : Bool
  txReset : Bool
  tfPush : Bool
  rfPop : Bool
  delayedModemSignals : BitVec 4
  /-- `lsr0_d` to `lsr7_d`. -/
  lsrD : BitVec 8
  /-- `lsr0r` to `lsr7r`. -/
  lsr : BitVec 8
  blockCnt : BitVec 8
  rlsInt : IntFlag
  rdaInt : IntFlag
  threInt : IntFlag
  msInt : IntFlag
  tiInt : IntFlag
  deriving Inhabited

namespace UartRegs

/-- The inputs of `uart_regs` in one cycle: the access of the bus, the modem lines and the level of
the receiving line. -/
structure In where
  wbAddrI : BitVec 3
  wbDatI : BitVec 8
  wbWeI : Bool
  wbReI : Bool
  modemInputs : BitVec 4
  srxPadI : Bool

/-- The bus writes to the register at `addr` in this cycle. -/
def In.writes (i : In) (addr : BitVec 3) : Bool := i.wbWeI && i.wbAddrI == addr

variable (s : UartRegs) (i : In)

/-- `wb_rst_i`: the registers that software sees have their initial values, and neither transmitter
nor receiver is at work. -/
def reset : UartRegs where
  transmitter := s.transmitter.reset
  receiver := s.receiver.reset
  flop0 := true
  srxPad := true
  enable := false
  ier := 0
  iir := 1
  fcr := 0b11
  mcr := 0
  lcr := 0b00000011
  msr := 0
  dl := 0
  scratch := 0
  startDlc := false
  lsrMaskD := false
  msiReset := true
  dlc := 0
  intO := false
  rxReset := false
  txReset := false
  tfPush := false
  rfPop := false
  delayedModemSignals := 0
  lsrD := 0b01100000
  lsr := 0b01100000
  blockCnt := 0
  rlsInt := ⟨false, false⟩
  rdaInt := ⟨false, false⟩
  threInt := ⟨false, false⟩
  msInt := ⟨false, false⟩
  tiInt := ⟨false, false⟩

/-! ## Wires -/

/-- `dlab`: bit 7 of the line control register, which puts the divisor at the addresses 0 and 1. -/
def dlab : Bool := s.lcr.getLsbD 7
/-- `loopback`: bit 4 of the modem control register, which feeds the transmitter back to the
receiver. -/
def loopback : Bool := s.mcr.getLsbD 4

/-- The bus reads the register at `addr` in this cycle, with the divisor not in its place. -/
def reads (addr : BitVec 3) : Bool := i.wbReI && i.wbAddrI == addr && !s.dlab

/-- `lsr_mask_condition`: the bus reads the line status, which clears its error bits. -/
def lsrMaskCondition : Bool := s.reads i 5
/-- `iir_read`: the bus reads the interrupt identification. -/
def iirRead : Bool := s.reads i 2
/-- `msr_read`: the bus reads the modem status. -/
def msrRead : Bool := s.reads i 6
/-- `fifo_read`: the bus reads the byte at the output of the receiver FIFO. -/
def fifoRead : Bool := s.reads i 0
/-- `fifo_write`: the bus writes a byte for the transmitter FIFO. -/
def fifoWrite : Bool := i.writes 0 && !s.dlab
/-- `lsr_mask`: the first cycle of a read of the line status. -/
def lsrMask : Bool := s.lsrMaskCondition i && !s.lsrMaskD

/-- `serial_out`: the level that the transmitter puts out. -/
def serialOut : Bool := s.transmitter.stxPadO s.lcr
/-- `serial_in`: the level that the receiver sees, which in loopback is that of the transmitter. -/
def serialIn : Bool := if s.loopback then s.serialOut else s.srxPad
/-- `stx_pad_o`: the level of the sending line, which in loopback stays high. -/
def stxPadO : Bool := if s.loopback then true else s.serialOut

/-- `rf_data_out`: the entry at the output of the receiver FIFO. -/
def rfDataOut : BitVec 11 := s.receiver.fifo.dataOut

/-- `wb_dat_o`: the value that a read of the register at the address of the bus returns. -/
def wbDatO : BitVec 8 :=
  match i.wbAddrI with
  | 0 => if s.dlab then s.dl.extractLsb' 0 8 else s.rfDataOut.extractLsb' 3 8
  | 1 => if s.dlab then s.dl.extractLsb' 8 8 else s.ier.setWidth 8
  | 2 => 0b1100#4 ++ s.iir
  | 3 => s.lcr
  | 5 => s.lsr
  | 6 => s.msr
  | 7 => s.scratch
  | _ => 0

/-- `trigger_level`: the number of received bytes that raises the interrupt for received data. -/
def triggerLevel : BitVec 4 :=
  match s.fcr with
  | 0b00 => 1
  | 0b01 => 4
  | 0b10 => 8
  | _ => 14

/-- `{dcd, ri, dsr, cts}`: the four modem lines, which are active low. -/
def modemSignals : BitVec 4 := ~~~Bits.ofFn fun k : Fin 4 => i.modemInputs.getLsbD k.rev.val

/-- `{dcd_c, ri_c, dsr_c, cts_c}`: the four modem lines, or in loopback the bits of the modem
control register that stand for them. -/
def modemComplement : BitVec 4 :=
  Bits.ofFn fun k : Fin 4 =>
    if s.loopback then s.mcr.getLsbD (![1, 0, 2, 3] k) else i.modemInputs.getLsbD k.rev.val

/-- `block_value`: one character time less one stop bit, in sixteenths, during which `THRE` is held
back after a write. -/
def blockValue : BitVec 8 :=
  match s.lcr.extractLsb' 0 4 with
  | 0b0000 => 95
  | 0b0100 => 103
  | 0b0001 | 0b1000 => 111
  | 0b1100 => 119
  | 0b0010 | 0b0101 | 0b1001 => 127
  | 0b0011 | 0b0110 | 0b1010 | 0b1101 => 143
  | 0b0111 | 0b1011 | 0b1110 => 159
  | _ => 175

/-- `thre_set_en`: the block counter has come to zero, so that `THRE` may be set. -/
def threSetEn : Bool := s.blockCnt == 0

/-- `lsr0` to `lsr7`: the conditions whose rising edges set the bits of the line status. -/
def lsrSet : BitVec 8 :=
  let empty := s.transmitter.fifo.count == 0 && s.threSetEn
  Bits.ofFn ![s.receiver.fifo.count == 0 && s.receiver.rfPushPulse,
    s.receiver.fifo.overrun,
    s.rfDataOut.getLsbD 1,
    s.rfDataOut.getLsbD 0,
    s.rfDataOut.getLsbD 2,
    empty,
    empty && s.transmitter.tstate == .idle,
    s.receiver.fifo.errorBit || s.receiver.fifo.overrun]

/-- What clears the bits `lsr0r` to `lsr7r` of the line status: a read of the status, a read or a
reset of the receiver FIFO, and a write of a byte. -/
def lsrClear : BitVec 8 :=
  let m := s.lsrMask i
  let w := s.fifoWrite i
  Bits.ofFn ![s.receiver.fifo.count == 1 && s.rfPop && !s.receiver.rfPushPulse || s.rxReset,
    m, m, m, m, w, w, m]

/-- `rls`: the condition of the interrupt for an error on the line. -/
def rls : Bool :=
  s.ier.getLsbD 2 && (s.lsr.getLsbD 1 || s.lsr.getLsbD 2 || s.lsr.getLsbD 3 || s.lsr.getLsbD 4)
/-- `rda`: the condition of the interrupt for received data. -/
def rda : Bool := s.ier.getLsbD 0 && decide (s.receiver.fifo.count ≥ s.triggerLevel.setWidth 5)
/-- `thre`: the condition of the interrupt for an empty transmitter. -/
def thre : Bool := s.ier.getLsbD 1 && s.lsr.getLsbD 5
/-- `ms`: the condition of the interrupt for a changed modem line. -/
def ms : Bool := s.ier.getLsbD 3 && s.msr.extractLsb' 0 4 != 0
/-- `ti`: the condition of the interrupt for received data that nobody reads. -/
def ti : Bool := s.ier.getLsbD 0 && s.receiver.counterT == 0 && s.receiver.fifo.count != 0

/-- What the interrupt identification register takes: the code of the pending interrupt with the
highest priority. -/
def iirNext : BitVec 4 :=
  if s.rlsInt.pnd then 0b0110
  else if s.rda then 0b0100
  else if s.tiInt.pnd then 0b1100
  else if s.threInt.pnd then 0b0010
  else if s.msInt.pnd then 0b0000
  else 0b0001

/-- What `int_o` takes: an interrupt is pending and not just being cleared. -/
def intNext : Bool :=
  if s.rlsInt.pnd then !s.lsrMask i
  else if s.rdaInt.pnd then true
  else if s.tiInt.pnd then !s.fifoRead i
  else if s.threInt.pnd then !(s.fifoWrite i && s.iirRead i)
  else if s.msInt.pnd then !s.msrRead i
  else false

/-! ## One clock edge -/

/-- What the divisor takes: a write to one of its bytes while `dlab` is set replaces this byte. -/
def dlNext : BitVec 16 :=
  (if i.writes 1 && s.dlab then i.wbDatI else s.dl.extractLsb' 8 8) ++
    (if i.writes 0 && s.dlab then i.wbDatI else s.dl.extractLsb' 0 8)

/-- One clock edge of `uart_regs`: the transmitter and the receiver take an edge, and every register
follows its own process. -/
def next : UartRegs where
  transmitter := s.transmitter.next
    ⟨s.lcr, s.tfPush, i.wbDatI, s.enable, s.txReset, s.lsrMask i⟩
  receiver := s.receiver.next ⟨s.lcr, s.rfPop, s.serialIn, s.enable, s.rxReset, s.lsrMask i⟩
  flop0 := i.srxPadI
  srxPad := s.flop0
  -- a tick of the transmitter and the receiver
  enable := s.dl != 0 && s.dlc == 0
  ier := if i.writes 1 && !s.dlab then i.wbDatI.extractLsb' 0 4 else s.ier
  iir := s.iirNext
  fcr := if i.writes 2 then i.wbDatI.extractLsb' 6 2 else s.fcr
  mcr := if i.writes 4 then i.wbDatI.extractLsb' 0 5 else s.mcr
  lcr := if i.writes 3 then i.wbDatI else s.lcr
  msr :=
    s.modemComplement i ++
      if s.msiReset then 0
      else s.msr.extractLsb' 0 4 ||| (modemSignals i ^^^ s.delayedModemSignals)
  dl := s.dlNext i
  scratch := if i.writes 7 then i.wbDatI else s.scratch
  startDlc := i.writes 0 && s.dlab
  lsrMaskD := s.lsrMaskCondition i
  msiReset := if s.msiReset then false else s.msrRead i
  dlc := if s.startDlc || s.dlc == 0 then s.dl - 1 else s.dlc - 1
  intO := s.intNext i
  rxReset := i.writes 2 && i.wbDatI.getLsbD 1
  txReset := i.writes 2 && i.wbDatI.getLsbD 2
  tfPush := i.writes 0 && !s.dlab
  rfPop := if s.rfPop then false else s.fifoRead i
  delayedModemSignals := modemSignals i
  lsrD := s.lsrSet
  -- a bit of the line status is set by an edge and stays until it is cleared
  lsr := (s.lsr ||| (s.lsrSet &&& ~~~s.lsrD)) &&& ~~~s.lsrClear i
  -- a byte written while the bit `THRE` is set holds its edge back for about one character
  blockCnt :=
    if s.lsr.getLsbD 5 && s.fifoWrite i then s.blockValue
    else if s.enable && s.blockCnt != 0 then s.blockCnt - 1
    else s.blockCnt
  rlsInt := s.rlsInt.next (s.lsrMask i) s.rls (s.ier.getLsbD 2)
  rdaInt := s.rdaInt.next
    (s.receiver.fifo.count == s.triggerLevel.setWidth 5 && s.fifoRead i) s.rda (s.ier.getLsbD 0)
  threInt := s.threInt.next
    (s.fifoWrite i || s.iirRead i && !s.iir.getLsbD 0 && s.iir.extractLsb' 1 3 == 0b001)
    s.thre (s.ier.getLsbD 1)
  msInt := s.msInt.next (s.msrRead i) s.ms (s.ier.getLsbD 3)
  tiInt := s.tiInt.next (s.fifoRead i) s.ti (s.ier.getLsbD 0)

end UartRegs

end RvPipelineCore

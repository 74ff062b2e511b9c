import RvPipelineCore.Lib.SerialFormat
import RvPipelineCore.Soc.Uart.Fifo

/-!
# The receiver of the UART

`uart_receiver` of `rtl/soc/uart`, with its FIFO `uart_rfifo`, which keeps three error bits beside
each byte.
-/

namespace RvPipelineCore

open Serial

/-! ## The FIFO -/

/-- The registers of `uart_rfifo`: the memories of the bytes and of their error bits, the two
pointers, the count and the overrun flag. -/
structure UartRfifo where
  ram : BitVec 4 → BitVec 8
  fifo : BitVec 4 → BitVec 3
  top : BitVec 4
  bottom : BitVec 4
  count : BitVec 5
  overrun : Bool
  deriving Inhabited

namespace UartRfifo

variable (s : UartRfifo)

/-- `data_out`: the byte at the bottom of the queue with its three error bits. -/
def dataOut : BitVec 11 := s.ram s.bottom ++ s.fifo s.bottom

/-- `error_bit`: one of the sixteen places has an error bit set. -/
def errorBit : Bool := (List.range 16).any fun i => s.fifo (BitVec.ofNat 4 i) != 0

/-- `wb_rst_i`, which clears the error bits, the pointers, the count and the flag and leaves the
bytes. -/
def reset : UartRfifo := ⟨s.ram, fun _ => 0, 0, 0, 0, false⟩

/-- `fifo`, `top`, `bottom` and `count` after a clock edge without a reset of the FIFO. A pop clears
the error bits of its place. -/
def pointers (push pop : Bool) (flags : BitVec 3) :
    (BitVec 4 → BitVec 3) × BitVec 4 × BitVec 4 × BitVec 5 :=
  match push, pop with
  | true, false =>
    if s.count < 16 then (Function.update s.fifo s.top flags, s.top + 1, s.bottom, s.count + 1)
    else (s.fifo, s.top, s.bottom, s.count)
  | false, true =>
    if s.count > 0 then (Function.update s.fifo s.bottom 0, s.top, s.bottom + 1, s.count - 1)
    else (s.fifo, s.top, s.bottom, s.count)
  | true, true => (Function.update s.fifo s.top flags, s.top + 1, s.bottom + 1, s.count)
  | false, false => (s.fifo, s.top, s.bottom, s.count)

/-- One clock edge of `uart_rfifo`: the byte is written by a push, the pointers and error bits
follow, and a push into a full FIFO sets the overrun flag. -/
def next (push pop : Bool) (dataIn : BitVec 11) (fifoReset resetStatus : Bool) : UartRfifo :=
  let p :=
    if fifoReset then (fun _ => 0, 0, 0, 0) else s.pointers push pop (dataIn.extractLsb' 0 3)
  { ram := raminfr s.ram push s.top (dataIn.extractLsb' 3 8)
    fifo := p.1
    top := p.2.1
    bottom := p.2.2.1
    count := p.2.2.2
    overrun :=
      if fifoReset || resetStatus then false
      else if push && !pop && s.count == 16 then true
      else s.overrun }

end UartRfifo

/-! ## The receiver -/

/-- The states of the receiver. The other values of `rstate` do not occur behind a reset. -/
inductive RState
  | idle
  | recStart
  | recBit
  | recParity
  | recStop
  | checkParity
  | recPrepare
  | endBit
  | caLcParity
  | wait1
  | push
  deriving DecidableEq, Inhabited

/-- The registers of `uart_receiver`: its FIFO, its state, its counters, the shift register, the
parity and error bits and the byte handed over. -/
structure UartReceiver where
  fifo : UartRfifo
  rstate : RState
  rcounter16 : BitVec 4
  rbitCounter : BitVec 3
  rshift : BitVec 8
  rparity : Bool
  rparityError : Bool
  rframingError : Bool
  rparityXor : Bool
  counterB : BitVec 8
  rfPushQ : Bool
  rfDataIn : BitVec 11
  rfPush : Bool
  counterT : BitVec 10
  deriving Inhabited

namespace UartReceiver

/-- The inputs of `uart_receiver` in one cycle: the format, the pop of the FIFO, the level of the
line, the enable and the resets. -/
structure In where
  lcr : BitVec 8
  rfPop : Bool
  srxPadI : Bool
  enable : Bool
  rxReset : Bool
  lsrMask : Bool

variable (s : UartReceiver) (lcr : BitVec 8) (srx : Bool)

/-- `wb_rst_i`: the receiver is idle, its FIFO empty and its two timeout counters at their initial
values. -/
def reset : UartReceiver :=
  ⟨s.fifo.reset, .idle, 0, 0, 0, false, false, false, false, 159, false, 0, false, 639⟩

/-- `break_error`: the line has been low until the break counter has come to zero. -/
def breakError : Bool := s.counterB == 0

/-- `rf_push_pulse`: the cycle in which a byte is pushed into the FIFO, the first one of those in
which `rf_push` is high. -/
def rfPushPulse : Bool := s.rfPush && !s.rfPushQ

/-- `toc_value`: the initial value of the timeout counter, four character times in sixteenths, by
the format. -/
def tocValue : BitVec 10 :=
  match lcr.extractLsb' 0 4 with
  | 0b0000 => 447
  | 0b0100 => 479
  | 0b0001 | 0b1000 => 511
  | 0b1100 => 543
  | 0b0010 | 0b0101 | 0b1001 => 575
  | 0b0011 | 0b0110 | 0b1010 | 0b1101 => 639
  | 0b0111 | 0b1011 | 0b1110 => 703
  | _ => 767

/-- `brc_value`: the initial value of the break counter, one character time in sixteenths. -/
def brcValue : BitVec 8 := (tocValue lcr).extractLsb' 2 8

/-- The number of data bits that a byte has by the format, less one. -/
def bitCount : BitVec 3 :=
  match lcr.extractLsb' 0 2 with
  | 0b00 => 0b100
  | 0b01 => 0b101
  | 0b10 => 0b110
  | _ => 0b111

/-- The shift register with one more bit, which enters at the place of the highest data bit. -/
def shiftIn : BitVec 8 :=
  let bit := BitVec.ofBool srx
  match lcr.extractLsb' 0 2 with
  | 0b00 => s.rshift.extractLsb' 5 3 ++ (bit ++ s.rshift.extractLsb' 1 4)
  | 0b01 => s.rshift.extractLsb' 6 2 ++ (bit ++ s.rshift.extractLsb' 1 5)
  | 0b10 => s.rshift.extractLsb' 7 1 ++ (bit ++ s.rshift.extractLsb' 1 6)
  | _ => bit ++ s.rshift.extractLsb' 1 7

/-- The entry that goes to the FIFO with a byte: the byte and its error bits. -/
def entry : BitVec 11 :=
  s.rshift ++ (0b0#1 ++ (BitVec.ofBool s.rparityError ++ BitVec.ofBool s.rframingError))

/-- One step of the state machine, which is made in a cycle with `enable` high. The FIFO and the two
timeout counters are left out here. -/
def step : UartReceiver :=
  let minus1 := s.rcounter16 - 1
  match s.rstate with
  | .idle =>
    { s with
      rfPush := false
      rfDataIn := 0
      rcounter16 := 0b1110
      rstate := if srx == false && !s.breakError then .recStart else .idle }
  | .recStart =>
    { s with
      rfPush := false
      rstate := if s.rcounter16 = 7 then if srx then .idle else .recPrepare else .recStart
      rcounter16 := minus1 }
  | .recPrepare =>
    if s.rcounter16 = 0 then
      { s with
        rbitCounter := bitCount lcr
        rstate := .recBit
        rshift := 0
        rcounter16 := minus1 }
    else { s with rbitCounter := bitCount lcr, rstate := .recPrepare, rcounter16 := minus1 }
  | .recBit =>
    { s with
      rstate := if s.rcounter16 = 0 then .endBit else .recBit
      rshift := if s.rcounter16 = 7 then s.shiftIn lcr srx else s.rshift
      rcounter16 := minus1 }
  | .endBit =>
    if s.rbitCounter = 0 then
      if lcr.getLsbD 3 then { s with rstate := .recParity, rcounter16 := 0b1110 }
      else { s with rstate := .recStop, rparityError := false, rcounter16 := 0b1110 }
    else
      { s with rstate := .recBit, rbitCounter := s.rbitCounter - 1, rcounter16 := 0b1110 }
  | .recParity =>
    if s.rcounter16 = 7 then
      { s with rparity := srx, rstate := .caLcParity, rcounter16 := minus1 }
    else { s with rcounter16 := minus1 }
  | .caLcParity =>
    { s with
      rcounter16 := minus1
      rparityXor := xorBits s.rshift 8 ^^ s.rparity
      rstate := .checkParity }
  | .checkParity =>
    { s with
      rparityError :=
        match lcr.getLsbD 4, lcr.getLsbD 5 with
        | false, false => s.rparityXor == false
        | false, true => !s.rparity
        | true, false => s.rparityXor == true
        | true, true => s.rparity
      rcounter16 := minus1
      rstate := .wait1 }
  | .wait1 =>
    if s.rcounter16 = 0 then { s with rstate := .recStop, rcounter16 := 0b1110 }
    else { s with rcounter16 := minus1 }
  | .recStop =>
    if s.rcounter16 = 7 then
      { s with rframingError := !srx, rstate := .push, rcounter16 := minus1 }
    else { s with rcounter16 := minus1 }
  | .push =>
    if srx || s.breakError then
      { s with
        -- a break is an empty character
        rfDataIn := if s.breakError then 0b100 else s.entry
        rfPush := true
        rstate := .idle }
    else if !s.rframingError then
      { s with rfDataIn := s.entry, rfPush := true, rcounter16 := 0b1110, rstate := .recStart }
    else s

/-- One clock edge of `uart_receiver`: a step if `enable` is high, and an edge of the FIFO and of
the timeout counters in any case. -/
def next (i : In) : UartReceiver :=
  let s' := if i.enable then s.step i.lcr i.srxPadI else s
  { s' with
    fifo := s.fifo.next s.rfPushPulse i.rfPop s.rfDataIn i.rxReset i.lsrMask
    rfPushQ := s.rfPush
    counterB :=
      if i.srxPadI then brcValue i.lcr
      else if i.enable && s.counterB != 0 then s.counterB - 1
      else s.counterB
    counterT :=
      if s.rfPushPulse || i.rfPop || s.fifo.count == 0 then tocValue i.lcr
      else if i.enable && s.counterT != 0 then s.counterT - 1
      else s.counterT }

end UartReceiver

end RvPipelineCore

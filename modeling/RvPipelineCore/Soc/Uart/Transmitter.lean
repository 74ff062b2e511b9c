import Mathlib.Data.Nat.Count
import RvPipelineCore.Lib.SerialFormat
import RvPipelineCore.Soc.Uart.Fifo

/-!
# The transmitter of the UART

`uart_transmitter` of `rtl/soc/uart`: it takes the bytes out of its FIFO and shifts them out in the
format that `lcr` asks for, one step whenever `enable` is high.

- `UartTransmitter.Phase`: what the transmitter is doing with its last frame;
- `UartTransmitter.Phase.step`: one step of the state machine;
- `UartTransmitter.Phase.drives`: the level of the line.
-/

namespace RvPipelineCore

open Serial

/-- The states of the transmitter. The two other values of `tstate` do not occur behind a reset. -/
inductive TState
  | idle
  | sendStart
  | sendByte
  | sendParity
  | sendStop
  | popByte
  deriving DecidableEq, Inhabited

/-- The registers of `uart_transmitter`: its FIFO, its state, its two counters, the shift register
and the level of the line. -/
structure UartTransmitter where
  fifo : UartTfifo
  tstate : TState
  counter : BitVec 5
  bitCounter : BitVec 3
  shiftOut : BitVec 7
  stxOTmp : Bool
  parityXor : Bool
  tfPop : Bool
  bitOut : Bool
  deriving Inhabited

namespace UartTransmitter

/-- The inputs of `uart_transmitter` in one cycle: the format, the byte to push, the enable of the
state machine and the resets. -/
structure In where
  lcr : BitVec 8
  tfPush : Bool
  wbDatI : BitVec 8
  enable : Bool
  txReset : Bool
  lsrMask : Bool

variable (s : UartTransmitter) (lcr : BitVec 8)

/-- `wb_rst_i`: the transmitter is idle, its FIFO empty and the line high. -/
def reset : UartTransmitter := ⟨s.fifo.reset, .idle, 0, 0, 0, true, false, false, false⟩

/-- One step of the state machine, which is made in a cycle with `enable` high. The FIFO is left out
here. -/
def step : UartTransmitter :=
  match s.tstate with
  | .idle =>
    if s.fifo.count = 0 then { s with tstate := .idle, stxOTmp := true }
    else { s with tfPop := false, stxOTmp := true, tstate := .popByte }
  | .popByte =>
    let d := s.fifo.dataOut
    { s with
      tfPop := true
      bitCounter :=
        match lcr.extractLsb' 0 2 with
        | 0b00 => 0b100
        | 0b01 => 0b101
        | 0b10 => 0b110
        | _ => 0b111
      parityXor :=
        match lcr.extractLsb' 0 2 with
        | 0b00 => xorBits d 5
        | 0b01 => xorBits d 6
        | 0b10 => xorBits d 7
        | _ => xorBits d 8
      shiftOut := d.extractLsb' 1 7
      bitOut := d.getLsbD 0
      tstate := .sendStart }
  | .sendStart =>
    let s' := { s with tfPop := false, stxOTmp := false }
    if s.counter = 0 then { s' with counter := 0b01111 }
    else if s.counter = 1 then { s' with counter := 0, tstate := .sendByte }
    else { s' with counter := s.counter - 1 }
  | .sendByte =>
    let s' := { s with stxOTmp := s.bitOut }
    if s.counter = 0 then { s' with counter := 0b01111 }
    else if s.counter = 1 then
      if s.bitCounter > 0 then
        { s' with
          counter := 0
          bitCounter := s.bitCounter - 1
          -- bit 6 stays
          shiftOut := s.shiftOut.extractLsb' 6 1 ++ s.shiftOut.extractLsb' 1 6
          bitOut := s.shiftOut.getLsbD 0
          tstate := .sendByte }
      else if !lcr.getLsbD 3 then { s' with counter := 0, tstate := .sendStop }
      else
        { s' with
          counter := 0
          bitOut :=
            match lcr.getLsbD 4, lcr.getLsbD 5 with
            | false, false => !s.parityXor
            | false, true => true
            | true, false => s.parityXor
            | true, true => false
          tstate := .sendParity }
    else { s' with counter := s.counter - 1 }
  | .sendParity =>
    let s' := { s with stxOTmp := s.bitOut }
    if s.counter = 0 then { s' with counter := 0b01111 }
    else if s.counter = 1 then { s' with counter := 0, tstate := .sendStop }
    else { s' with counter := s.counter - 1 }
  | .sendStop =>
    let s' := { s with stxOTmp := true }
    if s.counter = 0 then
      { s' with
        counter :=
          match lcr.getLsbD 2, lcr.extractLsb' 0 2 with
          | false, _ => 0b01101
          | true, 0b00 => 0b10101
          | true, _ => 0b11101 }
    else if s.counter = 1 then { s' with counter := 0, tstate := .idle }
    else { s' with counter := s.counter - 1 }

/-- One clock edge of `uart_transmitter`: a step if `enable` is high, and an edge of the FIFO in any
case. -/
def next (i : In) : UartTransmitter :=
  let s' := if i.enable then s.step i.lcr else { s with tfPop := false }
  { s' with fifo := s.fifo.next i.tfPush s.tfPop i.wbDatI i.txReset i.lsrMask }

/-- `stx_pad_o`: the level of the line, which the break bit of the format holds low. -/
def stxPadO : Bool := if lcr.getLsbD 6 then false else s.stxOTmp

/-! ## Formats -/

/-- The format that `lcr` asks for: five to eight data bits, a parity of four kinds or none, and a
stop bit of one, one and a half or two bit times. -/
def format : Format where
  dataBits := 5 + (lcr.extractLsb' 0 2).toNat
  parity :=
    if lcr.getLsbD 3 then
      match lcr.getLsbD 4, lcr.getLsbD 5 with
      | false, false => some .odd
      | true, false => some .even
      | false, true => some (.stick true)
      | true, true => some (.stick false)
    else none
  stop := if lcr.getLsbD 2 then if lcr.extractLsb' 0 2 = 0 then 24 else 32 else 16

/-- The state in which bit `i` of a frame is sent, the stop bit being the last one. -/
def bitState (fmt : Format) (i : ℕ) : TState :=
  if i = 0 then .sendStart
  else if i ≤ fmt.dataBits then .sendByte
  else if i < fmt.length then .sendParity
  else .sendStop

/-- The steps that are made in this state. The stop bit goes on in `idle` and `popByte`. -/
def bitSteps (fmt : Format) (i : ℕ) : ℕ := if i < fmt.length then 16 else fmt.stop - 2

/-- The value of `counter` before step `j` of the `m` steps of a bit. -/
def countdown (m j : ℕ) : BitVec 5 := if j = 0 then 0 else BitVec.ofNat 5 (m - j)

/-- What is left of a byte in the registers during bit `i`. -/
structure Holds (byte : BitVec 8) (i : ℕ) : Prop where
  bitOut : i < (format lcr).length → s.bitOut = (format lcr).bit byte (max i 1)
  bitCounter : i ≤ (format lcr).dataBits → s.bitCounter.toNat + max i 1 = (format lcr).dataBits
  shiftOut : i ≤ (format lcr).dataBits → ∀ m, m + max i 1 < 8 →
    s.shiftOut.getLsbD m = byte.getLsbD (m + max i 1)
  parityXor : i ≤ (format lcr).dataBits → s.parityXor = xorBits byte (format lcr).dataBits

/-- What the transmitter is doing before step `n`: nothing, or it takes a byte out of the FIFO, or
it is before step `j` of bit `i` of the last of `frames`. -/
inductive Phase (frames : List (Frame ℕ)) (n : ℕ) : Prop
  | idle (tstate : s.tstate = .idle) (counter : s.counter = 0) (pop : s.tfPop = false)
      (stx : s.stxOTmp = true) (ended : ∀ f ∈ frames, f.start + (format lcr).ticks ≤ n + 3)
  | popByte (tstate : s.tstate = .popByte) (counter : s.counter = 0) (pop : s.tfPop = false)
      (stx : s.stxOTmp = true) (ended : ∀ f ∈ frames, f.start + (format lcr).ticks ≤ n + 2)
  | bit (past : List (Frame ℕ)) (f : Frame ℕ) (i j : ℕ) (split : frames = past ++ [f])
      (old : ∀ g ∈ past, g.start + (format lcr).ticks ≤ f.start)
      (hi : i ≤ (format lcr).length) (hj : j < bitSteps (format lcr) i)
      (time : n + 1 = f.start + 16 * i + j) (tstate : s.tstate = bitState (format lcr) i)
      (counter : s.counter = countdown (bitSteps (format lcr) i) j)
      (pop : s.tfPop = true → i = 0 ∧ j = 0)
      (stx : s.stxOTmp =
        if j = 0 then (if i = 0 then true else (format lcr).bit f.byte (i - 1))
        else (format lcr).bit f.byte i)
      (holds : s.Holds lcr f.byte i)

variable {s lcr} {frames : List (Frame ℕ)} {n i j m : ℕ} {byte : BitVec 8}

/-- The stop bit has 16, 24 or 32 sixteenths. -/
theorem stop_cases (lcr : BitVec 8) :
    (format lcr).stop = 16 ∨ (format lcr).stop = 24 ∨ (format lcr).stop = 32 := by
  simp only [format]
  split_ifs
  · exact .inr (.inl rfl)
  · exact .inr (.inr rfl)
  · exact .inl rfl

/-- A state of the transmitter lasts 14 steps at least and 30 at most. -/
theorem bitSteps_le (lcr : BitVec 8) (i : ℕ) :
    14 ≤ bitSteps (format lcr) i ∧ bitSteps (format lcr) i ≤ 30 := by
  have hstop := stop_cases lcr
  rw [bitSteps]
  split_ifs <;> omega

/-- A byte has five to eight data bits. -/
theorem dataBits_le (lcr : BitVec 8) : 5 ≤ (format lcr).dataBits ∧ (format lcr).dataBits ≤ 8 := by
  have hlt := (lcr.extractLsb' 0 2).isLt
  simp only [format]
  omega

/-- The number of bits in front of the stop bit, without and with parity, as bit 3 of the format
says. -/
theorem length_cases (lcr : BitVec 8) :
    (format lcr).length = (format lcr).dataBits + 1 ∧
      (format lcr).parity = none ∧ lcr.getLsbD 3 = false ∨
    (format lcr).length = (format lcr).dataBits + 2 ∧ (format lcr).parity ≠ none ∧
      lcr.getLsbD 3 = true := by
  cases hpe : lcr.getLsbD 3 with
  | false =>
    have hnone : (format lcr).parity = none := by
      simp only [format, hpe, Bool.false_eq_true, if_false]
    exact .inl ⟨by rw [Format.length, hnone], hnone, rfl⟩
  | true =>
    obtain ⟨p, hp⟩ : ∃ p, (format lcr).parity = some p := by
      cases hep : lcr.getLsbD 4 <;> cases hsp : lcr.getLsbD 5 <;>
        simp only [format, hpe, if_true, hep, hsp] <;> exact ⟨_, rfl⟩
    exact .inr ⟨by rw [Format.length, hp], by rw [hp]; exact Option.some_ne_none p, rfl⟩

/-- The value of the counter as a number is what is left of the steps. -/
theorem toNat_countdown (hm : m ≤ 31) (hj : 0 < j) : (countdown m j).toNat = m - j := by
  rw [countdown, if_neg hj.ne', BitVec.toNat_ofNat]
  omega

/-- The counter is set at the first step of a bit, and goes down to one before the last step. -/
theorem countdown_cases (hm : m ≤ 31) (hj : j < m) :
    j = 0 ∧ countdown m j = 0 ∨
    (0 < j ∧ j + 1 < m ∧ countdown m j ≠ 0 ∧ countdown m j ≠ 1 ∧
      countdown m j - 1 = countdown m (j + 1)) ∨
    (0 < j ∧ j + 1 = m ∧ countdown m j ≠ 0 ∧ countdown m j = 1) := by
  -- before step 0 the counter is still 0 from the bit before
  rcases Nat.eq_zero_or_pos j with rfl | hpos
  · exact .inl ⟨rfl, rfl⟩
  · have hnat := toNat_countdown hm hpos
    have hsucc := toNat_countdown (m := m) hm j.succ_pos
    have hne : countdown m j ≠ 0 := by
      intro h
      rw [h] at hnat
      change 0 = m - j at hnat
      omega
    rcases Nat.lt_or_ge (j + 1) m with hlt | hge
    · refine .inr (.inl ⟨hpos, hlt, hne, fun h => ?_, ?_⟩)
      · rw [h] at hnat
        change 1 = m - j at hnat
        omega
      · rw [← BitVec.toNat_inj, hsucc]
        bv_omega
    · refine .inr (.inr ⟨hpos, by omega, hne, ?_⟩)
      rw [← BitVec.toNat_inj, hnat]
      change m - j = 1
      omega

/-! ## One bit -/

/-- The level that a step puts on the line in the states that send. -/
def sendLevel (s : UartTransmitter) : Bool :=
  match s.tstate with
  | .sendStart => false
  | .sendByte => s.bitOut
  | .sendParity => s.bitOut
  | _ => true

/-- The bit after the data and parity bits is high, as the stop bit. -/
theorem bit_length : (format lcr).bit byte (format lcr).length = true := by
  have hdata := dataBits_le lcr
  rcases length_cases lcr with ⟨hlen, hnone, -⟩ | ⟨hlen, -, -⟩
  · rw [hlen, Format.bit, if_neg (Nat.succ_ne_zero _), if_neg (by omega), if_pos rfl, hnone]
  · rw [hlen, Format.bit, if_neg (Nat.succ_ne_zero _), if_neg (by omega), if_neg (by omega)]

/-- The output bit of the registers is the bit of the frame that is being sent. -/
theorem Holds.bitOut_eq (h : s.Holds lcr byte i) (hpos : 0 < i) (hi : i < (format lcr).length) :
    s.bitOut = (format lcr).bit byte i := by
  have hout := h.bitOut hi
  rwa [Nat.max_eq_left hpos] at hout

/-- The level that the next step puts on the line is the bit that the state is there for. -/
theorem Holds.sendLevel_eq (h : s.Holds lcr byte i) (hi : i ≤ (format lcr).length)
    (hstate : s.tstate = bitState (format lcr) i) :
    s.sendLevel = (format lcr).bit byte i := by
  have hlen : (format lcr).dataBits < (format lcr).length := by
    rcases length_cases lcr with ⟨hlen, -⟩ | ⟨hlen, -⟩ <;> omega
  -- the start bit and the stop bit are fixed, the others wait in `bitOut`
  rw [sendLevel, hstate, bitState]
  rcases Nat.eq_zero_or_pos i with rfl | hpos
  · rfl
  · rw [if_neg hpos.ne']
    split_ifs with hdata hpar
    · exact h.bitOut_eq hpos (by omega)
    · exact h.bitOut_eq hpos hpar
    · obtain rfl : i = (format lcr).length := by omega
      exact bit_length.symm

/-- The first value of the counter in the stop bit. -/
theorem stopCounter_eq (lcr : BitVec 8) :
    (match lcr.getLsbD 2, lcr.extractLsb' 0 2 with
      | false, _ => (0b01101 : BitVec 5)
      | true, 0b00 => 0b10101
      | true, _ => 0b11101) = BitVec.ofNat 5 ((format lcr).stop - 2 - 1) := by
  simp only [format]
  generalize lcr.extractLsb' 0 2 = b
  cases lcr.getLsbD 2 with
  | false => rfl
  | true => revert b; decide

/-- Before the last step of a bit only the counter changes. -/
theorem step_of_ne_one (hstate : s.tstate = bitState (format lcr) i)
    (hi : i ≤ (format lcr).length) (hcounter : s.counter ≠ 1) :
    s.step lcr =
      { s with
        counter := if s.counter = 0 then BitVec.ofNat 5 (bitSteps (format lcr) i - 1)
          else s.counter - 1
        stxOTmp := s.sendLevel
        tfPop := s.tfPop && decide (i ≠ 0) } := by
  have hlen : (format lcr).dataBits < (format lcr).length := by
    rcases length_cases lcr with ⟨hlen, -⟩ | ⟨hlen, -⟩ <;> omega
  rw [bitState] at hstate
  rw [step, sendLevel]
  -- the four states differ in the level and in the first value of the counter
  split_ifs at hstate with hzero hdata hpar <;> simp only [hstate]
  · have h16 : bitSteps (format lcr) i = 16 := if_pos (by omega)
    by_cases hc : s.counter = 0
    · simp only [if_pos hc, h16]
      simp [hzero]
    · simp only [if_neg hc, if_neg hcounter]
      simp [hzero]
  · have h16 : bitSteps (format lcr) i = 16 := if_pos (by omega)
    by_cases hc : s.counter = 0
    · simp only [if_pos hc, h16]
      simp [hzero]
    · simp only [if_neg hc, if_neg hcounter]
      simp [hzero]
  · have h16 : bitSteps (format lcr) i = 16 := if_pos hpar
    by_cases hc : s.counter = 0
    · simp only [if_pos hc, h16]
      simp [hzero]
    · simp only [if_neg hc, if_neg hcounter]
      simp [hzero]
  · have hstop : bitSteps (format lcr) i = (format lcr).stop - 2 := if_neg hpar
    by_cases hc : s.counter = 0
    · simp only [if_pos hc, hstop, stopCounter_eq]
      simp [hzero]
    · simp only [if_neg hc, if_neg hcounter]
      simp [hzero]

/-- After a shift the registers hold the bits of the byte from the next one on. -/
theorem Holds.shift (h : s.Holds lcr byte i) (hpos : 0 < i) (hi : i < (format lcr).dataBits)
    {s' : UartTransmitter} (hcounter : s'.bitCounter = s.bitCounter - 1)
    (hshift : s'.shiftOut = s.shiftOut.extractLsb' 6 1 ++ s.shiftOut.extractLsb' 1 6)
    (hout : s'.bitOut = s.shiftOut.getLsbD 0) (hxor : s'.parityXor = s.parityXor) :
    s'.Holds lcr byte (i + 1) := by
  have hmax : max i 1 = i := Nat.max_eq_left hpos
  have hmax' : max (i + 1) 1 = i + 1 := Nat.max_eq_left (by omega)
  have hdata := dataBits_le lcr
  have hcount := h.bitCounter hi.le
  rw [hmax] at hcount
  refine ⟨fun _ => ?_, fun _ => ?_, fun _ m hm => ?_, fun _ => ?_⟩
  · rw [hmax', hout, h.shiftOut hi.le 0 (by omega), hmax, Format.bit,
      if_neg (Nat.succ_ne_zero i), if_pos (by omega), Nat.zero_add]
    rfl
  · rw [hmax', hcounter]
    bv_omega
  · rw [hmax'] at hm ⊢
    -- place 6 keeps its value, but no data bit belongs there any more
    have hbit := h.shiftOut hi.le (m + 1) (by omega)
    rw [hmax] at hbit
    rw [hshift, BitVec.getLsbD_append, if_pos (by omega), BitVec.getLsbD_extractLsb',
      Nat.add_comm 1 m, hbit, Nat.add_right_comm, Nat.add_assoc]
    simp [show m < 6 by omega]
  · rw [hxor]
    exact h.parityXor hi.le

/-- The parity bit of a frame by the two bits of the format that choose its kind: odd, even, one or
zero. -/
theorem bit_parity (hpe : lcr.getLsbD 3 = true) (byte : BitVec 8) :
    (format lcr).bit byte ((format lcr).dataBits + 1) =
      match lcr.getLsbD 4, lcr.getLsbD 5 with
      | false, false => !xorBits byte (format lcr).dataBits
      | false, true => true
      | true, false => xorBits byte (format lcr).dataBits
      | true, true => false := by
  have hpar : (format lcr).parity =
      match lcr.getLsbD 4, lcr.getLsbD 5 with
      | false, false => some .odd
      | true, false => some .even
      | false, true => some (.stick true)
      | true, true => some (.stick false) := by
    simp only [format, hpe, if_true]
  rw [Format.bit, if_neg (Nat.succ_ne_zero _), if_neg (by omega), if_pos rfl, hpar]
  cases lcr.getLsbD 4 <;> cases lcr.getLsbD 5 <;> rfl

/-- A counter that is one is not zero. -/
theorem ne_zero_of_one {c : BitVec 5} (h : c = 1) : c ≠ 0 := by
  rw [h]
  decide

/-- The last step of bit `i`, which leads from `s` to `s'`, goes on to the next one. -/
structure Advances (s s' : UartTransmitter) (lcr byte : BitVec 8) (i : ℕ) : Prop where
  counter : s'.counter = 0
  stx : s'.stxOTmp = s.sendLevel
  pop : s'.tfPop = (s.tfPop && decide (i ≠ 0))
  more : i < (format lcr).length →
    s'.tstate = bitState (format lcr) (i + 1) ∧ s'.Holds lcr byte (i + 1)
  done : i = (format lcr).length → s'.tstate = .idle

/-- The last step of the start bit goes on to the first data bit. -/
theorem Advances.start (h : s.Holds lcr byte 0) (hstate : s.tstate = .sendStart)
    (hcounter : s.counter = 1) : Advances s (s.step lcr) lcr byte 0 := by
  have hdata := dataBits_le lcr
  have hlen := length_cases lcr
  have hstep : s.step lcr =
      { s with tfPop := false, stxOTmp := false, counter := 0, tstate := .sendByte } := by
    simp only [UartTransmitter.step, hstate, if_neg (ne_zero_of_one hcounter), if_pos hcounter]
  rw [hstep]
  refine ⟨rfl, by rw [sendLevel, hstate], by simp, fun _ => ⟨?_, ?_⟩, fun hlast => ?_⟩
  · rw [bitState, if_neg (by omega), if_pos (by omega)]
  · -- `popByte` has prepared the first bit already
    exact ⟨fun _ => h.bitOut (by omega), fun _ => h.bitCounter (by omega),
      fun _ => h.shiftOut (by omega), fun _ => h.parityXor (by omega)⟩
  · omega

/-- The last step of a data bit that is not the last one goes on to the next data bit. -/
theorem Advances.shift (h : s.Holds lcr byte i) (hpos : 0 < i) (hi : i < (format lcr).dataBits)
    (hstate : s.tstate = .sendByte) (hcounter : s.counter = 1) :
    Advances s (s.step lcr) lcr byte i := by
  have hlen := length_cases lcr
  -- the counter has the number of the data bits that are left
  have hcount := h.bitCounter hi.le
  rw [Nat.max_eq_left hpos] at hcount
  have hgt : s.bitCounter > 0 := BitVec.lt_def.mpr (by change 0 < _; omega)
  have hstep : s.step lcr =
      { s with
        stxOTmp := s.bitOut
        counter := 0
        bitCounter := s.bitCounter - 1
        shiftOut := s.shiftOut.extractLsb' 6 1 ++ s.shiftOut.extractLsb' 1 6
        bitOut := s.shiftOut.getLsbD 0
        tstate := .sendByte } := by
    simp only [UartTransmitter.step, hstate, if_neg (ne_zero_of_one hcounter), if_pos hcounter,
      if_pos hgt]
  rw [hstep]
  refine ⟨rfl, by rw [sendLevel, hstate], by simp [hpos.ne'], fun _ => ⟨?_, ?_⟩, fun hlast => ?_⟩
  · rw [bitState, if_neg (by omega), if_pos (by omega)]
  · exact h.shift hpos hi rfl rfl rfl rfl
  · omega

/-- The last step of the last data bit goes on to the parity bit, if there is one. -/
theorem Advances.parity (h : s.Holds lcr byte (format lcr).dataBits)
    (hpe : lcr.getLsbD 3 = true) (hstate : s.tstate = .sendByte) (hcounter : s.counter = 1)
    (hgt : ¬ s.bitCounter > 0) : Advances s (s.step lcr) lcr byte (format lcr).dataBits := by
  have hdata := dataBits_le lcr
  -- with a parity bit the frame has two bits behind the data
  have hlen : (format lcr).length = (format lcr).dataBits + 2 := by
    rcases length_cases lcr with ⟨-, -, hfalse⟩ | ⟨hlen, -⟩
    · exact absurd (hpe.symm.trans hfalse) (by decide)
    · exact hlen
  have hstep : s.step lcr =
      { s with
        stxOTmp := s.bitOut
        counter := 0
        bitOut :=
          match lcr.getLsbD 4, lcr.getLsbD 5 with
          | false, false => !s.parityXor
          | false, true => true
          | true, false => s.parityXor
          | true, true => false
        tstate := .sendParity } := by
    simp only [UartTransmitter.step, hstate, if_neg (ne_zero_of_one hcounter), if_pos hcounter,
      if_neg hgt, hpe, Bool.not_true, Bool.false_eq_true, if_false]
  rw [hstep]
  refine ⟨rfl, by rw [sendLevel, hstate], ?_, fun _ => ⟨?_, ?_⟩, fun hlast => ?_⟩
  · simp [show (format lcr).dataBits ≠ 0 by omega]
  · rw [bitState, if_neg (by omega), if_neg (by omega), if_pos (by omega)]
  · refine ⟨fun _ => ?_, fun hle => by omega, fun hle => by omega, fun hle => by omega⟩
    have hi' : max ((format lcr).dataBits + 1) 1 = (format lcr).dataBits + 1 := by omega
    rw [hi', bit_parity hpe, ← h.parityXor le_rfl]
  · omega

/-- The stop bit follows the last data bit or the parity bit. -/
theorem Advances.stop (hpos : 0 < i) (hdata : (format lcr).dataBits ≤ i)
    (hi : i + 1 = (format lcr).length) (hlevel : s.sendLevel = s.bitOut)
    (hstep : s.step lcr = { s with stxOTmp := s.bitOut, counter := 0, tstate := .sendStop }) :
    Advances s (s.step lcr) lcr byte i := by
  rw [hstep]
  refine ⟨rfl, hlevel.symm, by simp [hpos.ne'], fun _ => ⟨?_, ?_⟩, fun hlast => ?_⟩
  · rw [bitState, if_neg (by omega), if_neg (by omega), if_neg (by omega)]
  · -- nothing has to be held for the stop bit
    exact ⟨fun hlt => by omega, fun hle => by omega, fun hle => by omega, fun hle => by omega⟩
  · omega

/-- The last step of a bit, in each of the states that send. -/
theorem step_of_one (h : s.Holds lcr byte i) (hstate : s.tstate = bitState (format lcr) i)
    (hi : i ≤ (format lcr).length) (hcounter : s.counter = 1) :
    Advances s (s.step lcr) lcr byte i := by
  have hdata := dataBits_le lcr
  have hlen := length_cases lcr
  have hzero := ne_zero_of_one hcounter
  rw [bitState] at hstate
  -- the cases are the start bit, the data bits, the parity bit and the stop bits
  split_ifs at hstate with hstart hbyte hpar
  · subst hstart
    exact .start h hstate hcounter
  · have hpos : 0 < i := Nat.pos_of_ne_zero hstart
    -- behind the last data bit comes the parity bit, or at once the stop bits
    rcases Nat.lt_or_ge i (format lcr).dataBits with hmore | hlast
    · exact .shift h hpos hmore hstate hcounter
    · obtain rfl : i = (format lcr).dataBits := by omega
      have hcount := h.bitCounter le_rfl
      have hgt : ¬ s.bitCounter > 0 := by
        intro hgt
        have hlt : 0 < s.bitCounter.toNat := BitVec.lt_def.mp hgt
        omega
      rcases hlen with ⟨hlen, -, hpe⟩ | ⟨-, -, hpe⟩
      · refine .stop hpos le_rfl hlen.symm (by rw [sendLevel, hstate]) ?_
        simp only [step, hstate, if_neg hzero, if_pos hcounter, if_neg hgt, hpe, Bool.not_false,
          if_true]
      · exact .parity h hpe hstate hcounter hgt
  · refine .stop (by omega) (by omega) (by omega) (by rw [sendLevel, hstate]) ?_
    simp only [step, hstate, if_neg hzero, if_pos hcounter]
  · have hstep : s.step lcr = { s with stxOTmp := true, counter := 0, tstate := .idle } := by
      simp only [step, hstate, if_neg hzero, if_pos hcounter]
    rw [hstep]
    exact ⟨rfl, by rw [sendLevel, hstate], by simp [hstart], fun hlt => absurd hlt hpar,
      fun _ => rfl⟩

/-! ## One step -/

/-- The frame that step `n` takes out of the FIFO. Its start bit begins behind the next step. -/
def started (s : UartTransmitter) (n : ℕ) : List (Frame ℕ) :=
  if s.tstate = .popByte then [⟨n + 2, s.fifo.dataOut⟩] else []

/-- A step in `popByte` takes the byte at the output of the FIFO and goes on to its start bit. -/
theorem popByte_holds (lcr : BitVec 8) (hstate : s.tstate = .popByte) :
    (s.step lcr).Holds lcr s.fifo.dataOut 0 ∧ (s.step lcr).tstate = .sendStart ∧
      (s.step lcr).counter = s.counter ∧ (s.step lcr).stxOTmp = s.stxOTmp := by
  have hdata := dataBits_le lcr
  simp only [step, hstate]
  refine ⟨⟨fun _ => ?_, fun _ => ?_, fun _ m hm => ?_, fun _ => ?_⟩, trivial, trivial, trivial⟩
  · rw [Format.bit, if_neg (by decide), if_pos (by omega)]
    rfl
  -- the counter is set from the two bits of the word length
  · simp only [format]
    generalize lcr.extractLsb' 0 2 = b
    revert b
    decide
  -- the bits behind the first one are in the shift register
  · rw [BitVec.getLsbD_extractLsb', Nat.add_comm 1 m]
    simp [show m < 7 by omega]
  -- the parity is that of as many bits as the word has
  · simp only [format]
    generalize lcr.extractLsb' 0 2 = b
    obtain rfl | rfl | rfl | rfl : b = 0 ∨ b = 1 ∨ b = 2 ∨ b = 3 := by
      revert b
      decide
    all_goals rfl

/-- What is left of a byte depends on four of the registers only. -/
theorem Holds.congr {s' : UartTransmitter} (h : s.Holds lcr byte i)
    (hout : s'.bitOut = s.bitOut) (hcount : s'.bitCounter = s.bitCounter)
    (hshift : s'.shiftOut = s.shiftOut) (hxor : s'.parityXor = s.parityXor) :
    s'.Holds lcr byte i :=
  ⟨fun hi => hout.trans (h.bitOut hi), fun hi => by rw [hcount]; exact h.bitCounter hi,
    fun hi m hm => by rw [hshift]; exact h.shiftOut hi m hm,
    fun hi => hxor.trans (h.parityXor hi)⟩

/-- A step of a bit other than its last one leaves the transmitter within this bit. -/
theorem Phase.step_bit {past : List (Frame ℕ)} {f : Frame ℕ}
    (old : ∀ g ∈ past, g.start + (format lcr).ticks ≤ f.start)
    (hi : i ≤ (format lcr).length) (hj : j < bitSteps (format lcr) i)
    (time : n + 1 = f.start + 16 * i + j) (tstate : s.tstate = bitState (format lcr) i)
    (counter : s.counter = countdown (bitSteps (format lcr) i) j)
    (pop : s.tfPop = true → i = 0 ∧ j = 0) (holds : s.Holds lcr f.byte i) :
    (s.step lcr).Phase lcr (past ++ [f]) (n + 1) := by
  have hsteps := bitSteps_le lcr i
  have hnopop : (s.tfPop && decide (i ≠ 0)) = false := by
    cases hp : s.tfPop with
    | false => rfl
    | true => simp [(pop hp).1]
  -- before the last step of the bit only the counter goes on
  have hrun (hne : s.counter ≠ 1) (hlt : j + 1 < bitSteps (format lcr) i)
      (hnext : (if s.counter = 0 then BitVec.ofNat 5 (bitSteps (format lcr) i - 1)
        else s.counter - 1) = countdown (bitSteps (format lcr) i) (j + 1)) :
      (s.step lcr).Phase lcr (past ++ [f]) (n + 1) := by
    rw [step_of_ne_one tstate hi hne, hnopop, hnext]
    refine .bit past f i (j + 1) rfl old hi hlt (by omega) tstate rfl
      (fun h => absurd h Bool.false_ne_true) ?_ (holds.congr rfl rfl rfl rfl)
    rw [if_neg j.succ_ne_zero]
    exact holds.sendLevel_eq hi tstate
  rcases countdown_cases (by omega) hj with ⟨rfl, hzero⟩ | ⟨hpos, hlt, hne, hne', hnext⟩ |
    ⟨hpos, hlast, -, hone⟩
  · rw [← counter] at hzero
    refine hrun (by rw [hzero]; decide) (by omega) ?_
    rw [if_pos hzero]
    rfl
  · rw [← counter] at hne hne' hnext
    exact hrun hne' hlt (by rw [if_neg hne, hnext])
  · rw [← counter] at hone
    obtain ⟨hcounter, hstx, hpop, hmore, hdone⟩ := step_of_one holds tstate hi hone
    rw [holds.sendLevel_eq hi tstate] at hstx
    rw [hnopop] at hpop
    have hno (h : (s.step lcr).tfPop = true) : False :=
      absurd (hpop.symm.trans h) Bool.false_ne_true
    -- the last step goes on to the next bit, or behind the stop bit to `idle`
    rcases Nat.lt_or_ge i (format lcr).length with hlt | hge
    · obtain ⟨hstate, hholds⟩ := hmore hlt
      have h16 : bitSteps (format lcr) i = 16 := if_pos hlt
      have hsteps' := bitSteps_le lcr (i + 1)
      refine .bit past f (i + 1) 0 rfl old hlt (by omega) (by omega) hstate hcounter
        (fun h => (hno h).elim) ?_ hholds
      rw [if_pos rfl, if_neg i.succ_ne_zero, hstx]
      rfl
    · obtain rfl : i = (format lcr).length := by omega
      have hstop : bitSteps (format lcr) (format lcr).length = (format lcr).stop - 2 :=
        if_neg (lt_irrefl _)
      have hcases := stop_cases lcr
      refine .idle (hdone rfl) hcounter hpop (hstx.trans bit_length) fun g hg => ?_
      rcases List.mem_append.mp hg with hg | hg
      · have hle := old g hg
        omega
      · obtain rfl := List.mem_singleton.mp hg
        rw [Format.ticks]
        omega

/-- One step of the state machine keeps the transmitter at work on the frames, with the one added
that it begins. -/
theorem Phase.step (h : s.Phase lcr frames n) :
    (s.step lcr).Phase lcr (frames ++ s.started n) (n + 1) := by
  cases h with
  | idle tstate counter pop stx ended =>
    have hnone : s.started n = [] := if_neg (by rw [tstate]; decide)
    rw [hnone, List.append_nil]
    simp only [UartTransmitter.step, tstate]
    split_ifs with hcount
    · exact .idle rfl counter pop rfl fun f hf => (ended f hf).trans (by omega)
    · exact .popByte rfl counter rfl rfl fun f hf => (ended f hf).trans (by omega)
  | popByte tstate counter pop stx ended =>
    obtain ⟨hholds, hstate, hcounter, hstx⟩ := popByte_holds lcr tstate
    -- the start bit begins two steps behind the pop
    have hone : s.started n = [⟨n + 2, s.fifo.dataOut⟩] := if_pos tstate
    have hsteps := bitSteps_le lcr 0
    rw [hone]
    exact .bit frames _ 0 0 rfl ended (Nat.zero_le _) (by omega) rfl hstate
      (hcounter.trans counter) (fun _ => ⟨rfl, rfl⟩) (hstx.trans stx) hholds
  | bit past f i j split old hi hj time tstate counter pop stx holds =>
    have hnone : s.started n = [] := by
      refine if_neg ?_
      rw [tstate, bitState]
      split_ifs <;> decide
    rw [hnone, List.append_nil, split]
    exact .step_bit old hi hj time tstate counter pop holds

/-- The line has the level that the frames ask for. -/
theorem Phase.drives (h : s.Phase lcr frames n) : (format lcr).Drives 1 frames n s.stxOTmp := by
  have hcases := stop_cases lcr
  cases h with
  | idle tstate counter pop stx ended =>
    refine Format.drives_high stx fun f hf => ?_
    have hle := ended f hf
    rw [Format.ticks] at hle
    omega
  | popByte tstate counter pop stx ended =>
    refine Format.drives_high stx fun f hf => ?_
    have hle := ended f hf
    rw [Format.ticks] at hle
    omega
  | bit past f i j split old hi hj time tstate counter pop stx holds =>
    have hold : ∀ g ∈ past, g.start + 1 * (format lcr).ticks ≤ f.start := by
      simpa only [Nat.one_mul] using old
    have hticks : (format lcr).ticks = 16 * (format lcr).length + (format lcr).stop := rfl
    have hsteps : i < (format lcr).length → bitSteps (format lcr) i = 16 := fun h => if_pos h
    rw [split]
    rcases Nat.eq_zero_or_pos j with rfl | hpos
    · rw [if_pos rfl] at stx
      cases i with
      | zero =>
        -- the start bit has not begun
        rw [if_pos rfl] at stx
        refine ⟨fun g hg k hk hlo hhi => ?_, fun _ => stx⟩
        rcases List.mem_append.mp hg with hg | hg
        · have hle := hold g hg
          have hmul : 16 * 1 * (k + 1) ≤ 16 * 1 * (format lcr).length := Nat.mul_le_mul_left _ hk
          omega
        · obtain rfl := List.mem_singleton.mp hg
          omega
      | succ i =>
        -- the line still has the level of the bit before
        rw [if_neg i.succ_ne_zero, Nat.add_sub_cancel] at stx
        exact Format.drives_last hold hi (by omega) (by omega) stx
    · rw [if_neg hpos.ne'] at stx
      rcases Nat.lt_or_ge i (format lcr).length with hlt | hge
      · have h16 := hsteps hlt
        exact Format.drives_last hold hlt (by omega) (by omega) stx
      · obtain rfl : i = (format lcr).length := by omega
        refine Format.drives_high (stx.trans bit_length) fun g hg => ?_
        rcases List.mem_append.mp hg with hg | hg
        · have hle := hold g hg
          omega
        · obtain rfl := List.mem_singleton.mp hg
          omega

/-- What the transmitter is doing does not depend on its FIFO. -/
theorem Phase.withFifo (h : s.Phase lcr frames n) (fifo : UartTfifo) :
    ({ s with fifo := fifo } : UartTransmitter).Phase lcr frames n := by
  cases h with
  | idle tstate counter pop stx ended => exact .idle tstate counter pop stx ended
  | popByte tstate counter pop stx ended => exact .popByte tstate counter pop stx ended
  | bit past f i j split old hi hj time tstate counter pop stx holds =>
    exact .bit past f i j split old hi hj time tstate counter pop stx
      (holds.congr rfl rfl rfl rfl)

/-- A cycle without `enable` keeps what the transmitter is doing. -/
theorem Phase.hold (h : s.Phase lcr frames n) :
    ({ s with tfPop := false } : UartTransmitter).Phase lcr frames n := by
  cases h with
  | idle tstate counter _ stx ended => exact .idle tstate counter rfl stx ended
  | popByte tstate counter _ stx ended => exact .popByte tstate counter rfl stx ended
  | bit past f i j split old hi hj time tstate counter _ stx holds =>
    exact .bit past f i j split old hi hj time tstate counter
      (fun h => absurd h Bool.false_ne_true) stx (holds.congr rfl rfl rfl rfl)

/-- The FIFO is popped after a byte has been taken out of it, and at no other time. -/
theorem Phase.step_tfPop (h : s.Phase lcr frames n) :
    (s.step lcr).tfPop = true ↔ s.tstate = .popByte := by
  cases h with
  | idle tstate counter pop stx ended =>
    simp only [UartTransmitter.step, tstate]
    split_ifs
    · simp [pop]
    · simp
  | popByte tstate counter pop stx ended =>
    simp only [UartTransmitter.step, tstate]
  | bit past f i j split old hi hj time tstate counter pop stx holds =>
    -- within a frame `tfPop` is high in its first step at most, from the pop before it
    have hnopop : (s.tfPop && decide (i ≠ 0)) = false := by
      cases hp : s.tfPop with
      | false => rfl
      | true => simp [(pop hp).1]
    have hstate : s.tstate ≠ .popByte := by
      rw [tstate, bitState]
      split_ifs <;> decide
    have hpop : (s.step lcr).tfPop = false := by
      -- at its end a bit hands on to the next one, and within it nothing changes but the counter
      by_cases hone : s.counter = 1
      · rw [(step_of_one holds tstate hi hone).pop, hnopop]
      · rw [step_of_ne_one tstate hi hone, hnopop]
    rw [hpop]
    exact ⟨fun h => absurd h Bool.false_ne_true, fun h => absurd h hstate⟩

/-- The transmitter goes to `popByte` from `idle`, and only for a byte that is there. -/
theorem Phase.step_popByte (h : s.Phase lcr frames n) (hstate : (s.step lcr).tstate = .popByte) :
    s.tstate = .idle ∧ s.fifo.count ≠ 0 ∧ s.tfPop = false := by
  cases h with
  | idle tstate counter pop stx ended =>
    simp only [UartTransmitter.step, tstate] at hstate
    split_ifs at hstate with hcount
    exact ⟨tstate, hcount, pop⟩
  | popByte tstate counter pop stx ended =>
    rw [(popByte_holds lcr tstate).2.1] at hstate
    exact absurd hstate (by decide)
  | bit past f i j split old hi hj time tstate counter pop stx holds =>
    exfalso
    -- the states that send go on to one another or to `idle`
    have hbit (k : ℕ) : bitState (format lcr) k ≠ .popByte := by
      rw [bitState]
      split_ifs <;> decide
    by_cases hone : s.counter = 1
    · have hadv := step_of_one holds tstate hi hone
      rcases Nat.lt_or_ge i (format lcr).length with hlt | hge
      · exact hbit _ ((hadv.more hlt).1.symm.trans hstate)
      · rw [hadv.done (by omega)] at hstate
        exact absurd hstate (by decide)
    · rw [step_of_ne_one tstate hi hone] at hstate
      exact hbit i (tstate.symm.trans hstate)

/-- The transmitter sends nothing and has nothing to send: it is idle, the line is high, and its
FIFO is empty. -/
structure Quiet (s : UartTransmitter) : Prop where
  tstate : s.tstate = .idle
  counter : s.counter = 0
  tfPop : s.tfPop = false
  stx : s.stxOTmp = true
  valid : s.fifo.ring.Valid
  contents : s.fifo.contents = []

/-- A reset leaves a quiet transmitter. -/
theorem reset_quiet (s : UartTransmitter) : s.reset.Quiet :=
  ⟨rfl, rfl, rfl, rfl, UartTfifo.reset_valid, UartTfifo.reset_contents⟩

/-- A quiet transmitter stays quiet until a byte is pushed, whatever is done to the format. -/
theorem Quiet.next (h : s.Quiet) {inp : In} (hpush : inp.tfPush = false) : (s.next inp).Quiet := by
  have hcount : s.fifo.count = 0 := by
    have hlen := UartTfifo.length_contents (s := s.fifo)
    rw [h.contents] at hlen
    exact BitVec.eq_of_toNat_eq hlen.symm
  have hfifo : (s.next inp).fifo.ring.Valid ∧ (s.next inp).fifo.contents = [] := by
    rw [UartTransmitter.next, hpush, h.tfPop]
    cases inp.txReset with
    | true => exact UartTfifo.next_fifoReset _ _ _ _ _
    | false =>
      obtain ⟨hvalid, hcontents⟩ :=
        UartTfifo.contents_next h.valid false false inp.lsrMask inp.wbDatI
      exact ⟨hvalid, hcontents.trans h.contents⟩
  -- with an empty FIFO a step stays in `idle`
  have hstep : s.step inp.lcr = { s with tstate := .idle, stxOTmp := true } := by
    simp only [UartTransmitter.step, h.tstate, if_pos hcount]
  refine ⟨?_, ?_, ?_, ?_, hfifo.1, hfifo.2⟩ <;> rw [UartTransmitter.next] <;>
    cases inp.enable <;> simp [hstep, h.tstate, h.counter, h.tfPop, h.stx]

/-- In `popByte` the FIFO is not popped yet. -/
theorem Phase.tfPop_of_popByte (h : s.Phase lcr frames n) (hstate : s.tstate = .popByte) :
    s.tfPop = false := by
  cases h with
  | idle _ _ pop => exact pop
  | popByte _ _ pop => exact pop
  | bit past f i j split old hi hj time tstate =>
    rw [tstate, bitState] at hstate
    split_ifs at hstate

end UartTransmitter

end RvPipelineCore

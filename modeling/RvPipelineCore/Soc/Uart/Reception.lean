import RvPipelineCore.Lib.Bits
import RvPipelineCore.Soc.Uart.Receiver
import RvPipelineCore.Soc.Uart.Transmitter

/-!
# What the receiver receives

On a line that carries frames of its format, sixteen of its steps to a bit, the receiver takes each
byte once, without an error flag, and never sees a break.

- `UartReceiver.InFrame`: what the receiver is doing, by the steps since the start bit began;
- `UartReceiver.Phase`: the same between frames and within them, kept by every step;
- `UartReceiver.Run.Listens.receives`: the bytes that it hands to its FIFO.
-/

namespace RvPipelineCore

open Serial

namespace UartReceiver

open UartTransmitter (format dataBits_le length_cases bit_parity)

variable {s : UartReceiver} {lcr byte : BitVec 8} {srx : Bool} {j m n : ℕ}

/-- The step, counted from the beginning of the start bit, in which a byte is handed over. -/
def pushAt (fmt : Format) : ℕ :=
  match fmt.parity with
  | none => 16 * fmt.length + 9
  | some _ => 16 * fmt.length + 8

/-- What is handed over: the bits that a frame carries, and no error flags. -/
def handed (fmt : Format) (byte : BitVec 8) : BitVec 11 :=
  (byte.setWidth fmt.dataBits).setWidth 8 ++ 0b000#3

/-- The first `m` bits are in the shift register, below the highest place of a data bit. -/
def Shifted (s : UartReceiver) (lcr byte : BitVec 8) (m : ℕ) : Prop :=
  ∀ k, s.rshift.getLsbD k =
    (decide ((format lcr).dataBits ≤ k + m ∧ k < (format lcr).dataBits) &&
      byte.getLsbD (k + m - (format lcr).dataBits))

/-- What the receiver is doing `j` steps after the beginning of the start bit. -/
inductive InFrame (s : UartReceiver) (lcr byte : BitVec 8) (j : ℕ) : Prop
  -- the first half of the start bit, and its second half
  | start (hj : 1 ≤ j ∧ j ≤ 8) (rstate : s.rstate = .recStart)
      (counter : s.rcounter16.toNat + j = 15)
  | prepare (hj : 9 ≤ j ∧ j ≤ 15) (rstate : s.rstate = .recPrepare)
      (counter : s.rcounter16.toNat + j = 15)
  -- a data bit, whose level is taken over in its middle, and the step behind it
  | bit (i d : ℕ) (hi : i < (format lcr).dataBits) (hd : d ≤ 15) (hj : j = 16 * (i + 1) + d)
      (rstate : s.rstate = .recBit) (counter : s.rcounter16.toNat + d = 15)
      (bits : s.rbitCounter.toNat + i + 1 = (format lcr).dataBits)
      (shifted : s.Shifted lcr byte (if d ≤ 8 then i else i + 1))
  | endBit (i : ℕ) (hi : 1 ≤ i ∧ i ≤ (format lcr).dataBits) (hj : j = 16 * (i + 1))
      (rstate : s.rstate = .endBit) (bits : s.rbitCounter.toNat + i = (format lcr).dataBits)
      (shifted : s.Shifted lcr byte i)
  -- the parity bit: its first half, the two steps of the check, and the rest of it
  | parity (d : ℕ) (hd : 1 ≤ d ∧ d ≤ 8) (hpe : lcr.getLsbD 3 = true)
      (hj : j = 16 * ((format lcr).dataBits + 1) + d) (rstate : s.rstate = .recParity)
      (counter : s.rcounter16.toNat + d = 15) (shifted : s.Shifted lcr byte (format lcr).dataBits)
  | caLcParity (hpe : lcr.getLsbD 3 = true) (hj : j = 16 * ((format lcr).dataBits + 1) + 9)
      (rstate : s.rstate = .caLcParity) (counter : s.rcounter16 = 6)
      (rparity : s.rparity = (format lcr).bit byte ((format lcr).dataBits + 1))
      (shifted : s.Shifted lcr byte (format lcr).dataBits)
  | checkParity (hpe : lcr.getLsbD 3 = true) (hj : j = 16 * ((format lcr).dataBits + 1) + 10)
      (rstate : s.rstate = .checkParity) (counter : s.rcounter16 = 5)
      (rparity : s.rparity = (format lcr).bit byte ((format lcr).dataBits + 1))
      (rparityXor : s.rparityXor = (xorBits byte (format lcr).dataBits ^^ s.rparity))
      (shifted : s.Shifted lcr byte (format lcr).dataBits)
  | wait1 (d : ℕ) (hd : 11 ≤ d ∧ d ≤ 15) (hpe : lcr.getLsbD 3 = true)
      (hj : j = 16 * ((format lcr).dataBits + 1) + d) (rstate : s.rstate = .wait1)
      (counter : s.rcounter16.toNat + d = 15) (rparityError : s.rparityError = false)
      (shifted : s.Shifted lcr byte (format lcr).dataBits)
  -- the first half of the stop bit, and the step that pushes the entry in its middle
  | stop (c : ℕ) (hc : 7 ≤ c ∧ c ≤ 14) (hj : j + c = pushAt (format lcr) + 6)
      (rstate : s.rstate = .recStop) (counter : s.rcounter16.toNat = c)
      (rparityError : s.rparityError = false) (shifted : s.Shifted lcr byte (format lcr).dataBits)
  | push (hj : j = pushAt (format lcr)) (rstate : s.rstate = .push)
      (rparityError : s.rparityError = false) (rframingError : s.rframingError = false)
      (shifted : s.Shifted lcr byte (format lcr).dataBits)

/-! ## The registers -/

/-- The step in which a byte is handed over, without and with parity, as bit 3 of the format
says. -/
theorem pushAt_eq (lcr : BitVec 8) :
    (lcr.getLsbD 3 = false ∧ pushAt (format lcr) = 16 * ((format lcr).dataBits + 1) + 9) ∨
      (lcr.getLsbD 3 = true ∧ pushAt (format lcr) = 16 * ((format lcr).dataBits + 2) + 8) := by
  rcases length_cases lcr with ⟨hlen, hnone, hpe⟩ | ⟨hlen, hsome, hpe⟩
  · exact .inl ⟨hpe, by rw [pushAt, hnone, hlen]⟩
  · obtain ⟨p, hp⟩ := Option.ne_none_iff_exists'.mp hsome
    exact .inr ⟨hpe, by rw [pushAt, hp, hlen]⟩

/-- The break counter, started at the last high level, does not end within the bits of a frame. -/
theorem pushAt_lt (lcr : BitVec 8) : pushAt (format lcr) < (brcValue lcr).toNat := by
  -- both depend on the lower four bits of `lcr` only, so that sixteen cases are left
  have hpe : lcr.getLsbD 3 = (lcr.extractLsb' 0 4).getLsbD 3 := by
    rw [BitVec.getLsbD_extractLsb']
    rfl
  have hbits : (format lcr).dataBits = 5 + ((lcr.extractLsb' 0 4).extractLsb' 0 2).toNat := by
    rw [Bits.extract_extract _ (by decide)]
    rfl
  rcases pushAt_eq lcr with ⟨hno, hpush⟩ | ⟨hyes, hpush⟩
  · rw [hpe] at hno
    rw [hpush, hbits, brcValue, tocValue]
    clear hpe hbits hpush
    generalize lcr.extractLsb' 0 4 = v at *
    revert v
    decide
  · rw [hpe] at hyes
    rw [hpush, hbits, brcValue, tocValue]
    clear hpe hbits hpush
    generalize lcr.extractLsb' 0 4 = v at *
    revert v
    decide

/-- The counter of the data bits starts with their number less one. -/
theorem bitCount_eq (lcr : BitVec 8) : (bitCount lcr).toNat + 1 = (format lcr).dataBits := by
  change _ = 5 + (lcr.extractLsb' 0 2).toNat
  rw [bitCount]
  generalize lcr.extractLsb' 0 2 = v
  revert v
  decide

/-- A bit goes to the highest place of a data bit, and the others move down. -/
theorem getLsbD_shiftIn (s : UartReceiver) (lcr : BitVec 8) (srx : Bool) (k : ℕ) :
    (s.shiftIn lcr srx).getLsbD k =
      if k + 1 = (format lcr).dataBits then srx
      else if k < (format lcr).dataBits then s.rshift.getLsbD (k + 1)
      else s.rshift.getLsbD k := by
  have hbits : (format lcr).dataBits = 5 + (lcr.extractLsb' 0 2).toNat := rfl
  have hcases : ∀ v : BitVec 2, v = 0 ∨ v = 1 ∨ v = 2 ∨ v = 3 := by decide
  have hplace {b c : ℕ} (hb : b = c + 1) :
      (if k = c then srx else if k < c then s.rshift.getLsbD (k + 1) else s.rshift.getLsbD k) =
        if k + 1 = b then srx
        else if k < b then s.rshift.getLsbD (k + 1) else s.rshift.getLsbD k := by
    subst hb
    split_ifs <;> first | rfl | omega
  -- the numbers of data bits differ in where the new bit goes
  rcases hcases (lcr.extractLsb' 0 2) with h | h | h | h <;> rw [hbits, h]
  · have hshift : s.shiftIn lcr srx = s.rshift.extractLsb' 5 3 ++
        (BitVec.ofBool srx ++ s.rshift.extractLsb' 1 4) := by
      simp only [UartReceiver.shiftIn, h]
      rfl
    rw [hshift, Bits.getLsbD_shiftIn _ _ rfl, hplace rfl]
    rfl
  · have hshift : s.shiftIn lcr srx = s.rshift.extractLsb' 6 2 ++
        (BitVec.ofBool srx ++ s.rshift.extractLsb' 1 5) := by
      simp only [UartReceiver.shiftIn, h]
      rfl
    rw [hshift, Bits.getLsbD_shiftIn _ _ rfl, hplace rfl]
    rfl
  · have hshift : s.shiftIn lcr srx = s.rshift.extractLsb' 7 1 ++
        (BitVec.ofBool srx ++ s.rshift.extractLsb' 1 6) := by
      simp only [UartReceiver.shiftIn, h]
      rfl
    rw [hshift, Bits.getLsbD_shiftIn _ _ rfl, hplace rfl]
    rfl
  · have hshift : s.shiftIn lcr srx = s.rshift.extractLsb' 8 0 ++
        (BitVec.ofBool srx ++ s.rshift.extractLsb' 1 7) := by
      have hnil : s.rshift.extractLsb' 8 0 = 0#0 := BitVec.eq_nil _
      simp only [UartReceiver.shiftIn, h]
      rw [hnil, Bits.zero_append]
      exact (BitVec.setWidth_eq _).symm
    rw [hshift, Bits.getLsbD_shiftIn _ _ rfl, hplace rfl]
    rfl

/-- Shifting in the next data bit of a byte leaves one bit more of it in the shift register. -/
theorem Shifted.shiftIn (h : s.Shifted lcr byte m) {s' : UartReceiver}
    (hs' : s'.rshift = s.shiftIn lcr (byte.getLsbD m)) :
    s'.Shifted lcr byte (m + 1) := by
  intro k
  rw [hs', getLsbD_shiftIn]
  split_ifs with hlast hlt
  · have hk : k + (m + 1) - (format lcr).dataBits = m := by omega
    rw [hk, decide_eq_true (by omega), Bool.true_and]
  · have hk : k + 1 + m = k + (m + 1) := by omega
    rw [h, hk]
    congr 1
    exact decide_eq_decide.mpr ⟨fun h => ⟨h.1, hlt⟩, fun h => ⟨h.1, by omega⟩⟩
  · rw [h, decide_eq_false (by omega), decide_eq_false (by omega), Bool.false_and, Bool.false_and]

/-- A cleared shift register holds the first zero bits of any byte. -/
theorem shifted_zero (hs : s.rshift = 0) : s.Shifted lcr byte 0 := by
  intro k
  rw [hs, decide_eq_false (by omega)]
  simp

/-- In the end the shift register has what the frame carries. -/
theorem Shifted.rshift_eq (h : s.Shifted lcr byte (format lcr).dataBits) :
    s.rshift = (byte.setWidth (format lcr).dataBits).setWidth 8 := by
  have hdata := dataBits_le lcr
  refine BitVec.eq_of_getLsbD_eq fun k hk => ?_
  rw [h, BitVec.getLsbD_setWidth, BitVec.getLsbD_setWidth, Nat.add_sub_cancel, decide_eq_true hk,
    Bool.true_and]
  congr 1
  exact decide_eq_decide.mpr ⟨fun h => h.2, fun h => ⟨by omega, h⟩⟩

/-- The exclusive or of a byte that is cut to `b` bits is that of its lower `b` bits. -/
theorem xorBits_setWidth {b : ℕ} (byte : BitVec 8) (hb : b ≤ 8) :
    xorBits ((byte.setWidth b).setWidth 8) 8 = xorBits byte b := by
  have hall (c : ℕ) (hc : c ≤ 8) :
      xorBits ((byte.setWidth b).setWidth 8) c = xorBits byte (min c b) := by
    induction c with
    | zero => rw [Nat.zero_min]; rfl
    | succ c ih =>
      rw [xorBits, ih (by omega), BitVec.getLsbD_setWidth, BitVec.getLsbD_setWidth,
        decide_eq_true (by omega), Bool.true_and]
      rcases Nat.lt_or_ge c b with hlt | hge
      · rw [Nat.min_eq_left hlt.le, Nat.min_eq_left (by omega), xorBits, decide_eq_true hlt,
          Bool.true_and]
      · rw [Nat.min_eq_right hge, Nat.min_eq_right (by omega), decide_eq_false (by omega),
          Bool.false_and, Bool.xor_false]
  rw [hall 8 le_rfl, Nat.min_eq_right hb]

/-! ## The steps of a frame -/

/-- A counter of four bits is seven if and only if it is so as a number. -/
theorem eq_seven {v : BitVec 4} : v = 7 ↔ v.toNat = 7 := by
  rw [← BitVec.toNat_inj]
  rfl

/-- A counter of four bits is zero if and only if it is so as a number. -/
theorem eq_zero {v : BitVec 4} : v = 0 ↔ v.toNat = 0 := by
  rw [← BitVec.toNat_inj]
  rfl

/-- A counter of four bits that is not zero goes down by one. -/
theorem toNat_sub_one {v : BitVec 4} (h : v.toNat ≠ 0) : (v - 1).toNat + 1 = v.toNat := by bv_omega

/-- Bit `i + 1` of a frame is data bit `i` of its byte. -/
theorem bit_data {i : ℕ} (hi : i < (format lcr).dataBits) :
    (format lcr).bit byte (i + 1) = byte.getLsbD i := by
  have hle : i + 1 ≤ (format lcr).dataBits := hi
  rw [Format.bit, if_neg i.succ_ne_zero, if_pos hle]
  rfl

/-- A step within the first half of the start bit stays in the frame. -/
theorem step_start (hj : 1 ≤ j ∧ j ≤ 8) (rstate : s.rstate = .recStart)
    (counter : s.rcounter16.toNat + j = 15) (hsrx : srx = (format lcr).bit byte (j / 16)) :
    (s.step lcr srx).InFrame lcr byte (j + 1) := by
  have hcounter := toNat_sub_one (v := s.rcounter16) (by omega)
  by_cases hlast : j = 8
  · -- in its middle the start bit is checked once more
    have hlow : srx = false := by
      rw [hsrx, hlast]
      rfl
    have hseven : s.rcounter16 = 7 := eq_seven.mpr (by omega)
    refine .prepare (by omega) ?_ ?_
    · simp only [step, rstate, if_pos hseven, hlow, Bool.false_eq_true, if_false]
    · simp only [step, rstate]
      omega
  · have hseven : ¬ s.rcounter16 = 7 := fun h => by
      have := eq_seven.mp h
      omega
    refine .start (by omega) ?_ ?_
    · simp only [step, rstate, if_neg hseven]
    · simp only [step, rstate]
      omega

/-- A step within the second half of the start bit stays in the frame. -/
theorem step_prepare (hj : 9 ≤ j ∧ j ≤ 15) (rstate : s.rstate = .recPrepare)
    (counter : s.rcounter16.toNat + j = 15) :
    (s.step lcr srx).InFrame lcr byte (j + 1) := by
  by_cases hlast : j = 15
  · -- the first data bit begins
    have hzero : s.rcounter16 = 0 := eq_zero.mpr (by omega)
    have hstep : s.step lcr srx =
        { s with
          rbitCounter := bitCount lcr
          rstate := .recBit
          rshift := 0
          rcounter16 := s.rcounter16 - 1 } := by
      simp only [step, rstate, if_pos hzero]
    have hdata := dataBits_le lcr
    rw [hstep, hzero]
    exact .bit 0 0 (by omega) (by omega) (by omega) rfl rfl (bitCount_eq lcr) (shifted_zero rfl)
  · have hzero : ¬ s.rcounter16 = 0 := fun h => by
      have := eq_zero.mp h
      omega
    have hcounter := toNat_sub_one (v := s.rcounter16) (by omega)
    refine .prepare (by omega) ?_ ?_
    · simp only [step, rstate, if_neg hzero]
    · simp only [step, rstate, if_neg hzero]
      omega

/-- How far a byte is shifted in depends on the shift register only. -/
theorem Shifted.congr {s' : UartReceiver} (h : s.Shifted lcr byte m) (hs' : s'.rshift = s.rshift) :
    s'.Shifted lcr byte m := by
  intro k
  rw [hs']
  exact h k

/-- A step within a data bit stays in the frame, and takes the bit in its middle. -/
theorem step_bit {i d : ℕ} (hi : i < (format lcr).dataBits) (hd : d ≤ 15)
    (hj : j = 16 * (i + 1) + d) (rstate : s.rstate = .recBit)
    (counter : s.rcounter16.toNat + d = 15)
    (bits : s.rbitCounter.toNat + i + 1 = (format lcr).dataBits)
    (shifted : s.Shifted lcr byte (if d ≤ 8 then i else i + 1))
    (hsrx : srx = (format lcr).bit byte (j / 16)) :
    (s.step lcr srx).InFrame lcr byte (j + 1) := by
  have hbit : srx = byte.getLsbD i := by
    have hdiv : j / 16 = i + 1 := by omega
    rw [hsrx, hdiv, bit_data hi]
  have hstep : s.step lcr srx =
      { s with
        rstate := if s.rcounter16 = 0 then .endBit else .recBit
        rshift := if s.rcounter16 = 7 then s.shiftIn lcr srx else s.rshift
        rcounter16 := s.rcounter16 - 1 } := by
    simp only [step, rstate]
  have hseven : s.rcounter16 = 7 ↔ d = 8 := by
    rw [eq_seven]
    omega
  have hzero : s.rcounter16 = 0 ↔ d = 15 := by
    rw [eq_zero]
    omega
  -- the bit is taken in its middle
  have hshifted : (s.step lcr srx).Shifted lcr byte (if d + 1 ≤ 8 then i else i + 1) := by
    by_cases hmid : d = 8
    · have hbefore : d ≤ 8 := by omega
      have hbehind : ¬ d + 1 ≤ 8 := by omega
      rw [if_pos hbefore] at shifted
      rw [if_neg hbehind, hstep]
      refine shifted.shiftIn ?_
      rw [← hbit]
      exact if_pos (hseven.mpr hmid)
    · have hplace : (if d + 1 ≤ 8 then i else i + 1) = if d ≤ 8 then i else i + 1 := by
        split_ifs <;> omega
      rw [hplace, hstep]
      exact shifted.congr (if_neg (hseven.not.mpr hmid))
  -- `endBit` sets the counter itself
  by_cases hlast : d = 15
  · rw [if_neg (by omega)] at hshifted
    refine .endBit (i + 1) (by omega) (by omega) ?_ ?_ hshifted
    · rw [hstep]
      exact if_pos (hzero.mpr hlast)
    · rw [hstep]
      change s.rbitCounter.toNat + (i + 1) = _
      omega
  · have hcounter := toNat_sub_one (v := s.rcounter16) (by omega)
    refine .bit i (d + 1) hi (by omega) (by omega) ?_ ?_ ?_ hshifted
    · rw [hstep]
      exact if_neg (hzero.not.mpr hlast)
    · rw [hstep]
      change (s.rcounter16 - 1).toNat + (d + 1) = 15
      omega
    · rw [hstep]
      exact bits

/-- The step behind the last sixteenth of a data bit goes on to the next one, or to the parity or
stop bit. -/
theorem step_endBit {i : ℕ} (hi : 1 ≤ i ∧ i ≤ (format lcr).dataBits) (hj : j = 16 * (i + 1))
    (rstate : s.rstate = .endBit) (bits : s.rbitCounter.toNat + i = (format lcr).dataBits)
    (shifted : s.Shifted lcr byte i) :
    (s.step lcr srx).InFrame lcr byte (j + 1) := by
  have hzero : s.rbitCounter = 0 ↔ s.rbitCounter.toNat = 0 := by
    rw [← BitVec.toNat_inj]
    rfl
  -- `endBit` takes the first step of the bit that follows
  by_cases hlast : i = (format lcr).dataBits
  · have hnone : s.rbitCounter = 0 := hzero.mpr (by omega)
    subst hlast
    rcases pushAt_eq lcr with ⟨hpe, hpush⟩ | ⟨hpe, hpush⟩
    · have hstep : s.step lcr srx =
          { s with rstate := .recStop, rparityError := false, rcounter16 := 0b1110 } := by
        simp only [step, rstate, if_pos hnone, hpe, Bool.false_eq_true, if_false]
      rw [hstep]
      exact .stop 14 (by omega) (by omega) rfl rfl rfl shifted
    · have hstep : s.step lcr srx = { s with rstate := .recParity, rcounter16 := 0b1110 } := by
        simp only [step, rstate, if_pos hnone, hpe, if_true]
      rw [hstep]
      exact .parity 1 (by omega) hpe (by omega) rfl rfl shifted
  · have hsome : ¬ s.rbitCounter = 0 := fun h => by
      have := hzero.mp h
      omega
    have hstep : s.step lcr srx =
        { s with
          rstate := .recBit
          rbitCounter := s.rbitCounter - 1
          rcounter16 := 0b1110 } := by
      simp only [step, rstate, if_neg hsome]
    have hbits : (s.rbitCounter - 1).toNat + 1 = s.rbitCounter.toNat := by
      have := hzero.not.mp hsome
      bv_omega
    rw [hstep]
    refine .bit i 1 (by omega) (by omega) (by omega) rfl rfl ?_ shifted
    change (s.rbitCounter - 1).toNat + i + 1 = _
    omega

/-- A step within the first half of the parity bit stays in the frame, and takes the bit in its
middle. -/
theorem step_parity {d : ℕ} (hd : 1 ≤ d ∧ d ≤ 8) (hpe : lcr.getLsbD 3 = true)
    (hj : j = 16 * ((format lcr).dataBits + 1) + d) (rstate : s.rstate = .recParity)
    (counter : s.rcounter16.toNat + d = 15)
    (shifted : s.Shifted lcr byte (format lcr).dataBits)
    (hsrx : srx = (format lcr).bit byte (j / 16)) :
    (s.step lcr srx).InFrame lcr byte (j + 1) := by
  have hcounter := toNat_sub_one (v := s.rcounter16) (by omega)
  by_cases hlast : d = 8
  · -- the parity bit is taken in its middle
    have hseven : s.rcounter16 = 7 := eq_seven.mpr (by omega)
    have hstep : s.step lcr srx =
        { s with rparity := srx, rstate := .caLcParity, rcounter16 := s.rcounter16 - 1 } := by
      simp only [step, rstate, if_pos hseven]
    have hdiv : j / 16 = (format lcr).dataBits + 1 := by omega
    rw [hdiv] at hsrx
    rw [hstep, hseven]
    exact .caLcParity hpe (by omega) rfl rfl hsrx shifted
  · have hseven : ¬ s.rcounter16 = 7 := fun h => by
      have := eq_seven.mp h
      omega
    have hstep : s.step lcr srx = { s with rcounter16 := s.rcounter16 - 1 } := by
      simp only [step, rstate, if_neg hseven]
    rw [hstep]
    refine .parity (d + 1) (by omega) hpe (by omega) rstate ?_ shifted
    change (s.rcounter16 - 1).toNat + (d + 1) = 15
    omega

/-- The step that computes the parity of the byte stays in the frame. -/
theorem step_caLcParity (hpe : lcr.getLsbD 3 = true)
    (hj : j = 16 * ((format lcr).dataBits + 1) + 9) (rstate : s.rstate = .caLcParity)
    (counter : s.rcounter16 = 6)
    (rparity : s.rparity = (format lcr).bit byte ((format lcr).dataBits + 1))
    (shifted : s.Shifted lcr byte (format lcr).dataBits) :
    (s.step lcr srx).InFrame lcr byte (j + 1) := by
  have hxor : xorBits s.rshift 8 = xorBits byte (format lcr).dataBits := by
    rw [shifted.rshift_eq, xorBits_setWidth byte (dataBits_le lcr).2]
  have hstep : s.step lcr srx =
      { s with
        rcounter16 := s.rcounter16 - 1
        rparityXor := xorBits byte (format lcr).dataBits ^^ s.rparity
        rstate := .checkParity } := by
    simp only [step, rstate, hxor]
  rw [hstep, counter]
  exact .checkParity hpe (by omega) rfl rfl rparity rfl shifted

/-- The parity bit of a frame is the one that is expected. -/
theorem step_checkParity (hpe : lcr.getLsbD 3 = true)
    (hj : j = 16 * ((format lcr).dataBits + 1) + 10) (rstate : s.rstate = .checkParity)
    (counter : s.rcounter16 = 5)
    (rparity : s.rparity = (format lcr).bit byte ((format lcr).dataBits + 1))
    (rparityXor : s.rparityXor = (xorBits byte (format lcr).dataBits ^^ s.rparity))
    (shifted : s.Shifted lcr byte (format lcr).dataBits) :
    (s.step lcr srx).InFrame lcr byte (j + 1) := by
  rw [bit_parity hpe] at rparity
  have hstep : s.step lcr srx =
      { s with rparityError := false, rcounter16 := s.rcounter16 - 1, rstate := .wait1 } := by
    simp only [step, rstate, rparityXor, rparity]
    -- under each kind of parity the bit agrees with the data
    congr 1
    cases lcr.getLsbD 4 <;> cases lcr.getLsbD 5 <;> cases xorBits byte (format lcr).dataBits <;> rfl
  rw [hstep, counter]
  exact .wait1 11 (by omega) hpe (by omega) rfl rfl rfl shifted

/-- A step of the second half of the parity bit stays in the frame. -/
theorem step_wait1 {d : ℕ} (hd : 11 ≤ d ∧ d ≤ 15) (hpe : lcr.getLsbD 3 = true)
    (hj : j = 16 * ((format lcr).dataBits + 1) + d) (rstate : s.rstate = .wait1)
    (counter : s.rcounter16.toNat + d = 15) (rparityError : s.rparityError = false)
    (shifted : s.Shifted lcr byte (format lcr).dataBits) :
    (s.step lcr srx).InFrame lcr byte (j + 1) := by
  by_cases hlast : d = 15
  · have hzero : s.rcounter16 = 0 := eq_zero.mpr (by omega)
    have hstep : s.step lcr srx = { s with rstate := .recStop, rcounter16 := 0b1110 } := by
      simp only [step, rstate, if_pos hzero]
    -- with a parity bit the middle of the stop bit is one bit later
    have hpush : pushAt (format lcr) = 16 * ((format lcr).dataBits + 2) + 8 := by
      rcases pushAt_eq lcr with ⟨hno, -⟩ | ⟨-, hpush⟩
      · exact absurd (hno.symm.trans hpe) Bool.false_ne_true
      · exact hpush
    rw [hstep]
    exact .stop 14 (by omega) (by omega) rfl rfl rparityError shifted
  · have hzero : ¬ s.rcounter16 = 0 := fun h => by
      have := eq_zero.mp h
      omega
    have hcounter := toNat_sub_one (v := s.rcounter16) (by omega)
    have hstep : s.step lcr srx = { s with rcounter16 := s.rcounter16 - 1 } := by
      simp only [step, rstate, if_neg hzero]
    rw [hstep]
    refine .wait1 (d + 1) (by omega) hpe (by omega) rstate ?_ rparityError shifted
    change (s.rcounter16 - 1).toNat + (d + 1) = 15
    omega

/-- A step within the first half of the stop bit stays in the frame. -/
theorem step_stop {c : ℕ} (hc : 7 ≤ c ∧ c ≤ 14) (hj : j + c = pushAt (format lcr) + 6)
    (rstate : s.rstate = .recStop) (counter : s.rcounter16.toNat = c)
    (rparityError : s.rparityError = false)
    (shifted : s.Shifted lcr byte (format lcr).dataBits)
    (hsrx : srx = (format lcr).bit byte (j / 16)) :
    (s.step lcr srx).InFrame lcr byte (j + 1) := by
  have hcounter := toNat_sub_one (v := s.rcounter16) (by omega)
  by_cases hlast : c = 7
  · -- the middle of the stop bit, where the line is high
    have hseven : s.rcounter16 = 7 := eq_seven.mpr (by omega)
    have hhigh : srx = true := by
      have hdiv : j / 16 = (format lcr).length := by
        rcases pushAt_eq lcr with ⟨hpe, hpush⟩ | ⟨hpe, hpush⟩ <;>
          rcases length_cases lcr with ⟨hlen, -, hpe'⟩ | ⟨hlen, -, hpe'⟩ <;>
          first
          | omega
          | exact absurd (hpe.symm.trans hpe') (by decide)
      rw [hsrx, hdiv, UartTransmitter.bit_length]
    have hstep : s.step lcr srx =
        { s with rframingError := false, rstate := .push, rcounter16 := s.rcounter16 - 1 } := by
      simp only [step, rstate, if_pos hseven, hhigh, Bool.not_true]
    rw [hstep]
    exact .push (by omega) rfl rparityError rfl shifted
  · have hseven : ¬ s.rcounter16 = 7 := fun h => by
      have := eq_seven.mp h
      omega
    have hstep : s.step lcr srx = { s with rcounter16 := s.rcounter16 - 1 } := by
      simp only [step, rstate, if_neg hseven]
    rw [hstep]
    refine .stop (c - 1) (by omega) (by omega) rstate ?_ rparityError shifted
    change (s.rcounter16 - 1).toNat = c - 1
    omega

/-- A step before the one that hands the byte over stays in the frame, if the line has the bit of
the frame. -/
theorem InFrame.step (h : s.InFrame lcr byte j) (hj : j < pushAt (format lcr))
    (hsrx : srx = (format lcr).bit byte (j / 16)) :
    (s.step lcr srx).InFrame lcr byte (j + 1) := by
  cases h with
  | start hj rstate counter => exact step_start hj rstate counter hsrx
  | prepare hj rstate counter => exact step_prepare hj rstate counter
  | bit i d hi hd hj rstate counter bits shifted =>
    exact step_bit hi hd hj rstate counter bits shifted hsrx
  | endBit i hi hj rstate bits shifted => exact step_endBit hi hj rstate bits shifted
  | parity d hd hpe hj rstate counter shifted =>
    exact step_parity hd hpe hj rstate counter shifted hsrx
  | caLcParity hpe hj rstate counter rparity shifted =>
    exact step_caLcParity hpe hj rstate counter rparity shifted
  | checkParity hpe hj rstate counter rparity rparityXor shifted =>
    exact step_checkParity hpe hj rstate counter rparity rparityXor shifted
  | wait1 d hd hpe hj rstate counter rparityError shifted =>
    exact step_wait1 hd hpe hj rstate counter rparityError shifted
  | stop c hc hj rstate counter rparityError shifted =>
    exact step_stop hc hj rstate counter rparityError shifted hsrx
  | push hpush => omega

/-- The step in the middle of the stop bit hands the byte over without an error bit and goes back to
`idle`. -/
theorem InFrame.step_push (h : s.InFrame lcr byte (pushAt (format lcr))) (hsrx : srx = true)
    (hbreak : s.breakError = false) :
    s.step lcr srx =
      { s with rfDataIn := handed (format lcr) byte, rfPush := true, rstate := .idle } := by
  have hpush : s.rstate = .push ∧ s.rparityError = false ∧ s.rframingError = false ∧
      s.Shifted lcr byte (format lcr).dataBits := by
    have hat : lcr.getLsbD 3 = true → 16 * ((format lcr).dataBits + 2) < pushAt (format lcr) := by
      intro hpe
      rcases pushAt_eq lcr with ⟨hno, -⟩ | ⟨-, hpush⟩
      · exact absurd (hno.symm.trans hpe) Bool.false_ne_true
      · omega
    have hlow : 16 * ((format lcr).dataBits + 1) + 9 ≤ pushAt (format lcr) := by
      rcases pushAt_eq lcr with ⟨-, hpush⟩ | ⟨-, hpush⟩ <;> omega
    -- all other states come earlier in a frame
    cases h with
    | push _ rstate rparityError rframingError shifted =>
      exact ⟨rstate, rparityError, rframingError, shifted⟩
    | parity _ hd hpe => exact absurd (hat hpe) (by omega)
    | caLcParity hpe => exact absurd (hat hpe) (by omega)
    | checkParity hpe => exact absurd (hat hpe) (by omega)
    | wait1 _ hd hpe => exact absurd (hat hpe) (by omega)
    | _ => omega
  obtain ⟨rstate, rparityError, rframingError, shifted⟩ := hpush
  have hentry : s.entry = handed (format lcr) byte := by
    rw [entry, handed, rparityError, rframingError, shifted.rshift_eq]
    rfl
  simp only [UartReceiver.step, rstate, hsrx, hbreak, hentry, Bool.true_or, if_true,
    Bool.false_eq_true, if_false]

/-- A step in a state other than `push` leaves `rf_push` low. -/
theorem step_rfPush (hstate : s.rstate ≠ .push) (hpush : s.rfPush = false) :
    (s.step lcr srx).rfPush = false := by
  cases hs : s.rstate with
  | push => exact absurd hs hstate
  | idle | recStart => simp only [step, hs]
  | recBit | caLcParity | checkParity => simp only [step, hs, hpush]
  | recPrepare | endBit | recParity | recStop | wait1 =>
    simp only [step, hs]
    split_ifs <;> exact hpush

/-- Before the byte is handed over the receiver is not in the state `push`. -/
theorem InFrame.rstate_ne_push (h : s.InFrame lcr byte j) (hj : j < pushAt (format lcr)) :
    s.rstate ≠ .push := by
  cases h with
  | push hpush => omega
  | _ => simp [*]

/-- A low line in front of a frame begins it. -/
theorem step_idle (lcr byte : BitVec 8) (hstate : s.rstate = .idle) (hsrx : srx = false)
    (hbreak : s.breakError = false) :
    (s.step lcr srx).InFrame lcr byte 1 ∧ (s.step lcr srx).rfPush = false := by
  have hstep : s.step lcr srx =
      { s with rfPush := false, rfDataIn := 0, rcounter16 := 0b1110, rstate := .recStart } := by
    simp only [step, hstate, hsrx, hbreak]
    rfl
  rw [hstep]
  exact ⟨.start (by omega) rfl rfl, rfl⟩

/-- A high line between frames leaves the receiver where it is. -/
theorem step_idle_high (hstate : s.rstate = .idle) :
    s.step lcr true = { s with rfPush := false, rfDataIn := 0, rcounter16 := 0b1110 } := by
  simp only [step, hstate]
  rfl

/-! ## Between frames and within them -/

/-- What the receiver is doing in front of step `n`, when it has handed over the bytes of `done`. -/
inductive Phase (s : UartReceiver) (lcr : BitVec 8) (frames done : List (Frame ℕ)) (n : ℕ) : Prop
  | idle (rest : List (Frame ℕ)) (split : frames = done ++ rest)
      (past : ∀ f ∈ done, f.start + pushAt (format lcr) < n) (coming : ∀ f ∈ rest, n ≤ f.start)
      (rstate : s.rstate = .idle) (counterB : s.counterB = brcValue lcr)
  | frame (f : Frame ℕ) (rest : List (Frame ℕ)) (j : ℕ) (split : frames = done ++ f :: rest)
      (past : ∀ f ∈ done, f.start + pushAt (format lcr) < n)
      (coming : ∀ g ∈ rest, f.start + (format lcr).ticks ≤ g.start)
      (time : n = f.start + j) (hj : 1 ≤ j ∧ j ≤ pushAt (format lcr))
      (inFrame : s.InFrame lcr f.byte j) (rfPush : s.rfPush = false)
      (counterB : (brcValue lcr).toNat ≤ s.counterB.toNat + j)

/-- The byte is handed over in the middle of the stop bit, before the frame ends. -/
theorem pushAt_bounds (lcr : BitVec 8) : 16 * (format lcr).length + 8 ≤ pushAt (format lcr) ∧
    pushAt (format lcr) ≤ 16 * (format lcr).length + 9 ∧
    pushAt (format lcr) < (format lcr).ticks := by
  have hstop := UartTransmitter.stop_cases lcr
  have hticks : (format lcr).ticks = 16 * (format lcr).length + (format lcr).stop := rfl
  rcases length_cases lcr with ⟨hlen, -, hpe⟩ | ⟨hlen, -, hpe⟩ <;>
    rcases pushAt_eq lcr with ⟨hpe', hpush⟩ | ⟨hpe', hpush⟩ <;>
    first
    | omega
    | exact absurd (hpe.symm.trans hpe') (by decide)

/-- Within a frame that is driven on the line the receiver sees its bits. -/
theorem sees {frames done rest : List (Frame ℕ)} {f : Frame ℕ}
    (hline : (format lcr).Drives 1 frames n srx) (split : frames = done ++ f :: rest)
    (past : ∀ f ∈ done, f.start + pushAt (format lcr) < n)
    (coming : ∀ g ∈ rest, f.start + (format lcr).ticks ≤ g.start) (time : n = f.start + j)
    (hj : j ≤ pushAt (format lcr)) : srx = (format lcr).bit f.byte (j / 16) := by
  have hbounds := pushAt_bounds lcr
  have hf : f ∈ frames := by
    rw [split]
    exact List.mem_append_right _ List.mem_cons_self
  rcases Nat.lt_or_ge (j / 16) (format lcr).length with hlt | hge
  · exact hline.bit f hf _ hlt (by omega) (by omega)
  · -- from the stop bit on no frame pulls the line down
    have hdiv : j / 16 = (format lcr).length := by omega
    rw [hdiv, UartTransmitter.bit_length]
    refine hline.high fun g hg => ?_
    rw [split, List.mem_append, List.mem_cons] at hg
    rcases hg with hg | rfl | hg
    · have := past g hg
      exact .inr (by omega)
    · exact .inr (by omega)
    · have := coming g hg
      exact .inl (by omega)

/-- Between the frames that are driven on the line the receiver sees a high level. -/
theorem sees_high {frames done rest : List (Frame ℕ)}
    (hline : (format lcr).Drives 1 frames n srx) (split : frames = done ++ rest)
    (past : ∀ f ∈ done, f.start + pushAt (format lcr) < n) (coming : ∀ f ∈ rest, n < f.start) :
    srx = true := by
  have hbounds := pushAt_bounds lcr
  refine hline.high fun g hg => ?_
  rw [split, List.mem_append] at hg
  rcases hg with hg | hg
  · have := past g hg
    exact .inr (by omega)
  · exact .inl (coming g hg)

/-- The break counter, the FIFO and the timeout counter have no part in a frame. -/
theorem InFrame.withCounters (h : s.InFrame lcr byte j) (fifo : UartRfifo) (rfPushQ : Bool)
    (counterB : BitVec 8) (counterT : BitVec 10) :
    { s with
      fifo := fifo
      rfPushQ := rfPushQ
      counterB := counterB
      counterT := counterT }.InFrame lcr byte j := by
  cases h with
  | start hj rstate counter => exact .start hj rstate counter
  | prepare hj rstate counter => exact .prepare hj rstate counter
  | bit i d hi hd hj rstate counter bits shifted =>
    exact .bit i d hi hd hj rstate counter bits shifted
  | endBit i hi hj rstate bits shifted => exact .endBit i hi hj rstate bits shifted
  | parity d hd hpe hj rstate counter shifted => exact .parity d hd hpe hj rstate counter shifted
  | caLcParity hpe hj rstate counter rparity shifted =>
    exact .caLcParity hpe hj rstate counter rparity shifted
  | checkParity hpe hj rstate counter rparity rparityXor shifted =>
    exact .checkParity hpe hj rstate counter rparity rparityXor shifted
  | wait1 d hd hpe hj rstate counter rparityError shifted =>
    exact .wait1 d hd hpe hj rstate counter rparityError shifted
  | stop c hc hj rstate counter rparityError shifted =>
    exact .stop c hc hj rstate counter rparityError shifted
  | push hj rstate rparityError rframingError shifted =>
    exact .push hj rstate rparityError rframingError shifted

section Next

variable {i : In}

/-- A cycle without `enable` leaves the state of the receiver, and the break counter unless the line
is high. -/
theorem next_disabled (h : i.enable = false) :
    (s.next i).rstate = s.rstate ∧ (s.next i).rfPush = s.rfPush ∧
      (s.next i).counterB = (if i.srxPadI then brcValue i.lcr else s.counterB) := by
  rw [next, h]
  exact ⟨rfl, rfl, rfl⟩

/-- A cycle without `enable` keeps the receiver where it is in a frame. -/
theorem InFrame.next_disabled (hframe : s.InFrame lcr byte j) (h : i.enable = false) :
    (s.next i).InFrame lcr byte j := by
  rw [next, h]
  exact hframe.withCounters _ _ _ _

/-- In a cycle with `enable` the state, the push and the byte handed over are those of a step. -/
theorem next_enabled (h : i.enable = true) :
    (s.next i).rstate = (s.step i.lcr i.srxPadI).rstate ∧
      (s.next i).rfPush = (s.step i.lcr i.srxPadI).rfPush ∧
      (s.next i).rfDataIn = (s.step i.lcr i.srxPadI).rfDataIn := by
  rw [next, h]
  exact ⟨rfl, rfl, rfl⟩

/-- A high level starts the break counter again. -/
theorem next_counterB (s : UartReceiver) (h : i.srxPadI = true) :
    (s.next i).counterB = brcValue i.lcr := by
  rw [next, h]
  rfl

/-- The break counter goes down by one for a step at most. -/
theorem le_next_counterB (hb : (brcValue i.lcr).toNat ≤ s.counterB.toNat + j) :
    (brcValue i.lcr).toNat ≤
      (s.next i).counterB.toNat + (j + if i.enable = true then 1 else 0) := by
  -- a high line loads the counter, and a low one takes at most one off it
  cases hsrx : i.srxPadI with
  | true =>
    rw [next_counterB s hsrx]
    exact Nat.le_add_right _ _
  | false =>
    have hcounter : (s.next i).counterB =
        if i.enable && s.counterB != 0 then s.counterB - 1 else s.counterB := by
      rw [next, hsrx]
      rfl
    rw [hcounter]
    cases i.enable with
    | false =>
      simp only [Bool.false_and, Bool.false_eq_true, if_false]
      omega
    | true =>
      by_cases hzero : s.counterB = 0
      · simp only [hzero, bne_self_eq_false, Bool.and_false, Bool.false_eq_true, if_false]
        rw [hzero] at hb
        omega
      · have hminus : (s.counterB - 1).toNat + 1 = s.counterB.toNat := by bv_omega
        simp only [bne_iff_ne.mpr hzero, Bool.and_true, if_true]
        omega

/-- As long as the byte has not been handed over, the break counter has not ended. -/
theorem not_breakError (lcr : BitVec 8) (hj : j ≤ pushAt (format lcr))
    (hb : (brcValue lcr).toNat ≤ s.counterB.toNat + j) : s.breakError = false := by
  have hlt := pushAt_lt lcr
  rw [breakError, beq_eq_false_iff_ne]
  intro hzero
  have hnat : s.counterB.toNat = 0 := by
    rw [hzero]
    rfl
  omega

end Next

section Frame

variable {frames done rest : List (Frame ℕ)} {f : Frame ℕ} {i : In} (hlcr : i.lcr = lcr)
  (split : frames = done ++ f :: rest)
  (past : ∀ f ∈ done, f.start + pushAt (format lcr) < n)
  (coming : ∀ g ∈ rest, f.start + (format lcr).ticks ≤ g.start)
  (time : n = f.start + j) (hj : 1 ≤ j ∧ j ≤ pushAt (format lcr))
  (inFrame : s.InFrame lcr f.byte j) (rfPush : s.rfPush = false)
  (counterB : (brcValue lcr).toNat ≤ s.counterB.toNat + j)

include hlcr split past coming time hj inFrame rfPush counterB

/-- A cycle without `enable` keeps what the receiver is doing, and pushes nothing. -/
theorem Phase.next_held (he : i.enable = false) :
    (s.next i).Phase lcr frames done n ∧ (s.next i).rfPushPulse = false := by
  obtain ⟨-, hrf, -⟩ := next_disabled (s := s) he
  rw [rfPush] at hrf
  have hcounter : (brcValue lcr).toNat ≤ (s.next i).counterB.toNat + j := by
    rw [← hlcr] at counterB ⊢
    have hle := le_next_counterB counterB
    rwa [he] at hle
  refine ⟨.frame f rest j split past coming time hj (inFrame.next_disabled he) hrf hcounter, ?_⟩
  rw [rfPushPulse, hrf, Bool.false_and]

/-- A step within a frame keeps the receiver at work on the frame, and pushes nothing. -/
theorem Phase.next_step (he : i.enable = true) (hlt : j < pushAt (format lcr))
    (hsrx : i.srxPadI = (format lcr).bit f.byte (j / 16)) :
    (s.next i).Phase lcr frames done (n + 1) ∧ (s.next i).rfPushPulse = false := by
  obtain ⟨-, hrf, -⟩ := next_enabled (s := s) he
  rw [hlcr, step_rfPush (inFrame.rstate_ne_push hlt) rfPush] at hrf
  have hcounter : (brcValue lcr).toNat ≤ (s.next i).counterB.toNat + (j + 1) := by
    rw [← hlcr] at counterB ⊢
    have hle := le_next_counterB counterB
    rwa [he] at hle
  have hframe : (s.next i).InFrame lcr f.byte (j + 1) := by
    rw [UartReceiver.next, he, hlcr]
    exact (inFrame.step hlt hsrx).withCounters _ _ _ _
  refine ⟨.frame f rest (j + 1) split (fun g hg => (past g hg).trans n.lt_succ_self) coming
    (by omega) (by omega) hframe hrf hcounter, ?_⟩
  rw [rfPushPulse, hrf, Bool.false_and]

/-- The last step of a frame hands its byte over, and the frame joins those that are done. -/
theorem Phase.next_push (he : i.enable = true) (hlast : j = pushAt (format lcr))
    (hsrx : i.srxPadI = (format lcr).bit f.byte (j / 16)) :
    (s.next i).Phase lcr frames (done ++ [f]) (n + 1) ∧ (s.next i).rfPushPulse = true ∧
      (s.next i).rfDataIn = handed (format lcr) f.byte := by
  subst hlast
  have hbounds := pushAt_bounds lcr
  have hhigh : i.srxPadI = true := by
    have hdiv : pushAt (format lcr) / 16 = (format lcr).length := by omega
    rw [hsrx, hdiv, UartTransmitter.bit_length]
  obtain ⟨hstate, hrf, hdata⟩ := next_enabled (s := s) he
  have hstep := inFrame.step_push hhigh (not_breakError lcr le_rfl counterB)
  rw [hlcr, hstep] at hstate hrf hdata
  refine ⟨.idle rest ?_ ?_ ?_ hstate ?_, ?_, hdata⟩
  · rw [split, List.append_assoc]
    rfl
  · intro g hg
    rcases List.mem_append.mp hg with hg | hg
    · exact (past g hg).trans n.lt_succ_self
    · rw [List.mem_singleton.mp hg]
      omega
  · intro g hg
    have hle := coming g hg
    omega
  · rw [next_counterB s hhigh, hlcr]
  · -- `rfPush` has just risen, and the pulse is its edge
    have hq : (s.next i).rfPushQ = false := rfPush
    rw [rfPushPulse, hrf, hq]
    rfl

/-- What a cycle within a frame keeps, and what it hands over at the end. -/
theorem Phase.next_frame (hline : (format lcr).Drives 1 frames n i.srxPadI) :
    ∃ new, (s.next i).Phase lcr frames (done ++ new) (n + if i.enable = true then 1 else 0) ∧
      (if (s.next i).rfPushPulse then [(s.next i).rfDataIn] else []) =
        new.map fun f => handed (format lcr) f.byte := by
  have hsrx := sees hline split past coming time hj.2
  have hnone {m : ℕ} (h : (s.next i).Phase lcr frames done m ∧ (s.next i).rfPushPulse = false) :
      ∃ new, (s.next i).Phase lcr frames (done ++ new) m ∧
        (if (s.next i).rfPushPulse then [(s.next i).rfDataIn] else []) =
          new.map fun f => handed (format lcr) f.byte := by
    refine ⟨[], ?_, ?_⟩
    · rw [List.append_nil]
      exact h.1
    · rw [h.2]
      rfl
  cases he : i.enable with
  | false =>
    exact hnone (next_held hlcr split past coming time hj inFrame rfPush counterB he)
  | true =>
    -- the entry is handed over in the last of these steps only
    by_cases hlast : j = pushAt (format lcr)
    · obtain ⟨hphase, hpulse, hdata⟩ :=
        next_push hlcr split past coming time hj inFrame rfPush counterB he hlast hsrx
      refine ⟨[f], hphase, ?_⟩
      rw [hpulse, hdata]
      rfl
    · have hlt : j < pushAt (format lcr) := by omega
      exact hnone (next_step hlcr split past coming time hj inFrame rfPush counterB he hlt hsrx)

end Frame

/-- The next frame begins with the step that finds the line low. -/
theorem Phase.next_begin {frames done rest : List (Frame ℕ)} {f : Frame ℕ} {i : In}
    (hlcr : i.lcr = lcr) (split : frames = done ++ f :: rest)
    (past : ∀ f ∈ done, f.start + pushAt (format lcr) < n)
    (coming : ∀ g ∈ rest, f.start + (format lcr).ticks ≤ g.start) (time : n = f.start)
    (rstate : s.rstate = .idle) (counterB : s.counterB = brcValue lcr)
    (hline : (format lcr).Drives 1 frames n i.srxPadI) (he : i.enable = true) :
    (s.next i).Phase lcr frames done (n + 1) ∧ (s.next i).rfPushPulse = false := by
  have hbounds := pushAt_bounds lcr
  -- the line is low, as the start bit begins
  have hlow : i.srxPadI = false := sees hline split past coming (j := 0) time (Nat.zero_le _)
  have hbreak : s.breakError = false := by
    refine not_breakError lcr (Nat.zero_le _) ?_
    rw [counterB]
    rfl
  obtain ⟨hframe, hquiet⟩ := step_idle lcr f.byte rstate hlow hbreak
  obtain ⟨-, hrf, -⟩ := next_enabled (s := s) he
  rw [hlcr, hquiet] at hrf
  refine ⟨.frame f rest 1 split (fun g hg => (past g hg).trans n.lt_succ_self) coming (by omega)
    (by omega) ?_ hrf ?_, ?_⟩
  · rw [UartReceiver.next, he, hlcr]
    exact hframe.withCounters _ _ _ _
  -- the line has been high, so that the break counter is still full
  · have hcounter : (brcValue i.lcr).toNat ≤ s.counterB.toNat + 0 := by
      rw [counterB, hlcr]
      rfl
    have hle := le_next_counterB hcounter
    rw [he, hlcr] at hle
    exact hle
  · rw [rfPushPulse, hrf, Bool.false_and]

/-- A cycle between frames keeps the receiver idle, or begins with the next frame. -/
theorem Phase.next_idle {frames done rest : List (Frame ℕ)} {i : In} (hlcr : i.lcr = lcr)
    (split : frames = done ++ rest)
    (past : ∀ f ∈ done, f.start + pushAt (format lcr) < n) (coming : ∀ f ∈ rest, n ≤ f.start)
    (rstate : s.rstate = .idle) (counterB : s.counterB = brcValue lcr)
    (hspaced : (format lcr).Spaced 1 frames)
    (hline : (format lcr).Drives 1 frames n i.srxPadI) :
    (s.next i).Phase lcr frames done (n + if i.enable = true then 1 else 0) ∧
      (s.next i).rfPushPulse = false := by
  have hpast (m : ℕ) (f : Frame ℕ) (hf : f ∈ done) : f.start + pushAt (format lcr) < n + m :=
    (past f hf).trans_le (Nat.le_add_right n m)
  have hq : (s.next i).rfPushQ = s.rfPush := rfl
  cases he : i.enable with
  | false =>
    obtain ⟨hstate, hrf, hb⟩ := next_disabled (s := s) he
    rw [hlcr, counterB, ite_self] at hb
    refine ⟨.idle rest split (hpast 0) coming (hstate.trans rstate) hb, ?_⟩
    rw [rfPushPulse, hrf, hq, Bool.and_not_self]
  | true =>
    simp only [↓reduceIte]
    obtain ⟨hstate, hrf, -⟩ := next_enabled (s := s) he
    rw [hlcr] at hstate hrf
    by_cases hhead : ∀ f ∈ rest, n < f.start
    · have hhigh := sees_high hline split past hhead
      rw [hhigh, step_idle_high rstate] at hstate hrf
      refine ⟨.idle rest split (hpast 1) hhead (hstate.trans rstate) ?_, ?_⟩
      · rw [next_counterB s hhigh, hlcr]
      · rw [rfPushPulse, hrf, Bool.false_and]
    · -- the frame that begins is the first one of the rest
      cases rest with
      | nil => exact absurd (fun f hf => absurd hf List.not_mem_nil) hhead
      | cons f rest =>
        have hrest : ∀ g ∈ rest, f.start + (format lcr).ticks ≤ g.start := by
          rw [split] at hspaced
          have htail := (List.pairwise_append.mp hspaced).2.1
          intro g hg
          have hle := (List.pairwise_cons.mp htail).1 g hg
          omega
        refine next_begin hlcr split past hrest ?_ rstate counterB hline he
        refine le_antisymm (coming f List.mem_cons_self) (not_lt.mp fun hlt => hhead ?_)
        intro g hg
        rcases List.mem_cons.mp hg with rfl | hg
        · exact hlt
        · have hle := hrest g hg
          omega

/-- The frames that are done are the first ones of all frames. -/
theorem Phase.done_prefix {frames done : List (Frame ℕ)} (h : s.Phase lcr frames done n) :
    done <+: frames := by
  cases h with
  | idle rest split => exact ⟨rest, split.symm⟩
  | frame f rest j split => exact ⟨f :: rest, split.symm⟩

/-- A frame is one of those that are done when its last step is over. -/
theorem Phase.done_eq {frames done : List (Frame ℕ)} (h : s.Phase lcr frames done n) :
    done = frames.filter fun f => f.start + pushAt (format lcr) < n := by
  have hbounds := pushAt_bounds lcr
  have hsplit {rest : List (Frame ℕ)} (split : frames = done ++ rest)
      (past : ∀ f ∈ done, f.start + pushAt (format lcr) < n)
      (hrest : ∀ f ∈ rest, ¬ f.start + pushAt (format lcr) < n) :
      done = frames.filter fun f => f.start + pushAt (format lcr) < n := by
    rw [split, List.filter_append, List.filter_eq_self.mpr fun f hf => decide_eq_true (past f hf),
      List.filter_eq_nil_iff.mpr fun f hf => by simpa using hrest f hf, List.append_nil]
  cases h with
  | idle rest split past coming =>
    -- what is coming has not begun yet
    refine hsplit split past fun f hf => ?_
    have := coming f hf
    omega
  | frame f rest j split past coming time hj =>
    -- the entry of the frame under way has not been handed over
    refine hsplit split past fun g hg => ?_
    rcases List.mem_cons.mp hg with rfl | hg
    · omega
    · have := coming g hg
      omega

/-! ## Runs -/

/-- The receiver is idle, its break counter is at its initial value, and nothing is being handed
over. -/
structure Listening (s : UartReceiver) (lcr : BitVec 8) : Prop where
  rstate : s.rstate = .idle
  rfPush : s.rfPush = false
  counterB : s.counterB = brcValue lcr

/-- A run of the receiver from any state, with any inputs. -/
structure Run where
  state : ℕ → UartReceiver
  inp : ℕ → In
  succ : ∀ t, state (t + 1) = (state t).next (inp t)

namespace Run

variable (run : Run)

/-- The number of steps that the state machine has made before cycle `t`. -/
def ticks (t : ℕ) : ℕ := Nat.count (fun u => (run.inp u).enable = true) t

/-- What the FIFO of the receiver has been given before cycle `t`, in order. -/
def received : ℕ → List (BitVec 11)
  | 0 => []
  | t + 1 => received t ++
      if (run.state t).rfPushPulse then [(run.state t).rfDataIn] else []

/-- Before cycle `t` the line carries frames of one format, and no frame has begun at the start. -/
structure Listens (lcr : BitVec 8) (frames : List (Frame ℕ)) (t : ℕ) : Prop where
  start : (run.state 0).Listening lcr
  spaced : (format lcr).Spaced 1 frames
  line : ∀ u < t, (format lcr).Drives 1 frames (run.ticks u) (run.inp u).srxPadI
  lcr : ∀ u < t, (run.inp u).lcr = lcr

variable {run} {frames : List (Frame ℕ)} {t u : ℕ}

/-- In every cycle the receiver is in a phase, and has handed over the frames that are done. -/
theorem phase (h : run.Listens lcr frames t) (hu : u ≤ t) :
    ∃ done, (run.state u).Phase lcr frames done (run.ticks u) ∧
      run.received (u + 1) = done.map fun f => handed (format lcr) f.byte := by
  induction u with
  | zero =>
    -- nothing is handed over at the start
    have hpulse : (run.state 0).rfPushPulse = false := by
      rw [rfPushPulse, h.start.rfPush, Bool.false_and]
    refine ⟨[], .idle frames rfl (fun f hf => absurd hf List.not_mem_nil)
      (fun f _ => Nat.zero_le _) h.start.rstate h.start.counterB, ?_⟩
    rw [received, received, hpulse]
    rfl
  | succ u ih =>
    obtain ⟨done, hphase, hreceived⟩ := ih (by omega)
    have hline := h.line u hu
    have hticks : run.ticks (u + 1) = run.ticks u + if (run.inp u).enable = true then 1 else 0 :=
      Nat.count_succ ..
    rw [received, hreceived, run.succ, hticks]
    -- an idle receiver hands nothing over; within a frame it may be its byte
    cases hphase with
    | idle rest split past coming rstate counterB =>
      obtain ⟨hnext, hpulse⟩ := Phase.next_idle (h.lcr u hu) split past coming rstate counterB
        h.spaced hline
      refine ⟨done, hnext, ?_⟩
      rw [hpulse, if_neg Bool.false_ne_true, List.append_nil]
    | frame f rest j split past coming time hj inFrame rfPush counterB =>
      obtain ⟨new, hnext, hpulse⟩ := Phase.next_frame (h.lcr u hu) split past coming time hj
        inFrame rfPush counterB hline
      refine ⟨done ++ new, hnext, ?_⟩
      rw [hpulse, List.map_append]

/-- The receiver hands over the byte of every frame, once, in order and without an error, in the
cycle behind the step in which it has seen the middle of the stop bit. -/
theorem Listens.receives (h : run.Listens lcr frames t) :
    run.received (t + 1) =
      (frames.filter fun f => f.start + pushAt (format lcr) < run.ticks t).map
        fun f => handed (format lcr) f.byte := by
  obtain ⟨done, hphase, hreceived⟩ := phase h le_rfl
  rw [hreceived, hphase.done_eq]

/-- The states of the receiver from `s` on, for given inputs. -/
def states (s : UartReceiver) (inp : ℕ → In) : ℕ → UartReceiver
  | 0 => s
  | t + 1 => (states s inp t).next (inp t)

/-- The run of the receiver from the state `s`, with given inputs. -/
def ofInputs (s : UartReceiver) (inp : ℕ → In) : Run := ⟨states s inp, inp, fun _ => rfl⟩

/-- Two letters in seven bits with odd parity, seven steps apart, with a step in every cycle. -/
def lettersRun : Run :=
  .ofInputs (reset default) fun t =>
    ⟨0x0A, false, if t < 5 then true
      else if t < 172 then (format 0x0A).bit 0x41 ((t - 5) / 16)
      else (format 0x0A).bit 0x42 ((t - 172) / 16), true, false, false⟩

/-- In the run of the two letters a step is made in every cycle. -/
theorem lettersRun_ticks (t : ℕ) : lettersRun.ticks t = t :=
  Nat.count_iff_forall.mpr fun _ _ => rfl

/-- In the run of the two letters the receiver listens to a line with their two frames. -/
theorem lettersRun_listens : lettersRun.Listens 0x0A [⟨5, 0x41⟩, ⟨172, 0x42⟩] 350 := by
  have hline : ∀ u < 350, (format 0x0A).Drives 1 [⟨5, 0x41⟩, ⟨172, 0x42⟩] u
      (lettersRun.inp u).srxPadI := by decide +kernel
  refine ⟨⟨rfl, rfl, by decide⟩, List.pairwise_pair.mpr (by decide), fun u hu => ?_, fun _ _ => rfl⟩
  rw [lettersRun_ticks]
  exact hline u hu

/-- Both letters are handed over behind the second stop bit, without an error. -/
theorem receives_letters :
    lettersRun.received 351 = [handed (format 0x0A) 0x41, handed (format 0x0A) 0x42] := by
  rw [lettersRun_listens.receives, lettersRun_ticks]
  decide

end Run

end UartReceiver

end RvPipelineCore

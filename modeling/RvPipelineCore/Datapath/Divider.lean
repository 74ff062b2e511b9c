import RvPipelineCore.Common

/-!
# The divider

`div` of `rtl/core/datapath`: an out-of-pipeline shift-subtract divider. `div_start` may be kept
asserted for the whole division, so its rising edge starts the loop. The `reset` port is an
asynchronous reset of `div_busy` and a synchronous one of the edge detector.

The signals `state` and `next_state` of the source drive nothing and are left out.
-/

namespace RvPipelineCore

/-- The registers of `div`: the edge detector of `div_start`, the busy flag, the operands and the
partial results of the bit-by-bit division. -/
structure Divider where
  detectStart : EdgeDetector
  divBusy : Bool
  invertResult : Bool
  dividend : BitVec 32
  quotient : BitVec 32
  mask : BitVec 32
  divisor : BitVec 63
  divResult : BitVec 32

namespace Divider

/-- `start`: the rising edge of `div_start`, one cycle after the line went high. -/
def start (s : Divider) : Bool := s.detectStart.edgeDetected

/-- `div_completed`. The asynchronous reset holds `div_busy` low while it is asserted. -/
def divCompleted (s : Divider) (reset : Bool) : Bool :=
  s.divBusy && !reset && s.mask == 0

/-- One clock edge of `div`: a start loads the operands, each further step of a division under way
subtracts the shifted divisor where it fits, and the last one writes the result. -/
def next (s : Divider) (reset : Bool) (a b : BitVec 32) (divStart : Bool) (funct3 : BitVec 3) :
    Divider :=
  let signedOp := funct3 = 0b100 ∨ funct3 = 0b110
  let isDivInstrS := funct3 = 0b100
  let isRemInstrS := funct3 = 0b110
  let signDiffers := a.getLsbD 31 ≠ b.getLsbD 31
  let divisorNotZero := b ≠ 0
  let s' := { s with detectStart := s.detectStart.next reset divStart }
  -- the asynchronous reset clears the busy flag and nothing else
  if reset then
    { s' with divBusy := false }
  -- the operands of a signed operation are divided as absolute values
  else if s.start then
    { s' with
      divBusy := true
      invertResult :=
        (isDivInstrS ∧ signDiffers ∧ divisorNotZero) ∨ (isRemInstrS ∧ a.getLsbD 31 = true)
      dividend := if a.getLsbD 31 = true ∧ signedOp then 0 - a else a
      divisor := (if b.getLsbD 31 = true ∧ signedOp then 0 - b else b) ++ 0#31
      quotient := 0
      mask := 0x80000000 }
  -- the sign is put back on the quotient or on the remainder
  else if s.divCompleted reset then
    { s' with
      divBusy := false
      divResult :=
        if funct3 = 0b100 ∨ funct3 = 0b101 then
          if s.invertResult then 0 - s.quotient else s.quotient
        else
          if s.invertResult then 0 - s.dividend else s.dividend }
  -- one bit of the quotient, from the top
  else if s.divBusy then
    { s' with
      dividend := if s.divisor ≤ s.dividend.setWidth 63 then s.dividend - s.divisor.setWidth 32
        else s.dividend
      quotient := if s.divisor ≤ s.dividend.setWidth 63 then s.quotient ||| s.mask else s.quotient
      divisor := 0#1 ++ s.divisor.extractLsb' 1 62
      mask := 0#1 ++ s.mask.extractLsb' 1 31 }
  else s'

end Divider

end RvPipelineCore

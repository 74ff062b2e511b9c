import Mathlib.Data.BitVec

/-!
# Registers, multiplexers and the edge detector

The entities of `rtl/core/common`, which every other unit is built from. A register is modelled by
its next-value function: `flopenrc clear enable d q` is what the register holding `q` holds after a
clock edge at which its data input is `d`. A record of signals that one register carries has a
`Zero` instance, the value its clear and reset inputs leave.

- `flopenr`, `floprc`, `flopenrc`: the three registers of the pipeline;
- `mux2`, `mux3`, `mux4`: the multiplexers;
- `EdgeDetector`: two flip-flops that turn a rising level into a one-cycle pulse.
-/

namespace RvPipelineCore

variable {α : Type*}

/-- `flopenr`: the value a register with an enable holds after a clock edge. It takes `d` when the
enable is up and keeps `q` otherwise. -/
def flopenr (enable : Bool) (d q : α) : α :=
  if enable then d else q

/-- `floprc`: a register with a synchronous clear, loading `d` on every other edge. -/
def floprc [Zero α] (clear : Bool) (d : α) : α :=
  if clear then 0 else d

/-- `flopenrc`: a register with a synchronous clear and an enable. Clear has priority. -/
def flopenrc [Zero α] (clear enable : Bool) (d q : α) : α :=
  if clear then 0 else if enable then d else q

/-- `mux2`: the multiplexer of two inputs. The first input is taken while the select line is low,
the second while it is high. -/
def mux2 (a b : α) (s : Bool) : α :=
  if s then b else a

/-- `mux3`: the third input is taken for `10` and for `11`. -/
def mux3 (a b c : α) (s : BitVec 2) : α :=
  if s = 0b00 then a else if s = 0b01 then b else c

/-- `mux4`: the multiplexer of four inputs, with the select code `00` for the first input and `11`
for the last one. -/
def mux4 (a b c d : α) (s : BitVec 2) : α :=
  if s = 0b00 then a else if s = 0b01 then b else if s = 0b10 then c else d

/-- An enabled register takes its data input at the clock edge. -/
@[simp] theorem flopenr_true (d q : α) : flopenr true d q = d := rfl

/-- A register whose enable is low keeps its value over the clock edge. -/
@[simp] theorem flopenr_false (d q : α) : flopenr false d q = q := rfl

/-- The clear input of a register empties it, whatever the enable and the data input are. -/
@[simp] theorem flopenrc_clear [Zero α] (enable : Bool) (d q : α) :
    flopenrc true enable d q = 0 := rfl

/-- A register that is enabled and not cleared takes its data input at the clock edge. -/
@[simp] theorem flopenrc_load [Zero α] (d q : α) : flopenrc false true d q = d := rfl

/-- A register that is neither cleared nor enabled keeps its value over the clock edge. -/
@[simp] theorem flopenrc_hold [Zero α] (d q : α) : flopenrc false false d q = q := rfl

/-- `edge_detector`: `first_reg` samples the input, `second_reg` the previous sample. -/
structure EdgeDetector where
  firstReg : Bool
  secondReg : Bool
  deriving DecidableEq

namespace EdgeDetector

/-- The detector as a reset leaves it: both flip-flops are low, so no pulse is given in the next
cycle. -/
def cleared : EdgeDetector := ⟨false, false⟩

/-- `edge_detected`: the input was high at the last clock edge and low at the one before, which
lasts one cycle for every rising level. -/
def edgeDetected (e : EdgeDetector) : Bool :=
  e.firstReg && !e.secondReg

/-- One clock edge of `edge_detector`: a reset clears both flip-flops, otherwise the input enters
the first and the first moves into the second. -/
def next (e : EdgeDetector) (reset d : Bool) : EdgeDetector :=
  if reset then cleared else ⟨d, e.firstReg⟩

end EdgeDetector

end RvPipelineCore

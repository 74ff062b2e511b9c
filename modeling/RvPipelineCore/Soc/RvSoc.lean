import RvPipelineCore.RamWb
import RvPipelineCore.Run
import RvPipelineCore.Soc.WbIntercon

/-!
# The system on chip

`rv_soc`: the processor, the interconnect, the two memories, and peripherals that may do anything.

- `RvSoc.step`: one clock edge of all of them;
- `RvSoc.Run`: a run behind two edges with `reset` high, which the test bench holds for longer;
- `RvSoc.Run.toRun`: the processor in it, as a run of its own.
-/

namespace RvPipelineCore

/-- The registers of `rom_wb`: the acknowledge and the word that has been read. -/
structure RomWb where
  ack : Bool
  data : BitVec 32

/-- One clock edge of `rom_wb` with the contents `rom`, `SIZE_MEM` being four times `2 ^ n`. -/
def RomWb.next {n : ℕ} (rom : BitVec n → BitVec 32) (s : RomWb) (rst : Bool) (adr : BitVec 32)
    (stb cyc : Bool) : RomWb where
  ack := if rst then false else stb && cyc && !s.ack
  data := rom (adr.extractLsb' 2 n)

/-- The registers of `rv_soc`: the processor, the interconnect, the ROM and the RAM. The peripherals
are inputs. -/
structure RvSoc (n : ℕ) where
  core : State
  intercon : WbIntercon
  rom : RomWb
  ram : RamWb n

/-- What the peripherals drive: answers by the place of the slave on the data bus, of which those of
the memories do not count, and the interrupt lines. -/
structure RvSocIn where
  slaves : Fin 6 → WbResp
  extInt : Bool
  timeInt : Bool

namespace RvSoc

open WbIntercon

variable {n k : ℕ} (x : DontCare) (rom : BitVec k → BitVec 32) (s : RvSoc n) (i : RvSocIn)

/-- `wb_ibus`. Nothing drives its `we`, which the ROM does not have. -/
def ibus : WbReq :=
  ⟨s.core.instrPort.adr, 0, 0b1111, false, s.core.instrPort.cyc, s.core.instrPort.stb, 0, 0⟩

/-- `wb_dbus`: what the data port of the core drives on its bus. Burst transfers are never asked
for. -/
def dbus : WbReq where
  adr := s.core.dPort.adr
  dat := s.core.dPort.dataW
  sel := s.core.dPort.sel
  we := s.core.dPort.we
  cyc := s.core.dPort.cyc
  stb := s.core.dPort.stb
  cti := 0
  bte := 0

/-- The answer of the ROM, which has no `err` and `rty`. -/
def romResp : WbResp := ⟨s.rom.data, s.rom.ack, false, false⟩

/-- The answer of the RAM, which has no `err` and `rty` either. -/
def ramResp : WbResp := ⟨s.ram.dataR, s.ram.ack, false, false⟩

/-- The answers of all slaves of the data bus: those of the ROM and the RAM, and the given ones of
the peripherals. -/
def slaves : Fin 6 → WbResp :=
  Function.update (Function.update i.slaves WbIntercon.ram s.ramResp) WbIntercon.rom s.romResp

/-- What the instruction bus answers to the core in this cycle. -/
def ibusResp : WbResp := s.intercon.ibusResp s.ibus s.romResp

/-- What the data bus answers to the core in this cycle, which depends on the peripherals. -/
def dbusResp : WbResp := s.intercon.dbusResp s.dbus (s.slaves i)

/-- The inputs of `processor`: the answers of the two buses and the interrupt lines of the
peripherals. -/
def inputs : Inputs where
  interruptExternal := i.extInt
  interruptTimer := i.timeInt
  instrWbData := s.ibusResp.dat
  instrWbAck := s.ibusResp.ack
  dWbDataR := (s.dbusResp i).dat
  dWbAck := (s.dbusResp i).ack

/-- What the ROM is asked in this cycle, on behalf of one of the two buses. -/
def romReq : WbReq := s.intercon.romReq s.ibus s.dbus

/-- What the RAM is asked in this cycle, on behalf of the data bus. -/
def ramReq : WbReq := slaveReq s.dbus WbIntercon.ram

/-- A clock edge of everything but the processor, which goes to the given state. -/
def edge (rst : Bool) (core : State) : RvSoc n where
  core := core
  intercon := s.intercon.next rst s.ibus s.dbus
  rom := s.rom.next rom rst s.romReq.adr s.romReq.stb s.romReq.cyc
  ram := s.ram.next rst s.ramReq.adr s.ramReq.dat s.ramReq.we s.ramReq.sel s.ramReq.cyc s.ramReq.stb

/-- One clock edge of the system, in which the processor sees the answers of its two buses. -/
def step : RvSoc n := s.edge rom false (s.core.step x (s.inputs i))

/-- One clock edge with `reset` high, which also resets the interconnect and the memories. -/
def reset : RvSoc n := s.edge rom true s.core.reset

/-- A run behind two edges with `reset` high, from any contents of the registers but those that the
source initialises. -/
structure Run (x : DontCare) (rom : BitVec k → BitVec 32) (n : ℕ) where
  first : RvSoc n
  powerOn : first.core.predictor = BranchPredictor.initial
  state : ℕ → RvSoc n
  inp : ℕ → RvSocIn
  start : state 0 = (first.reset rom).reset rom
  next : ∀ t, state (t + 1) = (state t).step x rom (inp t)

/-- The states behind two edges with `reset` high, for given inputs. -/
def states (inp : ℕ → RvSocIn) : ℕ → RvSoc n
  | 0 => (s.reset rom).reset rom
  | t + 1 => (states inp t).step x rom (inp t)

namespace Run

variable {x rom} (run : Run x rom n) (t : ℕ)

/-- The run of the system from a power-on state, with given inputs from the peripherals. -/
def ofInputs (x : DontCare) (rom : BitVec k → BitVec 32) (first : RvSoc n)
    (powerOn : first.core.predictor = BranchPredictor.initial) (inp : ℕ → RvSocIn) :
    Run x rom n where
  first := first
  powerOn := powerOn
  state := states x rom first inp
  inp := inp
  start := rfl
  next _ := rfl

/-- The processor in a run of the system, as a run of the core with the inputs that the buses give
it. -/
def toRun : RvPipelineCore.Run x where
  state t := (run.state t).core
  inputs t := (run.state t).inputs (run.inp t)
  start := by
    refine ⟨run.first.core.reset, ?_⟩
    rw [run.start]
    rfl
  next t := by
    refine ⟨(run.state (t + 1)).core.predictor, ?_⟩
    rw [run.next]
    rfl

/-- The processor in a run of the system is exact, since its predictor starts with the initial
values of the source. -/
theorem toRun_exact : run.toRun.Exact := by
  refine ⟨⟨run.first.core.reset, run.powerOn, ?_⟩, fun t => ?_⟩
  · change (run.state 0).core = _
    rw [run.start]
    rfl
  · change (run.state (t + 1)).core = _
    rw [run.next]
    rfl

/-- The bus in front of the ROM, from the second edge of the reset on. -/
def romBus : WbArbiter.Run 2 where
  arbiter
    | 0 => (run.first.reset rom).intercon.arbiterRom
    | t + 1 => (run.state t).intercon.arbiterRom
  rst
    | 0 => true
    | _ + 1 => false
  masters
    | 0 => romMasters (run.first.reset rom).ibus (run.first.reset rom).dbus
    | t + 1 => romMasters (run.state t).ibus (run.state t).dbus
  slave
    | 0 => (run.first.reset rom).romResp
    | t + 1 => (run.state t).romResp
  succ
    | 0 => by
      change (run.state 0).intercon.arbiterRom = _
      rw [run.start]
      rfl
    | t + 1 => by
      change (run.state (t + 1)).intercon.arbiterRom = _
      rw [run.next]
      rfl

end Run

/-! ## A program for examples -/

/-- `lui x1, 0x80000` and `sw x1, 0(x1)` in front of `jal x0, 0`. -/
def storeRom (a : BitVec 8) : BitVec 32 := [0x800000b7, 0x0010a023].getD a.toNat 0x0000006f

/-- The system with every register clear, as a power-on state for the examples. -/
def blank : RvSoc 8 where
  core := TestBench.blank
  intercon := ⟨⟨0, 0, 0, false⟩, false, false⟩
  rom := ⟨false, 0⟩
  ram := ⟨fun _ => 0, false, 0⟩

/-- In the blank system the predictor has the initial values of the source. -/
theorem blank_predictor : blank.core.predictor = BranchPredictor.initial := rfl

/-- The run of the program while every peripheral acknowledges all the time. -/
def storeRun : Run TestBench.zeros storeRom 8 :=
  .ofInputs _ _ blank blank_predictor fun _ =>
    ⟨fun _ => ⟨0xdeadbeef, true, false, false⟩, false, false⟩

end RvSoc

end RvPipelineCore

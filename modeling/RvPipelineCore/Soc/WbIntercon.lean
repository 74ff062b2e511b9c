import Mathlib.Data.Fin.VecNotation
import Mathlib.Tactic.FinCases
import RvPipelineCore.Scripts.WbInterconGen

/-!
# The interconnect of the system

`wb_intercon` of `rtl/soc/wb_intercon`: the instruction bus reaches the ROM, the data bus the ROM
and five more slaves, and an arbiter stands in front of the ROM.

- `WbIntercon.muxDbus_eq`: the parameters are those that the generator makes of the configuration;
- `WbIntercon.selects_rom`, `WbIntercon.selects_ram`, `WbIntercon.selects_ibus`: the regions of the
  two memories;
- `WbIntercon.ibusResp_eq`, `WbIntercon.dbusResp_of_selects`: where an answer comes from.
-/

namespace RvPipelineCore

/-- The registers of `wb_intercon`: the arbiter in front of the ROM and the error flags of the two
multiplexers. -/
structure WbIntercon where
  /-- `arbiter0` of `wb_arbiter_rom`. -/
  arbiterRom : Arbiter 2
  /-- `wbm_err` of `wb_mux_ibus`. -/
  errIbus : Bool
  /-- `wbm_err` of `wb_mux_dbus`. -/
  errDbus : Bool

namespace WbIntercon

/-! ## The slaves of the data bus, by their place in the vectors of `wb_mux_dbus` -/

/-- The timer, as a slave of `wb_mux_dbus`. -/
def ptc : Fin 6 := 0
/-- The seven-segment display, as a slave of `wb_mux_dbus`. -/
def sevenseg : Fin 6 := 1
/-- The UART, as a slave of `wb_mux_dbus`. -/
def uart : Fin 6 := 2
/-- The general-purpose inputs and outputs, as a slave of `wb_mux_dbus`. -/
def gpio : Fin 6 := 3
/-- The RAM, as a slave of `wb_mux_dbus`. -/
def ram : Fin 6 := 4
/-- The ROM, as a slave of `wb_mux_dbus`, which it reaches through the arbiter. -/
def rom : Fin 6 := 5

/-- The parameters of `wb_mux_ibus`, whose only slave is the ROM. -/
def muxIbus : WbMux 1 := ⟨![0x00000000], ![0xffe00000]⟩

/-- The parameters of `wb_mux_dbus` for its six slaves, in the order of the port map. -/
def muxDbus : WbMux 6 where
  matchAddr := ![0x80206200, 0x80206000, 0x80205000, 0x80204000, 0x80000000, 0x00000000]
  matchMask := ![0xffffffc0, 0xffffffe0, 0xfffff000, 0xffffffc0, 0xffe00000, 0xffe00000]

/-- The masters of `wb_arbiter_rom`: `wb_ibus_rom` as master 1 and `wb_dbus_rom` as master 0. -/
def romMasters (ibus dbus : WbReq) : Fin 2 → WbReq := ![muxDbus.wbs dbus rom, muxIbus.wbs ibus 0]

/-- The outputs of the interconnect towards the ROM, those of the arbiter in front of it. -/
def romReq (s : WbIntercon) (ibus dbus : WbReq) : WbReq :=
  WbArbiter.wbs s.arbiterRom (romMasters ibus dbus)

/-- The outputs of the interconnect towards the other slaves, those of the multiplexer of the data
bus. -/
def slaveReq (dbus : WbReq) (i : Fin 6) : WbReq := muxDbus.wbs dbus i

/-- The outputs of the interconnect towards the instruction bus, from the answer of the ROM. -/
def ibusResp (s : WbIntercon) (ibus : WbReq) (romResp : WbResp) : WbResp :=
  muxIbus.wbm s.errIbus ibus ![WbArbiter.wbm s.arbiterRom romResp 1]

/-- The outputs of the interconnect towards the data bus, from the answers of its slaves. -/
def dbusResp (s : WbIntercon) (dbus : WbReq) (slaves : Fin 6 → WbResp) : WbResp :=
  muxDbus.wbm s.errDbus dbus
    (Function.update slaves rom (WbArbiter.wbm s.arbiterRom (slaves rom) 0))

/-- One clock edge of `wb_intercon`: the arbiter takes the requests for the ROM, and the error flags
those without a slave. -/
def next (s : WbIntercon) (rst : Bool) (ibus dbus : WbReq) : WbIntercon where
  arbiterRom := s.arbiterRom.next rst (WbArbiter.wbmCyc (romMasters ibus dbus))
  -- no reset
  errIbus := muxIbus.errNext ibus
  errDbus := muxDbus.errNext dbus

/-! ## The regions -/

/-- The slaves of the data bus as `wb_intercon.yaml` lists them, each with its offset and its
size. -/
def dbusSlaves : List WbInterconGen.Slave :=
  [⟨0x00000000, some 0x00200000⟩, ⟨0x80000000, some 0x00200000⟩, ⟨0x80204000, some 0x00000040⟩,
    ⟨0x80205000, some 0x00001000⟩, ⟨0x80206000, some 0x00000020⟩, ⟨0x80206200, some 0x0000040⟩]

/-- The slaves of the instruction bus as `wb_intercon.yaml` lists them, which is the ROM alone. -/
def ibusSlaves : List WbInterconGen.Slave := [⟨0x00000000, some 0x00200000⟩]

/-- The source is what the generator makes of its configuration. -/
theorem muxDbus_eq : muxDbus = WbInterconGen.genMux dbusSlaves := by
  have haddr : muxDbus.matchAddr = (WbInterconGen.genMux dbusSlaves).matchAddr := by
    funext i
    fin_cases i <;> rfl
  have hmask : muxDbus.matchMask = (WbInterconGen.genMux dbusSlaves).matchMask := by
    funext i
    fin_cases i <;> rfl
  exact congrArg₂ WbMux.mk haddr hmask

/-- The parameters of `wb_mux_ibus` are those that the generator makes from its list of slaves. -/
theorem muxIbus_eq : muxIbus = WbInterconGen.genMux ibusSlaves := by
  have haddr : muxIbus.matchAddr = (WbInterconGen.genMux ibusSlaves).matchAddr := by
    funext i
    fin_cases i
    rfl
  have hmask : muxIbus.matchMask = (WbInterconGen.genMux ibusSlaves).matchMask := by
    funext i
    fin_cases i
    rfl
  exact congrArg₂ WbMux.mk haddr hmask

/-- The slaves of the data bus are a configuration that the generator decodes exactly: aligned,
fitting and disjoint. -/
theorem dbusSlaves_config : WbInterconGen.Config dbusSlaves := by
  refine ⟨?_, ?_, by decide⟩
  · intro s hs
    refine ⟨?_, ?_⟩ <;> revert s <;> decide
  · intro s hs
    simp only [dbusSlaves, List.mem_cons, List.not_mem_nil, or_false] at hs
    rcases hs with rfl | rfl | rfl | rfl | rfl | rfl
    · exact ⟨21, rfl, by decide⟩
    · exact ⟨21, rfl, by decide⟩
    · exact ⟨6, rfl, by decide⟩
    · exact ⟨12, rfl, by decide⟩
    · exact ⟨5, rfl, by decide⟩
    · exact ⟨6, rfl, by decide⟩

/-- A request to a register of the UART goes to the UART. -/
theorem genMux_routes_uart :
    ((WbInterconGen.genMux dbusSlaves).wbs ⟨0x80205004, 0, 0b1111, false, true, true, 0, 0⟩
      (2 : Fin 6)).cyc = true :=
  ((WbInterconGen.genMux_routes dbusSlaves_config _ false fun _ => ⟨0, false, false, false⟩).1
    (2 : Fin 6)).mpr ⟨rfl, by decide, by decide⟩

/-- The data bus reaches the ROM at the addresses below 2 MiB. -/
theorem selects_rom {adr : BitVec 32} : muxDbus.Selects adr rom ↔ adr.toNat < 0x00200000 := by
  rw [muxDbus_eq]
  refine (WbInterconGen.selects_iff dbusSlaves_config adr rom).trans ?_
  exact ⟨fun h => h.2, fun h => ⟨Nat.zero_le _, h⟩⟩

/-- The data bus reaches the RAM in the 2 MiB from `0x80000000` on. -/
theorem selects_ram {adr : BitVec 32} :
    muxDbus.Selects adr ram ↔ 0x80000000 ≤ adr.toNat ∧ adr.toNat < 0x80200000 := by
  rw [muxDbus_eq]
  exact WbInterconGen.selects_iff dbusSlaves_config adr ram

/-- The instruction bus reaches the ROM at the addresses below 2 MiB. -/
theorem selects_ibus {adr : BitVec 32} : muxIbus.Selects adr 0 ↔ adr.toNat < 0x00200000 := by
  have hconfig : WbInterconGen.Config ibusSlaves := by
    refine ⟨?_, ?_, by decide⟩
    · intro s hs
      obtain rfl := List.mem_singleton.mp hs
      exact ⟨by decide, by decide⟩
    · intro s hs
      obtain rfl := List.mem_singleton.mp hs
      exact ⟨21, rfl, by decide⟩
  rw [muxIbus_eq]
  refine (WbInterconGen.selects_iff hconfig adr (0 : Fin 1)).trans ?_
  exact ⟨fun h => h.2, fun h => ⟨Nat.zero_le _, h⟩⟩

/-! ## The answers -/

/-- The instruction bus sees the acknowledge that the arbiter sends it, and the data of the ROM. -/
theorem ibusResp_eq (s : WbIntercon) (ibus : WbReq) (romResp : WbResp) :
    (s.ibusResp ibus romResp).ack = (WbArbiter.wbm s.arbiterRom romResp 1).ack ∧
      (s.ibusResp ibus romResp).dat = romResp.dat := by
  have hsel : (muxIbus.slaveSel ibus.adr).toNat = 0 := by
    rw [WbMux.slaveSel, WbMux.ff1, WbMux.ff1Loop, WbMux.ff1Loop]
    split_ifs <;> rfl
  rw [ibusResp, WbMux.wbm, hsel]
  exact ⟨rfl, rfl⟩

/-- The data bus sees the slave that its address selects. -/
theorem dbusResp_of_selects (s : WbIntercon) (dbus : WbReq) (slaves : Fin 6 → WbResp) {i : Fin 6}
    (h : muxDbus.Selects dbus.adr i) (hi : i ≠ rom) :
    (s.dbusResp dbus slaves).ack = (slaves i).ack ∧
      (s.dbusResp dbus slaves).dat = (slaves i).dat := by
  rw [dbusResp, WbMux.wbm_of_selects h, Function.update_of_ne hi]
  exact ⟨rfl, rfl⟩

/-- For an address of the ROM the data bus sees the acknowledge that the arbiter sends it, and the
data of the ROM. -/
theorem dbusResp_of_selects_rom (s : WbIntercon) (dbus : WbReq) (slaves : Fin 6 → WbResp)
    (h : muxDbus.Selects dbus.adr rom) :
    (s.dbusResp dbus slaves).ack = (WbArbiter.wbm s.arbiterRom (slaves rom) 0).ack ∧
      (s.dbusResp dbus slaves).dat = (slaves rom).dat := by
  rw [dbusResp, WbMux.wbm_of_selects h, Function.update_self]
  exact ⟨rfl, rfl⟩

end WbIntercon

end RvPipelineCore

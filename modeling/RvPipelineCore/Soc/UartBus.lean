import RvPipelineCore.Soc.RomBus
import RvPipelineCore.Soc.Uart.Top

/-!
# The UART on the data bus

`uart16550_0` of `rv_soc`: address lines 4 to 2 and the low byte of the data reach the UART.

- `RvSoc.Run.Wired`: the UART is the slave at its place on the data bus;
- `RvSoc.Run.Wired.holds`: the data port is a master that keeps its requests;
- `RvSoc.Run.uart_serves`: what the data port reads and writes there is done to the registers.
-/

namespace RvPipelineCore

namespace RvSoc

open WbIntercon

variable {n k : ℕ}

/-- What the data bus asks `uart16550_0`: the register address is taken from the word address, the
data from the lowest lane. -/
def uartReq (s : RvSoc n) : UartWb.Req :=
  let r := slaveReq s.dbus WbIntercon.uart
  ⟨r.adr.extractLsb' 2 3, r.dat.extractLsb' 0 8, r.we, r.cyc, r.stb⟩

/-- What `uart16550_0` answers on the data bus, `wb_uart_rdt` being 32 bits wide. -/
def uartResp (u : UartTop) : WbResp := ⟨0#24 ++ u.wb.wbDatO, u.wb.wbAckO, false, false⟩

namespace Run

variable {x : DontCare} {rom : BitVec k → BitVec 32} {run : Run x rom n} {uart : UartTop.Run}
  {t : ℕ}

/-- The UART is the slave at its place on the data bus. -/
structure Wired (run : Run x rom n) (uart : UartTop.Run) : Prop where
  req : ∀ t, (uart.inp t).req = (run.state t).uartReq
  resp : ∀ t, (run.inp t).slaves WbIntercon.uart = uartResp (uart.state t)

/-- The data port asks for something in the region of the UART. -/
def AsksUart (run : Run x rom n) (t : ℕ) : Prop :=
  (run.state t).core.dPort.cyc = true ∧ muxDbus.Selects (run.state t).core.dPort.adr WbIntercon.uart

/-- Whether the processor asks the UART for a transfer can be decided from the state of the data
port. -/
instance (run : Run x rom n) (t : ℕ) : Decidable (run.AsksUart t) :=
  inferInstanceAs (Decidable (_ ∧ _))

/-- The access that is acknowledged to the data port in a cycle, if it is one to the UART. -/
def uartAnswered (run : Run x rom n) (t : ℕ) : List UartAccess :=
  let p := (run.state t).core.dPort
  if run.AsksUart t ∧ (run.toRun.inputs t).dWbAck = true then
    if p.we then [.write (p.adr.extractLsb' 2 3) (p.dataW.extractLsb' 0 8)]
    else [.read (p.adr.extractLsb' 2 3) ((run.toRun.inputs t).dWbDataR.extractLsb' 0 8)]
  else []

/-- The accesses to the UART that have been acknowledged to the data port before cycle `t`. -/
def uartAccesses (run : Run x rom n) : ℕ → List UartAccess
  | 0 => []
  | t + 1 => uartAccesses run t ++ run.uartAnswered t

namespace Wired

variable (h : run.Wired uart)

include h

/-- The master of the UART asks for a transfer if and only if the processor does so at an address of
the UART. -/
theorem asks_iff : uart.Asks t ↔ run.AsksUart t := by
  rw [UartTop.Run.Asks, h.req, AsksUart]
  have hcyc : (run.state t).uartReq.cyc = true ↔ _ := WbMux.cyc_wbs_iff
  have hstb : (run.state t).uartReq.stb = (run.state t).core.dPort.stb := rfl
  have hsame : (run.state t).core.dPort.stb = (run.state t).core.dPort.cyc :=
    (run.toRun.dPort_cyc t).2.trans (run.toRun.dPort_cyc t).1.symm
  rw [hcyc, hstb, hsame]
  exact ⟨fun hasks => hasks.1, fun hasks => ⟨hasks, hasks.1⟩⟩

/-- While the processor asks the UART, its data port sees the acknowledge and the byte of the
UART. -/
theorem inputs_eq (hasks : run.AsksUart t) :
    (run.toRun.inputs t).dWbAck = (uart.state t).wb.wbAckO ∧
      (run.toRun.inputs t).dWbDataR = 0#24 ++ (uart.state t).wb.wbDatO := by
  have hslave : (run.state t).slaves (run.inp t) WbIntercon.uart = uartResp (uart.state t) := by
    rw [RvSoc.slaves, Function.update_of_ne (by decide), Function.update_of_ne (by decide), h.resp]
  obtain ⟨hack, hdat⟩ := dbusResp_of_selects (run.state t).intercon (run.state t).dbus
    ((run.state t).slaves (run.inp t)) hasks.2 (by decide)
  rw [hslave] at hack hdat
  exact ⟨hack, hdat⟩

/-- The data port of the processor is a master that holds its requests to the UART. -/
theorem holds : uart.Holds := by
  intro t hasks hack
  have hport := h.asks_iff.mp hasks
  have hwait := dPort_wait hport.1 ((h.inputs_eq hport).1.trans hack)
  rw [h.req, h.req, uartReq, uartReq, dbus, dbus, hwait]

/-- The access that the UART acknowledges in a cycle is the one that the data port is acknowledged
for. -/
theorem answered_eq (t : ℕ) : uart.answered t = run.uartAnswered t := by
  have hmaster := h.holds
  have hreq : (uart.inp t).req.we = (run.state t).core.dPort.we ∧
      (uart.inp t).req.adr = (run.state t).core.dPort.adr.extractLsb' 2 3 ∧
      (uart.inp t).req.dat = (run.state t).core.dPort.dataW.extractLsb' 0 8 := by
    rw [h.req]
    exact ⟨rfl, rfl, rfl⟩
  rw [UartTop.Run.answered, uartAnswered, hreq.1, hreq.2.1, hreq.2.2]
  by_cases hasks : run.AsksUart t
  · obtain ⟨hack, hdat⟩ := h.inputs_eq hasks
    have hbyte (v : BitVec 8) : (0#24 ++ v).extractLsb' 0 8 = v := by
      ext i hi
      rw [BitVec.getElem_extractLsb', BitVec.getLsbD_append, Nat.zero_add, if_pos hi,
        BitVec.getLsbD_eq_getElem]
    -- The byte comes back in the lowest byte lane, the others are zero.
    rw [hack, hdat, hbyte]
    exact if_congr (and_iff_right hasks).symm rfl rfl
  · have hnone : (uart.state t).wb.wbAckO = false := by
      rw [← Bool.not_eq_true]
      exact fun hack => hasks (h.asks_iff.mp (UartTop.Run.asks_of_ack hmaster hack))
    rw [hnone, if_neg Bool.false_ne_true, if_neg fun hboth => hasks hboth.1]

/-- The accesses that the UART has acknowledged are those that the data port has been acknowledged
for. -/
theorem served_eq (t : ℕ) : uart.served t = run.uartAccesses t := by
  induction t with
  | zero => rfl
  | succ t ih => rw [UartTop.Run.served, uartAccesses, ih, h.answered_eq]

end Wired

/-- The data port reaches the registers of the UART: every request in its region is acknowledged
within three cycles, and the registers have seen the accesses that have been acknowledged, each once
and in order, however the rest of the system behaves. -/
theorem uart_serves (h : run.Wired uart) (t : ℕ) :
    (run.AsksUart t → ∃ k ≤ 3, (run.toRun.inputs (t + k)).dWbAck = true) ∧
      uart.regs.made t = run.uartAccesses (t + 1) := by
  refine ⟨fun hasks => ?_, ?_⟩
  · obtain ⟨k, hk, hack⟩ := UartTop.Run.exists_ack h.holds (h.asks_iff.mpr hasks)
    have hlater := h.asks_iff.mp (UartTop.Run.asks_of_ack h.holds hack)
    exact ⟨k, hk, (h.inputs_eq hlater).1.trans hack⟩
  · rw [← UartTop.Run.served_eq h.holds, h.served_eq]

/-! ## An example -/

/-- `lui x1, 0x80205`, `addi x2, x0, 0x80` and `sb x2, 12(x1)` in front of `jal x0, 0`. -/
def latchRom (a : BitVec 8) : BitVec 32 :=
  [0x802050b7, 0x08000113, 0x00208623].getD a.toNat 0x0000006f

/-- The inputs of the example: the UART answers for itself, every other peripheral answers at
once. -/
def latchIn (u : UartTop) : RvSocIn :=
  ⟨Function.update (fun _ => ⟨0xdeadbeef, true, false, false⟩) WbIntercon.uart (uartResp u),
    false, false⟩

/-- The system and the UART while they run the program. -/
def latch : ℕ → RvSoc 8 × UartTop
  | 0 => ((blank.reset latchRom).reset latchRom, UartTop.reset default)
  | t + 1 =>
    let s := latch t
    (s.1.step TestBench.zeros latchRom (latchIn s.2), s.2.next ⟨s.1.uartReq, 0, false⟩)

/-- The run of the system whose program sets `dlab` in the UART. -/
def latchRun : Run TestBench.zeros latchRom 8 where
  first := blank
  powerOn := blank_predictor
  state t := (latch t).1
  inp t := latchIn (latch t).2
  start := rfl
  next _ := rfl

/-- The UART in the run of this program. -/
def latchUart : UartTop.Run :=
  ⟨fun t => (latch t).2, fun t => ⟨(latch t).1.uartReq, 0, false⟩, ⟨default, rfl⟩, fun _ => rfl⟩

/-- In the program that sets `dlab`, the access that the UART makes is the write of the line control
register. -/
theorem uart_serves_latch : latchUart.regs.made 30 = [.write 3 0x80] := by
  have hslave (u : UartTop) : (latchIn u).slaves WbIntercon.uart = uartResp u := by
    simp [latchIn]
  have hwired : latchRun.Wired latchUart := ⟨fun _ => rfl, fun t => hslave _⟩
  rw [(uart_serves hwired 30).2]
  decide +kernel

end Run

end RvSoc

end RvPipelineCore

import RvPipelineCore.Pipeline
import RvPipelineCore.Soc.RvSoc

/-!
# The two ports on the ROM

The instruction port shares the ROM with the data port. Both keep to the Wishbone protocol, so that
the rules for `wb_arbiter` hold of the ROM in every run of the system.

- `RvSoc.Run.romBus_masters`, `RvSoc.Run.romBus_registered`: the assumptions of those rules;
- `RvSoc.Run.instrSlave`, `RvSoc.Run.instrDelayed`: what the processor expects of its fetches;
- `RvSoc.Run.exists_instr_ack`: how long a fetch from the ROM takes at most;
- `RvSoc.Run.instrPort_stuck`: what becomes of a fetch from anywhere else.
-/

namespace RvPipelineCore

namespace RvSoc

namespace Run

open WbIntercon

variable {n k : ℕ} {x : DontCare} {rom : BitVec k → BitVec 32} {run : Run x rom n} {t : ℕ}

/-- The word of the ROM at an address, at which it repeats. -/
def romWord (rom : BitVec k → BitVec 32) (adr : BitVec 32) : BitVec 32 :=
  rom (adr.extractLsb' 2 k)

/-- The next ROM of a run, from what the interconnect asks it. -/
theorem succ_rom : (run.state (t + 1)).rom =
    (run.state t).rom.next rom false (run.state t).romReq.adr (run.state t).romReq.stb
      (run.state t).romReq.cyc := by
  rw [run.next]
  rfl

/-- A run starts without an acknowledge of the ROM. -/
theorem zero_rom_ack : (run.state 0).rom.ack = false := by
  rw [run.start]
  rfl

/-! ## Acknowledges -/

/-- The core sees the acknowledge of the instruction bus if and only if the arbiter acknowledges
master 1 of the ROM. -/
theorem instrWbAck_eq : (run.toRun.inputs t).instrWbAck = (run.romBus.toMaster (t + 1) 1).ack :=
  (ibusResp_eq _ _ _).1

/-- At an address of the ROM the core sees the acknowledge of the data bus if and only if the
arbiter acknowledges master 0 of the ROM. -/
theorem dWbAck_eq (h : muxDbus.Selects (run.state t).core.dPort.adr WbIntercon.rom) :
    (run.toRun.inputs t).dWbAck = (run.romBus.toMaster (t + 1) 0).ack :=
  (dbusResp_of_selects_rom _ (run.state t).dbus _ h).1

/-- Master 1 requests the ROM while the instruction port requests a transfer at an address of the
ROM. -/
theorem masters_one_cyc : (run.romBus.masters (t + 1) 1).cyc = true ↔
    (run.state t).core.instrPort.cyc = true ∧
      muxIbus.Selects (run.state t).core.instrPort.adr 0 :=
  WbMux.cyc_wbs_iff

/-- Master 0 requests the ROM while the data port requests a transfer at an address of the ROM. -/
theorem masters_zero_cyc : (run.romBus.masters (t + 1) 0).cyc = true ↔
    (run.state t).core.dPort.cyc = true ∧
      muxDbus.Selects (run.state t).core.dPort.adr WbIntercon.rom :=
  WbMux.cyc_wbs_iff

/-- The ROM answers a cycle after it is asked, so that the bus in front of it is a registered
one. -/
theorem romBus_registered : run.romBus.Registered := by
  intro t hack
  cases t with
  | zero =>
    have hzero := run.zero_rom_ack
    exact absurd (hzero.symm.trans hack) Bool.false_ne_true
  | succ t =>
    change (run.state (t + 1)).rom.ack = true at hack
    rw [succ_rom] at hack
    simp only [RomWb.next, Bool.false_eq_true, if_false, Bool.and_eq_true,
      Bool.not_eq_true'] at hack
    exact ⟨hack.2, hack.1.2, hack.1.1⟩

/-- The ROM answers every request in the next cycle, so that the bus in front of it answers with a
wait of one. -/
theorem romBus_answers : run.romBus.Answers 0 1 := by
  intro t ht hcyc hstb
  obtain ⟨s, rfl⟩ := Nat.exists_eq_add_of_lt ht
  rw [Nat.zero_add] at hcyc hstb ⊢
  cases hack : (run.state s).rom.ack with
  | true => exact ⟨0, Nat.zero_le _, hack⟩
  | false =>
    refine ⟨1, le_rfl, ?_⟩
    change (run.state (s + 1)).rom.ack = true
    change (run.state s).romReq.cyc = true at hcyc
    change (run.state s).romReq.stb = true at hstb
    rw [succ_rom]
    simp [RomWb.next, hcyc, hstb, hack]

/-! ## The protocol of the ports -/

/-- An instruction port that requests a transfer is active. -/
theorem active_of_instrPort_cyc (h : (run.state t).core.instrPort.cyc = true) :
    (run.state t).core.instrPort.state = .active := by
  have hcyc := (run.toRun.instrPort_cyc t).1
  exact of_decide_eq_true (hcyc.symm.trans h)

/-- A data port that requests a transfer is active. -/
theorem active_of_dPort_cyc (h : (run.state t).core.dPort.cyc = true) :
    (run.state t).core.dPort.state = .active := by
  have hcyc := (run.toRun.dPort_cyc t).1
  exact of_decide_eq_true (hcyc.symm.trans h)

/-- The instruction port keeps its request until it is acknowledged. -/
theorem instrPort_wait (hcyc : (run.state t).core.instrPort.cyc = true)
    (hack : (run.toRun.inputs t).instrWbAck = false) :
    (run.state (t + 1)).core.instrPort = (run.state t).core.instrPort := by
  have hsucc := run.toRun.succ_instrPort t
  have hactive : (run.toRun.state t).instrPort.state = .active := active_of_instrPort_cyc hcyc
  rw [InstrPort.next, hactive, hack] at hsucc
  exact hsucc

/-- Without an acknowledge the data port keeps its request. -/
theorem dPort_wait (hcyc : (run.state t).core.dPort.cyc = true)
    (hack : (run.toRun.inputs t).dWbAck = false) :
    (run.state (t + 1)).core.dPort = (run.state t).core.dPort := by
  have hsucc := run.toRun.succ_dPort t
  have hactive : (run.toRun.state t).dPort.state = .active := active_of_dPort_cyc hcyc
  rw [DataPort.next, hactive, hack] at hsucc
  exact hsucc

/-- The instruction port lets go of the bus when it is acknowledged. -/
theorem instrPort_done (hcyc : (run.state t).core.instrPort.cyc = true)
    (hack : (run.toRun.inputs t).instrWbAck = true) :
    (run.state (t + 1)).core.instrPort.cyc = false := by
  have hsucc := run.toRun.succ_instrPort t
  have hactive : (run.toRun.state t).instrPort.state = .active := active_of_instrPort_cyc hcyc
  rw [InstrPort.next, hactive, hack] at hsucc
  exact congrArg InstrPort.cyc hsucc

/-- The data port lets go of the bus when it is acknowledged. -/
theorem dPort_done (hcyc : (run.state t).core.dPort.cyc = true)
    (hack : (run.toRun.inputs t).dWbAck = true) :
    (run.state (t + 1)).core.dPort.cyc = false := by
  have hsucc := run.toRun.succ_dPort t
  have hactive : (run.toRun.state t).dPort.state = .active := active_of_dPort_cyc hcyc
  rw [DataPort.next, hactive, hack] at hsucc
  exact congrArg DataPort.cyc hsucc

/-- Both masters of the ROM hold their requests until they are acknowledged. -/
theorem romBus_holds : run.romBus.Holds 0 := by
  intro t ht i hcyc hack
  obtain ⟨s, rfl⟩ := Nat.exists_eq_add_of_lt ht
  rw [Nat.zero_add] at hcyc hack ⊢
  obtain rfl | rfl : i = 0 ∨ i = 1 := by omega
  · obtain ⟨hport, hsel⟩ := masters_zero_cyc.mp hcyc
    have hport' := dPort_wait hport ((dWbAck_eq hsel).trans hack)
    change muxDbus.wbs (run.state (s + 1)).dbus WbIntercon.rom =
      muxDbus.wbs (run.state s).dbus WbIntercon.rom
    rw [dbus, hport']
    rfl
  · obtain ⟨hport, hsel⟩ := masters_one_cyc.mp hcyc
    have hport' := instrPort_wait hport (instrWbAck_eq.trans hack)
    change muxIbus.wbs (run.state (s + 1)).ibus 0 = muxIbus.wbs (run.state s).ibus 0
    rw [ibus, hport']
    rfl

/-- A run starts with the token at the data bus, since a reset hands it to master 0. -/
theorem romBus_zero_token :
    (run.romBus.toArbiter.state 0).token = BitVec.twoPow 2 (0 : Fin 2).val :=
  Arbiter.token_reset run.first.intercon.arbiterRom _

/-- An acknowledge of the ROM answers a request of the cycle before, and the ROM did not acknowledge
then. -/
theorem exists_slave_ack (hack : (run.state t).rom.ack = true) :
    ∃ u, t = u + 2 ∧ (run.state (u + 1)).rom.ack = false ∧
      (run.romBus.toSlave (u + 2)).cyc = true := by
  cases t with
  | zero => exact absurd (run.zero_rom_ack.symm.trans hack) Bool.false_ne_true
  | succ t =>
    obtain ⟨hno, hcyc, -⟩ := romBus_registered (t + 1) hack
    cases t with
    | zero =>
      -- the reset has cleared the ports before it has released the arbiter
      simp only [WbArbiter.Run.toSlave, WbArbiter.wbs, Bool.and_eq_true] at hcyc
      have hreq := (run.romBus.toArbiter.outputs_of_token romBus_zero_token).1.mp hcyc.2
      have hcyc : (run.romBus.masters 0 0).cyc = true := WbArbiter.requests_wbmCyc.mp hreq
      have hasked : (muxDbus.wbs (run.first.reset rom).dbus WbIntercon.rom).cyc = true := hcyc
      exact absurd (WbMux.cyc_wbs_iff.mp hasked).1 Bool.false_ne_true
    | succ u => exact ⟨u, rfl, hno, hcyc⟩

/-- The bus in front of the ROM is reset in its first cycle. -/
theorem romBus_rst : run.romBus.rst 0 = true := rfl

/-- The bus in front of the ROM is not reset after its first cycle. -/
theorem romBus_quiet : ∀ t, 0 < t → run.romBus.rst t = false := by
  intro t ht
  obtain ⟨s, rfl⟩ := Nat.exists_eq_add_of_lt ht
  rw [Nat.zero_add]
  rfl

/-- What an acknowledge of the ROM to a master is for: the same request of this master in the cycle
before, and no other master is acknowledged with it. -/
theorem romBus_ack {i : Fin 2} (hack : (run.romBus.toMaster (t + 1) i).ack = true) :
    ∃ u, t = u + 1 ∧ run.romBus.toSlave t = run.romBus.masters t i ∧
      run.romBus.masters (t + 1) i = run.romBus.masters t i ∧
      (run.romBus.masters t i).cyc = true ∧ (run.romBus.masters t i).stb = true ∧
      ∀ j, (run.romBus.toMaster (t + 1) j).ack = true → j = i := by
  obtain ⟨u, rfl, -, -⟩ := exists_slave_ack (WbArbiter.Run.toMaster_ack.mp hack).1
  obtain ⟨hslave, -, hheld, hcyc, hstb, honly⟩ := WbArbiter.Run.ack_owner romBus_rst
    romBus_quiet romBus_registered romBus_holds (by omega) hack
  exact ⟨u + 1, rfl, hslave, hheld, hcyc, hstb, honly⟩

/-- Both masters of the ROM keep the rules of the bus: they strobe with `cyc`, hold their requests,
and let go after the acknowledge. -/
theorem romBus_masters : run.romBus.Masters 0 := by
  refine ⟨fun t ht i hcyc => ?_, romBus_holds, fun t ht i hack => ?_⟩
  · obtain ⟨s, rfl⟩ := Nat.exists_eq_add_of_lt ht
    rw [Nat.zero_add] at hcyc ⊢
    -- the strobe goes with `cyc`, at either port
    obtain rfl | rfl : i = 0 ∨ i = 1 := by omega
    · exact ((run.toRun.dPort_cyc s).2.trans (run.toRun.dPort_cyc s).1.symm).trans
        (masters_zero_cyc.mp hcyc).1
    · exact ((run.toRun.instrPort_cyc s).2.trans (run.toRun.instrPort_cyc s).1.symm).trans
        (masters_one_cyc.mp hcyc).1
  · obtain ⟨s, rfl⟩ := Nat.exists_eq_add_of_lt ht
    rw [Nat.zero_add] at hack ⊢
    -- the acknowledge goes to a master that has asked, and its port is idle in the next cycle
    obtain ⟨u, -, -, hheld, hcyc, -⟩ := romBus_ack hack
    rw [← hheld] at hcyc
    rw [← Bool.not_eq_true]
    obtain rfl | rfl : i = 0 ∨ i = 1 := by omega
    · obtain ⟨hport, hsel⟩ := masters_zero_cyc.mp hcyc
      have hdone := dPort_done hport ((dWbAck_eq hsel).trans hack)
      exact fun h => absurd (masters_zero_cyc.mp h).1 (by rw [hdone]; exact Bool.false_ne_true)
    · have hdone := instrPort_done (masters_one_cyc.mp hcyc).1 (instrWbAck_eq.trans hack)
      exact fun h => absurd (masters_one_cyc.mp h).1 (by rw [hdone]; exact Bool.false_ne_true)

/-- The first fetch of a program is served while the data port is idle. -/
theorem serves_first_fetch :
    ∃ k ≤ 6, (storeRun.romBus.toMaster (2 + k) 1).ack = true :=
  have hrst : storeRun.romBus.rst 0 = true := rfl
  (WbArbiter.Run.serves hrst romBus_quiet romBus_registered romBus_answers romBus_masters 1).2 2
    (by decide) (by decide +kernel)

/-! ## Fetches -/

/-- An acknowledge of a fetch is for a request of the instruction port that has been up for a cycle,
at an address of the ROM, and comes with the word at this address. -/
theorem instr_ack (hack : (run.toRun.inputs t).instrWbAck = true) :
    ∃ u, t = u + 1 ∧ (run.state u).core.instrPort = (run.state t).core.instrPort ∧
      (run.state u).core.instrPort.cyc = true ∧ (run.state u).core.instrPort.stb = true ∧
      (run.state t).core.instrPort.adr.toNat < 0x00200000 ∧
      (run.toRun.inputs t).instrWbData = romWord rom (run.state t).core.instrPort.adr := by
  obtain ⟨u, rfl, hslave, -, hcyc, hstb, honly⟩ := romBus_ack (instrWbAck_eq.symm.trans hack)
  obtain ⟨hport, hsel⟩ := masters_one_cyc.mp hcyc
  -- two acknowledges never follow one another, so that the port has waited in between
  have hno : (run.toRun.inputs u).instrWbAck = false := by
    obtain ⟨v, hv, hfirst, -⟩ := exists_slave_ack
      (WbArbiter.Run.toMaster_ack.mp (instrWbAck_eq.symm.trans hack)).1
    obtain rfl : u = v + 1 := by omega
    rw [instrWbAck_eq, ← Bool.not_eq_true, WbArbiter.Run.toMaster_ack]
    exact fun h => absurd (hfirst.symm.trans h.1) Bool.false_ne_true
  have hheld := instrPort_wait hport hno
  refine ⟨u, rfl, hheld.symm, hport, hstb, ?_, ?_⟩
  · rw [hheld]
    exact selects_ibus.mp hsel
  -- the word was read in the cycle before, at the address that has not changed
  · have hdata : (run.toRun.inputs (u + 1)).instrWbData = (run.state (u + 1)).rom.data :=
      (ibusResp_eq _ _ _).2
    have hadr : (run.state u).romReq.adr = (run.state u).core.instrPort.adr :=
      congrArg WbReq.adr hslave
    rw [hdata, succ_rom, hheld, romWord, ← hadr]
    rfl

/-- In the system the processor sees an instruction slave that gives the words of the ROM. -/
theorem instrSlave : run.toRun.InstrSlave (romWord rom) := by
  intro t hack
  obtain ⟨u, -, hheld, hcyc, hstb, -, hdata⟩ := instr_ack hack
  rw [hheld] at hcyc hstb
  exact ⟨hcyc, hstb, hdata⟩

/-- In the system the instruction slave never acknowledges in the first cycle of a transfer. -/
theorem instrDelayed : run.toRun.InstrDelayed := by
  intro t hack
  obtain ⟨u, hu, -, hcyc, hstb, -⟩ := instr_ack hack
  exact ⟨u, hu, hcyc, hstb⟩

/-- A fetch from the ROM is acknowledged in at most six cycles, whatever the data port does. -/
theorem exists_instr_ack (hcyc : (run.state t).core.instrPort.cyc = true)
    (hadr : (run.state t).core.instrPort.adr.toNat < 0x00200000) :
    ∃ w ≤ 6, (run.toRun.inputs (t + w)).instrWbAck = true := by
  obtain ⟨w, hw, hack⟩ := WbArbiter.Run.exists_ack romBus_rst romBus_quiet
    romBus_masters romBus_answers (show 0 < t + 1 by omega)
    (masters_one_cyc.mpr ⟨hcyc, selects_ibus.mpr hadr⟩)
  rw [Nat.add_right_comm] at hack
  exact ⟨w, hw, instrWbAck_eq.trans hack⟩

/-- Whatever the data port and the peripherals do, a fetch from the ROM ends within six cycles: the
port stands by its request until then, and gets the word of the ROM. -/
theorem fetches (hcyc : (run.state t).core.instrPort.cyc = true)
    (hadr : (run.state t).core.instrPort.adr.toNat < 0x00200000) :
    ∃ w ≤ 6, (run.toRun.inputs (t + w)).instrWbAck = true ∧
      (∀ v, t ≤ v → v ≤ t + w → (run.state v).core.instrPort = (run.state t).core.instrPort) ∧
      (run.toRun.inputs (t + w)).instrWbData = romWord rom (run.state t).core.instrPort.adr := by
  obtain ⟨w, hw, hack⟩ := exists_instr_ack hcyc hadr
  -- the first acknowledge ends the fetch
  obtain ⟨u, hfirst⟩ := Temporal.First.of_exists
    (p := fun v => (run.toRun.inputs v).instrWbAck = true) ⟨t + w, Nat.le_add_right t w, hack⟩
  have hle : u ≤ t + w := by
    by_contra hlt
    exact hfirst.not_before _ (Nat.le_add_right t w) (by omega) hack
  have hheld : ∀ v, t ≤ v → v ≤ u →
      (run.state v).core.instrPort = (run.state t).core.instrPort := by
    intro v hv
    induction v, hv using Nat.le_induction with
    | base => exact fun _ => rfl
    | succ v hv ih =>
      intro hvu
      have hsame := ih (by omega)
      have hno := Bool.of_not_eq_true (hfirst.not_before v hv hvu)
      rw [instrPort_wait (by rw [hsame]; exact hcyc) hno, hsame]
  obtain ⟨k, rfl⟩ := Nat.exists_eq_add_of_le hfirst.le
  obtain ⟨-, -, -, -, -, -, hdata⟩ := instr_ack hfirst.holds
  refine ⟨k, by omega, hfirst.holds, hheld, ?_⟩
  rw [hdata, hheld _ hfirst.le le_rfl]

/-- In the program that stores a word, the first fetch is acknowledged within seven cycles and gives
the first word of the ROM. -/
theorem fetches_first : ∃ w ≤ 6, (storeRun.toRun.inputs (1 + w)).instrWbAck = true ∧
    (storeRun.toRun.inputs (1 + w)).instrWbData = 0x800000b7 := by
  have hcyc : (storeRun.state 1).core.instrPort.cyc = true := by decide +kernel
  obtain ⟨w, hw, hack, -, hdata⟩ := fetches hcyc (by decide +kernel)
  exact ⟨w, hw, hack, hdata.trans (by decide +kernel)⟩

/-- A fetch from outside the ROM is never acknowledged: the port keeps its request forever, and
nothing is fetched any more. -/
theorem instrPort_stuck (hcyc : (run.state t).core.instrPort.cyc = true)
    (hadr : 0x00200000 ≤ (run.state t).core.instrPort.adr.toNat) (v : ℕ) (hv : t ≤ v) :
    (run.state v).core.instrPort = (run.state t).core.instrPort ∧
      (run.toRun.inputs v).instrWbAck = false := by
  have hnever (u : ℕ) (hu : (run.state u).core.instrPort = (run.state t).core.instrPort) :
      (run.toRun.inputs u).instrWbAck = false := by
    rw [← Bool.not_eq_true]
    intro hack
    obtain ⟨-, -, -, -, -, hlt, -⟩ := instr_ack hack
    rw [hu] at hlt
    omega
  induction v, hv using Nat.le_induction with
  | base => exact ⟨rfl, hnever t rfl⟩
  | succ v hv ih =>
    have hheld := (instrPort_wait (by rw [ih.1]; exact hcyc) ih.2).trans ih.1
    exact ⟨hheld, hnever _ hheld⟩

/-- The run of `lui x1, 0x200` and `jalr x0, 0(x1)`. -/
def farRun : Run TestBench.zeros
    (fun a : BitVec 8 => [0x002000b7, 0x00008067].getD a.toNat 0x0000006f) 8 :=
  .ofInputs _ _ blank blank_predictor fun _ =>
    ⟨fun _ => ⟨0xdeadbeef, true, false, false⟩, false, false⟩

/-- In the program that jumps to an address outside the ROM, the fetch is still not acknowledged
after a hundred thousand cycles. -/
theorem instrPort_stuck_far : (farRun.toRun.inputs 100000).instrWbAck = false :=
  have hcyc : (farRun.state 14).core.instrPort.cyc = true := by decide +kernel
  (instrPort_stuck hcyc (by decide +kernel) 100000 (by decide)).2

end Run

end RvSoc

end RvPipelineCore

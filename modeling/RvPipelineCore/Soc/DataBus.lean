import RvPipelineCore.Effects
import RvPipelineCore.Soc.RomBus

/-!
# The memory that the data port sees

As long as the data port reads the two memories and writes the RAM, it sees a word memory: the words
of the ROM below, those of the RAM above, whatever the peripherals do.

- `RvSoc.InRom`, `RvSoc.InRam`: the addresses of the two memories;
- `RvSoc.Run.Phase`: what the data port and the RAM are doing;
- `RvSoc.Run.data_ack`, `RvSoc.Run.exists_data_ack`: what an acknowledge is for, and that it comes.
-/

namespace RvPipelineCore

namespace RvSoc

/-- The region of the ROM, in which the ROM repeats. -/
def InRom (adr : BitVec 32) : Prop := adr.toNat < 0x00200000

/-- The addresses of the RAM itself, as far as they are in its region. -/
def InRam (n : ℕ) (adr : BitVec 32) : Prop :=
  0x80000000 ≤ adr.toNat ∧ adr.toNat < 0x80000000 + 4 * 2 ^ n ∧ adr.toNat < 0x80200000

/-- Whether an address belongs to the ROM can be decided by a comparison. -/
instance (adr : BitVec 32) : Decidable (InRom adr) := inferInstanceAs (Decidable (_ < _))

/-- Whether an address belongs to the RAM can be decided by two comparisons. -/
instance (n : ℕ) (adr : BitVec 32) : Decidable (InRam n adr) :=
  inferInstanceAs (Decidable (_ ∧ _))

/-- The port reads one of the memories, or writes the RAM. -/
def Plain (n : ℕ) (p : DataPort) : Prop := InRam n p.adr ∨ InRom p.adr ∧ p.we = false

/-- Whether a data port keeps to the two memories can be decided from its address and its
direction. -/
instance (n : ℕ) (p : DataPort) : Decidable (Plain n p) := inferInstanceAs (Decidable (_ ∨ _))

/-- The words of the memories, by their place in the address space. -/
def memory {n k : ℕ} (rom : BitVec k → BitVec 32) (ram : BitVec n → BitVec 32) (i : BitVec 30) :
    BitVec 32 :=
  if i.toNat < 0x00080000 then rom (i.setWidth k) else ram (i.setWidth n)

/-- The index of the word of an address is the address divided by four. -/
theorem toNat_word (adr : BitVec 32) : (adr.extractLsb' 2 30).toNat = adr.toNat / 4 := by
  have hadr := adr.isLt
  rw [BitVec.extractLsb'_toNat, Nat.shiftRight_eq_div_pow, Nat.mod_eq_of_lt (by omega)]

/-- Within the RAM two addresses have the same place if and only if they are in the same word. -/
theorem address_eq_iff {n : ℕ} {p adr : BitVec 32} (hp : InRam n p) (ha : InRam n adr) :
    (p.extractLsb' 2 30).setWidth n = RamWb.address n adr ↔
      p.extractLsb' 2 30 = adr.extractLsb' 2 30 := by
  constructor
  · intro h
    rw [RamWb.address_eq, ← BitVec.toNat_inj, BitVec.toNat_setWidth, BitVec.toNat_setWidth,
      toNat_word, toNat_word] at h
    rw [← BitVec.toNat_inj, toNat_word, toNat_word]
    obtain ⟨hp1, hp2, -⟩ := hp
    obtain ⟨ha1, ha2, -⟩ := ha
    -- both lie in the same window of `2 ^ n` words
    obtain ⟨a, hpa⟩ := Nat.exists_eq_add_of_le (show 0x20000000 ≤ p.toNat / 4 by omega)
    obtain ⟨b, hab⟩ := Nat.exists_eq_add_of_le (show 0x20000000 ≤ adr.toNat / 4 by omega)
    rw [hpa, hab] at h ⊢
    have hoff := Nat.ModEq.add_left_cancel' _ h
    rw [Nat.ModEq, Nat.mod_eq_of_lt (by omega), Nat.mod_eq_of_lt (by omega)] at hoff
    rw [hoff]
  · intro h
    rw [h, RamWb.address_eq]

/-- To write the same lanes twice is to write them once. -/
theorem mergeLanes_idem (old new : BitVec 32) (sel : BitVec 4) :
    mergeLanes (mergeLanes old new sel) new sel = mergeLanes old new sel := by
  apply BitVec.eq_of_getLsbD_eq
  intro j hj
  rw [mergeLanes_bit _ _ _ hj, mergeLanes_bit _ _ _ hj]
  split_ifs with h
  · rfl
  · rw [mergeLanes_bit _ _ _ hj, if_neg h]

/-- A write to the RAM, seen as one to the words of the address space. -/
theorem words_next {n : ℕ} (s : RamWb n) {p adr : BitVec 32} (hp : InRam n p) (ha : InRam n adr)
    (rst : Bool) (data : BitVec 32) (sel : BitVec 4) :
    (s.next rst adr data true sel true true).words (p.extractLsb' 2 30) =
      writeWord s.words adr data sel (p.extractLsb' 2 30) := by
  simp only [RamWb.words, RamWb.next, writeWord, address_eq_iff hp ha]
  rfl

namespace Run

open WbIntercon

variable {n k : ℕ} {x : DontCare} {rom : BitVec k → BitVec 32} {run : Run x rom n} {t : ℕ}

/-- The words that the two memories start with, as one memory of words. -/
def init (run : Run x rom n) : BitVec 30 → BitVec 32 := memory rom (run.state 0).ram.mem

/-- The words after the writes that have been acknowledged before cycle `t`. -/
def words (run : Run x rom n) (t : ℕ) : BitVec 30 → BitVec 32 := run.toRun.ram run.init t

/-- The memories hold the words of `m` at their own addresses. -/
structure Holds (run : Run x rom n) (t : ℕ) (m : BitVec 30 → BitVec 32) : Prop where
  ram : ∀ p, InRam n p → (run.state t).ram.words (p.extractLsb' 2 30) = m (p.extractLsb' 2 30)
  rom : ∀ p, InRom p → m (p.extractLsb' 2 30) = romWord rom p

/-- The words after the write that the data port asks for. -/
def written (run : Run x rom n) (t : ℕ) : BitVec 30 → BitVec 32 :=
  let p := (run.state t).core.dPort
  if p.we then writeWord (run.words t) p.adr p.dataW p.sel else run.words t

/-- What the data port and the RAM are doing: nothing, or a request is up, or the RAM has answered
it, with the write done and the word read. -/
inductive Phase (run : Run x rom n) (t : ℕ) : Prop
  | idle (cyc : (run.state t).core.dPort.cyc = false) (we : (run.state t).core.dPort.we = false)
      (ack : (run.state t).ram.ack = false) (holds : run.Holds t (run.words t))
  | asked (cyc : (run.state t).core.dPort.cyc = true) (ack : (run.state t).ram.ack = false)
      (holds : run.Holds t (run.words t))
  | answered (cyc : (run.state t).core.dPort.cyc = true) (ack : (run.state t).ram.ack = true)
      (adr : InRam n (run.state t).core.dPort.adr) (holds : run.Holds t (run.written t))
      (data : (run.state t).core.dPort.we = false →
        (run.state t).ram.dataR = run.words t ((run.state t).core.dPort.adr.extractLsb' 2 30))
      (before : ∃ u, t = u + 1 ∧ (run.state u).core.dPort = (run.state t).core.dPort)

/-- The next RAM of a run, from what the data bus asks it. -/
theorem succ_ram : (run.state (t + 1)).ram =
    (run.state t).ram.next false (run.state t).ramReq.adr (run.state t).ramReq.dat
      (run.state t).ramReq.we (run.state t).ramReq.sel (run.state t).ramReq.cyc
      (run.state t).ramReq.stb := by
  rw [run.next]
  rfl

/-- The RAM is asked while the data port requests a transfer at an address that selects the RAM. -/
theorem ramReq_cyc : (run.state t).ramReq.cyc = true ↔
    (run.state t).core.dPort.cyc = true ∧
      muxDbus.Selects (run.state t).core.dPort.adr WbIntercon.ram :=
  WbMux.cyc_wbs_iff

/-- An address of the RAM selects the RAM on the data bus. -/
theorem selects_of_inRam {adr : BitVec 32} (h : InRam n adr) :
    muxDbus.Selects adr WbIntercon.ram :=
  selects_ram.mpr ⟨h.1, h.2.2⟩

/-- No address belongs to both memories. -/
theorem not_inRam_of_inRom {adr : BitVec 32} (h : InRom adr) : ¬ InRam n adr := by
  intro hram
  have hle := hram.1
  rw [InRom] at h
  omega

/-- At an address of the RAM the core sees the acknowledge and the data of the RAM. -/
theorem dWbAck_of_inRam (h : InRam n (run.state t).core.dPort.adr) :
    (run.toRun.inputs t).dWbAck = (run.state t).ram.ack ∧
      (run.toRun.inputs t).dWbDataR = (run.state t).ram.dataR :=
  dbusResp_of_selects _ (run.state t).dbus _ (selects_of_inRam h) (by decide)

/-- An acknowledge adds the write of the data port, if it is one, to the words. -/
theorem words_succ : run.words (t + 1) =
    if (run.toRun.inputs t).dWbAck then run.written t else run.words t := by
  have hport : (run.toRun.state t).dPort = (run.state t).core.dPort := rfl
  rw [words, RvPipelineCore.Run.ram, hport, written, words]
  cases (run.toRun.inputs t).dWbAck <;> cases (run.state t).core.dPort.we <;> rfl

/-- If the memory of the RAM does not change, the memories hold the same words in the next cycle. -/
theorem Holds.congr {m : BitVec 30 → BitVec 32} (h : run.Holds t m)
    (hmem : (run.state (t + 1)).ram.mem = (run.state t).ram.mem) : run.Holds (t + 1) m := by
  refine ⟨fun p hp => ?_, h.rom⟩
  rw [← h.ram p hp, RamWb.words, hmem, RamWb.words]

/-- A RAM that is not asked keeps its words and does not acknowledge in the next cycle. -/
theorem ram_quiet (h : (run.state t).ramReq.cyc = false) :
    (run.state (t + 1)).ram.mem = (run.state t).ram.mem ∧
      (run.state (t + 1)).ram.ack = false := by
  rw [succ_ram, h]
  refine ⟨RamWb.mem_next_of_not _ (by simp) _ _ _ _, ?_⟩
  simp [RamWb.next]

/-- A RAM that is asked for a write does it at the clock edge, before it acknowledges. -/
theorem Holds.write {m : BitVec 30 → BitVec 32} (h : run.Holds t m)
    (hcyc : (run.state t).core.dPort.cyc = true) (hadr : InRam n (run.state t).core.dPort.adr) :
    run.Holds (t + 1) (if (run.state t).core.dPort.we then
      writeWord m (run.state t).core.dPort.adr (run.state t).core.dPort.dataW
        (run.state t).core.dPort.sel else m) := by
  have hreq := ramReq_cyc.mpr ⟨hcyc, selects_of_inRam hadr⟩
  have hstb : (run.state t).ramReq.stb = true :=
    ((run.toRun.dPort_cyc t).2.trans (run.toRun.dPort_cyc t).1.symm).trans hcyc
  cases hwe : (run.state t).core.dPort.we with
  | false =>
    -- a read leaves the memory
    have hno : ((run.state t).ramReq.we && (run.state t).ramReq.stb && (run.state t).ramReq.cyc) =
        false := by
      change ((run.state t).core.dPort.we && _ && _) = false
      rw [hwe, Bool.false_and, Bool.false_and]
    refine h.congr ?_
    rw [succ_ram, RamWb.mem_next_of_not _ hno]
  | true =>
    have hnext : (run.state (t + 1)).ram = (run.state t).ram.next false
        (run.state t).core.dPort.adr (run.state t).core.dPort.dataW true
        (run.state t).core.dPort.sel true true := by
      rw [succ_ram, hreq, hstb, ← hwe]
      rfl
    rw [if_pos rfl]
    refine ⟨fun p hp => ?_, fun p hp => ?_⟩
    · rw [hnext, words_next _ hp hadr, writeWord, writeWord, h.ram p hp]
    · -- a word of the ROM is none of the RAM
      have hne : p.extractLsb' 2 30 ≠ (run.state t).core.dPort.adr.extractLsb' 2 30 := by
        intro heq
        rw [← BitVec.toNat_inj, toNat_word, toNat_word] at heq
        obtain ⟨hle, -⟩ := hadr
        rw [InRom] at hp
        omega
      rw [writeWord, if_neg hne]
      exact h.rom p hp

/-- A write that is done once more changes nothing, which the RAM does as long as the strobe is
up. -/
theorem written_idem : (if (run.state t).core.dPort.we then
    writeWord (run.written t) (run.state t).core.dPort.adr (run.state t).core.dPort.dataW
      (run.state t).core.dPort.sel else run.written t) = run.written t := by
  rw [written]
  cases (run.state t).core.dPort.we with
  | false => rfl
  | true =>
    funext i
    simp only [if_true, writeWord]
    split_ifs
    · rw [mergeLanes_idem]
    · rfl

/-- A read changes no word. -/
theorem written_of_read (h : (run.state t).core.dPort.we = false) :
    run.written t = run.words t := by
  rw [written, h]
  rfl

/-- An idle port stays idle or takes up a request. -/
theorem Phase.succ_idle (cyc : (run.state t).core.dPort.cyc = false)
    (we : (run.state t).core.dPort.we = false) (holds : run.Holds t (run.words t)) :
    run.Phase (t + 1) := by
  have hreq : (run.state t).ramReq.cyc = false := by
    rw [← Bool.not_eq_true, ramReq_cyc, cyc]
    exact fun h => absurd h.1 Bool.false_ne_true
  obtain ⟨hmem, hack⟩ := ram_quiet hreq
  have hholds : run.Holds (t + 1) (run.words (t + 1)) := by
    rw [words_succ, written_of_read we, ite_self]
    exact holds.congr hmem
  cases hcyc : (run.state (t + 1)).core.dPort.cyc with
  | true => exact .asked hcyc hack hholds
  | false =>
    refine .idle hcyc ?_ hack hholds
    -- `we` rises only together with `cyc`
    have hsucc := run.toRun.succ_dPort t
    have hidle : (run.toRun.state t).dPort.state = .idle := by
      have hdec := (run.toRun.dPort_cyc t).1.symm.trans cyc
      cases hs : (run.toRun.state t).dPort.state with
      | idle => rfl
      | active => exact absurd hs (of_decide_eq_false hdec)
    rw [DataPort.next, hidle] at hsucc
    change (run.toRun.state (t + 1)).dPort.cyc = false at hcyc
    change (run.toRun.state (t + 1)).dPort.we = false
    rw [hsucc] at hcyc ⊢
    dsimp only at hcyc ⊢
    split_ifs at hcyc ⊢
    rfl

/-- A data port that is acknowledged requests nothing in the next cycle. -/
theorem idle_of_ack (hcyc : (run.state t).core.dPort.cyc = true)
    (hack : (run.toRun.inputs t).dWbAck = true) :
    (run.state (t + 1)).core.dPort.cyc = false ∧ (run.state (t + 1)).core.dPort.we = false := by
  have hsucc := run.toRun.succ_dPort t
  have hactive : (run.toRun.state t).dPort.state = .active := active_of_dPort_cyc hcyc
  rw [DataPort.next, hactive, hack] at hsucc
  exact ⟨congrArg DataPort.cyc hsucc, congrArg DataPort.we hsucc⟩

/-- The RAM answers in the next cycle; the ROM does so when it can. -/
theorem Phase.succ_asked (hplain : Plain n (run.state t).core.dPort)
    (cyc : (run.state t).core.dPort.cyc = true) (ack : (run.state t).ram.ack = false)
    (holds : run.Holds t (run.words t)) : run.Phase (t + 1) := by
  rcases hplain with hram | ⟨hrom, hwe⟩
  · -- the edge that sets `ack` also does the write and the read
    have hno : (run.toRun.inputs t).dWbAck = false := (dWbAck_of_inRam hram).1.trans ack
    have hport := dPort_wait cyc hno
    have hreq := ramReq_cyc.mpr ⟨cyc, selects_of_inRam hram⟩
    have hstb : (run.state t).ramReq.stb = true :=
      ((run.toRun.dPort_cyc t).2.trans (run.toRun.dPort_cyc t).1.symm).trans cyc
    have hwords : run.words (t + 1) = run.words t := by
      rw [words_succ, hno]
      rfl
    refine .answered (by rw [hport]; exact cyc) ?_ (by rw [hport]; exact hram) ?_ ?_
      ⟨t, rfl, hport.symm⟩
    · rw [succ_ram, hreq, hstb]
      simp [RamWb.next, ack]
    · rw [written, hport, hwords]
      exact holds.write cyc hram
    · intro hread
      rw [hwords, hport, ← holds.ram _ hram, RamWb.words, ← RamWb.address_eq, succ_ram]
      rfl
  · -- the RAM does not see a request for the ROM
    have hreq : (run.state t).ramReq.cyc = false := by
      rw [← Bool.not_eq_true, ramReq_cyc]
      intro h
      have hlt := selects_ram.mp h.2
      rw [InRom] at hrom
      omega
    have hquiet := ram_quiet hreq
    have hholds : run.Holds (t + 1) (run.words (t + 1)) := by
      rw [words_succ, written_of_read hwe, ite_self]
      exact holds.congr hquiet.1
    cases hack : (run.toRun.inputs t).dWbAck with
    | true =>
      obtain ⟨hcyc, hwe'⟩ := idle_of_ack cyc hack
      exact .idle hcyc hwe' hquiet.2 hholds
    | false =>
      have hport := dPort_wait cyc hack
      exact .asked (by rw [hport]; exact cyc) hquiet.2 hholds

/-- After the cycle of the acknowledge the data port lets go of the RAM and both are idle. -/
theorem Phase.succ_answered (cyc : (run.state t).core.dPort.cyc = true)
    (ack : (run.state t).ram.ack = true) (adr : InRam n (run.state t).core.dPort.adr)
    (holds : run.Holds t (run.written t)) : run.Phase (t + 1) := by
  have hack : (run.toRun.inputs t).dWbAck = true := (dWbAck_of_inRam adr).1.trans ack
  obtain ⟨hcyc, hwe⟩ := idle_of_ack cyc hack
  refine .idle hcyc hwe ?_ ?_
  · rw [succ_ram]
    simp [RamWb.next, ack]
  · -- the second write finds the words of the first
    have hwrite := holds.write cyc adr
    rw [written_idem] at hwrite
    rw [words_succ, hack]
    exact hwrite

/-- As long as the data port has kept to the two memories, every cycle is in one of the phases. -/
theorem phase (hplain : ∀ v < t, Plain n (run.state v).core.dPort) : run.Phase t := by
  induction t with
  | zero =>
    have hport := run.toRun.zero_dPort
    refine .idle (congrArg DataPort.cyc hport) (congrArg DataPort.we hport) ?_
      ⟨fun p hp => ?_, fun p hp => ?_⟩
    · rw [run.start]
      rfl
    -- the words of the RAM begin where the ROM and the empty space behind it have ended
    · have hge : ¬ (p.extractLsb' 2 30).toNat < 0x00080000 := by
        obtain ⟨hle, -⟩ := hp
        rw [toNat_word]
        omega
      change _ = memory rom (run.state 0).ram.mem _
      rw [memory, if_neg hge, RamWb.words]
    · have hlt : (p.extractLsb' 2 30).toNat < 0x00080000 := by
        rw [InRom] at hp
        rw [toNat_word]
        omega
      change memory rom (run.state 0).ram.mem _ = _
      rw [memory, if_pos hlt, ← RamWb.address_eq]
      rfl
  | succ t ih =>
    -- from each phase there is one lemma for the next cycle
    cases ih fun v hv => hplain v (by omega) with
    | idle cyc we _ holds => exact .succ_idle cyc we holds
    | asked cyc ack holds => exact .succ_asked (hplain t (Nat.lt_succ_self t)) cyc ack holds
    | answered cyc ack adr holds => exact .succ_answered cyc ack adr holds

/-! ## Acknowledges -/

/-- What an acknowledge of the ROM to the data port is for. -/
theorem data_ack_rom (hrom : InRom (run.state t).core.dPort.adr)
    (hack : (run.toRun.inputs t).dWbAck = true) :
    ∃ u, t = u + 1 ∧ (run.state u).core.dPort = (run.state t).core.dPort ∧
      (run.state u).core.dPort.cyc = true ∧ (run.state u).core.dPort.stb = true ∧
      (run.toRun.inputs t).dWbDataR = romWord rom (run.state t).core.dPort.adr := by
  have hsel := selects_rom.mpr hrom
  have hbus := (dWbAck_eq hsel).symm.trans hack
  obtain ⟨u, rfl, hslave, -, hcyc, hstb, -⟩ := romBus_ack hbus
  obtain ⟨hport, hsel'⟩ := masters_zero_cyc.mp hcyc
  -- the slave does not answer twice in a row, so that the port has waited
  have hno : (run.toRun.inputs u).dWbAck = false := by
    obtain ⟨v, hv, hfirst, -⟩ := exists_slave_ack (WbArbiter.Run.toMaster_ack.mp hbus).1
    obtain rfl : u = v + 1 := by omega
    rw [dWbAck_eq hsel', ← Bool.not_eq_true, WbArbiter.Run.toMaster_ack]
    exact fun h => absurd (hfirst.symm.trans h.1) Bool.false_ne_true
  have hheld := dPort_wait hport hno
  refine ⟨u, rfl, hheld.symm, hport, hstb, ?_⟩
  have hdata : (run.toRun.inputs (u + 1)).dWbDataR = (run.state (u + 1)).rom.data :=
    (dbusResp_of_selects_rom _ (run.state (u + 1)).dbus _ hsel).2
  have hadr : (run.state u).romReq.adr = (run.state u).core.dPort.adr :=
    congrArg WbReq.adr hslave
  rw [hdata, succ_rom, hheld, romWord, ← hadr]
  rfl

/-- What an acknowledge to the data port is for, as long as the port keeps to the memories. -/
theorem data_ack (hplain : ∀ v ≤ t, Plain n (run.state v).core.dPort)
    (hack : (run.toRun.inputs t).dWbAck = true) :
    ∃ u, t = u + 1 ∧ (run.state u).core.dPort = (run.state t).core.dPort ∧
      (run.state u).core.dPort.cyc = true ∧ (run.state u).core.dPort.stb = true ∧
      ((run.state t).core.dPort.we = false → (run.toRun.inputs t).dWbDataR =
        run.words t ((run.state t).core.dPort.adr.extractLsb' 2 30)) := by
  have hphase := run.phase (t := t) fun v hv => hplain v hv.le
  -- the acknowledge is one of the RAM, which needs an access that has been answered, or of the ROM
  rcases hplain t le_rfl with hram | ⟨hrom, -⟩
  · obtain ⟨hline, hdata⟩ := dWbAck_of_inRam hram
    rw [hline] at hack
    cases hphase with
    | idle _ _ ack => exact absurd (ack.symm.trans hack) Bool.false_ne_true
    | asked _ ack => exact absurd (ack.symm.trans hack) Bool.false_ne_true
    | answered cyc _ _ _ data before =>
      obtain ⟨u, rfl, hheld⟩ := before
      have hstb := ((run.toRun.dPort_cyc (u + 1)).2.trans
        (run.toRun.dPort_cyc (u + 1)).1.symm).trans cyc
      exact ⟨u, rfl, hheld, by rw [hheld]; exact cyc, by rw [hheld]; exact hstb,
        fun hread => hdata.trans (data hread)⟩
  · obtain ⟨u, hu, hheld, hcyc, hstb, hdata⟩ := data_ack_rom hrom hack
    refine ⟨u, hu, hheld, hcyc, hstb, fun _ => ?_⟩
    rw [hdata]
    -- the ROM does not change with the phase
    cases hphase with
    | idle _ _ _ holds => exact (holds.rom _ hrom).symm
    | asked _ _ holds => exact (holds.rom _ hrom).symm
    | answered _ _ adr => exact absurd adr (not_inRam_of_inRom hrom)

/-- Every such request is acknowledged in at most six cycles. -/
theorem exists_data_ack (hplain : ∀ v ≤ t, Plain n (run.state v).core.dPort)
    (hcyc : (run.state t).core.dPort.cyc = true) :
    ∃ w ≤ 6, (run.toRun.inputs (t + w)).dWbAck = true := by
  rcases hplain t le_rfl with hram | ⟨hrom, -⟩
  · cases run.phase (t := t) fun v hv => hplain v hv.le with
    | idle cyc => exact absurd (cyc.symm.trans hcyc) Bool.false_ne_true
    | asked _ ack =>
      have hno : (run.toRun.inputs t).dWbAck = false := (dWbAck_of_inRam hram).1.trans ack
      have hport := dPort_wait hcyc hno
      refine ⟨1, by decide, ?_⟩
      have hram' : InRam n (run.state (t + 1)).core.dPort.adr := by
        rw [hport]
        exact hram
      have hstb : (run.state t).ramReq.stb = true :=
        ((run.toRun.dPort_cyc t).2.trans (run.toRun.dPort_cyc t).1.symm).trans hcyc
      rw [(dWbAck_of_inRam hram').1, succ_ram, ramReq_cyc.mpr ⟨hcyc, selects_of_inRam hram⟩, hstb]
      simp [RamWb.next, ack]
    | answered _ ack => exact ⟨0, by decide, (dWbAck_of_inRam hram).1.trans ack⟩
  · -- the ROM is shared with the instruction port
    obtain ⟨w, hw, hack⟩ := WbArbiter.Run.exists_ack romBus_rst romBus_quiet
      romBus_masters romBus_answers (show 0 < t + 1 by omega)
      (masters_zero_cyc.mpr ⟨hcyc, selects_rom.mpr hrom⟩)
    rw [Nat.add_right_comm] at hack
    obtain ⟨u, hu, -, hheld, hcyc', -⟩ := romBus_ack hack
    rw [← hheld] at hcyc'
    exact ⟨w, hw, (dWbAck_eq (masters_zero_cyc.mp hcyc').2).trans hack⟩

/-- As long as the data port reads the two memories and writes the RAM, it sees a word memory: the
ROM below, and above the RAM with the writes that have been acknowledged before. Every request is
acknowledged, after at least one cycle and at most six, whatever the peripherals and the instruction
port do. -/
theorem data_serves (hplain : ∀ v ≤ t, Plain n (run.state v).core.dPort) :
    ((run.toRun.inputs t).dWbAck = true →
        (∃ u, t = u + 1 ∧ (run.state u).core.dPort = (run.state t).core.dPort ∧
          (run.state u).core.dPort.cyc = true) ∧
        ((run.state t).core.dPort.we = false → (run.toRun.inputs t).dWbDataR =
          run.words t ((run.state t).core.dPort.adr.extractLsb' 2 30))) ∧
      ((run.state t).core.dPort.cyc = true →
        ∃ w ≤ 6, (run.toRun.inputs (t + w)).dWbAck = true) := by
  constructor
  · intro hack
    obtain ⟨u, hu, hheld, hcyc, -, hdata⟩ := data_ack hplain hack
    exact ⟨⟨u, hu, hheld, hcyc⟩, hdata⟩
  · exact exists_data_ack hplain

/-- The store of the program, which is on the port in cycle 12. -/
theorem data_serves_store : (storeRun.state 12).core.dPort.cyc = true ∧
    ∃ w ≤ 6, (storeRun.toRun.inputs (12 + w)).dWbAck = true :=
  have hcyc : (storeRun.state 12).core.dPort.cyc = true := by decide +kernel
  have hplain : ∀ v ≤ 12, Plain 8 (storeRun.state v).core.dPort := by decide +kernel
  ⟨hcyc, (data_serves hplain).2 hcyc⟩

end Run

end RvSoc

end RvPipelineCore

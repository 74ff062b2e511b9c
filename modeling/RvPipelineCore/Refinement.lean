import RvPipelineCore.Boundary

/-!
# The pipeline refines the sequential machine

For a program of legal `Rv32` words with aligned addresses, in one block of 32 KiB, with slow slaves
and without interrupts, the core does what the sequential machine of `Rv32` does:
`Run.refines_sequential`. The induction goes from one instruction that enters execute to the next
(`Run.Boundary.succ`), through execute, the memory stage and the fetch that follows.
-/

namespace RvPipelineCore

open Temporal

namespace Run

variable {x : DontCare} {r : Run x} {rom : BitVec 32 → BitVec 32} {init : BitVec 30 → BitVec 32}

/-! ## One instruction -/

namespace Boundary

variable {k t a t' : ℕ}

/-- Up to two cycles after a boundary no transfer has started and no effect has been added. -/
theorem effects_eq (h : r.Delayed rom) (hb : Boundary r rom init k t) :
    (r.state (t + 2)).dPort.state = .idle ∧ r.effects init (t + 2) = r.effects init t := by
  refine quiet_until init h hb.idle (fun v h₁ h₂ => ?_) (by omega)
  obtain rfl | rfl : v = t ∨ v = t + 1 := by omega
  · exact hb.m
  · exact hb.m_succ h

/-- Every access that the sequential machine makes at instruction `k` is aligned. -/
theorem aligned (hs : Supported rom (r.machine init)) {o : Rv32.Op}
    (ho : Rv32.decode (((r.machine init).after rom k).instr rom) = some o) :
    ∀ acc ∈ Rv32.access o (((r.machine init).after rom k).instr rom)
      (((r.machine init).after rom k).rs1Value rom) (((r.machine init).after rom k).rs2Value rom),
      acc.Aligned := by
  intro acc hacc
  refine hs.access k acc ?_
  rw [Rv32.Machine.access, ho]
  exact hacc

/-- Two cycles after a boundary the memory of the slave is still that of the machine before the
instruction. -/
theorem ram_eq (h : r.Delayed rom) (hb : Boundary r rom init k t) :
    bytesOf (r.ram init (t + 2)) = ((r.machine init).after rom k).mem := by
  rw [← hb.mem]
  exact congrArg (fun e => bytesOf e.2.1) (hb.effects_eq h).2

/-- When the instruction of a boundary has committed, the memory of the slave is that of the machine
after it. -/
theorem mem_succ (h : r.Delayed rom) (hx : r.Exact) (hs : Supported rom (r.machine init))
    (hb : Boundary r rom init k t) (hc : Committed r init (t + 2) a) :
    bytesOf (r.ram init (a + 1)) = ((r.machine init).after rom (k + 1)).mem := by
  obtain ⟨o, hdec, ho⟩ := exists_op hs k
  obtain ⟨hm, hcm⟩ := hb.memory h hx hs
  rw [hc.ram, (hb.executes h).bytesOf_eq ho hm hcm (aligned hs hdec), hb.ram_eq h,
    Rv32.Machine.after, Rv32.Machine.step, hdec]

/-- When the instruction of a boundary has committed, the transfers made so far are the accesses of
the machine up to it. -/
theorem transfers_succ (h : r.Delayed rom) (hx : r.Exact) (hs : Supported rom (r.machine init))
    (hb : Boundary r rom init k t) (hc : Committed r init (t + 2) a) :
    r.transfers (a + 1) = ((r.machine init).accesses rom (k + 1)).map Transfer.ofAccess := by
  obtain ⟨o, hdec, ho⟩ := exists_op hs k
  obtain ⟨hm, hcm⟩ := hb.memory h hx hs
  have hold : r.transfers (t + 2) = r.transfers t :=
    congrArg (fun e => e.2.2) (hb.effects_eq h).2
  rw [hc.transfers, (hb.executes h).transfer_eq ho hm hcm (aligned hs hdec), hold, hb.transfers,
    Rv32.Machine.accesses, List.map_append, Rv32.Machine.access, hdec]
  rfl

/-- The registers of the machine are in the register file. -/
theorem regs_succ (h : r.Delayed rom) (hx : r.Exact) (hs : Supported rom (r.machine init))
    (hb : Boundary r rom init k t) (hc : Committed r init (t + 2) a) (i : BitVec 5) (hi : i ≠ 0) :
    (r.state (a + 1)).regMemNext i = ((r.machine init).after rom (k + 1)).regs i := by
  obtain ⟨o, hdec, ho⟩ := exists_op hs k
  obtain ⟨hm, hcm⟩ := hb.memory h hx hs
  have hE := hb.executes h
  have hold : (r.state (t + 2)).regMemNext i = ((r.machine init).after rom k).regs i := by
    rw [← hb.regs i hi]
    exact congrArg (fun e => e.1 i) (hb.effects_eq h).2
  -- a load reads what the machine reads
  have hread : ∀ wd u, o = .load wd u → (r.state a).readDataExtM (r.inputs a) =
      Rv32.loadValue ((r.machine init).after rom k).mem wd u
        (((r.machine init).after rom k).rs1Value rom +
          Rv32.immI (((r.machine init).after rom k).instr rom)) := by
    rintro wd u rfl
    obtain ⟨hls, hmw, -⟩ := hE.access_load ho
    rw [hc.read (by rw [hcm]; exact hls) (by rw [hcm]; exact hmw), ← hb.ram_eq h]
    exact hE.readData_eq ho hm (aligned hs hdec _ rfl) _
  have hres := hE.result_eq ho hread
  have hrd : (r.state (t + 1)).e.rd = Rv32.rd (((r.machine init).after rom k).instr rom) := by
    rw [hE.e]
    rfl
  have hp4 : (r.state (t + 1)).e.pcPlus4 = ((r.machine init).after rom k).pc + 4 := by
    rw [hE.e]
    rfl
  rw [Rv32.Machine.after, Rv32.Machine.step, hdec]
  simp only [hc.regs, hold, hm, hcm, hres, State.memoryInput, State.controlInputM, hrd, hp4]
  cases hw : (r.state (t + 1)).ce.regWrite with
  | true => simp only [true_and, if_true, Rv32.writeRegister]
  | false => simp only [Bool.false_eq_true, false_and, if_false, Rv32.writeRegister]

/-- The next entry into execute after the instruction has left the memory stage is the next one
after its own. -/
theorem firstEntry (h : r.Delayed rom) (hb : Boundary r rom init k t)
    (hc : Committed r init (t + 2) a) (hin : r.FirstEntry a t') : r.FirstEntry (t + 1) t' := by
  have hle := hc.le
  have hlt := hin.le
  refine ⟨by omega, hin.holds, fun v h₁ h₂ => ?_⟩
  rcases Nat.lt_or_ge v a with hva | hva
  · have hd : (r.state v).d.isDecodeFlush = false := by
      rcases Nat.eq_or_lt_of_le h₁ with rfl | h₁'
      · exact ((h.spaced (t + 1)).execute (hb.e_valid h)).1
      · exact (hc.alone v h₁' hva.le).d
    simp [State.entersE, hd]
  · exact hin.not_before v hva h₂

/-- The instruction that follows it on its way to execute is the next one of the machine. -/
theorem nextPc_eq (h : r.Delayed rom) (hx : r.Exact) (hs : Supported rom (r.machine init))
    (hb : Boundary r rom init k t) :
    (r.state (t + 2)).nextPc = ((r.machine init).after rom (k + 1)).pc := by
  obtain ⟨hee, hem, hew⟩ := hb.no_exception h hx hs
  obtain ⟨o, -, ho⟩ := exists_op hs k
  have hv := hb.e_valid h
  have hof := controlOf_of_legal x (legal_of_encodes x ho)
  have hbr : (r.state (t + 1)).ce.branch = isBranch (((r.machine init).after rom k).instr rom) := by
    rw [(hb.executes h).ce]
    exact hof.branch
  have hj : (r.state (t + 1)).ce.jump = isJump (((r.machine init).after rom k).instr rom) := by
    rw [(hb.executes h).ce]
    exact hof.jump
  have hp4 := r.e_pcPlus4 h.instr (t + 1) hv
  rw [hb.e_pc h] at hp4
  rw [hb.pc_succ h hs, ← hp4]
  -- either the core redirects, or what it has fetched is already right
  cases hsrc : (r.state (t + 1)).pcSrcE with
  | true =>
    have hjump := (State.jumpInstr_eq_pcSrcE hee hem hew).trans hsrc
    rw [r.nextPc_succ_of_jumpInstr (t + 1) hjump]
    refine (r.state (t + 1)).jumpTargetE_of_pcSrcE hv ?_ hsrc
    rw [hbr, hj]
    exact isJump_of_isBranch
  | false =>
    have hd := ((h.spaced (t + 1)).execute hv).1
    rw [r.nextPc_succ (t + 1) hsrc (by rw [State.trapCaughtW_eq, hew])
      (by simp [State.entersE, hd])]
    have hjf : (r.state (t + 1)).ce.jump = false := by
      simp only [State.pcSrcE, Bool.or_eq_false_iff] at hsrc
      exact hsrc.1.2
    rw [hjf, Bool.false_or]
    cases hb' : (r.state (t + 1)).ce.branch with
    | true => exact (r.state (t + 1)).nextPc_of_not_pcSrcE hv hb' hsrc
    | false =>
      -- an instruction that is no branch was not predicted
      have hk : (r.state (t + 1)).takeBranchE = false := by
        by_contra hk
        simp [State.takeBranchE_branch _ (Bool.not_eq_false _ ▸ hk)] at hb'
      rw [hk, hb.nextPc_succ h, hp4, ← hb.pc]
      rcases hb.pcF_eq h hx hs with hpcF | ⟨hbr', -⟩
      · exact hpcF
      · rw [hbr, hbr'] at hb'
        exact absurd hb'.symm Bool.false_ne_true

/-- Neither the instruction of a boundary nor the cycles up to the next one bring a trap. -/
theorem no_trap (h : r.Delayed rom) (hx : r.Exact) (hs : Supported rom (r.machine init))
    (hb : Boundary r rom init k t) (hc : Committed r init (t + 2) a)
    (hrest : ∀ v, a < v → v ≤ t' → (r.state v).trapCaughtW = false) :
    ∀ v ≤ t', (r.state v).trapCaughtW = false := by
  obtain ⟨-, hem, hew⟩ := hb.no_exception h hx hs
  -- a trap follows a flag in the memory stage by one cycle
  intro v hv
  rcases Nat.lt_or_ge a v with hav | hva
  · exact hrest v hav hv
  · rcases Nat.lt_or_ge t v with htv | hvt
    · obtain ⟨u, rfl⟩ : ∃ u, v = u + 1 := ⟨v - 1, by omega⟩
      rw [r.succ_trapCaughtW]
      rcases Nat.lt_or_ge (t + 1) u with hu | hu
      · exact hc.clean u hu (by omega)
      · obtain rfl | rfl : u = t ∨ u = t + 1 := by omega
        · rw [← r.succ_isInstrExceptionW, hew]
        · exact hem
    · exact hb.trap v hvt

/-- What has been in execute when the next instruction enters it. -/
theorem history_succ (h : r.Delayed rom) (hs : Supported rom (r.machine init))
    (hb : Boundary r rom init k t)
    (hempty : ∀ v, t + 1 < v → v ≤ t' → (r.state v).e.validPc = false) :
    ∀ v ≤ t', (r.state v).e.validPc = true → ∃ j < k + 1,
      (r.state v).e.pc = ((r.machine init).after rom j).pc ∧
        ((r.state v).takeBranchE = true → ((r.machine init).after rom (j + 1)).pc =
          (r.state v).e.pc + Rv32.immB (rom (r.state v).e.pc)) := by
  -- the only new instruction in execute is the one of this boundary
  intro v hv hve
  rcases Nat.lt_or_ge (t + 1) v with hlt | hge
  · simp [hempty v hlt hv] at hve
  · rcases Nat.lt_or_ge t v with htv | hvt
    · obtain rfl : v = t + 1 := by omega
      refine ⟨k, k.lt_succ_self, hb.e_pc h, fun hk => ?_⟩
      obtain ⟨o, -, ho⟩ := exists_op hs k
      have hE := hb.executes h
      have hbr := State.takeBranchE_branch _ hk
      rw [hE.ce] at hbr
      have hop := (controlOf_of_legal x (legal_of_encodes x ho)).branch.symm.trans hbr
      rw [isBranch, beq_iff_eq] at hop
      rw [hb.pc_succ h hs, hk, Bool.or_true, if_pos rfl, hE.branch_target ho hop, hb.e_pc h]
      rfl
    · obtain ⟨j, hj, hrest⟩ := hb.history v hvt hve
      exact ⟨j, by omega, hrest⟩

/-- From the boundary of instruction `k` the run comes to the boundary of instruction `k + 1`. -/
theorem succ (h : r.Delayed rom) (hx : r.Exact) (hf : r.InstrFair) (hd : r.DataFair)
    (hmem : r.DataMemory init) (hs : Supported rom (r.machine init))
    (hb : Boundary r rom init k t) : ∃ t', Boundary r rom init (k + 1) t' := by
  -- through the memory stage
  obtain ⟨a, hc⟩ := (hb.alone h hs).exists_committed h hd hmem (hb.effects_eq h).1
    (hb.clean h hx hs)
  have hle := hc.le
  -- and on to the next entry
  obtain ⟨t', hlt, hin, hrest⟩ := (hc.alone a hc.le le_rfl).exists_firstEntry h hf hc.done
    (hc.clean a hc.le le_rfl)
  have hin' := hb.firstEntry h hc hin
  have htrap := hb.no_trap h hx hs hc fun v h₁ h₂ => (hrest v h₁ h₂).2.2
  have hempty : ∀ v, t + 1 < v → v ≤ t' → (r.state v).e.validPc = false := by
    intro v h₁ h₂
    rcases Nat.lt_or_ge a v with hav | hva
    · exact (hrest v hav h₂).1
    · exact (hc.alone v h₁ hva).e
  -- nothing has an effect in between
  obtain ⟨hidle, heff⟩ := quiet_until init h hc.idle
    (fun v h₁ h₂ => (hrest v h₁ h₂.le).2.1) hlt
  refine ⟨t', ⟨hin.holds, ?_⟩, ?_, fun i hi => ?_, ?_, ?_, (hrest t' hlt le_rfl).2.1, hidle, htrap,
    hb.history_succ h hs hempty⟩
  · rw [hin'.count_eq, Nat.count_succ, if_pos hb.enters.entersE, hb.enters.count]
  · have hno : ¬ (r.state (t + 1)).entersE (r.inputs (t + 1)) = true :=
      hin'.not_before (t + 1) le_rfl (by omega)
    rw [r.pc_of_first_entry (hin'.succ hno)
      (fun v h₁ h₂ => r.pcSrcE_of_empty v (hempty v h₁ h₂.le)) fun v _ h₂ => htrap v h₂.le]
    exact hb.nextPc_eq h hx hs
  · rw [← hb.regs_succ h hx hs hc i hi]
    exact congrArg (fun e => e.1 i) heff
  · rw [← hb.mem_succ h hx hs hc]
    exact congrArg (fun e => bytesOf e.2.1) heff
  · rw [← hb.transfers_succ h hx hs hc]
    exact congrArg (fun e => e.2.2) heff

end Boundary

/-- The run comes to the boundary of the first instruction, which it finds at address 0. -/
theorem exists_boundary_zero (h : r.Delayed rom) (hf : r.InstrFair) :
    ∃ t, Boundary r rom init 0 t := by
  obtain ⟨s, hs⟩ := r.start
  have hempty : Emptied r 0 := by
    refine ⟨⟨?_, ?_, ?_, ?_⟩, ?_⟩ <;> rw [hs] <;> rfl
  have htrap₀ : (r.state 0).trapCaughtW = false := by
    rw [hs]
    rfl
  have hidle₀ : (r.state 0).dPort.state = .idle := by
    rw [hs]
    rfl
  have hreg : (r.state 0).regMemNext = (r.state 0).regMem := by
    rw [hs]
    rfl
  have hpc : (r.state 0).nextPc = 0 := by
    rw [hs]
    rfl
  obtain ⟨t, hlt, hin, hrest⟩ := hempty.toAlone.exists_firstEntry h hf hempty.stallM
    (hempty.isInstrExceptionM h)
  -- nothing happens before it
  have hfrom : ∀ v ≤ t, (r.state v).e.validPc = false ∧ (r.state v).m.validPc = false ∧
      (r.state v).trapCaughtW = false := by
    intro v hv
    rcases Nat.eq_zero_or_pos v with rfl | hpos
    · exact ⟨hempty.e, hempty.m, htrap₀⟩
    · exact hrest v hpos hv
  obtain ⟨hidle, heff⟩ := quiet_until init h hidle₀
    (fun v _ h₂ => (hfrom v h₂.le).2.1) t.zero_le
  refine ⟨t, ⟨hin.holds, ?_⟩, ?_, fun i _ => ?_, ?_, ?_, (hfrom t le_rfl).2.1, hidle,
    fun v hv => (hfrom v hv).2.2, fun v hv hve => ?_⟩
  · rw [hin.count_eq, Nat.count_zero]
  · rw [r.pc_of_first_entry hin (fun v _ h₂ => r.pcSrcE_of_empty v (hfrom v h₂.le).1)
      fun v _ h₂ => (hfrom v h₂.le).2.2]
    exact hpc
  · rw [show (r.state t).regMemNext i = (r.state 0).regMemNext i from
      congrArg (fun e => e.1 i) heff, hreg]
    rfl
  · exact congrArg (fun e => bytesOf e.2.1) heff
  · exact congrArg (fun e => e.2.2) heff
  · simp [(hfrom v hv).1] at hve

/-! ## All instructions -/

/-- Every instruction of the machine enters execute, and finds there what the machine has done. -/
theorem exists_boundary (h : r.Delayed rom) (hx : r.Exact) (hf : r.InstrFair) (hd : r.DataFair)
    (hmem : r.DataMemory init) (hs : Supported rom (r.machine init)) (k : ℕ) :
    ∃ t, Boundary r rom init k t := by
  induction k with
  | zero => exact exists_boundary_zero h hf
  | succ k ih =>
    obtain ⟨t, hb⟩ := ih
    exact hb.succ h hx hf hd hmem hs

variable (r rom init)

/-- The core refines the sequential machine: for every `k` there is an instruction with number `k`
that enters execute. It has the PC of step `k` of the machine and the values of its two registers,
which reach the ALU unchanged, and the transfers that have started on the data port by then are the
accesses of the steps before it. -/
theorem refines_sequential (h : r.Delayed rom) (hx : r.Exact) (hf : r.InstrFair)
    (hd : r.DataFair) (hmem : r.DataMemory init) (hs : Supported rom (r.machine init)) (k : ℕ) :
    (∃ t, r.Enters k t) ∧ ∀ t, r.Enters k t →
      (r.state (t + 1)).e.validPc = true ∧
      (r.state (t + 1)).e.pc = ((r.machine init).after rom k).pc ∧
      (r.state (t + 1)).e.rd1 = ((r.machine init).after rom k).rs1Value rom ∧
      (r.state (t + 1)).e.rd2 = ((r.machine init).after rom k).rs2Value rom ∧
      (r.state (t + 1)).srcAForwardE = (r.state (t + 1)).e.rd1 ∧
      (r.state (t + 1)).writeDataE = (r.state (t + 1)).e.rd2 ∧
      r.transfers (t + 1) = ((r.machine init).accesses rom k).map Transfer.ofAccess := by
  obtain ⟨t₀, hb⟩ := exists_boundary h hx hf hd hmem hs k
  refine ⟨⟨t₀, hb.enters⟩, fun t ht => ?_⟩
  obtain rfl : t = t₀ := ht.unique hb.enters
  have hE := hb.executes h
  have hrd1 : (r.state (t + 1)).e.rd1 = ((r.machine init).after rom k).rs1Value rom := by
    rw [hE.e]
    rfl
  have hrd2 : (r.state (t + 1)).e.rd2 = ((r.machine init).after rom k).rs2Value rom := by
    rw [hE.e]
    rfl
  refine ⟨hb.e_valid h, hb.e_pc h, hrd1, hrd2, hE.srcAForwardE.trans hrd1.symm,
    hE.writeDataE.trans hrd2.symm, ?_⟩
  rw [transfers_succ_of_not_starts (not_starts_of_loadStore (cm_loadStore_of_empty hb.m)),
    hb.transfers]

end Run

/-! ## A program with a load -/

/-- The load `lw x1, 0(x0)` in front of `jal x0, 0`. -/
def loadBench : TestBench where
  rom := programRom [0x00002083]
  external _ := false
  timer _ := false
  instrReady _ := true
  dataReady _ := true
  readData := 0

namespace loadBench

/-- The bench of the load program gives the load at address 0 and the endless jump at every other
address. -/
theorem rom_eq (adr : BitVec 32) :
    loadBench.rom adr = 0x00002083 ∨ loadBench.rom adr = 0x0000006f := by
  simp only [loadBench, programRom]
  rcases Nat.eq_zero_or_pos (adr.toNat / 4) with h | h
  · left
    rw [h]
    rfl
  · right
    obtain ⟨n, hn⟩ : ∃ n, adr.toNat / 4 = n + 1 := ⟨adr.toNat / 4 - 1, by omega⟩
    rw [hn]
    rfl

/-- The run of the load program has slaves that wait and no interrupts. -/
theorem delayed : loadBench.run₁.Delayed loadBench.rom :=
  loadBench.run₁_delayed (fun _ => rfl) fun _ => rfl

/-- Neither word of the load program writes memory, so the memory stage never does. -/
theorem memWrite (t : ℕ) : (loadBench.run₁.state t).cm.memWrite = false := by
  cases hv : (loadBench.run₁.state t).m.validPc with
  | false =>
    rw [(loadBench.run₁.m_bubble t hv).2]
    rfl
  | true =>
    obtain ⟨q, -, hve, -, -, -, hc⟩ := loadBench.run₁.m_origin t hv
    rw [hc, State.controlInputM, delayed.ce_eq hve, controlWordE]
    rcases rom_eq (loadBench.run₁.state q).e.pc with hw | hw
    · rw [hw, controlOf_eq _ (decode_load _ rfl)]
    · rw [hw, controlOf_eq _ (decode_jal _ rfl)]

/-- The data port never writes in the run of the load program. -/
theorem we (t : ℕ) : (loadBench.run₁.state t).dPort.we = false := by
  induction t with
  | zero => rfl
  | succ t ih =>
    rw [loadBench.run₁.succ_dPort, DataPort.next]
    cases (loadBench.run₁.state t).dPort.state <;> dsimp only <;> split_ifs
    · simp [State.dWe, memWrite]
    · rfl
    · rfl
    · exact ih

/-- Nothing is written, so a memory of zeros answers the load. -/
theorem dataMemory : loadBench.run₁.DataMemory fun _ => 0 := by
  have hram : ∀ t, loadBench.run₁.ram (fun _ => 0) t = fun _ => 0 := by
    intro t
    induction t with
    | zero => rfl
    | succ t ih => rw [Run.ram, we, Bool.and_false, if_neg Bool.false_ne_true, ih]
  intro t _ _
  rw [hram]
  rfl

/-- After its first instruction the sequential machine stays at address 4 of the load program. -/
theorem pc_succ {s : Rv32.Machine} (hs : s.pc = 0) (k : ℕ) :
    (s.after loadBench.rom (k + 1)).pc = 4 := by
  induction k with
  | zero =>
    have hi : s.instr loadBench.rom = 0x00002083 := by
      rw [Rv32.Machine.instr, hs]
      rfl
    rw [Rv32.Machine.after, Rv32.Machine.step, Rv32.Machine.after, hi, hs]
    rfl
  | succ k ih =>
    have hi : (s.after loadBench.rom (k + 1)).instr loadBench.rom = 0x0000006f := by
      rw [Rv32.Machine.instr, ih]
      rfl
    rw [Rv32.Machine.after, Rv32.Machine.step, hi, ih]
    rfl

/-- The sequential run: the load at address 0, then the `jal` at address 4. -/
theorem pc_cases {s : Rv32.Machine} (hs : s.pc = 0) (k : ℕ) :
    ((s.after loadBench.rom k).pc = 0 ∧
        (s.after loadBench.rom k).instr loadBench.rom = 0x00002083) ∨
      ((s.after loadBench.rom k).pc = 4 ∧
        (s.after loadBench.rom k).instr loadBench.rom = 0x0000006f) := by
  cases k with
  | zero => exact .inl ⟨hs, by rw [Rv32.Machine.instr, Rv32.Machine.after, hs]; rfl⟩
  | succ k => exact .inr ⟨pc_succ hs k, by rw [Rv32.Machine.instr, pc_succ hs k]; rfl⟩

/-- The sequential run of the load program stays within what the core supports. -/
theorem supported {s : Rv32.Machine} (hs : s.pc = 0) : Supported loadBench.rom s := by
  refine ⟨fun k => ?_, fun k => ?_, fun k acc hacc => ?_, fun j k => ?_⟩
  · rcases pc_cases hs k with ⟨-, hi⟩ | ⟨-, hi⟩ <;> rw [hi] <;> rfl
  · rcases pc_cases hs k with ⟨hpc, -⟩ | ⟨hpc, -⟩ <;> rw [hpc] <;> rfl
  · rcases pc_cases hs k with ⟨-, hi⟩ | ⟨-, hi⟩ <;>
      simp only [Rv32.Machine.access, Rv32.Machine.rs1Value, hi] at hacc
    · obtain rfl := Option.some.inj (Option.mem_def.mp hacc)
      rfl
    · exact absurd (Option.mem_def.mp hacc).symm (Option.some_ne_none acc)
  · rcases pc_cases hs j with ⟨hj, -⟩ | ⟨hj, -⟩ <;>
      rcases pc_cases hs k with ⟨hk, -⟩ | ⟨hk, -⟩ <;> rw [hj, hk] <;> rfl

end loadBench

/-- When the `jal` enters execute, the transfer of the load has started. -/
theorem Run.refines_sequential_load : ∃ t, loadBench.run₁.Enters 1 t ∧
    loadBench.run₁.transfers (t + 1) = [⟨0, false, 0b1111, 0⟩] := by
  obtain ⟨⟨t, ht⟩, hall⟩ := Run.refines_sequential loadBench.run₁ loadBench.rom (fun _ => 0)
    loadBench.delayed loadBench.run₁_exact (loadBench.run₁_instrFair fun _ => rfl)
    (loadBench.run₁_dataFair fun _ => rfl) loadBench.dataMemory (loadBench.supported rfl) 1
  obtain ⟨-, -, -, -, -, -, htr⟩ := hall t ht
  exact ⟨t, ht, htr.trans (by decide +kernel)⟩

end RvPipelineCore

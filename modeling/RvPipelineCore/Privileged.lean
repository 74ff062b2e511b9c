import RvPipelineCore.Traps

/-!
# The retirement counter and the interrupt enable

Two registers of `csr_exec` over whole runs.

- `Run.minstret_exact`: `minstret` counts the cycles in which write-back is occupied, so it is off
  by those in which the memory stage holds an instruction that does not complete there;
- `Run.mie_at_interrupt`: an enabled interrupt is sampled two cycles before its trap, so `MIE` is
  still set in the trap cycle exactly when write-back has not cleared it in between.
-/

namespace RvPipelineCore

open Temporal

namespace State

variable (s : State) (i : Inputs)

/-- The instruction in the memory stage completes in this cycle: it leaves unflagged, and the one
ahead of it does not take a trap. -/
def completesM : Bool :=
  s.m.validPc && !s.stallM i && !s.isInstrExceptionM && !s.hazard.pendingExceptionM

/-- Write-back clears `MIE`: by a trap, an `mret` with `MPIE` clear or a write of `mstatus`. -/
def clearsMie : Bool :=
  s.trapCaughtW ||
    if s.w.mretInstr then !s.csr.mstatusMpie
    else s.csrWriteback.writes csrMstatusAddr && !s.w.outWriteCsr.getLsbD 3

/-- Write-back sets `MIE`: by an `mret` with `MPIE` set or by a write of `mstatus`. -/
def setsMie : Bool :=
  !s.trapCaughtW &&
    if s.w.mretInstr then s.csr.mstatusMpie
    else s.csrWriteback.writes csrMstatusAddr && s.w.outWriteCsr.getLsbD 3

end State

namespace Run

variable {x : DontCare} (r : Run x)

/-! ## Retired instructions -/

/-- The instructions that have completed before cycle `t`, by their stamps. -/
def completed (t : ℕ) : Finset ℕ :=
  ((Finset.range t).filter fun v => (r.state v).completesM (r.inputs v) = true).image r.stampM

/-- The cycles before `t` in which the memory stage holds an instruction that does not complete in
them. -/
def held (t : ℕ) : ℕ :=
  Nat.count (fun v => (r.state v).m.validPc = true ∧ (r.state v).completesM (r.inputs v) = false) t

variable {r}

/-- An instruction completes in one cycle only, since a later completion has a later stamp. -/
theorem completesM_injOn :
    Set.InjOn r.stampM {v | (r.state v).completesM (r.inputs v) = true} := by
  intro v hv v' hv' hst
  simp only [State.completesM, Set.mem_ofPred_eq, Bool.and_eq_true, Bool.not_eq_true'] at hv hv'
  -- the earlier of two completions would find the stage stalled
  rcases lt_trichotomy v v' with hlt | rfl | hlt
  · have := (r.m_eq_of_stamp hv.1.1.1 hv'.1.1.1 hst.symm v le_rfl hlt.le).2.2 hlt
    simp [hv.1.1.2] at this
  · rfl
  · have := (r.m_eq_of_stamp hv'.1.1.1 hv.1.1.1 hst v' le_rfl hlt.le).2.2 hlt
    simp [hv'.1.1.2] at this

/-- Every cycle in which the memory stage is occupied completes an instruction or holds it. -/
theorem count_m_valid (t : ℕ) :
    Nat.count (fun v => (r.state v).m.validPc = true) t = (r.completed t).card + r.held t := by
  rw [completed, Finset.card_image_of_injOn, ← Nat.count_eq_card_filter_range, held]
  · induction t with
    | zero => rfl
    | succ t ih =>
      rw [Nat.count_succ, Nat.count_succ, Nat.count_succ, ih]
      cases hc : (r.state t).completesM (r.inputs t) with
      | true =>
        have hv : (r.state t).m.validPc = true := by
          simp only [State.completesM, Bool.and_eq_true] at hc
          exact hc.1.1.1
        simp [hv]
        omega
      | false => cases (r.state t).m.validPc <;> simp; omega
  · exact completesM_injOn.mono fun v hv => (Finset.mem_filter.mp hv).2

/-- Write-back is valid in the next cycle if and only if the memory stage is valid now. -/
theorem succ_w_validPc (t : ℕ) : (r.state (t + 1)).w.validPc = (r.state t).m.validPc := by
  rw [r.succ_w]
  rfl

/-- While write-back is empty, it has been occupied as often as the memory stage. -/
theorem count_w_valid {t : ℕ} (hw : (r.state t).w.validPc = false) :
    Nat.count (fun v => (r.state v).w.validPc = true) t =
      Nat.count (fun v => (r.state v).m.validPc = true) t := by
  -- write-back is the memory stage one cycle later
  have hshift : ∀ t, Nat.count (fun v => (r.state v).w.validPc = true) (t + 1) =
      Nat.count (fun v => (r.state v).m.validPc = true) t := by
    intro t
    induction t with
    | zero =>
      rw [Nat.count_succ]
      simp only [r.zero_w]
      rfl
    | succ t ih => rw [Nat.count_succ, ih, Nat.count_succ, succ_w_validPc]
  -- at the end both have the same cycles behind them, but for the last one of the memory stage
  cases t with
  | zero => rfl
  | succ t =>
    rw [succ_w_validPc] at hw
    rw [hshift, Nat.count_succ, hw]
    simp

/-- Without a write, `minstret` is the number of cycles in which write-back was occupied. -/
theorem minstret_eq {t : ℕ}
    (hno : ∀ v < t, (r.state v).csrWriteback.writes csrMinstretAddr = false ∧
      (r.state v).csrWriteback.writes csrMinstrethAddr = false) :
    (r.state t).csr.minstret =
      BitVec.ofNat 64 (Nat.count (fun v => (r.state v).w.validPc = true) t) := by
  induction t with
  | zero => exact r.zero_eq (fun s => s.csr.minstret) fun _ => rfl
  | succ t ih =>
    obtain ⟨hlow, hhigh⟩ := hno t t.lt_succ_self
    rw [r.succ_csr, Nat.count_succ]
    simp only [CsrExec.next, hlow, hhigh, Bool.false_eq_true, if_false,
      ih fun v hv => hno v (by omega)]
    have hv : (r.state t).csrWriteback.validPcW = (r.state t).w.validPc := rfl
    rw [hv]
    -- a cycle with a valid instruction in write-back adds one
    split_ifs
    · rw [BitVec.ofNat_add]
      rfl
    · rfl

variable (r)

/-- In a run that does not write `minstret` or `minstreth`, `minstret` is the number of completed
instructions whenever write-back is empty, if and only if the number of cycles in which the memory
stage has held an instruction that did not complete in them (it waited, was flagged, or followed an
instruction that took its trap) is a multiple of `2 ^ 64`. -/
theorem minstret_exact (t : ℕ)
    (hno : ∀ v < t, (r.state v).csrWriteback.writes csrMinstretAddr = false ∧
      (r.state v).csrWriteback.writes csrMinstrethAddr = false)
    (hw : (r.state t).w.validPc = false) :
    (r.state t).csr.minstret = BitVec.ofNat 64 (r.completed t).card ↔ 2 ^ 64 ∣ r.held t := by
  rw [minstret_eq hno, count_w_valid hw, count_m_valid, ← BitVec.toNat_inj, BitVec.toNat_ofNat,
    BitVec.toNat_ofNat]
  omega

/-- Before the first load or store, the two instructions that set `mtvec` have been counted. -/
theorem minstret_exact_quiet : ((quietBench []).run₀.state 8).csr.minstret = 2 :=
  ((minstret_exact (quietBench []).run₀ 8 (by decide +kernel) (by decide +kernel)).mpr
    (by decide +kernel)).trans (by decide +kernel)

/-- A load is counted in the cycle in which it waits, too: after `addi`, `csrrw`, `lw` and `jal` the
counter shows 5. -/
theorem load_counted_twice :
    ∃ (r : Run TestBench.zeros) (rom : BitVec 32 → BitVec 32) (t : ℕ),
      r.Exact ∧ r.InstrSlave rom ∧ r.DataSlave ∧ r.NoInterrupts ∧
        (∀ v < t, (r.state v).csrWriteback.writes csrMinstretAddr = false ∧
          (r.state v).csrWriteback.writes csrMinstrethAddr = false) ∧
        (r.state t).e.validPc = false ∧ (r.state t).m.validPc = false ∧
        (r.state t).w.validPc = false ∧ (r.completed t).card = 4 ∧
        (r.state t).csr.minstret = 5 :=
  ⟨(quietBench [0x00002083]).run₀, _, 13, TestBench.run₀_exact _, TestBench.run₀_instrSlave _,
    TestBench.run₀_dataSlave _, fun _ => ⟨rfl, rfl⟩, by decide +kernel⟩

/-! ## Interrupts while they are disabled -/

variable {r}

/-- `MIE` is set by write-back, or it was set and write-back does not clear it. -/
theorem mstatusMie_eq (t : ℕ) :
    (r.state (t + 1)).csr.mstatusMie =
      ((r.state t).setsMie || !(r.state t).clearsMie && (r.state t).csr.mstatusMie) := by
  rw [succ_mstatusMie, State.setsMie, State.clearsMie]
  cases (r.state t).trapCaughtW <;> cases (r.state t).w.mretInstr <;>
    cases (r.state t).csrWriteback.writes csrMstatusAddr <;> grind

/-- Interrupts were enabled two cycles before an interrupt trap, when it was sampled. -/
theorem mie_before_interrupt {t : ℕ}
    (h : ((r.state t).w.interruptExternal || (r.state t).w.interruptTimer) = true) :
    ∃ s, t = s + 2 ∧ (r.state s).csr.mstatusMie = true := by
  obtain _ | t := t
  · rw [r.zero_w] at h
    exact absurd h Bool.false_ne_true
  · have hint : (r.state t).interruptM = true := by
      rw [r.succ_w] at h
      exact h
    obtain _ | s := t
    · rw [r.zero_eq State.interruptM fun _ => rfl] at hint
      exact absurd hint Bool.false_ne_true
    · refine ⟨s, rfl, ?_⟩
      by_contra hmie
      rw [succ_interruptM, State.interruptSampled_of_mie _ _ (Bool.not_eq_true _ ▸ hmie)] at hint
      exact absurd hint Bool.false_ne_true

/-- After a trap, `MIE` is set again only by write-back. -/
theorem exists_setsMie {t₀ t : ℕ} (hlt : t₀ < t) (htrap : (r.state t₀).trapCaughtW = true)
    (hmie : (r.state t).csr.mstatusMie = true) :
    ∃ v, t₀ < v ∧ v < t ∧ (r.state v).setsMie = true := by
  by_contra hcon
  push Not at hcon
  have hclear : (r.state (t₀ + 1)).csr.mstatusMie = false := by simp [succ_mstatusMie, htrap]
  have hstay := always_between (p := fun v => (r.state v).csr.mstatusMie = false) hclear
    (b := t) fun v hv hlt' ih => by
      have hset : (r.state v).setsMie = false := Bool.not_eq_true _ ▸ hcon v hv hlt'
      simp [mstatusMie_eq, hset, ih]
  simp [hstay t hlt le_rfl] at hmie

variable (r)

/-- No interrupt is taken in cycle `t` with interrupts disabled: `MIE` is set, and has been set by
an instruction since any earlier trap. -/
def EnabledAt (t : ℕ) : Prop :=
  (r.state t).csr.mstatusMie = true ∧ ∀ t₀ < t, (r.state t₀).trapCaughtW = true →
    ∃ v, t₀ < v ∧ v < t ∧ (r.state v).setsMie = true

/-- An interrupt trap finds interrupts enabled if and only if, of the two cycles before it,
write-back does not clear `MIE` in the last one, and if it clears it in the first one sets it in the
last. -/
theorem mie_at_interrupt (t : ℕ)
    (h : ((r.state t).w.interruptExternal || (r.state t).w.interruptTimer) = true) :
    2 ≤ t ∧ (r.EnabledAt t ↔ (r.state (t - 1)).clearsMie = false ∧
      ((r.state (t - 2)).clearsMie = true → (r.state (t - 1)).setsMie = true)) := by
  obtain ⟨s, rfl, hs⟩ := mie_before_interrupt h
  refine ⟨by omega, ?_⟩
  have henabled : r.EnabledAt (s + 2) ↔ (r.state (s + 2)).csr.mstatusMie = true :=
    ⟨fun hen => hen.1, fun hmie => ⟨hmie, fun _ hlt htrap => exists_setsMie hlt htrap hmie⟩⟩
  rw [henabled, mstatusMie_eq, mstatusMie_eq, hs]
  simp only [Nat.add_sub_cancel, Nat.add_succ_sub_one]
  have hexcl : (r.state (s + 1)).setsMie = true → (r.state (s + 1)).clearsMie = false := by
    simp only [State.setsMie, State.clearsMie]
    grind
  have hexcl' : (r.state s).setsMie = true → (r.state s).clearsMie = false := by
    simp only [State.setsMie, State.clearsMie]
    grind
  grind

/-- The interrupt of an `addi` at `0x14` finds interrupts enabled. -/
theorem mie_at_interrupt_addi : (interruptBench [0x00108093] 28).run₁.EnabledAt 30 :=
  (mie_at_interrupt (interruptBench [0x00108093] 28).run₁ 30 (by decide +kernel)).2.mpr
    (by decide +kernel)

/-- The timer line rises one cycle after the external one, before the trap of the external interrupt
has cleared `MIE`: its trap is taken with `MIE` clear and overwrites `MPIE`. -/
theorem second_interrupt_taken :
    ∃ (r : Run TestBench.zeros) (rom : BitVec 32 → BitVec 32) (t : ℕ),
      r.Exact ∧ r.InstrSlave rom ∧ r.DataSlave ∧ (r.state t).trapCaughtW = true ∧
        (r.state (t + 1)).trapCaughtW = true ∧ (r.state (t + 1)).w.interruptTimer = true ∧
        (r.state (t + 1)).csrWriteback.isException = false ∧
        (r.state (t + 1)).csr.mstatusMie = false ∧ (r.state (t + 1)).csr.mstatusMpie = true ∧
        (r.state (t + 2)).csr.mstatusMpie = false :=
  ⟨{ interruptBench [0x0210c1b3] 34 with timer := fun t => decide (35 ≤ t) }.run₁, _, 36,
    TestBench.run₁_exact _, TestBench.run₁_instrSlave _, TestBench.run₁_dataSlave _,
    by decide +kernel⟩

end Run

end RvPipelineCore

import RvPipelineCore.Order

/-!
# The instruction a trap is taken on

A trap writes the PC of the instruction in write-back to `mepc`. `Run.trap_on_oldest` says when that
is right: every older instruction has committed or was removed by an earlier trap, and the
instruction itself has not.

The conditions are those of `Run.Orderly`. Each names a coincidence the hazard unit does not
exclude: an interrupt that meets a bubble, two exceptions in a row, and an instruction that a flush
or a division removes from a stage that is waiting.
-/

namespace RvPipelineCore

open Temporal

namespace Run

variable {x : DontCare} (r : Run x)

/-- No instruction is lost or overtaken in cycle `v`: interrupts find an instruction, two flags do
not follow each other, and neither a flush nor a division removes an instruction on its way. -/
structure Orderly (v : ℕ) : Prop where
  /-- An interrupt is attached to an instruction. -/
  interrupt_valid : (r.state v).interruptM = true → (r.state v).m.validPc = true
  /-- The instruction behind a flagged one is not flagged on its heels. -/
  no_overlap : (r.state v).isInstrExceptionM = true → (r.state v).stallM (r.inputs v) = false →
    (r.state (v + 1)).isInstrExceptionM = false
  /-- An instruction that a flush takes out of execute moves on, unless a trap removes it. -/
  no_loss_e : (r.state v).e.validPc = true → (r.state v).flushE = true →
    (r.state v).hazard.pendingExceptionM = false → (r.state v).stallE (r.inputs v) = false
  /-- No division is pending behind an access that waits for its acknowledge. -/
  no_loss_m : (r.state v).stallM (r.inputs v) = true → (r.state v).hazard.divPending = true →
    (r.state v).isInstrExceptionM = true ∨ (r.state v).hazard.pendingExceptionM = true

/-- Whether a cycle is orderly can be decided from its state, its inputs and the state after it. -/
instance (v : ℕ) : Decidable (r.Orderly v) :=
  decidable_of_iff
    (((r.state v).interruptM = true → (r.state v).m.validPc = true) ∧
      ((r.state v).isInstrExceptionM = true → (r.state v).stallM (r.inputs v) = false →
        (r.state (v + 1)).isInstrExceptionM = false) ∧
      ((r.state v).e.validPc = true → (r.state v).flushE = true →
        (r.state v).hazard.pendingExceptionM = false → (r.state v).stallE (r.inputs v) = false) ∧
      ((r.state v).stallM (r.inputs v) = true → (r.state v).hazard.divPending = true →
        (r.state v).isInstrExceptionM = true ∨ (r.state v).hazard.pendingExceptionM = true))
    ⟨fun h => ⟨h.1, h.2.1, h.2.2.1, h.2.2.2⟩, fun h => ⟨h.1, h.2, h.3, h.4⟩⟩

/-- The trap taken in cycle `t` removes the instruction with stamp `n`: it is in the pipeline and
not older than the one the trap is taken on. -/
structure Removes (n t : ℕ) : Prop where
  trap : (r.state t).trapCaughtW = true
  not_older : r.stampW t ≤ n
  entered : n ≤ t

/-- The places where an instruction with stamp `n` that has entered execute can be found in cycle
`t`: in one of two stages, or committed or removed by a trap before. -/
inductive Fate (n t : ℕ) : Prop
  | inE (valid : (r.state t).e.validPc = true) (stamp : r.stampE t = n)
  | inM (valid : (r.state t).m.validPc = true) (stamp : r.stampM t = n)
  | committed (t' : ℕ) (lt : t' < t) (commits : r.Commits n t')
  | removed (t' : ℕ) (le : t' ≤ t) (removes : r.Removes n t')

variable {r}

/-- An exception in the memory stage is a trap on the same instruction one cycle later. -/
theorem trapCaughtW_succ_of_exception {t : ℕ} (h : (r.state t).isInstrExceptionM = true) :
    (r.state (t + 1)).trapCaughtW = true := by
  rw [r.succ_trapCaughtW, h]

/-- A trap comes from an exception in the memory stage one cycle before. -/
theorem exists_exception_of_trap {t : ℕ} (h : (r.state t).trapCaughtW = true) :
    ∃ s, t = s + 1 ∧ (r.state s).isInstrExceptionM = true := by
  cases t with
  | zero =>
    rw [State.trapCaughtW_eq, r.isInstrExceptionW_zero] at h
    exact absurd h Bool.false_ne_true
  | succ s => exact ⟨s, rfl, by rw [← r.succ_trapCaughtW, h]⟩

/-- No instruction leaves execute or the memory stage in cycle `v` without moving on or being
removed by a trap. -/
structure Lossless (r : Run x) (v : ℕ) : Prop where
  execute : (r.state v).e.validPc = true → (r.state v).flushE = true →
    (r.state v).hazard.pendingExceptionM = false → (r.state v).stallE (r.inputs v) = false
  memory : (r.state v).stallM (r.inputs v) = true → (r.state v).hazard.divPending = true →
    (r.state v).isInstrExceptionM = true ∨ (r.state v).hazard.pendingExceptionM = true

/-- In an orderly cycle no instruction is lost from execute or from the memory stage. -/
theorem Orderly.lossless {t : ℕ} (hK : r.Orderly t) : r.Lossless t := ⟨hK.no_loss_e, hK.no_loss_m⟩

/-- From execute, an instruction moves on, waits or is removed by a trap, unless it is flushed while
it waits. -/
theorem fate_of_inE {n t : ℕ} (hv : (r.state t).e.validPc = true) (hn : r.stampE t = n)
    (hK : (r.state t).flushE = true → (r.state t).hazard.pendingExceptionM = false →
      (r.state t).stallE (r.inputs t) = false) : r.Fate n (t + 1) := by
  have hst := (r.stampW_le_stampM t).trans (r.stampM_le_stampE t)
  -- a pending exception means that a trap is taken, which removes the instruction
  cases hpm : (r.state t).hazard.pendingExceptionM with
  | true =>
    exact .removed t t.le_succ
      ⟨by rw [r.trapCaughtW_eq_pendingExceptionM, hpm], hst.trans hn.le, hn ▸ r.stampE_le t⟩
  | false =>
    -- without one the instruction stays in execute or moves to the memory stage
    cases hs : (r.state t).stallE (r.inputs t) with
    | true =>
      rcases r.e_cases t with ⟨hf, -⟩ | ⟨-, hs', -⟩ | ⟨-, -, he, -, hst'⟩
      · simp [hK hf hpm] at hs
      · simp [hs] at hs'
      · exact .inE (by rw [he, hv]) (hst'.trans hn)
    | false =>
      simp only [State.stallE, Bool.or_eq_false_iff] at hs
      rcases r.m_cases t with ⟨hf, -⟩ | ⟨-, -, -, hm, -, hst'⟩ | ⟨-, hs', -⟩
      · simp [State.flushM, hpm, hs.2] at hf
      · refine .inM ?_ (hst'.trans hn)
        rw [hm]
        exact hv
      · simp [hs.1] at hs'

/-- From the memory stage, an instruction commits, waits or is removed by a trap, unless a divide is
pending while it waits. -/
theorem fate_of_inM {n t : ℕ} (hv : (r.state t).m.validPc = true) (hn : r.stampM t = n)
    (hK : (r.state t).stallM (r.inputs t) = true → (r.state t).hazard.divPending = true →
      (r.state t).isInstrExceptionM = true ∨ (r.state t).hazard.pendingExceptionM = true) :
    r.Fate n (t + 1) := by
  have hle : n ≤ t := hn ▸ (r.stampM_le_stampE t).trans (r.stampE_le t)
  -- a flagged instruction is the one the next trap is taken on
  cases hexc : (r.state t).isInstrExceptionM with
  | true =>
    exact .removed (t + 1) le_rfl
      ⟨trapCaughtW_succ_of_exception hexc, by rw [r.stampW_succ, hn], hle.trans t.le_succ⟩
  | false =>
    cases hs : (r.state t).stallM (r.inputs t) with
    | false => exact .committed t t.lt_succ_self ⟨hv, hn, hs, hexc⟩
    | true =>
      cases hpm : (r.state t).hazard.pendingExceptionM with
      | true =>
        exact .removed t t.le_succ ⟨by rw [r.trapCaughtW_eq_pendingExceptionM, hpm],
          (r.stampW_le_stampM t).trans hn.le, hle⟩
      | false =>
        rcases r.m_cases t with ⟨hf, -⟩ | ⟨-, hs', -⟩ | ⟨-, -, hm, -, hst'⟩
        · have hd : (r.state t).hazard.divPending = true := by
            simpa [State.flushM, hpm] using hf
          simpa [hexc, hpm] using hK hs hd
        · simp [hs] at hs'
        · exact .inM (by rw [hm, hv]) (hst'.trans hn)

/-- One cycle moves an instruction on to its next place without losing it, if it is a lossless
one. -/
theorem Fate.succ {n t : ℕ} (hK : r.Lossless t) (h : r.Fate n t) : r.Fate n (t + 1) := by
  cases h with
  | inE hv hn => exact fate_of_inE hv hn (hK.execute hv)
  | inM hv hn => exact fate_of_inM hv hn hK.memory
  | committed t' hlt hc => exact .committed t' (by omega) hc
  | removed t' hle hr => exact .removed t' (by omega) hr

/-- An instruction that enters execute is there in the next cycle, under the stamp of its entry. -/
theorem fate_succ_of_entersE {u : ℕ} (hin : (r.state u).entersE (r.inputs u) = true) :
    r.Fate (u + 1) (u + 1) := by
  simp only [State.entersE, Bool.and_eq_true, Bool.not_eq_true'] at hin
  rcases r.e_cases u with ⟨hf, -⟩ | ⟨-, -, he, -, hst⟩ | ⟨-, hs, -⟩
  · simp [hin.1.2] at hf
  · refine .inE ?_ hst
    rw [he]
    exact hin.1.1
  · simp [hin.2] at hs

/-- An instruction that has entered execute is never lost in lossless cycles: it stays in the
pipeline until it commits or a trap removes it. -/
theorem fate_of_entersE {u t : ℕ} (hut : u < t) (hK : ∀ v < t, r.Lossless v)
    (hin : (r.state u).entersE (r.inputs u) = true) : r.Fate (u + 1) t := by
  induction t, hut using Nat.le_induction with
  | base => exact fate_succ_of_entersE hin
  | succ t hle ih => exact (ih fun v hv => hK v (by omega)).succ (hK t t.lt_succ_self)

/-- After a trap, execute and the memory stage hold only instructions that entered after it. -/
theorem stamp_after_trap {t' : ℕ} (htrap : (r.state t').trapCaughtW = true) :
    ∀ t, t' < t → ((r.state t).e.validPc = true → t' < r.stampE t) ∧
      ((r.state t).m.validPc = true → t' < r.stampM t) := by
  intro t ht
  induction t, ht using Nat.le_induction with
  | base =>
    obtain ⟨-, ⟨he, -⟩, hm, -⟩ := r.empty_of_trap htrap
    -- in the cycle behind the trap both stages are empty
    constructor <;> intro hv
    · simp [he] at hv
    · simp [hm] at hv
  | succ t hle ih =>
    constructor <;> intro hv
    -- execute is flushed, takes a younger instruction, or holds its own; the memory stage follows
    -- it
    · rcases r.e_cases t with ⟨-, he, -⟩ | ⟨-, -, -, -, hst⟩ | ⟨-, -, he, -, hst⟩
      · simp [he] at hv
      · omega
      · rw [hst]
        exact ih.1 (he ▸ hv)
    · rcases r.m_cases t with ⟨-, hm, -⟩ | ⟨-, -, -, hm, -, hst⟩ | ⟨-, -, hm, -, hst⟩
      · simp [hm] at hv
      · rw [hm] at hv
        rw [hst]
        exact ih.1 hv
      · rw [hst]
        exact ih.2 (hm ▸ hv)

/-- An instruction that is flagged in the memory stage has not committed before, so every commit
with its stamp comes later. -/
theorem Commits.lt_of_exception {n s t' : ℕ} (hc : r.Commits n t')
    (hexc : (r.state s).isInstrExceptionM = true) (hv : (r.state s).m.validPc = true)
    (hn : r.stampM s = n) : s < t' := by
  by_contra hle
  rcases Nat.lt_or_eq_of_le (not_lt.mp hle) with hlt | rfl
  · have := (r.m_eq_of_stamp hc.valid hv (hn.trans hc.stamp.symm) t' le_rfl hlt.le).2.2 hlt
    simp [hc.done] at this
  · simp [hc.clean] at hexc

/-- An earlier trap that removes a flagged instruction is taken on it. -/
theorem Removes.eq_of_exception {n s t' : ℕ} (hr : r.Removes n t') (hK : ∀ v ≤ s, r.Orderly v)
    (hexc : (r.state s).isInstrExceptionM = true) (hv : (r.state s).m.validPc = true)
    (hn : r.stampM s = n) (hle : t' ≤ s) : r.stampW t' = n := by
  by_contra hne
  have hlt : r.stampW t' < n := lt_of_le_of_ne hr.not_older hne
  rcases Nat.lt_or_eq_of_le hle with hlt' | rfl
  · have := (stamp_after_trap hr.trap s hlt').2 hv
    have := hr.entered
    omega
  · -- the flagged instruction is behind the one the trap is taken on
    obtain ⟨q, rfl, hq⟩ := exists_exception_of_trap hr.trap
    rw [r.stampW_succ] at hlt
    cases hs : (r.state q).stallM (r.inputs q) with
    | true =>
      rw [r.stampM_succ_of_hold hs] at hn
      omega
    | false => simp [(hK q (by omega)).no_overlap hq hs] at hexc

variable (r)

/-- While no instruction is lost or overtaken, a trap is taken on a fetched instruction, whose PC
goes to `mepc`. Every older instruction that entered execute has committed before or was removed by
an earlier trap; the instruction itself was not, except by an earlier trap on itself. -/
theorem trap_on_oldest (t : ℕ) (hK : ∀ v < t, r.Orderly v)
    (htrap : (r.state t).trapCaughtW = true) :
    (r.state t).w.validPc = true ∧
      (r.state (t + 1)).csr.mepcR = (r.state t).w.pc.extractLsb' 1 31 ∧
      (∃ u, r.stampW t = u + 1 ∧ (r.state u).entersE (r.inputs u) = true ∧
        (r.state t).w.pc = (r.state u).d.pc) ∧
      (∀ u, (r.state u).entersE (r.inputs u) = true → u + 1 < r.stampW t →
        ∃ t' < t, r.Commits (u + 1) t' ∨ r.Removes (u + 1) t') ∧
      ∀ t' < t, ¬ r.Commits (r.stampW t) t' ∧
        (r.Removes (r.stampW t) t' → r.stampW t' = r.stampW t) := by
  obtain ⟨s, rfl, hexc⟩ := exists_exception_of_trap htrap
  have hv := r.m_valid_of_exception hexc (hK s s.lt_succ_self).interrupt_valid
  have hw := r.succ_w s
  obtain ⟨q, -, hvq, -, hstq, hmq, -⟩ := r.m_origin s hv
  obtain ⟨u, hu, hin, heq, -⟩ := r.e_origin q hvq
  -- the PC travels with the instruction
  have hpc : (r.state s).m.pc = (r.state u).d.pc := by
    rw [hmq]
    simp only [State.memoryInput, heq, State.executeInput]
  have hle := (r.stampM_le_stampE s).trans (r.stampE_le s)
  refine ⟨?_, ?_, ⟨u, ?_, hin, ?_⟩, ?_, ?_⟩
  · rw [hw]
    exact hv
  · rw [r.succ_csr]
    rw [State.trapCaughtW] at htrap
    simp only [CsrExec.next, htrap, if_true]
    rfl
  · rw [r.stampW_succ, hstq, hu]
  · rw [hw, ← hpc]
    rfl
  · intro u' hin' hlt
    rw [r.stampW_succ] at hlt
    -- an older instruction cannot be in the memory stage or behind it
    cases fate_of_entersE (by omega : u' < s) (fun v hv => (hK v (by omega)).lossless) hin' with
    | inE _ hn => exact absurd (r.stampM_le_stampE s) (by omega)
    | inM _ hn => omega
    | committed t' hlt' hc => exact ⟨t', by omega, .inl hc⟩
    | removed t' hle' hr => exact ⟨t', by omega, .inr hr⟩
  · intro t' ht'
    rw [r.stampW_succ]
    refine ⟨fun hc => ?_, fun hr => ?_⟩
    · have := hc.lt_of_exception hexc hv rfl
      omega
    · exact hr.eq_of_exception (fun v hv => hK v (by omega)) hexc hv rfl (by omega)

/-- In the program whose third word is an `ecall`, at address 8, the trap saves this address in
`mepc`. -/
theorem trap_on_oldest_ecall : ((quietBench [0x00000073]).run₁.state 13).csr.mepcR = 4 :=
  (trap_on_oldest (quietBench [0x00000073]).run₁ 12
    (by decide +kernel) (by decide +kernel)).2.1.trans (by decide +kernel)

/-- An interrupt that arrives while `div` is busy is taken on the bubble ahead of it, and 0 is
written to `mepc`. -/
theorem trap_on_bubble :
    ∃ (r : Run TestBench.zeros) (rom : BitVec 32 → BitVec 32) (t : ℕ),
      r.Exact ∧ r.InstrSlave rom ∧ r.DataSlave ∧ (r.state t).trapCaughtW = true ∧
        (r.state t).w.validPc = false ∧ (r.state t).e.validPc = true ∧
        (r.state t).e.pc = 0x14 ∧ (r.state (t + 1)).csr.mepc = 0 :=
  ⟨(interruptBench [0x0210c1b3] 34).run₁, _, 36, TestBench.run₁_exact _,
    TestBench.run₁_instrSlave _, TestBench.run₁_dataSlave _, by decide +kernel⟩

end Run

end RvPipelineCore

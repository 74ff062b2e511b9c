import RvPipelineCore.Control.Words
import RvPipelineCore.Lib.Stamp
import RvPipelineCore.Pipeline

/-!
# Program order

Instructions are identified by the cycle in which they enter execute. `Run.stampE`, `Run.stampM` and
`Run.stampW` say which one each stage holds; a stamp means something only where the stage holds a
valid instruction.

- `Run.stampM_lt_stampE`: the instruction in the memory stage is older than what follows it;
- `Run.m_eq_of_stamp`: the memory stage holds an instruction without interruption;
- `Run.Commits`: an instruction leaves the memory stage with its effects done.
-/

namespace RvPipelineCore

open Temporal

namespace State

variable (s : State)

/-- A valid word in decode is decoded as it is. -/
theorem mainDec_of_valid (x : DontCare) (h : s.d.isDecodeFlush = true) :
    s.mainDec x = decode x s.d.instr := by
  rw [mainDec, h]
  rfl

/-- The causes of `is_instr_exception_m` that belong to the instruction in the memory stage. -/
def syncExceptionM : Bool :=
  s.m.instrAddrMisaligned || s.m.illegalInstruction || s.storeMisalignedM || s.loadMisalignedM ||
    s.m.envCallInstr

/-- An interrupt is attached to the memory stage in this cycle. -/
def interruptM : Bool := s.csr.interruptExternalM || s.csr.interruptTimerM

/-- The exception flag of the memory stage is raised by a cause of its instruction or by an
interrupt. -/
theorem isInstrExceptionM_eq : s.isInstrExceptionM = (s.syncExceptionM || s.interruptM) := by
  simp only [isInstrExceptionM, syncExceptionM, interruptM]
  ac_rfl

/-- The cause belongs to the instruction: it depends on the memory register alone. -/
theorem syncExceptionM_congr {s' : State} (hm : s'.m = s.m) (hc : s'.cm = s.cm) :
    s'.syncExceptionM = s.syncExceptionM := by
  simp only [syncExceptionM, storeMisalignedM, loadMisalignedM, readAddressM, hm, hc]

/-- A bubble in the memory stage has no cause of its own to be flagged. -/
theorem syncExceptionM_of_m_eq_zero (hm : s.m = 0) (hc : s.cm = 0) : s.syncExceptionM = false := by
  simp only [syncExceptionM, storeMisalignedM, loadMisalignedM, readAddressM, hm, hc]
  rfl

end State

namespace Run

variable {x : DontCare} (r : Run x)

/-- The stamp of execute: one more than the cycle at the end of which it was last loaded. -/
def stampE : ℕ → ℕ := Stamp.first fun t => !(r.state t).stallE (r.inputs t)

/-- The stamp of the memory stage: the stamp of execute at the last cycle in which it was not
stalled. -/
def stampM : ℕ → ℕ := Stamp.next (fun t => !(r.state t).stallM (r.inputs t)) r.stampE

/-- The stamp of write-back: the stamp of the memory stage in the cycle before, since write-back
never waits. -/
def stampW : ℕ → ℕ := Stamp.next (fun _ => true) r.stampM

/-- The stamp of execute is at most the current cycle. -/
theorem stampE_le (t : ℕ) : r.stampE t ≤ t := Stamp.first_le _ t

/-- The stamp of execute never falls, since a later word gets a later stamp. -/
theorem stampE_mono : Monotone r.stampE := Stamp.first_mono _

/-- The memory stage holds no younger instruction than execute. -/
theorem stampM_le_stampE (t : ℕ) : r.stampM t ≤ r.stampE t := Stamp.next_le r.stampE_mono _ t

/-- The stamp of the memory stage never falls. -/
theorem stampM_mono : Monotone r.stampM := Stamp.next_mono r.stampE_mono _

/-- Write-back holds no younger instruction than the memory stage. -/
theorem stampW_le_stampM (t : ℕ) : r.stampW t ≤ r.stampM t := Stamp.next_le r.stampM_mono _ t

/-- Write-back has in the next cycle the stamp that the memory stage has in this one. -/
@[simp] theorem stampW_succ (t : ℕ) : r.stampW (t + 1) = r.stampM t :=
  Stamp.next_succ_of_load rfl

/-- Execute gets a new stamp, the number of the next cycle, whenever it is not stalled. -/
theorem stampE_succ_of_load {t : ℕ} (h : (r.state t).stallE (r.inputs t) = false) :
    r.stampE (t + 1) = t + 1 :=
  Stamp.first_succ_of_load (by simp [h])

/-- A stalled execute stage keeps its stamp. -/
theorem stampE_succ_of_hold {t : ℕ} (h : (r.state t).stallE (r.inputs t) = true) :
    r.stampE (t + 1) = r.stampE t :=
  Stamp.first_succ_of_hold (by simp [h])

/-- The memory stage takes over the stamp of execute whenever it is not stalled. -/
theorem stampM_succ_of_load {t : ℕ} (h : (r.state t).stallM (r.inputs t) = false) :
    r.stampM (t + 1) = r.stampE t :=
  Stamp.next_succ_of_load (by simp [h])

/-- A stalled memory stage keeps its stamp. -/
theorem stampM_succ_of_hold {t : ℕ} (h : (r.state t).stallM (r.inputs t) = true) :
    r.stampM (t + 1) = r.stampM t :=
  Stamp.next_succ_of_hold (by simp [h])

/-! ## What a stage can do in a cycle -/

/-- Execute is emptied, takes what decode holds, or keeps its instruction. -/
theorem e_cases (t : ℕ) :
    ((r.state t).flushE = true ∧ (r.state (t + 1)).e = 0 ∧ (r.state (t + 1)).ce = 0) ∨
      ((r.state t).flushE = false ∧ (r.state t).stallE (r.inputs t) = false ∧
        (r.state (t + 1)).e = (r.state t).executeInput x ∧
        (r.state (t + 1)).ce = (r.state t).controlInputE x ∧ r.stampE (t + 1) = t + 1) ∨
      ((r.state t).flushE = false ∧ (r.state t).stallE (r.inputs t) = true ∧
        (r.state (t + 1)).e = (r.state t).e ∧ (r.state (t + 1)).ce = (r.state t).ce ∧
        r.stampE (t + 1) = r.stampE t) := by
  rw [r.succ_e, r.succ_ce]
  cases hf : (r.state t).flushE <;> cases hs : (r.state t).stallE (r.inputs t)
  · exact .inr (.inl ⟨rfl, rfl, rfl, rfl, r.stampE_succ_of_load hs⟩)
  · exact .inr (.inr ⟨rfl, rfl, rfl, rfl, r.stampE_succ_of_hold hs⟩)
  all_goals exact .inl ⟨rfl, rfl, rfl⟩

/-- The memory stage is emptied, takes what execute holds, or keeps its instruction. -/
theorem m_cases (t : ℕ) :
    ((r.state t).flushM = true ∧ (r.state (t + 1)).m = 0 ∧ (r.state (t + 1)).cm = 0) ∨
      ((r.state t).flushM = false ∧ (r.state t).stallM (r.inputs t) = false ∧
        (r.state t).stallE (r.inputs t) = false ∧
        (r.state (t + 1)).m = (r.state t).memoryInput ∧
        (r.state (t + 1)).cm = (r.state t).controlInputM ∧ r.stampM (t + 1) = r.stampE t) ∨
      ((r.state t).flushM = false ∧ (r.state t).stallM (r.inputs t) = true ∧
        (r.state (t + 1)).m = (r.state t).m ∧ (r.state (t + 1)).cm = (r.state t).cm ∧
        r.stampM (t + 1) = r.stampM t) := by
  rw [r.succ_m, r.succ_cm]
  -- without a flush no divide is pending, so execute moves with the memory stage
  cases hf : (r.state t).flushM <;> cases hs : (r.state t).stallM (r.inputs t)
  · refine .inr (.inl ⟨rfl, rfl, ?_, rfl, rfl, r.stampM_succ_of_load hs⟩)
    simp only [State.flushM, Bool.or_eq_false_iff] at hf
    simp [State.stallE, hs, hf.2]
  · exact .inr (.inr ⟨rfl, rfl, rfl, rfl, r.stampM_succ_of_hold hs⟩)
  all_goals exact .inl ⟨rfl, rfl, rfl⟩

/-- Only a load or store waits in the memory stage, so a bubble does not. -/
theorem stallM_valid {t : ℕ} (h : (r.state t).stallM (r.inputs t) = true) :
    (r.state t).m.validPc = true := by
  simp only [State.stallM, Bool.and_eq_true] at h
  exact m_valid_of_loadStore h.1

/-! ## Where an instruction comes from -/

/-- A valid instruction in execute is what decode held in the cycle of its stamp. -/
theorem e_origin (t : ℕ) (h : (r.state t).e.validPc = true) :
    ∃ u, r.stampE t = u + 1 ∧ (r.state u).entersE (r.inputs u) = true ∧
      (r.state t).e = (r.state u).executeInput x ∧
      (r.state t).ce = (r.state u).controlInputE x := by
  -- the stamp changes only when execute loads
  induction t with
  | zero => simp at h
  | succ t ih =>
    rcases r.e_cases t with ⟨-, he, -⟩ | ⟨hf, hs, he, hc, hst⟩ | ⟨-, -, he, hc, hst⟩
    · simp [he] at h
    · rw [he] at h
      refine ⟨t, hst, ?_, he, hc⟩
      simp only [State.entersE, hf, hs, Bool.not_false, Bool.and_true]
      exact h
    · rw [he] at h
      rw [he, hc, hst]
      exact ih h

/-- A legal instruction in execute has the control signals of a word. -/
theorem e_origin_legal (t : ℕ) (h : (r.state t).e.validPc = true)
    (hill : (r.state t).e.illegalInstruction = false) :
    ∃ u, r.stampE t = u + 1 ∧ (r.state u).entersE (r.inputs u) = true ∧
      (r.state t).e = (r.state u).executeInput x ∧
      (r.state t).ce = (r.state u).controlInputE x ∧
      (decode x (r.state u).d.instr).outControl = some ((r.state u).outControlD x) ∧
      ControlOf (r.state u).d.instr ((r.state u).outControlD x) := by
  obtain ⟨u, hu, hin, he, hc⟩ := r.e_origin t h
  -- The stage took the instruction in from decode in cycle u, and decode had accepted the word.
  have hdec := (r.state u).mainDec_of_valid x (State.d_valid_of_entersE hin)
  have hlegal : (decode x (r.state u).d.instr).illegalInstruction = false := by
    rw [← hdec, ← hill, he]
    rfl
  obtain ⟨c, hsome, hof⟩ := decode_of_legal x hlegal
  have hout : (r.state u).outControlD x = c := by
    rw [State.outControlD, hdec, hsome]
    rfl
  rw [← hout] at hsome hof
  exact ⟨u, hu, hin, he, hc, hsome, hof⟩

/-- A valid instruction in the memory stage is what execute made of it in the cycle it moved on. -/
theorem m_origin (t : ℕ) (h : (r.state t).m.validPc = true) :
    ∃ q < t, (r.state q).e.validPc = true ∧ (r.state q).stallE (r.inputs q) = false ∧
      r.stampM t = r.stampE q ∧ (r.state t).m = (r.state q).memoryInput ∧
      (r.state t).cm = (r.state q).controlInputM := by
  induction t with
  | zero => simp at h
  | succ t ih =>
    rcases r.m_cases t with ⟨-, hm, -⟩ | ⟨-, -, hs, hm, hc, hst⟩ | ⟨-, -, hm, hc, hst⟩
    · simp [hm] at h
    · rw [hm] at h
      exact ⟨t, t.lt_succ_self, h, hs, hst, hm, hc⟩
    · rw [hm] at h
      obtain ⟨q, hq, hrest⟩ := ih h
      rw [hm, hc, hst]
      exact ⟨q, by omega, hrest⟩

/-! ## Order -/

/-- The instruction in the memory stage is older than what execute holds or will hold. -/
theorem stampM_lt_stampE (t : ℕ) (h : (r.state t).m.validPc = true) : r.stampM t < r.stampE t := by
  induction t with
  | zero => simp at h
  | succ t ih =>
    rcases r.m_cases t with ⟨-, hm, -⟩ | ⟨-, -, hs, -, -, hst⟩ | ⟨-, -, hm, -, hst⟩
    · simp [hm] at h
    · rw [hst, r.stampE_succ_of_load hs]
      exact Nat.lt_succ_of_le (r.stampE_le t)
    · rw [hst]
      rw [hm] at h
      exact (ih h).trans_le (r.stampE_mono t.le_succ)

/-- An instruction stays in the memory stage without interruption: wherever its stamp is seen there
again, the stage was held since. -/
theorem m_eq_of_stamp {t t' : ℕ} (hv : (r.state t).m.validPc = true)
    (hv' : (r.state t').m.validPc = true) (hst : r.stampM t' = r.stampM t) :
    ∀ v, t ≤ v → v ≤ t' → (r.state v).m = (r.state t).m ∧ (r.state v).cm = (r.state t).cm ∧
      (v < t' → (r.state v).stallM (r.inputs v) = true) := by
  -- the stamp is monotone, so it is the same all the way
  have hsame : ∀ v, t ≤ v → v ≤ t' → r.stampM v = r.stampM t := fun v h₁ h₂ =>
    le_antisymm ((r.stampM_mono h₂).trans hst.le) (r.stampM_mono h₁)
  have hstall : ∀ v, t ≤ v → v < t' → (r.state v).stallM (r.inputs v) = true := by
    intro v h₁ h₂
    by_contra hs
    have hload := r.stampM_succ_of_load (Bool.not_eq_true _ ▸ hs)
    rw [hsame (v + 1) (by omega) h₂] at hload
    exact absurd ((r.stampM_lt_stampE t hv).trans_le (r.stampE_mono h₁)) (by omega)
  have hheld : ∀ v, t ≤ v → v ≤ t' →
      (r.state v).m = (r.state t).m ∧ (r.state v).cm = (r.state t).cm := by
    refine always_between ⟨rfl, rfl⟩ fun v h₁ h₂ ih => ?_
    rcases r.m_cases v with ⟨-, hm, -⟩ | ⟨-, hs, -⟩ | ⟨-, -, hm, hc, -⟩
    · -- a cleared stage does not stall, and it is not the end of the interval either
      rcases Nat.lt_or_eq_of_le (Nat.succ_le_of_lt h₂) with h₃ | h₃
      · have := r.stallM_valid (hstall (v + 1) (by omega) h₃)
        simp [hm] at this
      · simp [← h₃, hm] at hv'
    · simp [hstall v h₁ h₂] at hs
    · exact ⟨hm.trans ih.1, hc.trans ih.2⟩
  exact fun v h₁ h₂ => ⟨(hheld v h₁ h₂).1, (hheld v h₁ h₂).2, hstall v h₁⟩

/-- The instruction with stamp `n` leaves the memory stage in cycle `t`, done and not flagged. -/
structure Commits (n t : ℕ) : Prop where
  valid : (r.state t).m.validPc = true
  stamp : r.stampM t = n
  done : (r.state t).stallM (r.inputs t) = false
  clean : (r.state t).isInstrExceptionM = false

/-- Whether an instruction commits in a cycle can be decided from the state and the inputs of the
cycle. -/
instance (n t : ℕ) : Decidable (r.Commits n t) :=
  decidable_of_iff ((r.state t).m.validPc = true ∧ r.stampM t = n ∧
      (r.state t).stallM (r.inputs t) = false ∧ (r.state t).isInstrExceptionM = false)
    ⟨fun h => ⟨h.1, h.2.1, h.2.2.1, h.2.2.2⟩, fun h => ⟨h.1, h.2, h.3, h.4⟩⟩

/-- An empty memory stage is flagged by no cause of its own. -/
theorem syncExceptionM_of_empty {t : ℕ} (h : (r.state t).m.validPc = false) :
    (r.state t).syncExceptionM = false :=
  State.syncExceptionM_of_m_eq_zero _ (r.m_bubble t h).1 (r.m_bubble t h).2

/-- If interrupts are attached to instructions only, every flag of the memory stage belongs to an
instruction. -/
theorem m_valid_of_exception {t : ℕ} (h : (r.state t).isInstrExceptionM = true)
    (hi : (r.state t).interruptM = true → (r.state t).m.validPc = true) :
    (r.state t).m.validPc = true := by
  by_contra hv
  rw [State.isInstrExceptionM_eq, r.syncExceptionM_of_empty (Bool.not_eq_true _ ▸ hv),
    Bool.false_or] at h
  exact hv (hi h)

end Run

end RvPipelineCore

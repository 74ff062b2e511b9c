import RvPipelineCore.Lib.Temporal
import RvPipelineCore.Run

/-!
# The pipeline registers over a run

The facts about the registers that every later module uses.

- `Run.succ_d_isDecodeFlush`, `Run.succ_e_validPc`, `Run.succ_m_validPc`: when a stage holds an
  instruction in the next cycle;
- a register without an instruction holds zero (`Run.d_bubble`, `Run.e_bubble`, `Run.m_bubble`), so
  a bubble requests nothing;
- `pending_exception_m` is the exception flag of write-back, one cycle behind the one of the memory
  stage (`Run.pendingExceptionM_eq`);
- a Wishbone port drives `cyc` and `stb` exactly while it is active.
-/

namespace RvPipelineCore

open Temporal

namespace State

variable (x : DontCare) (s : State) (i : Inputs)

/-- Decode takes the fetched word at the end of the cycle. -/
def decodeLoads : Bool := !s.flushD i && !s.stallD i

/-- A valid instruction enters execute at the end of the cycle. -/
def entersE : Bool := s.d.isDecodeFlush && !s.flushE && !s.stallE i

/-- The instruction in execute enters the memory stage at the end of the cycle. -/
def entersM : Bool := s.e.validPc && !s.flushM && !s.stallM i

/-- The instruction in execute leaves it, or is removed from it, at the end of the cycle. -/
def leavesE : Bool := s.flushE || !s.stallE i

variable {s i} in
/-- Only a valid word in decode enters execute as an instruction. -/
theorem d_valid_of_entersE (h : s.entersE i = true) : s.d.isDecodeFlush = true := by
  simp only [entersE, Bool.and_eq_true] at h
  exact h.1.1

/-! ## Write-back flags -/

/-- `trap_caught` of `csr_exec` is the exception flag of write-back, since both collect the same
seven causes. -/
theorem trapCaughtW_eq : s.trapCaughtW = s.isInstrExceptionW := by
  simp only [trapCaughtW, CsrWriteback.trapCaught, CsrWriteback.isException, csrWriteback,
    isInstrExceptionW]
  ac_rfl

/-- What write-back receives is flagged if and only if the memory stage was: every cause is handed
on. -/
theorem isInstrExceptionW_of_eq {s' : State} (h : s'.w = s.writebackInput i) :
    s'.isInstrExceptionW = s.isInstrExceptionM := by
  simp only [isInstrExceptionW, h, writebackInput, isInstrExceptionM]

/-! ## What a bubble carries -/

/-- On a bubble the decoder puts out control signals that are all low, and raises no
illegal-instruction exception. -/
theorem mainDec_of_d_eq_zero (h : s.d = 0) : s.mainDec x = ⟨some 0, false⟩ := by
  rw [mainDec, h]
  rfl

/-- A bubble in decode is no illegal instruction. -/
theorem illegalInstructionD_of_d_eq_zero (h : s.d = 0) : s.illegalInstructionD x = false := by
  rw [illegalInstructionD, mainDec_of_d_eq_zero x s h]

/-- A bubble in decode has all its control signals low. -/
theorem outControlD_of_d_eq_zero (h : s.d = 0) : s.outControlD x = 0 := by
  rw [outControlD, mainDec_of_d_eq_zero x s h]
  rfl

/-- A bubble in decode hands a bubble to the register of execute. -/
theorem executeInput_of_d_eq_zero (h : s.d = 0) : s.executeInput x = 0 := by
  simp only [executeInput, rd1D, rd2D, immExtD, illegalInstructionD, mainDec_of_d_eq_zero x s h,
    outControlD_of_d_eq_zero x s h, h]
  rfl

/-- A bubble in decode hands control signals that are all low to execute. -/
theorem controlInputE_of_d_eq_zero (h : s.d = 0) : s.controlInputE x = 0 := by
  simp only [controlInputE, aluControlD, mulInstrD, divInstrD, outControlD_of_d_eq_zero x s h, h]
  rfl

/-- A bubble in decode is no divide. -/
theorem divInstrD_of_d_eq_zero (h : s.d = 0) : s.divInstrD = false := by
  rw [divInstrD, h]
  rfl

/-- A bubble in execute resolves no branch and jumps nowhere. -/
theorem pcSrcE_of_e_eq_zero (he : s.e = 0) (hc : s.ce = 0) : s.pcSrcE = false := by
  simp only [pcSrcE, takeBranchE, isMispredictTbranchE, isMispredictNtbranchE, branchMispredict, he,
    hc]
  rfl

/-- A bubble in execute hands a bubble to the memory stage. -/
theorem memoryInput_of_e_eq_zero (he : s.e = 0) (hc : s.ce = 0) : s.memoryInput = 0 := by
  have hp := s.pcSrcE_of_e_eq_zero he hc
  simp only [memoryInput, misalignedPcE, hp, Bool.false_and, dataOutputFromExecute,
    aluOrMuldivResultE, aluE, srcAE, srcBE, srcAForwardE, writeDataE, forwardAE, forwardBE,
    outWriteCsrE, pcTargetE, pcTargetCalcE, pcSrcAE, he, hc]
  rfl

/-- An empty execute stage hands control signals that are all low to the memory stage. -/
theorem controlInputM_of_ce_eq_zero (hc : s.ce = 0) : s.controlInputM = 0 := by
  simp only [controlInputM, hc]
  rfl

end State

namespace Run

variable {x : DontCare} (r : Run x)

/-! ## Validity -/

/-- Decode is valid in the next cycle if it takes a word now, or if it is stalled with a valid word
and not flushed. -/
theorem succ_d_isDecodeFlush (t : ℕ) :
    (r.state (t + 1)).d.isDecodeFlush =
      ((r.state t).decodeLoads (r.inputs t) ||
        !(r.state t).flushD (r.inputs t) && (r.state t).stallD (r.inputs t) &&
          (r.state t).d.isDecodeFlush) := by
  rw [r.succ_d, State.decodeLoads]
  cases (r.state t).flushD (r.inputs t) <;> cases (r.state t).stallD (r.inputs t) <;>
    simp [State.decodeInput]

/-- Execute is valid in the next cycle if an instruction enters it now, or if a valid one does not
leave it. -/
theorem succ_e_validPc (t : ℕ) :
    (r.state (t + 1)).e.validPc =
      ((r.state t).entersE (r.inputs t) ||
        !(r.state t).leavesE (r.inputs t) && (r.state t).e.validPc) := by
  rw [r.succ_e, State.entersE, State.leavesE]
  cases (r.state t).flushE <;> cases (r.state t).stallE (r.inputs t) <;>
    simp [State.executeInput]

/-- The memory stage is valid in the next cycle if an instruction enters it now, or if it is stalled
with a valid one and not flushed. -/
theorem succ_m_validPc (t : ℕ) :
    (r.state (t + 1)).m.validPc =
      ((r.state t).entersM (r.inputs t) ||
        !(r.state t).flushM && (r.state t).stallM (r.inputs t) && (r.state t).m.validPc) := by
  rw [r.succ_m, State.entersM]
  cases (r.state t).flushM <;> cases (r.state t).stallM (r.inputs t) <;>
    simp [State.memoryInput]

/-! ## Bubbles -/

/-- In every cycle, an invalid decode register holds zero in all its fields, and not only in its
validity bit. -/
theorem d_bubble (t : ℕ) (h : (r.state t).d.isDecodeFlush = false) : (r.state t).d = 0 := by
  induction t with
  | zero => exact r.zero_d
  | succ t ih =>
    rw [r.succ_d] at h ⊢
    unfold flopenrc at h ⊢
    split_ifs at h ⊢ with h₁ h₂
    · rfl
    · exact absurd h (by simp [State.decodeInput])
    · exact ih h

/-- In every cycle, an invalid execute register holds zero in all its fields, and its control
signals are all low. -/
theorem e_bubble (t : ℕ) (h : (r.state t).e.validPc = false) :
    (r.state t).e = 0 ∧ (r.state t).ce = 0 := by
  induction t with
  | zero => exact ⟨r.zero_e, r.zero_ce⟩
  | succ t ih =>
    rw [r.succ_e] at h
    rw [r.succ_e, r.succ_ce]
    unfold flopenrc at h ⊢
    split_ifs at h ⊢ with h₁ h₂
    · exact ⟨rfl, rfl⟩
    · have hd := r.d_bubble t h
      exact ⟨State.executeInput_of_d_eq_zero x _ hd, State.controlInputE_of_d_eq_zero x _ hd⟩
    · exact ih h

/-- In every cycle, an invalid memory register holds zero in all its fields, and its control signals
are all low. -/
theorem m_bubble (t : ℕ) (h : (r.state t).m.validPc = false) :
    (r.state t).m = 0 ∧ (r.state t).cm = 0 := by
  induction t with
  | zero => exact ⟨r.zero_m, r.zero_cm⟩
  | succ t ih =>
    rw [r.succ_m] at h
    rw [r.succ_m, r.succ_cm]
    unfold flopenrc at h ⊢
    split_ifs at h ⊢ with h₁ h₂
    · exact ⟨rfl, rfl⟩
    · obtain ⟨he, hc⟩ := r.e_bubble t h
      exact ⟨State.memoryInput_of_e_eq_zero _ he hc, State.controlInputM_of_ce_eq_zero _ hc⟩
    · exact ih h

variable {r}

/-- A signal that a bubble in decode keeps low is raised by a valid instruction. -/
theorem d_valid_of {f : State → Bool} (hf : ∀ s : State, s.d = 0 → f s = false) {t : ℕ}
    (h : f (r.state t) = true) : (r.state t).d.isDecodeFlush = true := by
  by_contra hv
  rw [hf _ (r.d_bubble t (Bool.not_eq_true _ ▸ hv))] at h
  exact absurd h Bool.false_ne_true

/-- A signal that a bubble in execute keeps low is raised by a valid instruction. -/
theorem e_valid_of {f : State → Bool} (hf : ∀ s : State, s.e = 0 → s.ce = 0 → f s = false)
    {t : ℕ} (h : f (r.state t) = true) : (r.state t).e.validPc = true := by
  by_contra hv
  obtain ⟨he, hc⟩ := r.e_bubble t (Bool.not_eq_true _ ▸ hv)
  rw [hf _ he hc] at h
  exact absurd h Bool.false_ne_true

/-- A signal that a bubble in the memory stage keeps low is raised by a valid instruction. -/
theorem m_valid_of {f : State → Bool} (hf : ∀ s : State, s.m = 0 → s.cm = 0 → f s = false)
    {t : ℕ} (h : f (r.state t) = true) : (r.state t).m.validPc = true := by
  by_contra hv
  obtain ⟨hm, hc⟩ := r.m_bubble t (Bool.not_eq_true _ ▸ hv)
  rw [hf _ hm hc] at h
  exact absurd h Bool.false_ne_true

/-- A divide in decode is a valid word, since a bubble is none. -/
theorem d_valid_of_divInstrD {t : ℕ} (h : (r.state t).divInstrD = true) :
    (r.state t).d.isDecodeFlush = true :=
  d_valid_of State.divInstrD_of_d_eq_zero h

/-- An access in the memory stage belongs to a valid instruction, since a bubble makes none. -/
theorem m_valid_of_loadStore {t : ℕ} (h : (r.state t).cm.loadStore = true) :
    (r.state t).m.validPc = true :=
  m_valid_of (f := fun s => s.cm.loadStore) (fun s _ hc => by simp [hc]) h

/-- A redirect comes from a valid instruction in execute, since a bubble asks for none. -/
theorem e_valid_of_pcSrcE {t : ℕ} (h : (r.state t).pcSrcE = true) :
    (r.state t).e.validPc = true :=
  e_valid_of State.pcSrcE_of_e_eq_zero h

variable (r)

/-- An empty execute stage does not redirect fetch. -/
theorem pcSrcE_of_empty (t : ℕ) (h : (r.state t).e.validPc = false) :
    (r.state t).pcSrcE = false :=
  State.pcSrcE_of_e_eq_zero _ (r.e_bubble t h).1 (r.e_bubble t h).2

/-! ## The exception flags -/

/-- No trap is taken after cycle `a` up to cycle `b`. -/
def NoTrap (a b : ℕ) : Prop := After (fun v => (r.state v).trapCaughtW = false) a b

/-- Whether no trap is taken between two cycles can be decided, by looking at the cycles between
them. -/
instance (a b : ℕ) : Decidable (r.NoTrap a b) := inferInstanceAs (Decidable (After _ a b))

/-- Cycle `b` is the first from `a` on at the end of which an instruction enters execute. -/
def FirstEntry (a b : ℕ) : Prop := First (fun v => (r.state v).entersE (r.inputs v) = true) a b

/-- Whether a cycle is the first entry after another can be decided, by looking at the cycles
between them. -/
instance (a b : ℕ) : Decidable (r.FirstEntry a b) := inferInstanceAs (Decidable (First _ a b))

/-- Write-back is flagged in the next cycle if and only if the memory stage is flagged in this
one. -/
theorem succ_isInstrExceptionW (t : ℕ) :
    (r.state (t + 1)).isInstrExceptionW = (r.state t).isInstrExceptionM :=
  State.isInstrExceptionW_of_eq _ _ (r.succ_w t)

/-- A run starts without a flag in write-back. -/
theorem isInstrExceptionW_zero : (r.state 0).isInstrExceptionW = false :=
  r.zero_eq State.isInstrExceptionW fun _ => rfl

/-- `pending_exception_m` is up in exactly the cycles in which write-back is flagged: it is set when
an exception leaves the memory stage, and lasts one cycle unless another one follows. -/
theorem pendingExceptionM_eq (t : ℕ) :
    (r.state t).hazard.pendingExceptionM = (r.state t).isInstrExceptionW := by
  induction t with
  | zero =>
    rw [r.isInstrExceptionW_zero, r.zero_hazard]
    rfl
  | succ t ih =>
    rw [r.succ_isInstrExceptionW, r.succ_hazard]
    simp only [State.hazardNext, HazardUnit.pendingExceptionMNext, HazardUnit.setClear, ih]
    cases (r.state t).isInstrExceptionM <;> cases (r.state t).isInstrExceptionW <;> rfl

/-- A trap is taken in the cycle after an exception is flagged in the memory stage. -/
theorem succ_trapCaughtW (t : ℕ) :
    (r.state (t + 1)).trapCaughtW = (r.state t).isInstrExceptionM := by
  rw [State.trapCaughtW_eq, r.succ_isInstrExceptionW]

/-- A trap is taken in exactly the cycles in which `pending_exception_m` is up. -/
theorem trapCaughtW_eq_pendingExceptionM (t : ℕ) :
    (r.state t).trapCaughtW = (r.state t).hazard.pendingExceptionM := by
  rw [State.trapCaughtW_eq, r.pendingExceptionM_eq]

/-- A trap leaves decode, execute and the memory stage empty, whatever they held. -/
theorem empty_of_trap {t : ℕ} (htrap : (r.state t).trapCaughtW = true) :
    (r.state (t + 1)).d = 0 ∧ ((r.state (t + 1)).e = 0 ∧ (r.state (t + 1)).ce = 0) ∧
      (r.state (t + 1)).m = 0 ∧ (r.state (t + 1)).cm = 0 := by
  rw [r.trapCaughtW_eq_pendingExceptionM] at htrap
  have hd : (r.state t).flushD (r.inputs t) = true := by simp [State.flushD, htrap]
  have he : (r.state t).flushE = true := by simp [State.flushE, htrap]
  have hm : (r.state t).flushM = true := by simp [State.flushM, htrap]
  simp [r.succ_d, r.succ_e, r.succ_ce, r.succ_m, r.succ_cm, hd, he, hm]

/-- `div_pending` is set by a divide in decode and cleared by the end of a division, of which the
former has priority. -/
theorem succ_divPending (t : ℕ) :
    (r.state (t + 1)).hazard.divPending =
      if (r.state t).divInstrD then true
      else if (r.state t).divCompletedE then false
      else (r.state t).hazard.divPending := by
  rw [r.succ_hazard]
  rfl

/-! ## The ports -/

/-- The instruction port drives `cyc` and `stb` exactly while it is active. -/
theorem instrPort_cyc (t : ℕ) :
    (r.state t).instrPort.cyc = decide ((r.state t).instrPort.state = .active) ∧
      (r.state t).instrPort.stb = decide ((r.state t).instrPort.state = .active) := by
  induction t with
  | zero => simp
  | succ t ih =>
    rw [r.succ_instrPort]
    unfold InstrPort.next
    cases h : (r.state t).instrPort.state <;> simp only [h] at ih ⊢ <;> split_ifs <;> simp_all

/-- The data port drives `cyc` and `stb` exactly while it is active. -/
theorem dPort_cyc (t : ℕ) :
    (r.state t).dPort.cyc = decide ((r.state t).dPort.state = .active) ∧
      (r.state t).dPort.stb = decide ((r.state t).dPort.state = .active) := by
  induction t with
  | zero => simp
  | succ t ih =>
    rw [r.succ_dPort]
    unfold DataPort.next
    cases h : (r.state t).dPort.state <;> simp only [h] at ih ⊢ <;> split_ifs <;> simp_all

/-- An acknowledge of the instruction slave comes to an active port. -/
theorem InstrSlave.active {r : Run x} {rom : BitVec 32 → BitVec 32} (hi : r.InstrSlave rom) {t : ℕ}
    (h : (r.inputs t).instrWbAck = true) :
    (r.state t).instrPort.state = .active ∧
      (r.inputs t).instrWbData = rom (r.state t).instrPort.adr := by
  obtain ⟨hc, -, hd⟩ := hi t h
  rw [(r.instrPort_cyc t).1, decide_eq_true_eq] at hc
  exact ⟨hc, hd⟩

/-- An acknowledge of the data slave comes to an active port. -/
theorem DataSlave.active {r : Run x} (hd : r.DataSlave) {t : ℕ}
    (h : (r.inputs t).dWbAck = true) : (r.state t).dPort.state = .active := by
  have hc := (hd t h).1
  rwa [(r.dPort_cyc t).1, decide_eq_true_eq] at hc

end Run

end RvPipelineCore

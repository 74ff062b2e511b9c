import RvPipelineCore.Control.Words
import RvPipelineCore.Fetch
import RvPipelineCore.Order

/-!
# Control transfers and the branch predictor

Which instruction enters execute after the one that is there.

- `Run.control_transfer_resolves`: after a branch or a jump it is the one at the computed address,
  whatever the predictor says;
- `Run.plain_falls_through`: after any other instruction it is the one at the next address, exactly
  if the predictor did not predict another one when decode took the word of that instruction.

The tables say where this can happen: `Run.Exact.trained` ties a predicted address to a branch that
was taken in execute before.
-/

namespace RvPipelineCore

open Temporal

namespace State

variable (s : State)

/-- Only a conditional branch in execute is taken, since `branch_check` looks at the branch signal
first. -/
theorem takeBranchE_branch (h : s.takeBranchE = true) : s.ce.branch = true := by
  by_contra hb
  simp [takeBranchE, branchCheck, hb] at h

/-- The misprediction test compares the resolved address with the next instruction's. -/
theorem branchMispredict_eq (hv : s.e.validPc = true) :
    s.branchMispredict =
      if s.takeBranchE then (s.jumpPcTargetE != s.nextPc, false)
      else if s.ce.branch then (false, s.e.pcPlus4 != s.nextPc)
      else (false, false) := by
  have hb := s.takeBranchE_branch
  simp only [branchMispredict, branchMisprediction, nextPc, hv, if_true]
  cases hk : s.takeBranchE <;> cases hb' : s.ce.branch <;> cases hd : s.d.isDecodeFlush <;>
    simp_all

/-- The redirect of a valid instruction goes to the target of a jump or a taken branch, and to the
following address otherwise. -/
theorem jumpTargetE_of_pcSrcE (hv : s.e.validPc = true)
    (hbj : s.ce.branch = true → s.ce.jump = false) (h : s.pcSrcE = true) :
    s.jumpTargetE = if s.ce.jump || s.takeBranchE then s.jumpPcTargetE else s.e.pcPlus4 := by
  have hb := s.takeBranchE_branch
  simp only [pcSrcE, isMispredictTbranchE, isMispredictNtbranchE, s.branchMispredict_eq hv] at h
  simp only [jumpTargetE, isMispredictNtbranchE, s.branchMispredict_eq hv]
  cases hk : s.takeBranchE <;> cases hb' : s.ce.branch <;> cases hj : s.ce.jump <;> simp_all

/-- A branch that does not redirect was predicted right: the next instruction is already the one
after it. -/
theorem nextPc_of_not_pcSrcE (hv : s.e.validPc = true) (hb : s.ce.branch = true)
    (h : s.pcSrcE = false) :
    s.nextPc = if s.takeBranchE then s.jumpPcTargetE else s.e.pcPlus4 := by
  simp only [pcSrcE, isMispredictTbranchE, isMispredictNtbranchE, s.branchMispredict_eq hv, hb] at h
  cases hk : s.takeBranchE <;> simp_all

/-- The address that is fetched after the one in fetch, if nothing redirects the PC: the predicted
one if there is a prediction, and the following one otherwise. -/
def followPc : BitVec 32 :=
  if s.predictor.branchPredicted s.pcF then s.predictor.predictedPc s.pcF else s.pcPlus4F

/-- The PC goes on in sequence exactly if the prediction for the address in fetch, if there is one,
is the following address. -/
theorem followPc_eq_iff :
    s.followPc = s.pcF + 4 ↔
      (s.predictor.branchPredicted s.pcF = true → s.predictor.predictedPc s.pcF = s.pcF + 4) := by
  cases hp : s.predictor.branchPredicted s.pcF <;> simp [followPc, pcPlus4F, adder, hp]

end State

namespace Run

variable {x : DontCare} (r : Run x) {rom : BitVec 32 → BitVec 32}

/-! ## The instruction in execute -/

variable {r} in
/-- A branch in execute is a valid instruction, since a bubble has no control signals. -/
theorem e_valid_of_branch {t : ℕ} (h : (r.state t).ce.branch = true) :
    (r.state t).e.validPc = true :=
  e_valid_of (f := fun s => s.ce.branch) (fun s _ hc => by simp [hc]) h

variable {r} in
/-- A jump in execute is a valid instruction, since a bubble has no control signals. -/
theorem e_valid_of_jump {t : ℕ} (h : (r.state t).ce.jump = true) :
    (r.state t).e.validPc = true :=
  e_valid_of (f := fun s => s.ce.jump) (fun s _ hc => by simp [hc]) h

/-- A valid instruction in execute is what decode made of the word at its PC. -/
theorem e_decoded (hi : r.InstrSlave rom) (t : ℕ) (h : (r.state t).e.validPc = true) :
    ∃ u, r.stampE t = u + 1 ∧ (r.state u).entersE (r.inputs u) = true ∧
      (r.state t).e = (r.state u).executeInput x ∧ (r.state t).ce = (r.state u).controlInputE x ∧
      (r.state u).d.pc = (r.state t).e.pc ∧ (r.state u).d.instr = rom (r.state t).e.pc ∧
      (r.state u).mainDec x = decode x (rom (r.state t).e.pc) := by
  obtain ⟨u, hu, hin, he, hc⟩ := r.e_origin t h
  have hv := State.d_valid_of_entersE hin
  have hpc : (r.state u).d.pc = (r.state t).e.pc := by
    rw [he]
    rfl
  have hinstr : (r.state u).d.instr = rom (r.state t).e.pc := by
    rw [(r.d_coherent hi u hv).1, hpc]
  exact ⟨u, hu, hin, he, hc, hpc, hinstr, hinstr ▸ State.mainDec_of_valid _ x hv⟩

/-- The instruction in execute is illegal if and only if the word of the ROM at its address is. -/
theorem e_illegal (hi : r.InstrSlave rom) (t : ℕ) (h : (r.state t).e.validPc = true) :
    (r.state t).e.illegalInstruction = (decode x (rom (r.state t).e.pc)).illegalInstruction := by
  obtain ⟨u, -, -, he, -, -, -, hdec⟩ := r.e_decoded hi t h
  rw [← hdec, he]
  rfl

/-- The return address that the instruction in execute carries is four after its own address. -/
theorem e_pcPlus4 (hi : r.InstrSlave rom) (t : ℕ) (h : (r.state t).e.validPc = true) :
    (r.state t).e.pcPlus4 = (r.state t).e.pc + 4 := by
  obtain ⟨u, -, hin, he, -, hpc, -, -⟩ := r.e_decoded hi t h
  rw [← hpc, ← (r.d_coherent hi u (State.d_valid_of_entersE hin)).2, he]
  rfl

/-- The control signals of a legal instruction in execute are those of its kind. -/
theorem e_control (hi : r.InstrSlave rom) (t : ℕ) (h : (r.state t).e.validPc = true)
    (hl : (decode x (rom (r.state t).e.pc)).illegalInstruction = false) :
    (r.state t).ce.branch = isBranch (rom (r.state t).e.pc) ∧
      (r.state t).ce.jump = isJump (rom (r.state t).e.pc) ∧
      (r.state t).ce.mretInstr = isMret (rom (r.state t).e.pc) := by
  obtain ⟨u, -, -, -, hc, -, -, hdec⟩ := r.e_decoded hi t h
  obtain ⟨c, hsome, hof⟩ := decode_of_legal x hl
  have hout : (r.state u).outControlD x = c := by rw [State.outControlD, hdec, hsome]; rfl
  rw [hc]
  simp only [State.controlInputE, hout]
  exact ⟨hof.branch, hof.jump, hof.mret⟩

/-- Execute is empty after a cycle in which its instruction leaves, or there was none, and no other
one enters. -/
theorem e_empty_succ (t : ℕ)
    (h : (r.state t).e.validPc = false ∨ (r.state t).leavesE (r.inputs t) = true)
    (hin : (r.state t).entersE (r.inputs t) = false) : (r.state (t + 1)).e.validPc = false := by
  rw [r.succ_e_validPc, hin]
  rcases h with h | h <;> simp [h]

/-! ## The next instruction to enter execute -/

/-- The next instruction stays the same until it enters execute, if nothing redirects. -/
theorem pc_of_first_entry {t t₁ : ℕ}
    (hin : r.FirstEntry t t₁) (hsrc : ∀ v, t ≤ v → v < t₁ → (r.state v).pcSrcE = false)
    (htrap : ∀ v, t ≤ v → v < t₁ → (r.state v).trapCaughtW = false) :
    (r.state t₁).d.pc = (r.state t).nextPc := by
  have hstable : (r.state t₁).nextPc = (r.state t).nextPc :=
    eq_of_stable (f := fun v => (r.state v).nextPc) hin.le fun v hv hlt =>
      r.nextPc_succ v (hsrc v hv hlt) (htrap v hv hlt)
        (Bool.not_eq_true _ ▸ hin.not_before v hv hlt)
  rw [← hstable, State.nextPc, if_pos (State.d_valid_of_entersE hin.holds)]

/-- Once execute is empty it stays so until the next entry. -/
theorem e_empty_until {t t₁ : ℕ}
    (hin : r.FirstEntry t t₁)
    (h : (r.state t).e.validPc = false) :
    ∀ v, t ≤ v → v ≤ t₁ → (r.state v).e.validPc = false :=
  always_between h fun v hv hlt hempty =>
    r.e_empty_succ v (.inl hempty) (Bool.not_eq_true _ ▸ hin.not_before v hv hlt)

/-- A redirect does not let the instruction in decode enter execute. -/
theorem entersE_of_jumpInstr (t : ℕ) (hj : (r.state t).jumpInstr = true) :
    (r.state t).entersE (r.inputs t) = false := by
  simp [State.entersE, State.flushE, hj]

/-- After a branch, `jal`, `jalr` or `mret` that leaves execute in cycle `t` without an exception in
execute or ahead of it, the next instruction to enter execute before any trap is at the computed
target if it is a jump or a taken branch, and at the following address otherwise. -/
theorem control_transfer_resolves (hi : r.InstrSlave rom) (t t₁ : ℕ)
    (hv : (r.state t).e.validPc = true)
    (hw : isBranch (rom (r.state t).e.pc) = true ∨ isJump (rom (r.state t).e.pc) = true)
    (hleave : (r.state t).leavesE (r.inputs t) = true)
    (hee : (r.state t).isInstrExceptionE = false) (hem : (r.state t).isInstrExceptionM = false)
    (hew : (r.state t).isInstrExceptionW = false)
    (hin : r.FirstEntry t t₁) (hno : r.NoTrap t t₁) :
    (r.state t₁).d.pc =
      if isJump (rom (r.state t).e.pc) || (r.state t).takeBranchE then (r.state t).jumpPcTargetE
      else (r.state t).e.pc + 4 := by
  obtain ⟨hb, hj, -⟩ := r.e_control hi t hv (decode_legal_of_transfer x hw)
  have htrap : (r.state t).trapCaughtW = false := by rw [State.trapCaughtW_eq, hew]
  have hjump := State.jumpInstr_eq_pcSrcE hee hem hew
  have hp4 := r.e_pcPlus4 hi t hv
  have hbj : (r.state t).ce.branch = true → (r.state t).ce.jump = false := by
    rw [hb, hj]
    exact isJump_of_isBranch
  rw [← hb, ← hj] at hw
  rw [← hj]
  cases hsrc : (r.state t).pcSrcE with
  | true =>
    -- the redirect empties decode and execute
    rw [hsrc] at hjump
    have hno_entry := r.entersE_of_jumpInstr t hjump
    have hin' := hin.succ (by simp [hno_entry])
    have hempty := r.e_empty_until hin' (r.e_empty_succ t (.inr hleave) hno_entry)
    rw [r.pc_of_first_entry hin' (fun v hv hlt => r.pcSrcE_of_empty v (hempty v hv hlt.le))
      (fun v hv hlt => hno v hv hlt.le), r.nextPc_succ_of_jumpInstr t hjump]
    rw [(r.state t).jumpTargetE_of_pcSrcE hv hbj hsrc, hp4]
  | false =>
    have hempty : ∀ v, t < v → v ≤ t₁ → (r.state v).pcSrcE = false := by
      intro v hv' hle
      have hno_entry : (r.state t).entersE (r.inputs t) = false :=
        Bool.not_eq_true _ ▸ hin.not_before t le_rfl (by omega)
      exact r.pcSrcE_of_empty v (r.e_empty_until (hin.succ (by simp [hno_entry]))
        (r.e_empty_succ t (.inr hleave) hno_entry) v hv' hle)
    rw [r.pc_of_first_entry hin]
    · -- the prediction was right: the next instruction is already the one of the branch
      have hjf : (r.state t).ce.jump = false := by
        simp only [State.pcSrcE, Bool.or_eq_false_iff] at hsrc
        exact hsrc.1.2
      rw [(r.state t).nextPc_of_not_pcSrcE hv (by simpa [hjf] using hw) hsrc, hp4, hjf,
        Bool.false_or]
    · intro v hv' hlt
      rcases Nat.eq_or_lt_of_le hv' with rfl | hlt'
      · exact hsrc
      · exact hempty v hlt' hlt.le
    · intro v hv' hlt
      rcases Nat.eq_or_lt_of_le hv' with rfl | hlt'
      · exact htrap
      · exact hno v hlt' hlt.le

/-- The branch of the loop is taken against the prediction. -/
theorem control_transfer_resolves_loop : (loopBench.run₀.state 12).d.pc = 4 :=
  control_transfer_resolves loopBench.run₀ loopBench.run₀_instrSlave 7 12 (by decide +kernel)
    (.inl (by decide +kernel)) (by decide +kernel) (by decide +kernel) (by decide +kernel)
    (by decide +kernel) (by decide +kernel) (by decide +kernel)

/-! ## What the predictor knows -/

/-- The predictor tells two addresses apart only by their low 15 bits. -/
def SameEntry (pc pc' : BitVec 32) : Prop :=
  BranchPredictor.index pc = BranchPredictor.index pc' ∧
    BranchPredictor.tag pc = BranchPredictor.tag pc'

/-- Whether two addresses share an entry of the predictor with the same tag can be decided from
their bits. -/
instance (pc pc' : BitVec 32) : Decidable (SameEntry pc pc') :=
  inferInstanceAs (Decidable (_ ∧ _))

/-- An entry with a counter above zero carries the tag of a branch that was taken in execute. -/
theorem Exact.trained_entry {r : Run x} (h : r.Exact) (t : ℕ) (i : BitVec 7)
    (hi : (r.state t).predictor.pcPredict i ≠ 0) :
    ∃ u < t, (r.state u).takeBranchE = true ∧ BranchPredictor.index (r.state u).e.pc = i ∧
      BranchPredictor.tag (r.state u).e.pc = (r.state t).predictor.pcCheck i := by
  induction t with
  | zero =>
    obtain ⟨s, hs, hs'⟩ := h.start
    simp [hs', State.reset, hs, BranchPredictor.initial] at hi
  | succ t ih =>
    rw [h.succ_predictor] at hi ⊢
    rcases BranchPredictor.next_cases hi with ⟨hk, hidx, htag⟩ | ⟨hne, htag⟩
    · exact ⟨t, t.lt_succ_self, hk, hidx.symm, htag.symm⟩
    · obtain ⟨u, hu, hk, hidx, htag'⟩ := ih hne
      exact ⟨u, by omega, hk, hidx, htag'.trans htag.symm⟩

/-- An address is predicted only after a branch that shares its entry was taken. -/
theorem Exact.trained {r : Run x} (h : r.Exact) (t : ℕ) (pc : BitVec 32)
    (hp : (r.state t).predictor.branchPredicted pc = true) :
    ∃ u < t, (r.state u).takeBranchE = true ∧ SameEntry (r.state u).e.pc pc := by
  simp only [BranchPredictor.branchPredicted] at hp
  split_ifs at hp with hbit
  have hne : (r.state t).predictor.pcPredict (BranchPredictor.index pc) ≠ 0 := by
    intro hzero
    rw [hzero] at hbit
    exact absurd hbit (by decide)
  obtain ⟨u, hu, hk, hidx, htag⟩ := h.trained_entry t _ hne
  rw [BranchPredictor.pcCached, beq_iff_eq] at hp
  exact ⟨u, hu, hk, hidx, htag.trans hp⟩

/-! ## Instructions that do not transfer control -/

/-- A legal word that is neither a branch nor a jump. -/
structure Plain (x : DontCare) (w : BitVec 32) : Prop where
  not_branch : isBranch w = false
  not_jump : isJump w = false
  legal : (decode x w).illegalInstruction = false

/-- A plain instruction in execute, which is no branch and no jump, does not redirect fetch. -/
theorem Plain.pcSrcE {r : Run x} (hi : r.InstrSlave rom) {t : ℕ}
    (hv : (r.state t).e.validPc = true) (hp : Plain x (rom (r.state t).e.pc)) :
    (r.state t).pcSrcE = false := by
  obtain ⟨hb, hj, -⟩ := r.e_control hi t hv hp.legal
  rw [hp.not_branch] at hb
  rw [hp.not_jump] at hj
  have hk : (r.state t).takeBranchE = false := by simp [State.takeBranchE, branchCheck, hb]
  simp [State.pcSrcE, State.isMispredictNtbranchE, State.branchMispredict_eq _ hv, hb, hj, hk]

/-- A plain word has a prediction only after a branch elsewhere that shares its entry was taken. -/
theorem Exact.trained_elsewhere {r : Run x} (h : r.Exact) (hi : r.InstrSlave rom) (t : ℕ)
    {pc : BitVec 32} (hp : Plain x (rom pc))
    (hpred : (r.state t).predictor.branchPredicted pc = true) :
    ∃ v < t, (r.state v).takeBranchE = true ∧ (r.state v).e.pc ≠ pc ∧
      SameEntry (r.state v).e.pc pc := by
  obtain ⟨v, hv, hk, hsame⟩ := h.trained t pc hpred
  refine ⟨v, hv, hk, fun hpc => ?_, hsame⟩
  -- the word at that address would be a branch and plain
  have hb := State.takeBranchE_branch _ hk
  rw [← hpc] at hp
  obtain ⟨hb', -⟩ := r.e_control hi v (e_valid_of_branch hb) hp.legal
  simp [hb', hp.not_branch] at hb

/-- An exception in execute is in the memory stage one cycle later, unless execute is held or the
memory stage cleared. -/
theorem succ_isInstrExceptionM (t : ℕ) (he : (r.state t).isInstrExceptionE = true)
    (hs : (r.state t).stallE (r.inputs t) = false)
    (hpm : (r.state t).hazard.pendingExceptionM = false) :
    (r.state (t + 1)).isInstrExceptionM = true := by
  simp only [State.stallE, Bool.or_eq_false_iff] at hs
  have hm : (r.state (t + 1)).m = (r.state t).memoryInput := by
    rw [r.succ_m]
    simp [State.flushM, hs, hpm]
  simp only [State.isInstrExceptionE] at he
  simp only [State.isInstrExceptionM, hm, State.memoryInput]
  grind

/-- A redirect that does not flush is one with an exception in execute or ahead of it. -/
private theorem exception_of_not_jumpInstr (t : ℕ) (hsrc : (r.state t).pcSrcE = true)
    (hj : (r.state t).jumpInstr = false) (hpm : (r.state t).hazard.pendingExceptionM = false) :
    (r.state t).isInstrExceptionE = true ∨ (r.state t).isInstrExceptionM = true := by
  have hw := r.pendingExceptionM_eq t
  rw [hpm] at hw
  simp only [State.jumpInstr, hsrc, ← hw] at hj
  grind

/-! ## The cycle in which decode takes the word of an instruction -/

/-- Decode takes the word of the instruction that is in execute in cycle `t` at the end of cycle
`u`: it takes a word then, and no other until that instruction enters execute. -/
structure FetchedAt (u t : ℕ) : Prop where
  loads : (r.state u).decodeLoads (r.inputs u) = true
  before : u + 1 < r.stampE t
  last : ∀ v < r.stampE t, u < v → v + 1 < r.stampE t →
    (r.state v).decodeLoads (r.inputs v) = false

/-- Whether a cycle is the one in which the instruction with this stamp was fetched can be decided,
by looking at the loads of decode after it. -/
instance (u t : ℕ) : Decidable (r.FetchedAt u t) :=
  decidable_of_iff ((r.state u).decodeLoads (r.inputs u) = true ∧ u + 1 < r.stampE t ∧
    ∀ v < r.stampE t, u < v → v + 1 < r.stampE t →
      (r.state v).decodeLoads (r.inputs v) = false)
    ⟨fun h => ⟨h.1, h.2.1, h.2.2⟩, fun h => ⟨h.loads, h.before, h.last⟩⟩

/-- A valid word in decode was taken in an earlier cycle, and decode has taken none since. -/
theorem exists_load (t : ℕ) (h : (r.state t).d.isDecodeFlush = true) :
    ∃ u < t, (r.state u).decodeLoads (r.inputs u) = true ∧
      ∀ v, u < v → v < t → (r.state v).decodeLoads (r.inputs v) = false := by
  induction t with
  | zero => simp at h
  | succ t ih =>
    rcases r.d_cases t with ⟨hl, -⟩ | ⟨-, hd⟩ | ⟨-, hs, hd⟩
    · exact ⟨t, t.lt_succ_self, hl, fun v hv hlt => by omega⟩
    · simp [hd] at h
    · -- decode holds its word over cycle `t`
      rw [hd] at h
      obtain ⟨u, hu, hl, hlast⟩ := ih h
      refine ⟨u, by omega, hl, fun v hv hlt => ?_⟩
      rcases Nat.lt_succ_iff_lt_or_eq.mp hlt with hlt' | rfl
      · exact hlast v hv hlt'
      · simp [State.decodeLoads, hs]

/-- The word of a valid instruction in execute was taken by decode in some cycle. -/
theorem exists_fetchedAt (t : ℕ) (h : (r.state t).e.validPc = true) : ∃ u, r.FetchedAt u t := by
  obtain ⟨q, hst, hin, -, -⟩ := r.e_origin t h
  obtain ⟨u, hu, hl, hlast⟩ := r.exists_load q (State.d_valid_of_entersE hin)
  exact ⟨u, hl, by omega, fun v _ huv hv => hlast v huv (by omega)⟩

/-- As long as decode holds the word that it took in cycle `u`, the address after it is being
fetched, unless the word is about to be removed by an exception ahead of it. -/
theorem decode_held {u v : ℕ} (hl : (r.state u).decodeLoads (r.inputs u) = true) (huv : u + 1 ≤ v)
    (hlast : ∀ w, u < w → w < v → (r.state w).decodeLoads (r.inputs w) = false)
    (hv : (r.state v).d.isDecodeFlush = true) :
    (r.state v).d.pc = (r.state u).pcF ∧
      ((r.state v).pcF = (r.state u).followPc ∨ (r.state v).isInstrExceptionM = true ∨
        (r.state v).isInstrExceptionW = true) := by
  -- decode has just loaded the word, or it holds the word and the PC stands still
  induction v, huv using Nat.le_induction with
  | base =>
    obtain ⟨-, -, hse, -, -, hj, -, hpm⟩ := State.decodeLoads_eq_true hl
    rw [r.succ_isInstrExceptionW, r.succ_d_of_decodeLoads hl]
    refine ⟨rfl, ?_⟩
    cases hsrc : (r.state u).pcSrcE with
    | true =>
      rcases r.exception_of_not_jumpInstr u hsrc hj hpm with he | hm
      · exact .inr (.inl (r.succ_isInstrExceptionM u he hse hpm))
      · exact .inr (.inr hm)
    | false =>
      have htrap : (r.state u).trapCaughtW = false := by
        rw [r.trapCaughtW_eq_pendingExceptionM, hpm]
      refine .inl ?_
      rw [r.succ_pcF, State.pcEnable_of_decodeLoads hl, flopenr_true]
      simp [State.pcNextF, State.followPc, htrap, hsrc]
  | succ v huv ih =>
    rw [r.succ_isInstrExceptionW]
    rcases r.d_cases v with ⟨hlv, -⟩ | ⟨-, hd⟩ | ⟨hf, hs, hd⟩
    · simp [hlast v huv v.lt_succ_self] at hlv
    · simp [hd] at hv
    · rw [hd] at hv ⊢
      simp only [State.flushD, Bool.or_eq_false_iff] at hf
      obtain ⟨⟨⟨hj, -⟩, -⟩, hpm⟩ := hf
      have hew : (r.state v).isInstrExceptionW = false := by rw [← r.pendingExceptionM_eq, hpm]
      obtain ⟨hpc, hnext⟩ := ih (fun w hw hlt => hlast w hw (by omega)) hv
      refine ⟨hpc, ?_⟩
      rcases hnext with hpcF | hm | hw
      · cases hsrc : (r.state v).pcSrcE with
        | true =>
          rcases r.exception_of_not_jumpInstr v hsrc hj hpm with he | hm
          · -- the redirect is gated by the exception, and the plain enable by the stall of decode
            have hen : (r.state v).pcEnable (r.inputs v) = false := by
              simp [State.pcEnable, State.stallF, hs, he, State.trapCaughtW_eq, hew]
            rw [r.succ_pcF, hen, flopenr_false]
            exact .inl hpcF
          · exact .inr (.inr hm)
        | false =>
          rw [r.succ_pcF_of_not_decodeLoads v hsrc (by rw [State.trapCaughtW_eq, hew])
            (by simp [State.decodeLoads, hs])]
          exact .inl hpcF
      · exact .inr (.inr hm)
      · simp [hew] at hw

/-- The instruction after a plain one in execute is the one whose address was fetched after it,
unless an exception ahead is about to remove both. -/
theorem nextPc_after_plain (hi : r.InstrSlave rom) {u t : ℕ} (hu : r.FetchedAt u t)
    (hv : (r.state t).e.validPc = true) (hp : Plain x (rom (r.state t).e.pc)) :
    (r.state t).e.pc = (r.state u).pcF ∧
      ((r.state t).nextPc = (r.state u).followPc ∨ (r.state t).isInstrExceptionM = true ∨
        (r.state t).isInstrExceptionW = true) := by
  -- execute has just taken the instruction, or it holds it
  induction t with
  | zero => simp at hv
  | succ t ih =>
    rw [r.succ_isInstrExceptionW]
    have hkept : (r.state t).flushE = false → (r.state t).jumpInstr = false ∧
        (r.state t).hazard.pendingExceptionM = false := by
      intro hf
      simp only [State.flushE, Bool.or_eq_false_iff] at hf
      exact ⟨hf.1.1.2, hf.2⟩
    rcases r.e_cases t with ⟨-, he, -⟩ | ⟨hf, hs, he, -, hst⟩ | ⟨hf, hs, he, -, hst⟩
    · simp [he] at hv
    · obtain ⟨hj, hpm⟩ := hkept hf
      have hew : (r.state t).isInstrExceptionW = false := by rw [← r.pendingExceptionM_eq, hpm]
      have htrap : (r.state t).trapCaughtW = false := by rw [State.trapCaughtW_eq, hew]
      rw [he] at hv ⊢
      have hin : (r.state t).entersE (r.inputs t) = true := by
        simp only [State.entersE, hf, hs, Bool.not_false, Bool.and_true]
        exact hv
      obtain ⟨hpc, hnext⟩ := r.decode_held hu.loads (by have := hu.before; omega)
        (fun w huw hw => hu.last w (by omega) huw (by omega)) (State.d_valid_of_entersE hin)
      refine ⟨hpc, ?_⟩
      rcases hnext with hpcF | hm | hw
      · cases hsrc : (r.state t).pcSrcE with
        | true =>
          rcases r.exception_of_not_jumpInstr t hsrc hj hpm with hee | hm
          · exact .inr (.inl (r.succ_isInstrExceptionM t hee hs hpm))
          · exact .inr (.inr hm)
        | false => exact .inl ((r.nextPc_succ_of_entersE t hsrc htrap hin).trans hpcF)
      · exact .inr (.inr hm)
      · simp [hew] at hw
    · obtain ⟨-, hpm⟩ := hkept hf
      have hew : (r.state t).isInstrExceptionW = false := by rw [← r.pendingExceptionM_eq, hpm]
      have htrap : (r.state t).trapCaughtW = false := by rw [State.trapCaughtW_eq, hew]
      rw [he] at hv hp ⊢
      obtain ⟨hpc, hnext⟩ := ih ⟨hu.loads, hst ▸ hu.before, hst ▸ hu.last⟩ hv hp
      refine ⟨hpc, ?_⟩
      rcases hnext with hn | hm | hw
      · refine .inl ((r.nextPc_succ t (Plain.pcSrcE hi hv hp) htrap ?_).trans hn)
        simp [State.entersE, hs]
      · exact .inr (.inr hm)
      · simp [hew] at hw

/-- The next instruction to enter execute after a plain one, before any trap, is the one that is on
its way there: nothing redirects in between. -/
theorem pc_after_plain (hi : r.InstrSlave rom) {t t₁ : ℕ} (hv : (r.state t).e.validPc = true)
    (hp : Plain x (rom (r.state t).e.pc)) (hew : (r.state t).isInstrExceptionW = false)
    (hin : r.FirstEntry t t₁) (hno : r.NoTrap t t₁) :
    (r.state t₁).d.pc = (r.state t).nextPc := by
  -- until the next entry, execute holds this instruction or nothing
  have hsame : ∀ v, t ≤ v → v ≤ t₁ → (r.state v).e.validPc = false ∨
      (r.state v).e = (r.state t).e := by
    refine always_between (.inr rfl) fun v hv hlt hsame => ?_
    have hno_entry : (r.state v).entersE (r.inputs v) = false :=
      Bool.not_eq_true _ ▸ hin.not_before v hv hlt
    rcases hsame with hempty | hsame
    · exact .inl (r.e_empty_succ v (.inl hempty) hno_entry)
    · cases hl : (r.state v).leavesE (r.inputs v) with
      | true => exact .inl (r.e_empty_succ v (.inr hl) hno_entry)
      | false =>
        right
        rw [r.succ_e, ← hsame]
        simp only [State.leavesE, Bool.or_eq_false_iff] at hl
        rw [hl.1, hl.2, flopenrc_hold]
  rw [r.pc_of_first_entry hin]
  · intro v hv' hlt
    rcases hsame v hv' hlt.le with hempty | hs
    · exact r.pcSrcE_of_empty v hempty
    · exact Plain.pcSrcE hi (by rw [hs, hv]) (by rw [hs]; exact hp)
  · intro v hv' hlt
    rcases Nat.eq_or_lt_of_le hv' with rfl | hlt'
    · rw [State.trapCaughtW_eq, hew]
    · exact hno v hlt' hlt.le

/-- After a plain instruction in execute with no exception in execute or ahead of it, the next
instruction to enter execute before any trap is at the following address exactly if, in the cycle in
which decode took the word of the plain one, the predictor predicted no other address after it. It
does so only after a branch at another address that shares the entry was taken. -/
theorem plain_falls_through (h : r.Exact) (hi : r.InstrSlave rom) (t t₁ : ℕ)
    (hv : (r.state t).e.validPc = true)
    (hb : isBranch (rom (r.state t).e.pc) = false) (hj : isJump (rom (r.state t).e.pc) = false)
    (hee : (r.state t).isInstrExceptionE = false) (hem : (r.state t).isInstrExceptionM = false)
    (hew : (r.state t).isInstrExceptionW = false)
    (hin : r.FirstEntry t t₁) (hno : r.NoTrap t t₁) :
    (∃ u, r.FetchedAt u t) ∧ ∀ u, r.FetchedAt u t →
      ((r.state t₁).d.pc = (r.state t).e.pc + 4 ↔
        ((r.state u).predictor.branchPredicted (r.state t).e.pc = true →
          (r.state u).predictor.predictedPc (r.state t).e.pc = (r.state t).e.pc + 4)) ∧
      ((r.state u).predictor.branchPredicted (r.state t).e.pc = true →
        ∃ v < u, (r.state v).takeBranchE = true ∧ (r.state v).e.pc ≠ (r.state t).e.pc ∧
          SameEntry (r.state v).e.pc (r.state t).e.pc) := by
  have hp : Plain x (rom (r.state t).e.pc) := by
    refine ⟨hb, hj, ?_⟩
    rw [← r.e_illegal hi t hv]
    simp only [State.isInstrExceptionE, Bool.or_eq_false_iff] at hee
    exact hee.1.1
  refine ⟨r.exists_fetchedAt t hv, fun u hu => ⟨?_, h.trained_elsewhere hi u hp⟩⟩
  obtain ⟨hpc, hnext⟩ := r.nextPc_after_plain hi hu hv hp
  simp only [hem, hew, Bool.false_eq_true, or_false] at hnext
  rw [r.pc_after_plain hi hv hp hew hin hno, hnext, hpc, State.followPc_eq_iff]

/-- The loop has trained the entry of its branch at address 8 when decode takes the `lui` at address
12, which has another entry: the instruction after it is the one at address 16. -/
theorem plain_falls_through_loop : (loopBench.run₀.state 34).d.pc = 16 :=
  have hpc : (loopBench.run₀.state 33).e.pc + 4 = 16 := by decide +kernel
  hpc ▸ ((plain_falls_through loopBench.run₀ loopBench.run₀_exact loopBench.run₀_instrSlave 33 34
    (by decide +kernel) (by decide +kernel) (by decide +kernel) (by decide +kernel)
    (by decide +kernel) (by decide +kernel) (by decide +kernel) (by decide +kernel)).2 31
      (by decide +kernel)).1.mpr (by decide +kernel)

/-- The `nop` at `0x8008` shares its entry with the branch at address 8, which the loop has trained:
after it the core executes the instruction at address 4. -/
theorem plain_diverted :
    ∃ (r : Run TestBench.zeros) (rom : BitVec 32 → BitVec 32) (t t₁ : ℕ),
      r.Exact ∧ r.InstrSlave rom ∧ r.DataSlave ∧ (r.state t).e.validPc = true ∧
        isBranch (rom (r.state t).e.pc) = false ∧ isJump (rom (r.state t).e.pc) = false ∧
        (r.state t).isInstrExceptionE = false ∧ (r.state t).isInstrExceptionM = false ∧
        (r.state t).isInstrExceptionW = false ∧ r.FirstEntry t t₁ ∧ r.NoTrap t t₁ ∧
        (r.state t).e.pc = 0x8008 ∧ (r.state t₁).d.pc = 4 :=
  ⟨loopBench.run₀, loopBench.rom, 43, 44, loopBench.run₀_exact, loopBench.run₀_instrSlave,
    loopBench.run₀_dataSlave, by decide +kernel⟩

end Run

end RvPipelineCore

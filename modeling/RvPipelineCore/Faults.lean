import RvPipelineCore.Progress
import RvPipelineCore.Redirect

/-!
# Faults and addresses in runs with slow slaves

Two facts about what the pipeline carries in a run with slaves that wait.

- `Run.SingleFault`: the faults of an instruction exclude each other, and a faulty instruction
  writes no CSR. The latch of the main decoder matters here: a word it does not decode gets the
  control signals of the bubble before it.
- `Run.EvenPc`: every instruction address is even, so `mepc` holds it entirely.
-/

namespace RvPipelineCore

namespace State

variable {s : State}

/-- Only a branch or a jump in execute redirects fetch. -/
theorem branch_or_jump_of_pcSrcE (h : s.pcSrcE = true) : s.ce.branch = true ∨ s.ce.jump = true := by
  by_contra hcon
  rw [not_or, Bool.not_eq_true, Bool.not_eq_true] at hcon
  obtain ⟨hb, hj⟩ := hcon
  have hk : s.takeBranchE = false := by simp [takeBranchE, branchCheck, hb]
  simp [pcSrcE, isMispredictNtbranchE, branchMispredict, branchMisprediction, hb, hj, hk] at h

/-- Only a store is flagged as a misaligned store, since the check looks at the write signal
first. -/
theorem memWrite_of_storeMisalignedM (h : s.storeMisalignedM = true) : s.cm.memWrite = true := by
  by_contra hw
  simp [storeMisalignedM, storeMisaligned, hw] at h

/-- Only a load is flagged as a misaligned load, since the check excludes the stores. -/
theorem load_of_loadMisalignedM (h : s.loadMisalignedM = true) :
    s.cm.loadStore = true ∧ s.cm.memWrite = false := by
  simp only [loadMisalignedM, loadMisaligned] at h
  split_ifs at h with hl
  simpa using hl

end State

namespace Run

variable {x : DontCare} {r : Run x} {rom : BitVec 32 → BitVec 32}

/-! ## One fault at a time -/

/-- An illegal instruction in execute is no branch, no jump, no CSR write, no environment call and
no access, because its control signals are those of the bubble before it. -/
theorem Delayed.e_of_illegal (h : r.Delayed rom) {t : ℕ} (hv : (r.state t).e.validPc = true)
    (hill : (r.state t).e.illegalInstruction = true) :
    (r.state t).ce.branch = false ∧ (r.state t).ce.jump = false ∧
      (r.state t).e.csrWrite = false ∧ (r.state t).e.envCallInstr = false ∧
      (r.state t).ce.loadStore = false ∧ (r.state t).ce.memWrite = false := by
  obtain ⟨u, -, hin, he, hc⟩ := r.e_origin t hv
  have hd := State.d_valid_of_entersE hin
  have hdec := (r.state u).mainDec_of_valid x hd
  -- a word that is not decoded gets the latch, which is clear
  have hout : (r.state u).outControlD x = 0 := by
    rw [State.outControlD, hdec, h.outControl_eq_zero hd]
    rcases decode_cases x (r.state u).d.instr with ⟨c, hcd, -⟩ | ⟨o, hod, ho⟩
    · rw [he] at hill
      simp only [State.executeInput, State.illegalInstructionD, hdec, hcd] at hill
      exact absurd hill Bool.false_ne_true
    · rw [hod]
      exact ho
  rw [hc, he]
  simp only [State.controlInputE, State.executeInput, hout]
  exact ⟨rfl, rfl, rfl, rfl, rfl, rfl⟩

/-- The faults of the instruction in the memory stage exclude each other, and neither a faulty
instruction nor a load or store writes a CSR. -/
structure SingleFault (s : State) : Prop where
  illegal : s.m.illegalInstruction = true → s.m.instrAddrMisaligned = false ∧
    s.m.envCallInstr = false ∧ s.cm.loadStore = false ∧ s.cm.memWrite = false ∧
    s.m.csrWrite = false
  transfer : s.m.instrAddrMisaligned = true → s.m.envCallInstr = false ∧
    s.cm.loadStore = false ∧ s.cm.memWrite = false ∧ s.m.csrWrite = false
  env : s.m.envCallInstr = true → s.cm.loadStore = false ∧ s.cm.memWrite = false ∧
    s.m.csrWrite = false
  loadStore : s.cm.loadStore = true → s.m.csrWrite = false
  store : s.cm.memWrite = true → s.cm.loadStore = true

/-- In a run with waiting slaves the instruction in the memory stage has a single fault at most. -/
theorem Delayed.singleFault (h : r.Delayed rom) {t : ℕ} (hv : (r.state t).m.validPc = true) :
    SingleFault (r.state t) := by
  obtain ⟨q, -, hvq, -, -, hm, hc⟩ := r.m_origin t hv
  have hsrc : (r.state q).misalignedPcE = true →
      (r.state q).ce.branch = true ∨ (r.state q).ce.jump = true := by
    intro hmis
    simp only [State.misalignedPcE, Bool.and_eq_true] at hmis
    exact State.branch_or_jump_of_pcSrcE hmis.1
  -- an illegal word carries no control signals; a legal one those of its kind
  cases hill : (r.state q).e.illegalInstruction with
  | true =>
    obtain ⟨hb, hj, hcsr, henv, hls, hmw⟩ := h.e_of_illegal hvq hill
    have hmis : (r.state q).misalignedPcE = false := by
      by_contra hcon
      have := hsrc (Bool.not_eq_false _ ▸ hcon)
      simp [hb, hj] at this
    constructor <;>
      simp [hm, hc, State.memoryInput, State.controlInputM, hmis, henv, hls, hmw, hcsr]
  | false =>
    obtain ⟨u, -, -, he, hce, -, hof⟩ := r.e_origin_legal q hvq hill
    have hls : (r.state q).ce.loadStore = true → (r.state q).ce.branch = false ∧
        (r.state q).ce.jump = false ∧ (r.state q).e.csrWrite = false ∧
        (r.state q).e.envCallInstr = false := by
      rw [he, hce]
      intro hl
      obtain ⟨hb, hj, hcsr, henv, -⟩ := hof.loadStore hl
      exact ⟨hb, hj, hcsr, henv⟩
    have htr : (r.state q).ce.branch = true ∨ (r.state q).ce.jump = true →
        (r.state q).e.csrWrite = false ∧ (r.state q).e.envCallInstr = false := by
      rw [he, hce]
      exact hof.transfer
    have henv : (r.state q).e.envCallInstr = true → (r.state q).e.csrWrite = false := by
      rw [he]
      exact fun hev => (hof.env hev).1
    have hmw : (r.state q).ce.memWrite = true → (r.state q).ce.loadStore = true := by
      rw [hce]
      exact hof.memWrite
    have hnmw : (r.state q).ce.loadStore = false → (r.state q).ce.memWrite = false := by
      intro hno
      by_contra hw
      simp [hmw (Bool.not_eq_false _ ▸ hw)] at hno
    constructor <;> simp only [hm, hc, State.memoryInput, State.controlInputM]
    · simp [hill]
    · intro hmis
      have hbj := hsrc hmis
      have hno : (r.state q).ce.loadStore = false := by
        by_contra hl
        obtain ⟨hb, hj, -⟩ := hls (Bool.not_eq_false _ ▸ hl)
        simp [hb, hj] at hbj
      exact ⟨(htr hbj).2, hno, hnmw hno, (htr hbj).1⟩
    · intro hev
      have hno : (r.state q).ce.loadStore = false := by
        by_contra hl
        simp [(hls (Bool.not_eq_false _ ▸ hl)).2.2.2] at hev
      exact ⟨hno, hnmw hno, henv hev⟩
    · exact fun hl => (hls hl).2.2.1
    · exact hmw

/-- No two of the five faults are flagged together, in the order in which `mtrap_cause` looks at
them. -/
theorem SingleFault.pairwise {s : State} (h : SingleFault s) :
    [s.m.instrAddrMisaligned, s.m.illegalInstruction, s.loadMisalignedM, s.storeMisalignedM,
      s.m.envCallInstr].Pairwise fun a b => a = true → b = false := by
  have hload := State.load_of_loadMisalignedM (s := s)
  have hstore := State.memWrite_of_storeMisalignedM (s := s)
  obtain ⟨hill, htransfer, henv, -, -⟩ := h
  simp only [List.pairwise_cons, List.mem_cons, List.not_mem_nil, or_false, forall_eq_or_imp,
    forall_eq]
  grind

/-- An instruction with a fault of its own writes no CSR. -/
theorem SingleFault.csrWrite {s : State} (h : SingleFault s) (hx : s.syncExceptionM = true) :
    s.m.csrWrite = false := by
  simp only [State.syncExceptionM, Bool.or_eq_true] at hx
  rcases hx with (((hx | hx) | hx) | hx) | hx
  · exact (h.transfer hx).2.2.2
  · exact (h.illegal hx).2.2.2.2
  · exact h.loadStore (h.store (State.memWrite_of_storeMisalignedM hx))
  · exact h.loadStore (State.load_of_loadMisalignedM hx).1
  · exact (h.env hx).2.2

/-! ## Even addresses -/

/-- The lowest bit of a sum is the exclusive or of the lowest bits. -/
theorem getLsbD_zero_add (a b : BitVec 32) :
    (a + b).getLsbD 0 = xor (a.getLsbD 0) (b.getLsbD 0) := by
  rw [BitVec.getLsbD_add (by decide), BitVec.carry_zero, Bool.xor_false]

/-- A target is even if its last bit is cut off, or if it is the sum of two even numbers. -/
theorem jumpPcTargetE_even_of {s : State} (hpc : s.e.pc.getLsbD 0 = false)
    (h : s.ce.mretInstr = true ∨ s.e.op = 0b1100111 ∨
      s.ce.pcTargetSrc = true ∧ s.e.immExt.getLsbD 0 = false) :
    s.jumpPcTargetE.getLsbD 0 = false := by
  simp only [State.jumpPcTargetE, State.pcTargetE]
  split_ifs with hmret hop
  · exact Bits.getLsbD_append_zero _
  · exact Bits.getLsbD_append_zero _
  · obtain ⟨hsrc, himm⟩ := (h.resolve_left hmret).resolve_left hop
    simp only [State.pcTargetCalcE, State.pcSrcAE, hsrc, adder, mux2, if_true, getLsbD_zero_add,
      hpc, himm, Bool.xor_false]

/-- The target of a legal branch or jump at an even address is even. -/
theorem jumpPcTargetE_even {t : ℕ}
    (hbj : (r.state t).ce.branch = true ∨ (r.state t).ce.jump = true)
    (hill : (r.state t).e.illegalInstruction = false) (hpc : (r.state t).e.pc.getLsbD 0 = false) :
    (r.state t).jumpPcTargetE.getLsbD 0 = false := by
  have hv : (r.state t).e.validPc = true := hbj.elim e_valid_of_branch e_valid_of_jump
  obtain ⟨u, -, -, he, hc, hsome, hof⟩ := r.e_origin_legal t hv hill
  rw [hc] at hbj
  have hkind : isBranch (r.state u).d.instr = true ∨ isJump (r.state u).d.instr = true := by
    rw [← hof.branch, ← hof.jump]
    exact hbj
  simp only [isBranch, isJump, Bool.or_eq_true, beq_iff_eq] at hkind
  -- `jalr` and `mret` cut the last bit off, a branch and `jal` add an even immediate
  refine jumpPcTargetE_even_of hpc ?_
  rw [he, hc]
  rcases hkind with hw | (hw | hw) | hw
  · have hout := Option.some.inj ((decode_branch x hw) ▸ hsome)
    refine .inr (.inr ⟨?_, extendImm_even _ (.inl ?_)⟩)
    · rw [State.controlInputE, ← hout]
    · rw [← hout]
  · have hout := Option.some.inj ((decode_jal x hw) ▸ hsome)
    refine .inr (.inr ⟨?_, extendImm_even _ (.inr ?_)⟩)
    · rw [State.controlInputE, ← hout]
    · rw [← hout]
  · exact .inr (.inl hw)
  · exact .inl (hof.mret.trans hw)

/-- The target of a branch or jump at an even address is even. -/
theorem Delayed.jumpPcTargetE_even (h : r.Delayed rom) {t : ℕ}
    (hbj : (r.state t).ce.branch = true ∨ (r.state t).ce.jump = true)
    (hpc : (r.state t).e.pc.getLsbD 0 = false) :
    (r.state t).jumpPcTargetE.getLsbD 0 = false := by
  refine Run.jumpPcTargetE_even hbj ?_ hpc
  -- an illegal word does not redirect
  by_contra hill
  obtain ⟨hb, hj, -⟩ := h.e_of_illegal (hbj.elim e_valid_of_branch e_valid_of_jump)
    (Bool.not_eq_false _ ▸ hill)
  simp [hb, hj] at hbj

/-- Every address of the front end is even, those in the predictor included. -/
structure EvenPc (s : State) : Prop where
  fetch : s.pcF.getLsbD 0 = false
  decode : s.d.pc.getLsbD 0 = false
  execute : s.e.pc.getLsbD 0 = false
  predictor : ∀ i, (s.predictor.pcBuffer i).getLsbD 0 = false

/-- If all addresses of the front end are even, so is the address to which execute redirects
fetch. -/
theorem EvenPc.jumpTargetE (h : r.Delayed rom) {t : ℕ} (hs : EvenPc (r.state t))
    (hsrc : (r.state t).pcSrcE = true) : (r.state t).jumpTargetE.getLsbD 0 = false := by
  simp only [State.jumpTargetE]
  split_ifs
  · rw [r.e_pcPlus4 h.instr t (e_valid_of_pcSrcE hsrc), getLsbD_zero_add, hs.execute]
    rfl
  · exact h.jumpPcTargetE_even (State.branch_or_jump_of_pcSrcE hsrc) hs.execute

/-- If all addresses of the front end are even, so is the next address that fetch goes to. -/
theorem EvenPc.pcNextF (h : r.Delayed rom) {t : ℕ} (hs : EvenPc (r.state t)) :
    (r.state t).pcNextF.getLsbD 0 = false := by
  simp only [State.pcNextF]
  split_ifs with _ hsrc
  · rw [CsrExec.trapJumpAddr, BitVec.getLsbD_append]
    rfl
  · exact hs.jumpTargetE h hsrc
  · exact hs.predictor _
  · rw [State.pcPlus4F, adder, getLsbD_zero_add, hs.fetch]
    rfl

/-- In an exact run with waiting slaves all addresses of the front end are even in every cycle. -/
theorem Exact.evenPc (hx : r.Exact) (h : r.Delayed rom) (t : ℕ) : EvenPc (r.state t) := by
  induction t with
  | zero =>
    obtain ⟨s, hs, hs'⟩ := hx.start
    rw [hs']
    refine ⟨BitVec.getLsbD_zero, BitVec.getLsbD_zero, BitVec.getLsbD_zero, fun i => ?_⟩
    simp [State.reset, hs, BranchPredictor.initial]
  | succ t ih =>
    -- each register takes an address from one of the others
    refine ⟨?_, ?_, ?_, fun i => ?_⟩
    · rw [r.succ_pcF]
      unfold flopenr
      split_ifs
      · exact ih.pcNextF h
      · exact ih.fetch
    · rcases r.d_cases t with ⟨-, hd⟩ | ⟨-, hd⟩ | ⟨-, -, hd⟩ <;> rw [hd]
      · exact ih.fetch
      · rfl
      · exact ih.decode
    · rcases r.e_cases t with ⟨-, he, -⟩ | ⟨-, -, he, -, -⟩ | ⟨-, -, he, -, -⟩ <;> rw [he]
      · rfl
      · exact ih.decode
      · exact ih.execute
    · rw [hx.succ_predictor, BranchPredictor.next]
      split_ifs with hb
      · dsimp only
        split_ifs
        · exact h.jumpPcTargetE_even (.inl hb) ih.execute
        · exact ih.predictor i
      · exact ih.predictor i

end Run

end RvPipelineCore

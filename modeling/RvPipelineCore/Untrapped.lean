import RvPipelineCore.Alignment
import RvPipelineCore.Execute

/-!
# Programs that do not trap

`Run.Exact.untrapped`: without interrupts, the run of a program whose words cannot trap (`Tame`)
takes no trap. It is for runs in which something else goes wrong.
-/

namespace RvPipelineCore

/-- A word that cannot trap at an aligned address: it is legal, no branch and no call of the
environment, it jumps, if at all, to a word relative to the PC, and accesses memory, if at all, at
an aligned offset from `x0`. -/
structure Tame (x : DontCare) (w : BitVec 32) : Prop where
  legal : (decode x w).illegalInstruction = false
  not_branch : isBranch w = false
  jump : isJump w = true → (opcodeOf w ≠ 0b1100111 ∧ (controlOf x w).mretInstr = false) ∧
    (controlOf x w).pcTargetSrc = true ∧ Aligned (extendImm w (controlOf x w).immSrc)
  env : (controlOf x w).envCallInstr = false
  access : (controlOf x w).loadStore = true → (rs1Of w = 0 ∧ (controlOf x w).aluSrcA = false) ∧
    (controlOf x w).aluSrcB = true ∧ Aligned (extendImm w (controlOf x w).immSrc)

/-- Whether a word is tame can be decided from its fields and the control signals that it drives. -/
instance (x : DontCare) (w : BitVec 32) : Decidable (Tame x w) :=
  decidable_of_iff
    ((decode x w).illegalInstruction = false ∧ isBranch w = false ∧
      (isJump w = true → (opcodeOf w ≠ 0b1100111 ∧ (controlOf x w).mretInstr = false) ∧
        (controlOf x w).pcTargetSrc = true ∧ Aligned (extendImm w (controlOf x w).immSrc)) ∧
      (controlOf x w).envCallInstr = false ∧
      ((controlOf x w).loadStore = true → (rs1Of w = 0 ∧ (controlOf x w).aluSrcA = false) ∧
        (controlOf x w).aluSrcB = true ∧ Aligned (extendImm w (controlOf x w).immSrc)))
    ⟨fun h => ⟨h.1, h.2.1, h.2.2.1, h.2.2.2.1, h.2.2.2.2⟩,
      fun h => ⟨h.legal, h.not_branch, h.jump, h.env, h.access⟩⟩

namespace Run

variable {x : DontCare} {r : Run x} {rom : BitVec 32 → BitVec 32} {t : ℕ}

/-- A legal instruction in execute is the decoded word at its address. -/
theorem e_of_legal (hi : r.InstrSlave rom) (hv : (r.state t).e.validPc = true)
    (hl : (decode x (rom (r.state t).e.pc)).illegalInstruction = false) :
    ∃ u, (r.state t).e = executeWord x (rom (r.state t).e.pc) (r.state t).e.pc
        ((r.state u).readReg (rs1Of (rom (r.state t).e.pc))) (r.state u).rd2D ∧
      (r.state t).ce = controlWordE x (rom (r.state t).e.pc) := by
  obtain ⟨u, -, hin, he, hc, hpc, hinstr, hdec⟩ := r.e_decoded hi t hv
  -- a legal word leaves nothing to the latch of the decoder
  have hout : (r.state u).outControlD x = controlOf x (rom (r.state t).e.pc) := by
    obtain ⟨c, hsome, -⟩ := decode_of_legal x hl
    rw [State.outControlD, hdec, controlOf, hsome]
    rfl
  have hd := State.d_valid_of_entersE hin
  -- the link address is the PC of the word and four
  have hp4 : (r.state u).d.pcPlus4 = (r.state t).e.pc + 4 := by
    rw [(r.d_coherent hi u hd).2, hpc]
  refine ⟨u, ?_, ?_⟩
  · generalize (r.state t).e.pc = pc at *
    rw [he]
    simp only [State.executeInput, executeWord, State.immExtD, State.illegalInstructionD,
      State.rd1D, hdec, hout, hp4, hinstr, hd, hpc]
  · rw [hc]
    simp only [State.controlInputE, controlWordE, State.aluControlD, State.mulInstrD,
      State.divInstrD, hout, hinstr]

/-- A tame word redirects to a word, if at all. -/
theorem jumpPcTargetE_of_tame (hi : r.InstrSlave rom) (hv : (r.state t).e.validPc = true)
    (hT : Tame x (rom (r.state t).e.pc)) (hpc : Aligned (r.state t).e.pc)
    (hsrc : (r.state t).pcSrcE = true) :
    Aligned (r.state t).jumpPcTargetE ∧ (r.state t).jumpTargetE = (r.state t).jumpPcTargetE := by
  obtain ⟨hb, hj, -⟩ := r.e_control hi t hv hT.legal
  -- what redirects is then a jump
  rw [hT.not_branch] at hb
  obtain ⟨⟨hop, hmret⟩, hrel, himm⟩ := hT.jump (by
    rw [← hj]
    exact (State.branch_or_jump_of_pcSrcE hsrc).resolve_left (by simp [hb]))
  obtain ⟨u, he, hc⟩ := e_of_legal hi hv hT.legal
  generalize (r.state t).e.pc = pc at *
  constructor
  · have hop' : (r.state t).e.op ≠ 0b1100111 := by
      rw [he]
      exact hop
    have hmret' : ¬ (r.state t).ce.mretInstr = true := by
      rw [hc]
      simpa [controlWordE] using hmret
    have htarget : (r.state t).jumpPcTargetE =
        pc + extendImm (rom pc) (controlOf x (rom pc)).immSrc := by
      rw [State.jumpPcTargetE, if_neg hmret', State.pcTargetE, if_neg hop', State.pcTargetCalcE,
        State.pcSrcAE, he, hc]
      simp [executeWord, controlWordE, hrel, mux2, adder]
    rw [htarget]
    exact hpc.add himm
  · have hnt : (r.state t).isMispredictNtbranchE = false := by
      simp [State.isMispredictNtbranchE, State.branchMispredict, branchMisprediction, hb]
    rw [State.jumpTargetE, hnt, if_neg Bool.false_ne_true]

/-- A tame access to memory is at an aligned address, the sum of `x0` and an aligned offset. -/
theorem dataOutput_of_tame (hi : r.InstrSlave rom) (hv : (r.state t).e.validPc = true)
    (hT : Tame x (rom (r.state t).e.pc)) (hls : (r.state t).ce.loadStore = true) :
    Aligned (r.state t).dataOutputFromExecute := by
  obtain ⟨u, he, hc⟩ := e_of_legal hi hv hT.legal
  generalize (r.state t).e.pc = pc at *
  rw [hc] at hls
  obtain ⟨⟨hrs, ha⟩, hb, himm⟩ := hT.access hls
  have hof := controlOf_of_legal x hT.legal
  have hop : opcodeOf (rom pc) ≠ 0b0110011 := by
    intro hop
    have := (hof.rType hop).1
    simp only [controlWordE] at hls
    simp [this] at hls
  have hcsr := (hof.loadStore hls).2.2.1
  -- the ALU adds the offset to `x0`
  have hsrcA : (r.state t).srcAE = 0 := by
    simp [State.srcAE, State.srcAForwardE, State.forwardAE, HazardUnit.forward, he, hc, executeWord,
      controlWordE, ha, hrs, State.readReg, mux2, mux3]
  have hsrcB : (r.state t).srcBE = extendImm (rom pc) (controlOf x (rom pc)).immSrc := by
    simp [State.srcBE, he, hc, executeWord, controlWordE, hb, mux2]
  have hctl : (r.state t).ce.aluControl = 0b0000 := by
    rw [hc]
    simp [controlWordE, aluDecoder, hof.address hls]
  have hout : (r.state t).dataOutputFromExecute =
      extendImm (rom pc) (controlOf x (rom pc)).immSrc := by
    rw [State.dataOutputFromExecute, State.aluOrMuldivResultE, State.aluE, hctl, alu_add, hsrcA,
      hsrcB, he, hc]
    simp [executeWord, controlWordE, hcsr, mulDivDecoder_other hop, mux2]
  rw [hout]
  exact himm

/-- What a tame word hands to the memory stage is not flagged there. -/
theorem syncExceptionM_of_tame (hi : r.InstrSlave rom) (hv : (r.state t).e.validPc = true)
    (hT : Tame x (rom (r.state t).e.pc)) (hpc : Aligned (r.state t).e.pc) {s : State}
    (hm : s.m = (r.state t).memoryInput) (hc : s.cm = (r.state t).controlInputM) :
    s.syncExceptionM = false := by
  have hmis : (r.state t).misalignedPcE = false := by
    by_contra hmis
    simp only [State.misalignedPcE, Bool.not_eq_false, Bool.and_eq_true] at hmis
    have hal := (jumpPcTargetE_of_tame hi hv hT hpc hmis.1).1
    exact Bool.false_ne_true ((aligned_iff.mp hal).2.symm.trans hmis.2)
  have hill : (r.state t).e.illegalInstruction = false := by
    rw [r.e_illegal hi t hv, hT.legal]
  have henv : (r.state t).e.envCallInstr = false := by
    obtain ⟨u, he, -⟩ := e_of_legal hi hv hT.legal
    generalize (r.state t).e.pc = pc at *
    rw [he]
    exact hT.env
  -- an access at an aligned address passes both tests
  have haccess : s.storeMisalignedM = false ∧ s.loadMisalignedM = false := by
    rw [State.storeMisalignedM, State.loadMisalignedM, State.readAddressM, hm, hc]
    simp only [State.memoryInput, State.controlInputM]
    cases hls : (r.state t).ce.loadStore with
    | false =>
      have hmw : (r.state t).ce.memWrite = false := by
        by_contra hmw
        simp [(kindsE (r := r) t).memWrite (Bool.not_eq_false _ ▸ hmw)] at hls
      simp [storeMisaligned, loadMisaligned, hmw]
    | true =>
      rw [show (r.state t).dataOutputFromExecute.extractLsb' 0 2 = 0 from
        dataOutput_of_tame hi hv hT hls]
      simp [storeMisaligned, loadMisaligned, misaligned]
  rw [State.syncExceptionM, haccess.1, haccess.2, hm]
  simp only [State.memoryInput, hmis, hill, henv, Bool.or_self]

/-- The addresses of the front end are aligned, and the memory stage is not flagged. -/
structure Untroubled (r : Run x) (t : ℕ) : Prop where
  fetch : Aligned (r.state t).pcF
  decode : Aligned (r.state t).d.pc
  execute : Aligned (r.state t).e.pc
  memory : (r.state t).isInstrExceptionM = false
  writeback : (r.state t).trapCaughtW = false

/-- A program of tame words trains no prediction, since none of them is a branch. -/
theorem Exact.not_predicted_of_tame (hx : r.Exact) (hi : r.InstrSlave rom)
    (hT : ∀ adr, Tame x (rom adr)) (pc : BitVec 32) :
    (r.state t).predictor.branchPredicted pc = false := by
  by_contra hp
  obtain ⟨u, -, hk, -⟩ := hx.trained t pc (Bool.not_eq_false _ ▸ hp)
  have hb := State.takeBranchE_branch _ hk
  have hv := e_valid_of_branch hb
  rw [(r.e_control hi u hv (hT _).legal).1, (hT _).not_branch] at hb
  exact Bool.false_ne_true hb

/-- One cycle of a run of a tame program without interrupts keeps it untroubled. -/
theorem Untroubled.succ (hx : r.Exact) (hi : r.InstrSlave rom) (hn : r.NoInterrupts)
    (hT : ∀ adr, Tame x (rom adr)) (h : r.Untroubled t) : r.Untroubled (t + 1) := by
  refine ⟨?_, ?_, ?_, ?_, by rw [r.succ_trapCaughtW, h.memory]⟩
  -- the PC goes to an aligned target, or on to the next word
  · rw [r.succ_pcF, flopenr]
    split_ifs
    · rw [State.pcNextF, h.writeback, if_neg Bool.false_ne_true, hx.not_predicted_of_tame hi hT]
      by_cases hsrc : (r.state t).pcSrcE = true
      · obtain ⟨hal, heq⟩ := jumpPcTargetE_of_tame hi (e_valid_of_pcSrcE hsrc) (hT _) h.execute hsrc
        rw [if_pos hsrc, heq]
        exact hal
      · rw [if_neg hsrc, if_neg Bool.false_ne_true, State.pcPlus4F, adder]
        exact h.fetch.add rfl
    · exact h.fetch
  -- decode is loaded from the fetch stage, flushed, or held
  · rcases r.d_cases t with ⟨-, hd⟩ | ⟨-, hd⟩ | ⟨-, -, hd⟩ <;> rw [hd]
    · exact h.fetch
    · exact aligned_zero
    · exact h.decode
  -- so is execute, from decode
  · rcases r.e_cases t with ⟨-, he, -⟩ | ⟨-, -, he, -⟩ | ⟨-, -, he, -⟩ <;> rw [he]
    · exact aligned_zero
    · exact h.decode
    · exact h.execute
  -- without interrupts a flag of the memory stage is one of its instruction
  · rw [State.isInstrExceptionM_eq, interruptM_of_noInterrupts hn, Bool.or_false]
    have hsync := h.memory
    rw [State.isInstrExceptionM_eq, Bool.or_eq_false_iff] at hsync
    -- what has moved on from execute is tame, and has no fault
    rcases r.m_cases t with ⟨-, hm, hc⟩ | ⟨-, -, -, hm, hc, -⟩ | ⟨-, -, hm, hc, -⟩
    · exact State.syncExceptionM_of_m_eq_zero _ hm hc
    · cases hv : (r.state t).e.validPc with
      | false =>
        obtain ⟨he, hce⟩ := r.e_bubble t hv
        refine State.syncExceptionM_of_m_eq_zero _ ?_ ?_
        · rw [hm, State.memoryInput_of_e_eq_zero _ he hce]
        · rw [hc, State.controlInputM_of_ce_eq_zero _ hce]
      | true => exact syncExceptionM_of_tame hi hv (hT _) h.execute hm hc
    · rw [State.syncExceptionM_congr _ hm hc, hsync.1]

/-- Without interrupts, the run of a tame program takes no trap. -/
theorem Exact.untrapped (hx : r.Exact) (hi : r.InstrSlave rom) (hn : r.NoInterrupts)
    (hT : ∀ adr, Tame x (rom adr)) (t : ℕ) : (r.state t).trapCaughtW = false := by
  suffices h : r.Untroubled t from h.writeback
  induction t with
  | zero =>
    have hpc : (r.state 0).pcF = 0 := r.zero_eq State.pcF fun _ => rfl
    refine ⟨?_, ?_, ?_, ?_, ?_⟩
    · rw [hpc]
      exact aligned_zero
    · rw [r.zero_d]
      exact aligned_zero
    · rw [r.zero_e]
      exact aligned_zero
    · rw [State.isInstrExceptionM_eq, interruptM_of_noInterrupts hn, Bool.or_false]
      exact State.syncExceptionM_of_m_eq_zero _ r.zero_m r.zero_cm
    · rw [State.trapCaughtW_eq, r.isInstrExceptionW_zero]
  | succ t ih => exact ih.succ hx hi hn hT

/-- The programs of `quietBench` whose words are tame run without a trap. -/
theorem quietBench_untrapped {program : List (BitVec 32)}
    (h : (program.all fun w => decide (Tame TestBench.zeros w)) = true) (t : ℕ) :
    ((quietBench program).run₀.state t).trapCaughtW = false := by
  refine (TestBench.run₀_exact _).untrapped (TestBench.run₀_instrSlave _) (fun _ => ⟨rfl, rfl⟩)
    (programRom_forall (fun w hw => ?_) (by decide +kernel)) t
  have hall : (([0x04000113, 0x30511073] ++ program).all
      fun w => decide (Tame TestBench.zeros w)) = true := by
    rw [List.all_append, h, Bool.and_true]
    decide +kernel
  exact of_decide_eq_true (List.all_eq_true.mp hall w hw)

end Run

end RvPipelineCore

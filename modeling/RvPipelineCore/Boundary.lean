import RvPipelineCore.Effects

/-!
# Instruction boundaries

With slow slaves the pipeline works like a sequential machine between the cycles in which an
instruction enters execute. `Run.Boundary` says what such a cycle has to do with the state of the
machine of `Rv32` at that instruction; this module follows the instruction through execute.

- `Run.Boundary.executes`: it has the operands of the machine;
- `Run.Boundary.misalignedPcE`: it redirects to no misaligned address;
- `Run.Boundary.memory`, `Run.Boundary.alone`: one cycle later it is alone in the memory stage.
-/

namespace RvPipelineCore

open Temporal

/-- The sequential run of the program stays within what the core supports: its words are legal, its
addresses aligned, and all of its code is in one block of 32 KiB. -/
structure Supported (rom : BitVec 32 → BitVec 32) (s : Rv32.Machine) : Prop where
  legal : ∀ k, (Rv32.decode ((s.after rom k).instr rom)).isSome = true
  pc : ∀ k, (s.after rom k).pc.toNat % 4 = 0
  access : ∀ k, ∀ a ∈ (s.after rom k).access rom, a.Aligned
  block : ∀ j k, (s.after rom j).pc.toNat / 2 ^ 15 = (s.after rom k).pc.toNat / 2 ^ 15

namespace Supported

variable {rom : BitVec 32 → BitVec 32} {s : Rv32.Machine}

/-- An aligned address has bit 1 clear, which is what the core checks of a target. -/
theorem pc_bit (hs : Supported rom s) (k : ℕ) : (s.after rom k).pc.getLsbD 1 = false := by
  have := hs.pc k
  rw [BitVec.getLsbD, Nat.testBit_eq_decide_div_mod_eq, decide_eq_false_iff_not]
  omega

/-- Two addresses of the program that share an entry of the predictor are the same. -/
theorem pc_eq_of_sameEntry (hs : Supported rom s) {j k : ℕ}
    (h : Run.SameEntry (s.after rom j).pc (s.after rom k).pc) :
    (s.after rom j).pc = (s.after rom k).pc := by
  obtain ⟨hidx, htag⟩ := h
  have hblock := hs.block j k
  simp only [BranchPredictor.index, BranchPredictor.tag, ← BitVec.toNat_inj,
    BitVec.extractLsb'_toNat, Nat.shiftRight_eq_div_pow] at hidx htag
  apply BitVec.eq_of_toNat_eq
  omega

end Supported

namespace Run

variable {x : DontCare} (r : Run x) (rom : BitVec 32 → BitVec 32)
  (init : BitVec 30 → BitVec 32)

/-- The sequential machine with the registers and the memory that the run starts with. -/
def machine : Rv32.Machine := ⟨0, (r.state 0).regMem, bytesOf init⟩

/-- At the end of cycle `t` the instruction with number `k` enters execute. -/
structure Enters (k t : ℕ) : Prop where
  entersE : (r.state t).entersE (r.inputs t) = true
  count : Nat.count (fun v => (r.state v).entersE (r.inputs v) = true) t = k

/-- Only one cycle brings the instruction with number `k` into execute. -/
theorem Enters.unique {r : Run x} {k t t' : ℕ} (h : r.Enters k t) (h' : r.Enters k t') : t = t' :=
  Nat.count_injective h.entersE h'.entersE (h.count.trans h'.count.symm)

/-- The instruction with number `k` enters execute, and the sequential machine has come to it: its
registers are in the register file, its memory in the slave, and its accesses have been made. -/
structure Boundary (k t : ℕ) : Prop where
  enters : r.Enters k t
  pc : (r.state t).d.pc = ((r.machine init).after rom k).pc
  regs : ∀ i ≠ 0, (r.state t).regMemNext i = ((r.machine init).after rom k).regs i
  mem : bytesOf (r.ram init t) = ((r.machine init).after rom k).mem
  transfers : r.transfers t = ((r.machine init).accesses rom k).map Transfer.ofAccess
  m : (r.state t).m.validPc = false
  idle : (r.state t).dPort.state = .idle
  trap : ∀ v ≤ t, (r.state v).trapCaughtW = false
  /-- What was in execute before is an earlier instruction of the machine, and a branch was taken
  there only if the machine took it. -/
  history : ∀ v ≤ t, (r.state v).e.validPc = true → ∃ j < k,
    (r.state v).e.pc = ((r.machine init).after rom j).pc ∧
      ((r.state v).takeBranchE = true → ((r.machine init).after rom (j + 1)).pc =
        (r.state v).e.pc + Rv32.immB (rom (r.state v).e.pc))

variable {r rom init}

/-! ## Words in execute -/

/-- What decode makes of a word when the latch of the main decoder is clear. -/
theorem Delayed.inputE_eq (h : r.Delayed rom) {t : ℕ} (hv : (r.state t).d.isDecodeFlush = true) :
    (r.state t).executeInput x = executeWord x (rom (r.state t).d.pc) (r.state t).d.pc
        (r.state t).rd1D (r.state t).rd2D ∧
      (r.state t).controlInputE x = controlWordE x (rom (r.state t).d.pc) := by
  obtain ⟨hinstr, hp4⟩ := r.d_coherent h.instr t hv
  have hdec := (r.state t).mainDec_of_valid x hv
  rw [hinstr] at hdec
  have hout : (r.state t).outControlD x = controlOf x (rom (r.state t).d.pc) := by
    rw [State.outControlD, hdec, h.outControl_eq_zero hv, controlOf]
  constructor
  · simp only [State.executeInput, executeWord, State.immExtD, State.illegalInstructionD, hdec,
      hout, hp4, hinstr, hv]
  · simp only [State.controlInputE, controlWordE, State.aluControlD, State.mulInstrD,
      State.divInstrD, hout, hinstr]

/-- An instruction that enters execute is there in the next cycle with the values that decode has
read for it. -/
theorem Delayed.e_succ_of_entersE (h : r.Delayed rom) {t : ℕ}
    (hin : (r.state t).entersE (r.inputs t) = true) :
    (r.state (t + 1)).e = executeWord x (rom (r.state t).d.pc) (r.state t).d.pc
        (r.state t).rd1D (r.state t).rd2D ∧
      (r.state (t + 1)).ce = controlWordE x (rom (r.state t).d.pc) := by
  obtain ⟨he, hc⟩ := h.inputE_eq (State.d_valid_of_entersE hin)
  simp only [State.entersE, Bool.and_eq_true, Bool.not_eq_true'] at hin
  rw [r.succ_e, r.succ_ce, hin.1.2, hin.2, he, hc]
  exact ⟨rfl, rfl⟩

/-- The control signals of a valid instruction in execute are those of the word at its PC. -/
theorem Delayed.ce_eq (h : r.Delayed rom) {t : ℕ} (hv : (r.state t).e.validPc = true) :
    (r.state t).ce = controlWordE x (rom (r.state t).e.pc) := by
  obtain ⟨u, -, hin, -, hc, hpc, -⟩ := r.e_decoded h.instr t hv
  rw [hc, (h.inputE_eq (State.d_valid_of_entersE hin)).2, hpc]

/-! ## In execute -/

namespace Boundary

variable {k t : ℕ}

/-- At a boundary decode holds a valid word. -/
theorem d_valid (hb : Boundary r rom init k t) : (r.state t).d.isDecodeFlush = true :=
  State.d_valid_of_entersE hb.enters.entersE

/-- In the cycle after a boundary execute holds a valid instruction. -/
theorem e_valid (h : r.Delayed rom) (hb : Boundary r rom init k t) :
    (r.state (t + 1)).e.validPc = true := by
  rw [(h.e_succ_of_entersE hb.enters.entersE).1]
  rfl

/-- In the cycle after a boundary execute holds the instruction at the PC of the sequential
machine. -/
theorem e_pc (h : r.Delayed rom) (hb : Boundary r rom init k t) :
    (r.state (t + 1)).e.pc = ((r.machine init).after rom k).pc := by
  rw [(h.e_succ_of_entersE hb.enters.entersE).1, ← hb.pc]
  rfl

/-- In the cycle after a boundary the memory stage is empty. -/
theorem m_succ (h : r.Delayed rom) (hb : Boundary r rom init k t) :
    (r.state (t + 1)).m.validPc = false :=
  ((h.spaced (t + 1)).execute (hb.e_valid h)).2.1

/-- The operands are those of the machine, and nothing is forwarded over them. -/
theorem executes (h : r.Delayed rom) (hb : Boundary r rom init k t) :
    (r.state (t + 1)).Executes x (((r.machine init).after rom k).instr rom)
      ((r.machine init).after rom k).pc (((r.machine init).after rom k).rs1Value rom)
      (((r.machine init).after rom k).rs2Value rom) := by
  obtain ⟨he, hc⟩ := h.e_succ_of_entersE hb.enters.entersE
  have hinstr : rom (r.state t).d.pc = ((r.machine init).after rom k).instr rom := by
    rw [hb.pc]
    rfl
  have hd : (r.state t).d.instr = ((r.machine init).after rom k).instr rom :=
    (r.d_coherent h.instr t hb.d_valid).1.trans hinstr
  -- `x0` reads as zero on both sides
  have hread : ∀ i, (r.state t).readReg i = ((r.machine init).after rom k).read i := by
    intro i
    rw [State.readReg, Rv32.Machine.read]
    by_cases hi : i = 0
    · rw [if_neg (not_not.mpr hi), if_pos hi]
    · rw [if_pos hi, if_neg hi, hb.regs i hi]
  have hrd1 : (r.state t).rd1D = ((r.machine init).after rom k).rs1Value rom := by
    rw [State.rd1D, hd, hread]
    rfl
  have hrd2 : (r.state t).rd2D = ((r.machine init).after rom k).rs2Value rom := by
    rw [State.rd2D, hd, hread]
    rfl
  -- there is nothing ahead to forward from
  have hm : (r.state (t + 1)).cm.regWrite = false := by
    simp [(r.m_bubble (t + 1) (hb.m_succ h)).2]
  have hw : (r.state (t + 1)).cw.regWrite = false := by
    simp [r.succ_cw, (r.m_bubble t hb.m).2]
  refine ⟨?_, ?_, ?_, ?_⟩
  · rw [he, hinstr, hrd1, hrd2, hb.pc]
  · rw [hc, hinstr]
  · rw [State.forwardAE, hm, hw, HazardUnit.forward_false]
  · rw [State.forwardBE, hm, hw, HazardUnit.forward_false]

/-- The word that the machine comes to at a boundary encodes an operation of the base set. -/
theorem exists_op (hs : Supported rom (r.machine init)) (k : ℕ) :
    ∃ o, Rv32.decode (((r.machine init).after rom k).instr rom) = some o ∧
      o.Encodes (((r.machine init).after rom k).instr rom) := by
  obtain ⟨o, ho⟩ := Option.isSome_iff_exists.mp (hs.legal k)
  exact ⟨o, ho, Rv32.encodes_of_decode ho⟩

/-- The machine goes on, after the instruction of the boundary, at the target of its redirect or at
the next address. -/
theorem pc_succ (h : r.Delayed rom) (hs : Supported rom (r.machine init))
    (hb : Boundary r rom init k t) :
    ((r.machine init).after rom (k + 1)).pc =
      if (r.state (t + 1)).ce.jump || (r.state (t + 1)).takeBranchE then
        (r.state (t + 1)).jumpPcTargetE
      else ((r.machine init).after rom k).pc + 4 := by
  obtain ⟨o, hdec, ho⟩ := exists_op hs k
  rw [← (hb.executes h).nextPc_eq ho, Rv32.Machine.after, Rv32.Machine.step, hdec]

/-- Up to a boundary decode takes a word only while execute is empty, since the machine comes to no
divide. -/
theorem e_empty_of_decodeLoads (h : r.Delayed rom) (hs : Supported rom (r.machine init))
    (hb : Boundary r rom init k t) {v : ℕ} (hv : v ≤ t)
    (hl : (r.state v).decodeLoads (r.inputs v) = true) : (r.state v).e.validPc = false := by
  by_contra hve
  rw [Bool.not_eq_false] at hve
  have hdiv := (h.spaced v).divide_of_decodeLoads hl hve
  obtain ⟨j, -, hpc, -⟩ := hb.history v hv hve
  obtain ⟨o, -, ho⟩ := exists_op hs j
  rw [h.ce_eq hve, hpc] at hdiv
  exact absurd ((divInstr_of_encodes x ho).symm.trans hdiv) Bool.false_ne_true

/-- The instruction is predicted only if it is a branch that the machine has taken before. -/
theorem pcF_eq (h : r.Delayed rom) (hx : r.Exact) (hs : Supported rom (r.machine init))
    (hb : Boundary r rom init k t) :
    (r.state t).pcF = (r.state t).d.pc + 4 ∨
      isBranch (((r.machine init).after rom k).instr rom) = true ∧ ∃ j < k,
        ((r.machine init).after rom (j + 1)).pc = ((r.machine init).after rom k).pc +
          Rv32.immB (((r.machine init).after rom k).instr rom) := by
  cases t with
  | zero => simpa using hb.d_valid
  | succ t =>
    obtain ⟨hl, -⟩ := h.decodeLoads_of_valid hb.d_valid
    have hd : (r.state (t + 1)).d.pc = (r.state t).pcF := by
      rw [r.succ_d_of_decodeLoads hl]
      rfl
    -- with nothing in execute, the PC moves on as the predictor says
    have he := hb.e_empty_of_decodeLoads h hs t.le_succ hl
    have hpcF : (r.state (t + 1)).pcF =
        if (r.state t).predictor.branchPredicted (r.state t).pcF then
          (r.state t).predictor.predictedPc (r.state t).pcF
        else (r.state t).pcF + 4 := by
      rw [r.succ_pcF, State.pcEnable_of_decodeLoads hl, flopenr_true, State.pcNextF,
        hb.trap t t.le_succ, r.pcSrcE_of_empty t he]
      rfl
    cases hp : (r.state t).predictor.branchPredicted (r.state t).pcF with
    | false =>
      left
      rw [hpcF, hp, hd]
      rfl
    | true =>
      right
      -- the entry was trained by a taken branch, which in one block is this instruction
      obtain ⟨u, hu, hk, hsame⟩ := hx.trained t _ hp
      have hbr := State.takeBranchE_branch _ hk
      have hv := e_valid_of_branch hbr
      obtain ⟨j, hj, hpc, htaken⟩ := hb.history u (by omega) hv
      have heq : ((r.machine init).after rom j).pc = ((r.machine init).after rom k).pc := by
        rw [hpc, ← hd, hb.pc] at hsame
        exact hs.pc_eq_of_sameEntry hsame
      obtain ⟨o, -, ho⟩ := exists_op hs k
      refine ⟨?_, j, hj, ?_⟩
      · rw [h.ce_eq hv, hpc, heq] at hbr
        exact (controlOf_of_legal x (legal_of_encodes x ho)).branch.symm.trans hbr
      · rw [htaken hk, hpc, heq]
        rfl

/-- In execute the instruction is followed by the one at the address that was fetched next. -/
theorem nextPc_succ (h : r.Delayed rom) (hb : Boundary r rom init k t) :
    (r.state (t + 1)).nextPc = (r.state t).pcF :=
  r.nextPc_succ_of_entersE t (r.pcSrcE_of_empty t ((h.spaced t).decode hb.d_valid).2.1)
    (hb.trap t le_rfl) hb.enters.entersE

/-- The instruction redirects to no misaligned address. A branch that falls through redirects only
if it was predicted, and then its target has been executed before. -/
theorem misalignedPcE (h : r.Delayed rom) (hx : r.Exact) (hs : Supported rom (r.machine init))
    (hb : Boundary r rom init k t) : (r.state (t + 1)).misalignedPcE = false := by
  by_contra hmis
  simp only [State.misalignedPcE, Bool.not_eq_false, Bool.and_eq_true] at hmis
  obtain ⟨hsrc, hbit⟩ := hmis
  have hv := hb.e_valid h
  have hE := hb.executes h
  have hpc := hb.pc_succ h hs
  obtain ⟨o, -, ho⟩ := exists_op hs k
  cases hj : (r.state (t + 1)).ce.jump || (r.state (t + 1)).takeBranchE with
  | true =>
    -- the target is the next PC of the machine
    rw [hj, if_pos rfl] at hpc
    rw [← hpc, hs.pc_bit] at hbit
    exact absurd hbit Bool.false_ne_true
  | false =>
    -- only a misprediction redirects
    rw [Bool.or_eq_false_iff] at hj
    have hne : (r.state (t + 1)).e.pcPlus4 ≠ (r.state (t + 1)).nextPc := by
      simp only [State.pcSrcE, State.isMispredictNtbranchE, State.branchMispredict_eq _ hv, hj,
        Bool.false_and, Bool.false_or, Bool.or_false] at hsrc
      cases hbr : (r.state (t + 1)).ce.branch <;> simp_all
    rcases hb.pcF_eq h hx hs with hpcF | ⟨hbr, j, -, htarget⟩
    · rw [hb.nextPc_succ h, hpcF, hb.pc, r.e_pcPlus4 h.instr _ hv, hb.e_pc h] at hne
      exact hne rfl
    · rw [isBranch, beq_iff_eq] at hbr
      rw [hE.branch_target ho hbr, ← htarget, hs.pc_bit] at hbit
      exact absurd hbit Bool.false_ne_true

/-- Nothing is wrong with the instruction in execute, nor with what is ahead of it. -/
theorem no_exception (h : r.Delayed rom) (hx : r.Exact) (hs : Supported rom (r.machine init))
    (hb : Boundary r rom init k t) : (r.state (t + 1)).isInstrExceptionE = false ∧
      (r.state (t + 1)).isInstrExceptionM = false ∧
      (r.state (t + 1)).isInstrExceptionW = false := by
  obtain ⟨o, -, ho⟩ := exists_op hs k
  have hE := hb.executes h
  refine ⟨?_, h.isInstrExceptionM_of_empty (hb.m_succ h),
    (r.succ_isInstrExceptionW t).trans (h.isInstrExceptionM_of_empty hb.m)⟩
  rw [State.isInstrExceptionE, hb.misalignedPcE h hx hs, hE.e]
  simp only [executeWord, legal_of_encodes x ho, (quiet_of_encodes x ho).2.1, Bool.or_self]

/-! ## In the memory stage -/

/-- The instruction that enters execute at a boundary is no divide. -/
theorem divInstr (h : r.Delayed rom) (hs : Supported rom (r.machine init))
    (hb : Boundary r rom init k t) : (r.state (t + 1)).ce.divInstr = false := by
  obtain ⟨o, -, ho⟩ := exists_op hs k
  rw [(hb.executes h).ce]
  exact divInstr_of_encodes x ho

/-- In the cycle after a boundary execute is not stalled, so the instruction moves on. -/
theorem stallE_succ (h : r.Delayed rom) (hs : Supported rom (r.machine init))
    (hb : Boundary r rom init k t) :
    (r.state (t + 1)).stallE (r.inputs (t + 1)) = false :=
  (h.spaced (t + 1)).stallE (hb.e_valid h) (hb.divInstr h hs)

/-- The instruction goes on to the memory stage in one cycle. -/
theorem memory (h : r.Delayed rom) (hx : r.Exact) (hs : Supported rom (r.machine init))
    (hb : Boundary r rom init k t) :
    (r.state (t + 2)).m = (r.state (t + 1)).memoryInput ∧
      (r.state (t + 2)).cm = (r.state (t + 1)).controlInputM := by
  have hst := hb.stallE_succ h hs
  simp only [State.stallE, Bool.or_eq_false_iff] at hst
  have hpm : (r.state (t + 1)).hazard.pendingExceptionM = false := by
    rw [r.pendingExceptionM_eq, (hb.no_exception h hx hs).2.2]
  rcases r.m_cases (t + 1) with ⟨hf, -⟩ | ⟨-, -, -, hm, hc, -⟩ | ⟨-, hsm, -⟩
  · simp [State.flushM, hpm, hst.2] at hf
  · exact ⟨hm, hc⟩
  · simp [hst.1] at hsm

/-- Two cycles after a boundary its instruction is alone in the memory stage. -/
theorem alone (h : r.Delayed rom) (hs : Supported rom (r.machine init))
    (hb : Boundary r rom init k t) : Alone r (t + 2) := by
  have hv := hb.e_valid h
  obtain ⟨o, -, ho⟩ := exists_op hs k
  obtain ⟨hd, -, hrest⟩ := (h.spaced (t + 1)).execute hv
  obtain ⟨hack, hdiv⟩ := hrest (hb.divInstr h hs)
  have hE := hb.executes h
  have hno : (r.state (t + 1)).entersE (r.inputs (t + 1)) = false := by simp [State.entersE, hd]
  -- no illegal word is on its way to write-back
  have hpend : (r.state (t + 1)).hazard.pendingExceptionF = false := by
    by_contra hp
    rcases h.pendingExceptionF (t + 1) (Bool.not_eq_false _ ▸ hp) with hpe | hpm | hpw
    · rw [hE.e] at hpe
      exact absurd ((legal_of_encodes x ho).symm.trans hpe) Bool.false_ne_true
    · rw [(r.m_bubble _ (hb.m_succ h)).1] at hpm
      exact absurd hpm Bool.false_ne_true
    · rw [r.succ_w, State.writebackInput, (r.m_bubble t hb.m).1] at hpw
      exact absurd hpw Bool.false_ne_true
  refine ⟨?_, ?_, ?_, pendingExceptionF_succ hd hpend⟩
  · rw [r.succ_d_isDecodeFlush, r.decodeLoads_of_no_ack hack, hd, Bool.and_false, Bool.or_false]
  · exact r.e_empty_succ (t + 1) (.inr (by simp [State.leavesE, hb.stallE_succ h hs])) hno
  · rw [r.succ_divPending (t + 1), divInstrD_of_empty hd, hdiv]
    simp

/-- An aligned access is not flagged, and nothing else is wrong. -/
theorem clean (h : r.Delayed rom) (hx : r.Exact) (hs : Supported rom (r.machine init))
    (hb : Boundary r rom init k t) : (r.state (t + 2)).isInstrExceptionM = false := by
  obtain ⟨o, hdec, ho⟩ := exists_op hs k
  obtain ⟨hm, hc⟩ := hb.memory h hx hs
  have hE := hb.executes h
  obtain ⟨hsm, hlm⟩ := hE.not_misaligned ho hm hc fun acc hacc => hs.access k acc <| by
    rw [Rv32.Machine.access, hdec]
    exact hacc
  have hee := (hb.no_exception h hx hs).1
  simp only [State.isInstrExceptionE, Bool.or_eq_false_iff] at hee
  rw [h.isInstrExceptionM_eq, State.syncExceptionM, hsm, hlm, hm]
  simp only [State.memoryInput, hee, Bool.or_self]

end Boundary

end Run

end RvPipelineCore

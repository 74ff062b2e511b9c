import RvPipelineCore.Refinement

/-!
# Where the core reads and writes

In a run that refines the sequential machine, the core fetches ahead of the program only by one
word: every address that it asks for is one of the program counters of the machine, or the next
word after one. The data port asks only for what the machine accesses.

- `Run.Exact.trained_target`: where a predicted address comes from;
- `Run.Boundary.pcF_cases`: the address that is fetched while an instruction is in decode;
- `Run.instrPort_adr`: the addresses on the instruction port;
- `Run.dPort_adr`: those on the data port.
-/

namespace RvPipelineCore

namespace BranchPredictor

/-- An entry is the one before, or has just been written by a branch. -/
theorem next_entry (p : BranchPredictor) (pcE : BitVec 32) (branchInstrE branchTakenE : Bool)
    (jumpAddress : BitVec 32) (i : BitVec 7) :
    (branchInstrE = true ∧ i = index pcE ∧
        (p.next pcE branchInstrE branchTakenE jumpAddress).pcBuffer i = jumpAddress ∧
        (p.next pcE branchInstrE branchTakenE jumpAddress).pcCheck i = tag pcE) ∨
      ((p.next pcE branchInstrE branchTakenE jumpAddress).pcBuffer i = p.pcBuffer i ∧
        (p.next pcE branchInstrE branchTakenE jumpAddress).pcCheck i = p.pcCheck i ∧
        (p.next pcE branchInstrE branchTakenE jumpAddress).pcPredict i = p.pcPredict i) := by
  unfold next
  split_ifs with hb
  · by_cases hi : i = index pcE
    · exact .inl ⟨hb, hi, if_pos hi, if_pos hi⟩
    · exact .inr ⟨if_neg hi, if_neg hi, if_neg hi⟩
  · exact .inr ⟨rfl, rfl, rfl⟩

end BranchPredictor

namespace Run

open Temporal

variable {x : DontCare} {r : Run x} {rom : BitVec 32 → BitVec 32} {init : BitVec 30 → BitVec 32}

/-- An entry of the predictor that is not zero has been written by a branch in execute, whose tag
and target it holds. -/
theorem Exact.written_entry (h : r.Exact) (t : ℕ) (i : BitVec 7)
    (hi : (r.state t).predictor.pcPredict i ≠ 0) :
    ∃ u < t, (r.state u).ce.branch = true ∧ BranchPredictor.index (r.state u).e.pc = i ∧
      BranchPredictor.tag (r.state u).e.pc = (r.state t).predictor.pcCheck i ∧
      (r.state t).predictor.pcBuffer i = (r.state u).jumpPcTargetE := by
  induction t with
  | zero =>
    obtain ⟨s, hs, hs'⟩ := h.start
    simp [hs', State.reset, hs, BranchPredictor.initial] at hi
  | succ t ih =>
    rw [h.succ_predictor] at hi ⊢
    -- The entry is the one this branch writes, or it is as it was.
    rcases BranchPredictor.next_entry (r.state t).predictor (r.state t).e.pc (r.state t).ce.branch
      (r.state t).takeBranchE (r.state t).jumpPcTargetE i with
      ⟨hb, hidx, hbuf, htag⟩ | ⟨hbuf, htag, hcnt⟩
    · exact ⟨t, t.lt_succ_self, hb, hidx.symm, htag.symm, hbuf⟩
    · rw [hcnt] at hi
      obtain ⟨u, hu, hb, hidx, htag', hbuf'⟩ := ih hi
      exact ⟨u, by omega, hb, hidx, htag'.trans htag.symm, hbuf.trans hbuf'⟩

/-- A predicted address is the target of a branch with the same entry that was in execute. -/
theorem Exact.trained_target (h : r.Exact) (t : ℕ) (pc : BitVec 32)
    (hp : (r.state t).predictor.branchPredicted pc = true) :
    ∃ u < t, (r.state u).ce.branch = true ∧ SameEntry (r.state u).e.pc pc ∧
      (r.state t).predictor.predictedPc pc = (r.state u).jumpPcTargetE := by
  simp only [BranchPredictor.branchPredicted] at hp
  split_ifs at hp with hbit
  have hne : (r.state t).predictor.pcPredict (BranchPredictor.index pc) ≠ 0 := by
    intro hzero
    rw [hzero] at hbit
    exact absurd hbit (by decide)
  obtain ⟨u, hu, hb, hidx, htag, hbuf⟩ := h.written_entry t _ hne
  rw [BranchPredictor.pcCached, beq_iff_eq] at hp
  exact ⟨u, hu, hb, ⟨hidx, htag.trans hp⟩, hbuf⟩

section

variable (h : r.Delayed rom) (hx : r.Exact) (hf : r.InstrFair) (hd : r.DataFair)
  (hmem : r.DataMemory init) (hs : Supported rom (r.machine init))

include h hx hf hd hmem hs

/-- Every instruction that enters execute does so at a boundary of the sequential machine. -/
theorem boundary_of_entersE {t : ℕ} (hin : (r.state t).entersE (r.inputs t) = true) :
    ∃ k, Boundary r rom init k t := by
  obtain ⟨u, hb⟩ := exists_boundary h hx hf hd hmem hs
    (Nat.count (fun w => (r.state w).entersE (r.inputs w) = true) t)
  obtain rfl : t = u := Enters.unique ⟨hin, rfl⟩ hb.enters
  exact ⟨_, hb⟩

/-- What is in execute has entered it in the cycle before. -/
theorem boundary_of_e {v : ℕ} (hv : (r.state v).e.validPc = true) :
    ∃ k u, v = u + 1 ∧ Boundary r rom init k u := by
  obtain ⟨u, hu, hin, -⟩ := r.e_origin v hv
  obtain ⟨k, hb⟩ := boundary_of_entersE h hx hf hd hmem hs hin
  refine ⟨k, u, ?_, hb⟩
  -- it leaves execute in the next cycle
  have hle := r.stampE_le v
  have hleaves := r.stampE_succ_of_load (hb.stallE_succ h hs)
  by_contra hne
  have hmono := r.stampE_mono (show u + 1 + 1 ≤ v by omega)
  omega

/-- While an instruction is in decode, the next word is fetched, or an address that the machine
comes to at some time. -/
theorem Boundary.pcF_cases {k t : ℕ} (hb : Boundary r rom init k t) :
    (r.state t).pcF = ((r.machine init).after rom k).pc + 4 ∨
      ∃ j, (r.state t).pcF = ((r.machine init).after rom j).pc := by
  cases t with
  | zero => simpa using hb.d_valid
  | succ t =>
    obtain ⟨hl, -⟩ := h.decodeLoads_of_valid hb.d_valid
    have hdpc : (r.state (t + 1)).d.pc = (r.state t).pcF := by
      rw [r.succ_d_of_decodeLoads hl]
      rfl
    have he := hb.e_empty_of_decodeLoads h hs t.le_succ hl
    have hpcF : (r.state (t + 1)).pcF =
        if (r.state t).predictor.branchPredicted (r.state t).pcF then
          (r.state t).predictor.predictedPc (r.state t).pcF
        else (r.state t).pcF + 4 := by
      rw [r.succ_pcF, State.pcEnable_of_decodeLoads hl, flopenr_true, State.pcNextF,
        hb.trap t t.le_succ, r.pcSrcE_of_empty t he]
      rfl
    rw [← hb.pc, hdpc]
    rcases hb.pcF_eq h hx hs with hnext | ⟨hbranch, j, -, htarget⟩
    · rw [hdpc] at hnext
      exact .inl hnext
    · cases hp : (r.state t).predictor.branchPredicted (r.state t).pcF with
      | false =>
        left
        rw [hpcF, hp]
        rfl
      | true =>
        -- the branch that has trained the entry is this one
        obtain ⟨u, hu, hbr, hsame, hpred⟩ := hx.trained_target t _ hp
        obtain ⟨i, w, rfl, hb'⟩ := boundary_of_e h hx hf hd hmem hs (e_valid_of_branch hbr)
        rw [hb'.e_pc h, ← hdpc, hb.pc] at hsame
        have hpc := hs.pc_eq_of_sameEntry hsame
        obtain ⟨o, -, ho⟩ := exists_op hs i
        have hinstr : ((r.machine init).after rom i).instr rom =
            ((r.machine init).after rom k).instr rom := by
          rw [Rv32.Machine.instr, hpc, Rv32.Machine.instr]
        have hop : opcodeOf (((r.machine init).after rom i).instr rom) = 0b1100011 := by
          rw [hinstr]
          rwa [isBranch, beq_iff_eq] at hbranch
        right
        refine ⟨j + 1, ?_⟩
        rw [hpcF, hp, if_pos rfl, hpred, (hb'.executes h).branch_target ho hop, htarget, hpc,
          hinstr]

/-- The PC is always an address that the machine comes to, or the next word after one. -/
theorem pcF_within (v : ℕ) : ∃ k, (r.state v).pcF = ((r.machine init).after rom k).pc ∨
    (r.state v).pcF = ((r.machine init).after rom k).pc + 4 := by
  induction v with
  | zero =>
    obtain ⟨s, hstart⟩ := r.start
    refine ⟨0, .inl ?_⟩
    rw [hstart]
    rfl
  | succ v ih =>
    obtain ⟨t, hb⟩ := exists_boundary h hx hf hd hmem hs (v + 1)
    have hle : v + 1 ≤ t := by
      have hcount := hb.enters.count
      have hle := Nat.count_le (p := fun w => (r.state w).entersE (r.inputs w) = true) (n := t)
      omega
    cases hen : (r.state v).pcEnable (r.inputs v) with
    | false =>
      rw [r.succ_pcF, hen, flopenr_false]
      exact ih
    | true =>
      cases hl : (r.state v).decodeLoads (r.inputs v) with
      | true =>
        -- the word that arrives enters execute in the next cycle
        have hexc : (r.state v).isInstrExceptionM = false := by
          rw [← r.succ_trapCaughtW]
          exact hb.trap _ hle
        obtain ⟨k, hb'⟩ := boundary_of_entersE h hx hf hd hmem hs (h.entersE_succ hexc hl)
        rcases hb'.pcF_cases h hx hf hd hmem hs with hnext | ⟨j, hj⟩
        · exact ⟨k, .inr hnext⟩
        · exact ⟨j, .inl hj⟩
      | false =>
        rcases State.redirect_of_pcEnable hen hl with hsrc | htrap
        · have hv : (r.state v).e.validPc = true := by
            by_contra hv
            simp [r.pcSrcE_of_empty v (Bool.not_eq_true _ ▸ hv)] at hsrc
          obtain ⟨k, u, rfl, hb'⟩ := boundary_of_e h hx hf hd hmem hs hv
          have hempty : (r.state (u + 2)).d.isDecodeFlush = false := by
            have hnone := ((h.spaced (u + 1)).execute hv).1
            rw [r.succ_d_isDecodeFlush, hl, hnone, Bool.and_false]
            rfl
          have hnext := hb'.nextPc_eq h hx hs
          rw [State.nextPc, hempty] at hnext
          exact ⟨k + 1, .inl hnext⟩
        · rw [hb.trap v (by omega)] at htrap
          exact absurd htrap Bool.false_ne_true

/-- The instruction port asks only for addresses to which the machine comes, and for those that
follow one of them. -/
theorem instrPort_adr (v : ℕ) : ∃ k,
    (r.state v).instrPort.adr = ((r.machine init).after rom k).pc ∨
      (r.state v).instrPort.adr = ((r.machine init).after rom k).pc + 4 := by
  induction v with
  | zero => exact ⟨0, .inl (by rw [r.zero_instrPort]; rfl)⟩
  | succ v ih =>
    rw [r.succ_instrPort, InstrPort.next]
    cases (r.state v).instrPort.state with
    | idle => exact pcF_within h hx hf hd hmem hs v
    | active =>
      dsimp only
      split_ifs <;> exact ih

/-! ## The data port -/

omit h hx hf hd hmem hs in
/-- A transfer that has been made remains in the list of transfers. -/
theorem mem_transfers_of_le {a : Transfer} {u v : ℕ} (ha : a ∈ r.transfers u) (huv : u ≤ v) :
    a ∈ r.transfers v := by
  induction v, huv using Nat.le_induction with
  | base => exact ha
  | succ v _ ih => exact List.mem_append_left _ ih

omit h hx hf hd hmem hs in
/-- An access in the list of the machine is that of one of its instructions. -/
theorem exists_access {m : Rv32.Machine} {a : Rv32.Access} {k : ℕ} (ha : a ∈ m.accesses rom k) :
    ∃ j, (m.after rom j).access rom = some a := by
  induction k with
  | zero => exact absurd ha List.not_mem_nil
  | succ k ih =>
    rcases List.mem_append.mp ha with hold | hnew
    · exact ih hold
    · exact ⟨k, Option.mem_toList.mp hnew⟩

/-- Every transfer of the core is for an access of the sequential machine. -/
theorem transfers_within {a : Transfer} {v : ℕ} (ha : a ∈ r.transfers v) :
    ∃ k acc, ((r.machine init).after rom k).access rom = some acc ∧ a = Transfer.ofAccess acc := by
  obtain ⟨t, hb⟩ := exists_boundary h hx hf hd hmem hs v
  have hle : v ≤ t := by
    have hcount := hb.enters.count
    have hle := Nat.count_le (p := fun w => (r.state w).entersE (r.inputs w) = true) (n := t)
    omega
  have hmem := mem_transfers_of_le ha hle
  rw [hb.transfers, List.mem_map] at hmem
  obtain ⟨acc, hacc, rfl⟩ := hmem
  obtain ⟨k, hk⟩ := exists_access hacc
  exact ⟨k, acc, hk, rfl⟩

/-- The data port shows an access of the machine, and no write when it is done, or what the reset
has left. -/
theorem dPort_adr (v : ℕ) : (r.state v).dPort.adr = 0 ∧ (r.state v).dPort.we = false ∨
    ∃ k acc, ((r.machine init).after rom k).access rom = some acc ∧
      (r.state v).dPort.adr = (Transfer.ofAccess acc).adr ∧
      ((r.state v).dPort.we = true → (Transfer.ofAccess acc).we = true) := by
  induction v with
  | zero => exact .inl (by rw [r.zero_dPort]; exact ⟨rfl, rfl⟩)
  | succ v ih =>
    by_cases hstart : r.Starts v
    · have hnew : (r.state (v + 1)).dPort.transfer ∈ r.transfers (v + 1) := by
        rw [transfers, if_pos hstart]
        exact List.mem_append_right _ (List.mem_singleton_self _)
      obtain ⟨k, acc, hacc, heq⟩ := transfers_within h hx hf hd hmem hs hnew
      exact .inr ⟨k, acc, hacc, congrArg Transfer.adr heq,
        fun hwe => (congrArg Transfer.we heq).symm.trans hwe⟩
    · -- the address stays, and a write can only end
      have hport : (r.state (v + 1)).dPort.adr = (r.state v).dPort.adr ∧
          ((r.state (v + 1)).dPort.we = true → (r.state v).dPort.we = true) := by
        rw [r.succ_dPort, DataPort.next]
        cases hstate : (r.state v).dPort.state with
        | idle =>
          have hvalid : (r.state v).dValid = false := by
            rw [← Bool.not_eq_true]
            exact fun hv => hstart ⟨hstate, hv⟩
          rw [hvalid]
          exact ⟨rfl, fun hwe => absurd hwe Bool.false_ne_true⟩
        | active =>
          cases (r.inputs v).dWbAck with
          | false => exact ⟨rfl, id⟩
          | true => exact ⟨rfl, fun hwe => absurd hwe Bool.false_ne_true⟩
      rcases ih with ⟨hadr, hwe⟩ | ⟨k, acc, hacc, hadr, hwe⟩
      · refine .inl ⟨hport.1.trans hadr, ?_⟩
        rw [← Bool.not_eq_true]
        exact fun hw => absurd (hwe.symm.trans (hport.2 hw)) Bool.false_ne_true
      · exact .inr ⟨k, acc, hacc, hport.1.trans hadr, fun hw => hwe (hport.2 hw)⟩

omit h hx hf hd hmem hs in
/-- A transfer under way is in the list of transfers. -/
theorem transfer_mem_of_active {v : ℕ} (hact : (r.state v).dPort.state = .active) :
    (r.state v).dPort.transfer ∈ r.transfers v := by
  induction v with
  | zero =>
    rw [r.zero_dPort] at hact
    exact absurd hact (by decide)
  | succ v ih =>
    rw [transfers]
    by_cases hstart : r.Starts v
    · rw [if_pos hstart]
      exact List.mem_append_right _ (List.mem_singleton_self _)
    · rcases dPort_active_succ hact with hs | ⟨hold, hack⟩
      · exact absurd hs hstart
      · rw [dPort_of_wait hold hack]
        exact List.mem_append_left _ (ih hold)

/-- Both ports keep to the program: the instruction port asks for a program counter of the machine
or for the next word after one, and the data port for an access of the machine. -/
theorem ports_within (v : ℕ) :
    (∃ k, (r.state v).instrPort.adr = ((r.machine init).after rom k).pc ∨
      (r.state v).instrPort.adr = ((r.machine init).after rom k).pc + 4) ∧
      ((r.state v).dPort.cyc = true → ∃ k acc,
        ((r.machine init).after rom k).access rom = some acc ∧
          (r.state v).dPort.transfer = Transfer.ofAccess acc) := by
  refine ⟨instrPort_adr h hx hf hd hmem hs v, fun hcyc => ?_⟩
  have hact := of_decide_eq_true ((r.dPort_cyc v).1.symm.trans hcyc)
  exact transfers_within h hx hf hd hmem hs (transfer_mem_of_active hact)

end

/-- The program with a load fetches nothing behind its third word. -/
theorem ports_within_load : (loadBench.run₁.state 100000).instrPort.adr.toNat ≤ 8 := by
  obtain ⟨⟨k, hk⟩, -⟩ := ports_within loadBench.delayed loadBench.run₁_exact
    (loadBench.run₁_instrFair fun _ => rfl) (loadBench.run₁_dataFair fun _ => rfl)
    loadBench.dataMemory (loadBench.supported rfl) 100000
  rcases loadBench.pc_cases (s := loadBench.run₁.machine fun _ => 0) rfl k with
    ⟨hpc, -⟩ | ⟨hpc, -⟩ <;>
  · rw [hpc] at hk
    rcases hk with hk | hk <;> rw [hk] <;> decide

end Run

end RvPipelineCore

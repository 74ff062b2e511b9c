import RvPipelineCore.Operands

/-!
# CSR accesses in program order

CSRs are read in execute and written from write-back, at the end of the cycle. Nothing is forwarded,
and `csr_pending`, which is to keep the next instruction out of execute, is never set.

- `Run.CsrAfter`: the value of a CSR after all instructions older than a given one;
- `State.csrAhead`: what it reads as once the two instructions ahead of execute have written it;
- `Run.csrAfter_csrAhead`: the second is the first;
- `Run.csr_in_order`: exactly when CSR instructions return this value and an `mret` jumps to it.
-/

namespace RvPipelineCore

/-- The CSRs that change only by instructions and traps, counters apart. -/
def settledCsrs : List (BitVec 12) :=
  [csrMscratchAddr, csrMtvecAddr, csrMepcAddr, csrMcauseAddr, csrMtvalAddr, csrMieAddr, csrMipAddr,
    csrMstatusAddr]

/-- Without a trap and a write, such a CSR keeps its value. -/
theorem CsrExec.readCsr_next {a : BitVec 12} (ha : a ∈ settledCsrs) (c : CsrExec)
    {w : CsrWriteback} (htrap : w.trapCaught = false) (hw : w.writes a = false)
    (hmret : a = csrMstatusAddr → w.mretInstr = false) (ext timer : Bool) (pc : BitVec 32) :
    (c.next w ext timer pc).readCsr a = c.readCsr a := by
  have hint : w.interruptExternalW = false ∧ w.interruptTimerW = false := by
    simp only [CsrWriteback.trapCaught, Bool.or_eq_false_iff] at htrap
    exact ⟨htrap.1.2, htrap.2⟩
  simp only [settledCsrs, List.mem_cons, List.not_mem_nil, or_false] at ha
  rcases ha with rfl | rfl | rfl | rfl | rfl | rfl | rfl | rfl
  · simp [next, hw]
  · simp [mtvec, next, hw]
  · simp [mepc, next, htrap, hw]
  · simp [mcause, next, htrap]
  · simp [next, htrap, hw]
  · simp [mie, next, hw]
  · simp [mip, next, hw, hint]
  · simp [mstatus, next, htrap, hw, hmret rfl]

/-- CSR `a` after a write of `value` to it: one clock edge of `csr_exec` without a trap or an
`mret`. -/
def CsrExec.written (c : CsrExec) (a : BitVec 12) (value : BitVec 32) : BitVec 32 :=
  (c.next ⟨a, true, value, false, false, false, false, false, false, false, 0, 0, false, false⟩
    false false 0).readCsr a

/-- A write shows the same in two states that agree on the registers no write reaches. -/
theorem CsrExec.readCsr_next_written {a : BitVec 12} (ha : a ∈ settledCsrs) {c c' : CsrExec}
    (hmpie : c'.mstatusMpie = c.mstatusMpie) (hcause : c'.mcause = c.mcause) {w : CsrWriteback}
    (htrap : w.trapCaught = false) (hmret : w.mretInstr = false) (hw : w.writes a = true)
    (ext timer : Bool) (pc : BitVec 32) :
    (c'.next w ext timer pc).readCsr a = c.written a w.writeValue := by
  simp only [settledCsrs, List.mem_cons, List.not_mem_nil, or_false] at ha
  simp only [mcause] at hcause
  -- what `written` feeds the registers is such a write
  rw [written]
  generalize hp : CsrWriteback.mk a true w.writeValue false false false false false false false 0 0
    false false = p
  have hwp : p.writes a = true ∧ p.writeValue = w.writeValue ∧ p.trapCaught = false ∧
      p.mretInstr = false := by
    subst hp
    simp [CsrWriteback.writes, CsrWriteback.trapCaught, CsrWriteback.isException]
  obtain ⟨hwp, hval, htp, hmp⟩ := hwp
  rcases ha with rfl | rfl | rfl | rfl | rfl | rfl | rfl | rfl
  · simp [next, hw, hwp, hval]
  · simp [mtvec, next, hw, hwp, hval]
  · simp [mepc, next, hw, hwp, hval, htrap, htp]
  · simpa [mcause, next, htrap, htp] using hcause
  · simp [next, hw, hwp, hval, htrap, htp]
  · simp [mie, next, hw, hwp, hval]
  · simp [mip, next, hw, hwp, hval]
  · simp [mstatus, next, hw, hwp, hval, htrap, htp, hmret, hmp, hmpie]

/-- The instruction in the memory stage writes CSR `a`: a CSR instruction, or an `mret`, which pops
the interrupt enable of `mstatus`. -/
def State.writesCsrM (s : State) (a : BitVec 12) : Prop :=
  s.m.csrWrite = true ∧ s.m.csrAddress = a ∨ s.m.mretInstr = true ∧ a = csrMstatusAddr

/-- Whether the instruction in the memory stage writes a CSR can be decided from the state. -/
instance (s : State) (a : BitVec 12) : Decidable (s.writesCsrM a) :=
  inferInstanceAs (Decidable (_ ∨ _))

/-- CSR `a` as the CSR instructions in write-back and in the memory stage will leave it. -/
def State.csrAhead (s : State) (a : BitVec 12) : BitVec 32 :=
  -- the younger one is in the memory stage
  if s.m.csrWrite = true ∧ s.m.csrAddress = a then s.csr.written a s.m.outWriteCsr
  else if s.w.csrWrite = true ∧ s.w.csrAddress = a then s.csr.written a s.w.outWriteCsr
  else s.csr.readCsr a

namespace Run

variable {x : DontCare} {r : Run x} {rom : BitVec 32 → BitVec 32}

/-! ## The value of a CSR in program order -/

section Order

variable (r)

/-- The instruction with stamp `n` writes CSR `a`: it is a CSR instruction that names `a`, or an
`mret` if `a` is `mstatus`. -/
def CsrWriter (a : BitVec 12) (n : ℕ) : Prop :=
  ∃ u, n = u + 1 ∧ (r.state u).entersE (r.inputs u) = true ∧
    (((r.state u).outControlD x).csrWrite = true ∧ immITypeOf (r.state u).d.instr = a ∨
      ((r.state u).outControlD x).mretInstr = true ∧ a = csrMstatusAddr)

/-- The instruction with stamp `n` commits, and CSR `a` reads as `v` once it has been applied in
write-back. -/
def CsrDelivers (a : BitVec 12) (n : ℕ) (v : BitVec 32) : Prop :=
  ∃ c, r.Commits n c ∧ v = (r.state (c + 2)).csr.readCsr a

/-- CSR `a` reads as `v` after all instructions older than the one with stamp `n`. -/
def CsrAfter (a : BitVec 12) (n : ℕ) (v : BitVec 32) : Prop :=
  LastWrite (r.CsrWriter a) (r.CsrDelivers a) ((r.state 0).csr.readCsr a) n v

/-- No `mret` is lost in cycle `v`: it does not redirect while an access waits. -/
def MretKept (v : ℕ) : Prop :=
  (r.state v).stallM (r.inputs v) = true → (r.state v).jumpInstr = true →
    (r.state v).ce.mretInstr = false

/-- Whether an `mret` is kept over a cycle can be decided from the state and the inputs of the
cycle. -/
instance (v : ℕ) : Decidable (r.MretKept v) := inferInstanceAs (Decidable (_ → _ → _))

end Order

/-- A CSR has one value after the instructions older than a given one. -/
theorem CsrAfter.unique {a : BitVec 12} {n : ℕ} {v v' : BitVec 32} (h : r.CsrAfter a n v)
    (h' : r.CsrAfter a n v') : v = v' := by
  refine LastWrite.unique ?_ h h'
  rintro m w w' ⟨c, hc, rfl⟩ ⟨c', hc', rfl⟩
  rw [hc.unique hc']

/-- The instruction in execute writes CSR `a` if and only if its CSR write names `a`, or it is an
`mret` and `a` is `mstatus`. -/
theorem csrWriter_stampE_iff {t : ℕ} {a : BitVec 12} (h : (r.state t).e.validPc = true) :
    r.CsrWriter a (r.stampE t) ↔
      (r.state t).e.csrWrite = true ∧ (r.state t).e.csrAddress = a ∨
        (r.state t).ce.mretInstr = true ∧ a = csrMstatusAddr := by
  obtain ⟨u, hu, hin, he, hc⟩ := r.e_origin t h
  rw [he, hc, hu]
  constructor
  · rintro ⟨u', huu, -, hw⟩
    obtain rfl : u = u' := by omega
    exact hw
  · intro hw
    exact ⟨u, rfl, hin, hw⟩

/-- The instruction in the memory stage writes CSR `a` if and only if the stage says so. -/
theorem csrWriter_stampM_iff {t : ℕ} {a : BitVec 12} (h : (r.state t).m.validPc = true) :
    r.CsrWriter a (r.stampM t) ↔ (r.state t).writesCsrM a := by
  obtain ⟨q, -, hv, -, hst, hm, -⟩ := r.m_origin t h
  rw [hst, csrWriter_stampE_iff hv, State.writesCsrM, hm]
  rfl

/-! ## Writes -/

section Writes

variable {t : ℕ} {a : BitVec 12}

/-- A CSR write in the memory stage belongs to a valid instruction. -/
theorem m_valid_of_writesCsrM (h : (r.state t).writesCsrM a) : (r.state t).m.validPc = true := by
  rcases h with ⟨h, -⟩ | ⟨h, -⟩
  · exact m_valid_of (f := fun s => s.m.csrWrite) (fun s hm _ => by simp [hm]) h
  · exact m_valid_of (f := fun s => s.m.mretInstr) (fun s hm _ => by simp [hm]) h

/-- What writes a CSR does not use the data port. -/
theorem stallM_of_writesCsrM (h : (r.state t).writesCsrM a) :
    (r.state t).stallM (r.inputs t) = false := by
  by_contra hs
  simp only [Bool.not_eq_false, State.stallM, Bool.and_eq_true] at hs
  obtain ⟨hcsr, hmret, -⟩ := m_of_loadStore hs.1
  rcases h with ⟨h, -⟩ | ⟨h, -⟩
  · simp [hcsr] at h
  · simp [hmret] at h

/-- An instruction in the memory stage that writes a CSR commits in this cycle, unless a trap is
taken in the next one. -/
theorem commits_of_writesCsrM (htrap : (r.state (t + 1)).trapCaughtW = false)
    (h : (r.state t).writesCsrM a) : r.Commits (r.stampM t) t := by
  rw [r.succ_trapCaughtW] at htrap
  exact ⟨m_valid_of_writesCsrM h, rfl, stallM_of_writesCsrM h, htrap⟩

/-- In the cycle after its write-back a CSR still reads as before, if the instruction does not write
it. -/
theorem readCsr_succ_of_not (ha : a ∈ settledCsrs)
    (htrap : (r.state (t + 1)).trapCaughtW = false) (h : ¬ (r.state t).writesCsrM a) :
    (r.state (t + 2)).csr.readCsr a = (r.state (t + 1)).csr.readCsr a := by
  rw [r.succ_csr (t + 1)]
  refine CsrExec.readCsr_next ha _ htrap ?_ ?_ _ _ _
  · rw [CsrWriteback.writes, State.csrWriteback, r.succ_w]
    by_contra hw
    rw [Bool.not_eq_false, Bool.and_eq_true, beq_iff_eq] at hw
    exact h (.inl ⟨hw.2, hw.1⟩)
  · intro hst
    rw [State.csrWriteback, r.succ_w]
    by_contra hmret
    exact h (.inr ⟨Bool.not_eq_false _ ▸ hmret, hst⟩)

/-- An instruction in the memory stage that writes a CSR has been in execute in the cycle before,
since it never waits. -/
theorem writesCsrM_origin (h : (r.state (t + 1)).writesCsrM a) :
    (r.state (t + 1)).m = (r.state t).memoryInput ∧
      (r.state (t + 1)).cm = (r.state t).controlInputM ∧ r.stampM (t + 1) = r.stampE t := by
  rcases r.m_cases t with ⟨-, hm, -⟩ | ⟨-, -, -, hm, hc, hst⟩ | ⟨-, hs, hm, -⟩
  · have := m_valid_of_writesCsrM h
    simp [hm] at this
  · exact ⟨hm, hc, hst⟩
  · rw [State.writesCsrM, hm] at h
    simp [stallM_of_writesCsrM h] at hs

/-- A CSR instruction has been in execute in the cycle before, under the same stamp. -/
theorem csrM_origin {s : ℕ} (h : (r.state (s + 1)).m.csrWrite = true) :
    (r.state s).e.validPc = true ∧ (r.state (s + 1)).m = (r.state s).memoryInput ∧
      (r.state (s + 1)).cm = (r.state s).controlInputM ∧ r.stampM (s + 1) = r.stampE s := by
  obtain ⟨hm, hc, hst⟩ := writesCsrM_origin (a := (r.state (s + 1)).m.csrAddress) (.inl ⟨h, rfl⟩)
  rw [hm] at h
  exact ⟨e_valid_of (f := fun s => s.e.csrWrite) (fun s he _ => by simp [he]) h, hm, hc, hst⟩

/-- An `mret` that has left execute has emptied decode and execute. -/
theorem empty_of_mret (htrap : ∀ v ≤ t + 2, (r.state v).trapCaughtW = false)
    (h : (r.state (t + 1)).m.mretInstr = true) :
    (r.state (t + 1)).d.isDecodeFlush = false ∧ (r.state (t + 1)).e.validPc = false := by
  obtain ⟨hm, -⟩ := writesCsrM_origin (a := csrMstatusAddr) (.inr ⟨h, rfl⟩)
  have hx : ∀ v ≤ t + 1, (r.state v).isInstrExceptionM = false := fun v hv => by
    rw [← r.succ_trapCaughtW]
    exact htrap (v + 1) (by omega)
  have hw := htrap t (by omega)
  rw [State.trapCaughtW_eq] at hw
  have hj : (r.state t).jumpInstr = true := by
    rw [hm] at h
    have hjump := (kindsE (r := r) t).mretInstr h
    simp [State.jumpInstr, State.pcSrcE, hjump, no_exceptionE hm (hx (t + 1) le_rfl),
      hx t (by omega), hw]
  constructor
  · simp [r.succ_d, State.flushD, hj]
  · simp [r.succ_e, State.flushE, hj]

/-- No `mret` is ahead of an instruction in execute, as long as no trap has been taken. -/
theorem no_mret_ahead (htrap : ∀ v ≤ t + 2, (r.state v).trapCaughtW = false)
    (hv : (r.state (t + 1)).e.validPc = true) :
    (r.state (t + 1)).m.mretInstr = false ∧ (r.state (t + 1)).w.mretInstr = false := by
  constructor
  · by_contra hm
    simp [(empty_of_mret htrap (Bool.not_eq_false _ ▸ hm)).2] at hv
  · rw [r.succ_w]
    by_contra hw
    have hw : (r.state t).m.mretInstr = true := Bool.not_eq_false _ ▸ hw
    cases t with
    | zero => simp at hw
    | succ t =>
      obtain ⟨hd, he⟩ := empty_of_mret (fun v hv => htrap v (by omega)) hw
      simp [r.succ_e_validPc (t + 1), State.entersE, hd, he] at hv

/-- Two cycles later the two instructions ahead of execute have written what `csrAhead` says. -/
theorem readCsr_csrAhead (ha : a ∈ settledCsrs)
    (htrap : ∀ v ≤ t + 2, (r.state v).trapCaughtW = false)
    (hv : (r.state (t + 1)).e.validPc = true) :
    (r.state (t + 3)).csr.readCsr a = (r.state (t + 1)).csrAhead a := by
  obtain ⟨hmm, hmw⟩ := no_mret_ahead htrap hv
  have hnot {u : ℕ} (hmret : (r.state u).m.mretInstr = false)
      (h : ¬ ((r.state u).m.csrWrite = true ∧ (r.state u).m.csrAddress = a)) :
      ¬ (r.state u).writesCsrM a := by
    rintro (h' | ⟨h', -⟩)
    · exact h h'
    · simp [hmret] at h'
  have hmw' : (r.state t).m.mretInstr = false := by
    rw [r.succ_w] at hmw
    exact hmw
  rw [State.csrAhead]
  split_ifs with hm hw
  · -- between the two cycles neither `MPIE` nor `mcause` changes
    have hmpie : (r.state (t + 2)).csr.mstatusMpie = (r.state (t + 1)).csr.mstatusMpie := by
      rw [succ_mstatusMpie, htrap (t + 1) (by omega), hmw]
      simp
    have hcause : (r.state (t + 2)).csr.mcause = (r.state (t + 1)).csr.mcause := by
      have htr : (r.state (t + 1)).csrWriteback.trapCaught = false := htrap (t + 1) (by omega)
      rw [r.succ_csr]
      simp [CsrExec.mcause, CsrExec.next, htr]
    rw [r.succ_csr (t + 2), CsrExec.readCsr_next_written ha hmpie hcause (htrap (t + 2) le_rfl)]
    · rw [State.csrWriteback, r.succ_w]
      rfl
    · rw [State.csrWriteback, r.succ_w]
      exact hmm
    · rw [CsrWriteback.writes, State.csrWriteback, r.succ_w]
      simp [State.writebackInput, hm]
  · rw [readCsr_succ_of_not ha (htrap (t + 2) le_rfl) (hnot hmm hm), r.succ_csr (t + 1),
      CsrExec.readCsr_next_written ha rfl rfl (htrap (t + 1) (by omega)) hmw]
    · rfl
    · simp [CsrWriteback.writes, State.csrWriteback, hw]
  · rw [readCsr_succ_of_not ha (htrap (t + 2) le_rfl) (hnot hmm hm)]
    refine readCsr_succ_of_not ha (htrap (t + 1) (by omega)) (hnot hmw' fun h => hw ?_)
    rw [r.succ_w]
    exact h

end Writes

/-! ## Reads -/

/-- An instruction that writes a CSR is not lost in a cycle that keeps every `mret`. -/
theorem not_lostAt_of_csrWriter (hi : r.InstrSlave rom) {a : BitVec 12} {n v : ℕ}
    (hw : r.CsrWriter a n) (hK : r.MretKept v) : ¬ r.LostAt n v := by
  intro hl
  rcases hl.cases hi with ⟨rfl, hv, hs, hlost⟩ | ⟨rfl, hv, hs, -⟩
  · have hk := kindsE (r := r) v
    rcases (csrWriter_stampE_iff hv).mp hw with ⟨hcsr, -⟩ | ⟨hmret, -⟩
    · -- a CSR instruction is no redirect and no load
      obtain ⟨hb, hj, hls⟩ := hk.csrWrite hcsr
      rcases hlost with hjump | ⟨hld, -⟩
      · simp only [State.jumpInstr, Bool.and_eq_true] at hjump
        rcases State.branch_or_jump_of_pcSrcE hjump.1.1.1 with h | h
        · simp [hb] at h
        · simp [hj] at h
      · simp [hk.loadInstr hld] at hls
    · rcases hlost with hjump | ⟨hld, -⟩
      · simp [hK hs hjump] at hmret
      · have hj := (hk.loadStore (hk.loadInstr hld)).2.1
        simp [hk.mretInstr hmret] at hj
  · -- what waits in the memory stage writes no CSR
    have := stallM_of_writesCsrM ((csrWriter_stampM_iff hv).mp hw)
    simp [hs] at this

/-- For the instruction in execute `csrAhead` is the value of a CSR after all older instructions. -/
theorem csrAfter_csrAhead (hi : r.InstrSlave rom) {t : ℕ} {a : BitVec 12} (ha : a ∈ settledCsrs)
    (htrap : ∀ v ≤ t + 1, (r.state v).trapCaughtW = false) (hK : ∀ v < t, r.MretKept v)
    (hv : (r.state t).e.validPc = true) :
    r.CsrAfter a (r.stampE t) ((r.state t).csrAhead a) := by
  have hut := r.stampE_le t
  obtain _ | s := t
  · simp at hv
  rw [← readCsr_csrAhead ha htrap hv]
  -- the older writers have committed by now, the youngest of them in this cycle
  refine LastWrite.of_commits (g := fun v => (r.state (v + 1)).csr.readCsr a) (T := s + 2)
    (fun v => (r.state v).writesCsrM a) r.stampM ?_ (fun v hvs hw => ?_)
    (fun v hvs hw => ⟨?_, ?_, ?_⟩) r.stampM_mono fun m hm hw => ?_
  · -- write-back is empty at the start
    have hw : (r.state 0).csrWriteback.writeEnable = false ∧
        (r.state 0).csrWriteback.mretInstr = false := by
      simp only [State.csrWriteback, r.zero_w]
      exact ⟨rfl, rfl⟩
    simp only [r.succ_csr 0]
    refine CsrExec.readCsr_next ha _ (htrap 0 (by omega)) ?_ (fun _ => hw.2) _ _ _
    simp [CsrWriteback.writes, hw.1]
  · exact readCsr_succ_of_not ha (htrap (v + 1) (by omega)) hw
  · exact (csrWriter_stampM_iff (m_valid_of_writesCsrM hw)).mpr hw
  · exact ⟨v, commits_of_writesCsrM (htrap (v + 1) (by omega)) hw, rfl⟩
  · exact (r.stampM_lt_stampE v (m_valid_of_writesCsrM hw)).trans_le (r.stampE_mono (by omega))
  · obtain ⟨u', hu', hin', -⟩ := id hw
    rcases older_cases ⟨u', hu', hin'⟩ (T := s + 1) (by omega) (fun v hv => htrap v (by omega))
      (fun v hv => not_lostAt_of_csrWriter hi hw (hK v hv)) with
      ⟨v, hvs, hc⟩ | ⟨-, hn⟩ | ⟨hvm, hn⟩
    · exact ⟨v, by omega, (csrWriter_stampM_iff hc.valid).mp (hc.stamp.symm ▸ hw), hc.stamp⟩
    · omega
    · exact ⟨s + 1, by omega, (csrWriter_stampM_iff hvm).mp (hn ▸ hw), hn⟩

/-- A reader in execute finds the value that its CSR has after all older instructions, exactly when
this value agrees with what the CSR shows. -/
theorem csrAfter_readCsr_iff (hi : r.InstrSlave rom) {t : ℕ} {a : BitVec 12} (ha : a ∈ settledCsrs)
    (htrap : ∀ v ≤ t + 1, (r.state v).trapCaughtW = false) (hK : ∀ v < t, r.MretKept v)
    (hv : (r.state t).e.validPc = true) :
    r.CsrAfter a (r.stampE t) ((r.state t).csr.readCsr a) ↔
      (r.state t).csrAhead a = (r.state t).csr.readCsr a := by
  have h := csrAfter_csrAhead hi ha htrap hK hv
  exact ⟨fun h' => h.unique h', fun heq => heq ▸ h⟩

/-- A CSR instruction that commits hands to the register file what it has read in execute. -/
theorem resultW_of_csrWrite {s : ℕ} (hcsr : (r.state (s + 1)).m.csrWrite = true)
    (hclean : (r.state (s + 1)).isInstrExceptionM = false) :
    (r.state (s + 2)).resultW = (r.state s).csr.readCsr (r.state s).e.csrAddress := by
  obtain ⟨hv, hm, hcm, -⟩ := csrM_origin hcsr
  -- a flagged instruction would not have come here clean, so that the word is a legal one
  have he : (r.state s).e.csrWrite = true := by
    rw [hm] at hcsr
    exact hcsr
  have hill : (r.state s).e.illegalInstruction = false := by
    simp only [State.isInstrExceptionM, hm, State.memoryInput, Bool.or_eq_false_iff] at hclean
    simp [hclean]
  obtain ⟨u, -, -, he', hce, hsome, -⟩ := r.e_origin_legal s hv hill
  -- such a word takes its result from the output of execute
  have hsrc : (r.state s).ce.resultSrc = 0b00 := by
    rw [hce]
    refine (result_of_decode x hsome).2 ?_
    rw [he'] at he
    exact he
  simp [State.resultW, r.succ_w, r.succ_cw, State.writebackInput, hm, hcm, State.memoryInput,
    State.controlInputM, State.dataOutputFromExecute, hsrc, he, mux2, mux4]

/-- An `mret` whose redirect takes effect sends fetch to `mepc`. -/
theorem pcNextF_of_mret {t : ℕ} (hj : (r.state t).jumpInstr = true)
    (hmret : (r.state t).ce.mretInstr = true) : (r.state t).pcNextF = (r.state t).csr.mepc := by
  simp only [State.jumpInstr, Bool.and_eq_true, Bool.not_eq_true'] at hj
  obtain ⟨⟨⟨hsrc, -⟩, -⟩, hw⟩ := hj
  have hv := e_valid_of_pcSrcE hsrc
  have hjump := (kindsE (r := r) t).mretInstr hmret
  have hb : (r.state t).ce.branch = false := by
    obtain ⟨u, -, -, -, hc⟩ := r.e_origin t hv
    obtain ⟨w, hof⟩ := exists_controlOf (r := r) u
    rw [hc] at hjump ⊢
    have hjw : isJump w = true := hof.jump.symm.trans hjump
    by_contra hb
    have hbw : isBranch w = true := hof.branch.symm.trans (Bool.not_eq_false _ ▸ hb)
    simp [isJump_of_isBranch hbw] at hjw
  have htarget := (r.state t).jumpTargetE_of_pcSrcE hv (by simp [hb]) hsrc
  rw [State.pcNextF, State.trapCaughtW_eq, hw, hsrc, htarget, hjump]
  simp [State.jumpPcTargetE, hmret]

variable (r)

end Run

end RvPipelineCore

import RvPipelineCore.Interlocks
import RvPipelineCore.Lib.LastWrite
import RvPipelineCore.Losses
import RvPipelineCore.Precise

/-!
# The value of a register in program order

What a register holds after all instructions older than a given one (`Run.RegAfter`): what the last
of them that writes it has handed to the register file. The definition speaks about stamps, not
about the pipeline.

- `Run.archRegs`: the register file as the instructions that have committed leave it; the one of the
  core differs from it only while a load waits in the memory stage (`Run.regMemNext_eq`);
- `Run.regAfter_archRegs`: it holds the value in program order once all older writers have
  committed;
- `Run.writer_cases`: where the others are, if no link register write and no load is lost
  (`Run.WritesKept`).
-/

namespace RvPipelineCore

namespace State

variable (s : State)

/-- The instruction in the memory stage writes register `a`, which may be `x0`. -/
def writesM (a : BitVec 5) : Prop := s.cm.regWrite = true ∧ s.m.rd = a

/-- Whether the instruction in the memory stage writes a register can be decided from the state. -/
instance (a : BitVec 5) : Decidable (s.writesM a) := inferInstanceAs (Decidable (_ ∧ _))

end State

namespace Run

variable {x : DontCare} {r : Run x} {rom : BitVec 32 → BitVec 32}

/-! ## The value of a register in program order -/

section Order

variable (r)

/-- The instruction with stamp `n` writes register `a`: it entered execute in the cycle before `n`,
and its word has `a` as its destination. -/
def Writer (a : BitVec 5) (n : ℕ) : Prop :=
  ∃ u, n = u + 1 ∧ (r.state u).entersE (r.inputs u) = true ∧
    ((r.state u).outControlD x).regWrite = true ∧ rdOf (r.state u).d.instr = a

/-- The instruction with stamp `n` commits and hands `v` to the register file. -/
def Delivers (n : ℕ) (v : BitVec 32) : Prop := ∃ c, r.Commits n c ∧ v = (r.state (c + 1)).resultW

/-- Register `a` holds `v` after all instructions older than the one with stamp `n`. -/
def RegAfter (n : ℕ) (a : BitVec 5) (v : BitVec 32) : Prop :=
  if a = 0 then v = 0 else LastWrite (r.Writer a) r.Delivers ((r.state 0).regMem a) n v

/-- An instruction that writes register `a` commits in cycle `t`. -/
def WritesAt (a : BitVec 5) (t : ℕ) : Prop := r.Commits (r.stampM t) t ∧ (r.state t).writesM a

/-- Whether a register is written by a commit in a cycle can be decided from the state and the
inputs of the cycle. -/
instance (a : BitVec 5) (t : ℕ) : Decidable (r.WritesAt a t) := inferInstanceAs (Decidable (_ ∧ _))

/-- The register file as the instructions that have committed leave it. -/
def archRegs (a : BitVec 5) : ℕ → BitVec 32
  | 0 => (r.state 0).regMem a
  | t + 1 => if r.WritesAt a t then (r.state (t + 1)).resultW else archRegs a t

/-- No write of a register is lost in cycle `v`: a redirect that waits in execute has no link
register, and a load that waits behind a pending divide has no destination. -/
structure WritesKept (v : ℕ) : Prop where
  link : (r.state v).stallM (r.inputs v) = true → (r.state v).jumpInstr = true →
    (r.state v).ce.regWrite = true → (r.state v).e.rd = 0
  load : (r.state v).stallM (r.inputs v) = true → (r.state v).hazard.divPending = true →
    (r.state v).cm.regWrite = true → (r.state v).m.rd = 0

/-- Whether a cycle keeps the writes of registers can be decided from the state and the inputs of
the cycle. -/
instance (v : ℕ) : Decidable (r.WritesKept v) :=
  decidable_of_iff
    (((r.state v).stallM (r.inputs v) = true → (r.state v).jumpInstr = true →
        (r.state v).ce.regWrite = true → (r.state v).e.rd = 0) ∧
      ((r.state v).stallM (r.inputs v) = true → (r.state v).hazard.divPending = true →
        (r.state v).cm.regWrite = true → (r.state v).m.rd = 0))
    ⟨fun h => ⟨h.1, h.2⟩, fun h => ⟨h.1, h.2⟩⟩

end Order

/-- An instruction commits in one cycle only, since it leaves the memory stage then. -/
theorem Commits.unique {n t t' : ℕ} (h : r.Commits n t) (h' : r.Commits n t') : t = t' := by
  -- until the later of the two the memory stage would have waited
  rcases lt_trichotomy t t' with hlt | rfl | hlt
  · have := (r.m_eq_of_stamp h.valid h'.valid (h'.stamp.trans h.stamp.symm) t le_rfl hlt.le).2.2 hlt
    simp [h.done] at this
  · rfl
  · have hst := h.stamp.trans h'.stamp.symm
    have := (r.m_eq_of_stamp h'.valid h.valid hst t' le_rfl hlt.le).2.2 hlt
    simp [h'.done] at this

/-- A register has one value after the instructions older than a given one. -/
theorem RegAfter.unique {n : ℕ} {a : BitVec 5} {v v' : BitVec 32} (h : r.RegAfter n a v)
    (h' : r.RegAfter n a v') : v = v' := by
  unfold RegAfter at h h'
  split_ifs at h h' with ha
  · rw [h, h']
  · refine h.unique ?_ h'
    rintro m w w' ⟨c, hc, rfl⟩ ⟨c', hc', rfl⟩
    rw [hc.unique hc']

/-- The instruction in execute is a writer of register `a` if and only if its control signals and
its destination say so. -/
theorem writer_stampE_iff {t : ℕ} {a : BitVec 5} (h : (r.state t).e.validPc = true) :
    r.Writer a (r.stampE t) ↔ (r.state t).ce.regWrite = true ∧ (r.state t).e.rd = a := by
  obtain ⟨u, hu, hin, he, hc⟩ := r.e_origin t h
  rw [he, hc, hu]
  constructor
  · rintro ⟨u', huu, -, hw, hrd⟩
    obtain rfl : u = u' := by omega
    exact ⟨hw, hrd⟩
  · rintro ⟨hw, hrd⟩
    exact ⟨u, rfl, hin, hw, hrd⟩

/-- The instruction in the memory stage is a writer of register `a` if and only if the stage says
so. -/
theorem writer_stampM_iff {t : ℕ} {a : BitVec 5} (h : (r.state t).m.validPc = true) :
    r.Writer a (r.stampM t) ↔ (r.state t).writesM a := by
  obtain ⟨q, -, hv, -, hst, hm, hc⟩ := r.m_origin t h
  rw [hst, writer_stampE_iff hv, State.writesM, hm, hc]
  rfl

/-- A register write in the memory stage belongs to a valid instruction. -/
theorem m_valid_of_writesM {t : ℕ} {a : BitVec 5} (h : (r.state t).writesM a) :
    (r.state t).m.validPc = true :=
  m_valid_of (f := fun s => s.cm.regWrite) (fun s _ hc => by simp [hc]) h.1

/-! ## The committed register file -/

/-- A commit that writes register `a` gives it the result of the instruction. -/
theorem archRegs_succ_of_writesAt {t : ℕ} {a : BitVec 5} (h : r.WritesAt a t) :
    r.archRegs a (t + 1) = (r.state (t + 1)).resultW :=
  if_pos h

/-- A cycle without a commit that writes register `a` leaves its architectural value as it was. -/
theorem archRegs_succ_of_not {t : ℕ} {a : BitVec 5} (h : ¬ r.WritesAt a t) :
    r.archRegs a (t + 1) = r.archRegs a t :=
  if_neg h

/-- Without a trap, an instruction that writes a register commits unless it waits. -/
theorem writesAt_or_stallM {t : ℕ} {a : BitVec 5} (htrap : (r.state (t + 1)).trapCaughtW = false)
    (h : (r.state t).writesM a) : r.WritesAt a t ∨ (r.state t).stallM (r.inputs t) = true := by
  rw [r.succ_trapCaughtW] at htrap
  by_cases hs : (r.state t).stallM (r.inputs t) = true
  · exact .inr hs
  · exact .inl ⟨⟨m_valid_of_writesM h, rfl, by simpa using hs, htrap⟩, h⟩

/-- Without a trap, write-back puts the instruction of the memory stage into the register file. -/
theorem regMemNext_succ_of_writesM {t : ℕ} {a : BitVec 5}
    (htrap : (r.state (t + 1)).trapCaughtW = false) (h : (r.state t).writesM a) :
    (r.state (t + 1)).regMemNext a = (r.state (t + 1)).resultW := by
  obtain ⟨hw, hrd⟩ := h
  rw [State.trapCaughtW_eq] at htrap
  rw [State.regMemNext, State.regFileWriteEnable, htrap, r.succ_cw, r.succ_w, if_pos]
  exact ⟨by simp [hw], hrd.symm⟩

/-- A register that the memory stage does not write has in the next cycle the value it has now, as
decode reads it. -/
theorem regMemNext_succ_of_not {t : ℕ} {a : BitVec 5} (h : ¬ (r.state t).writesM a) :
    (r.state (t + 1)).regMemNext a = (r.state t).regMemNext a := by
  rw [State.regMemNext, State.regFileWriteEnable, r.succ_cw, r.succ_w, r.succ_regMem, if_neg]
  rintro ⟨hw, hrd⟩
  rw [Bool.and_eq_true] at hw
  exact h ⟨hw.1, hrd.symm⟩

/-- What decode reads is what has committed, unless a load that writes the register is in the memory
stage: while it waits, each cycle writes what happens to be on the bus. -/
theorem regMemNext_eq {a : BitVec 5} (ha : a ≠ 0) (t : ℕ)
    (htrap : ∀ v ≤ t, (r.state v).trapCaughtW = false) (hK : ∀ v < t, r.WritesKept v) :
    (r.state t).regMemNext a = r.archRegs a t ∨
      (r.state t).cm.loadStore = true ∧ (r.state t).writesM a := by
  induction t with
  | zero =>
    left
    have hcw : (r.state 0).cw.regWrite = false := r.zero_eq (fun s => s.cw.regWrite) fun _ => rfl
    simp [State.regMemNext, State.regFileWriteEnable, hcw, archRegs]
  | succ t ih =>
    have ih := ih (fun v hv => htrap v (by omega)) fun v hv => hK v (by omega)
    by_cases hw : (r.state t).writesM a
    · rcases writesAt_or_stallM (htrap (t + 1) le_rfl) hw with hc | hs
      · left
        rw [regMemNext_succ_of_writesM (htrap (t + 1) le_rfl) hw, archRegs_succ_of_writesAt hc]
      · -- the load stays where it is
        right
        have hls := hs
        simp only [State.stallM, Bool.and_eq_true] at hls
        have hpm : (r.state t).hazard.pendingExceptionM = false := by
          rw [← r.trapCaughtW_eq_pendingExceptionM]
          exact htrap t (by omega)
        rcases r.m_cases t with ⟨hf, -⟩ | ⟨-, hs', -⟩ | ⟨-, -, hm, hc, -⟩
        · have hp : (r.state t).hazard.divPending = true := by simpa [State.flushM, hpm] using hf
          exact absurd (hw.2.symm.trans ((hK t t.lt_succ_self).load hs hp hw.1)) ha
        · simp [hs] at hs'
        · rw [State.writesM, hm, hc]
          exact ⟨hls.1, hw⟩
    · left
      rw [regMemNext_succ_of_not hw, archRegs_succ_of_not fun hc => hw hc.2]
      exact ih.resolve_right fun h => hw h.2

/-- Once all older writers of a register have committed, the committed value is the current one. -/
theorem regAfter_archRegs {a : BitVec 5} (ha : a ≠ 0) {n T : ℕ}
    (hold : ∀ t < T, r.WritesAt a t → r.stampM t < n)
    (hall : ∀ m < n, r.Writer a m → ∃ t < T, r.Commits m t) :
    r.RegAfter n a (r.archRegs a T) := by
  rw [RegAfter, if_neg ha]
  refine LastWrite.of_commits (r.WritesAt a) r.stampM rfl
    (fun t _ h => archRegs_succ_of_not h) (fun t ht h => ⟨?_, ?_, hold t ht h⟩) r.stampM_mono
    fun m hm hw => ?_
  · exact (writer_stampM_iff h.1.valid).mpr h.2
  · exact ⟨t, h.1, archRegs_succ_of_writesAt h⟩
  · obtain ⟨t, ht, hc⟩ := hall m hm hw
    obtain rfl := hc.stamp
    exact ⟨t, ht, ⟨hc, (writer_stampM_iff hc.valid).mp hw⟩, rfl⟩

/-! ## Older writers -/

/-- How an instruction is lost without a trap. In execute it is a redirect or a load to `x0` that
waits; in the memory stage it waits behind a pending divide. -/
theorem LostAt.cases (hi : r.InstrSlave rom) {n v : ℕ} (hl : r.LostAt n v) :
    (r.stampE v = n ∧ (r.state v).e.validPc = true ∧
        (r.state v).stallM (r.inputs v) = true ∧ ((r.state v).jumpInstr = true ∨
          (r.state v).ce.loadInstr = true ∧ (r.state v).e.rd = 0)) ∨
      (r.stampM v = n ∧ (r.state v).m.validPc = true ∧
        (r.state v).stallM (r.inputs v) = true ∧ (r.state v).hazard.divPending = true) := by
  rcases hl.drops with ⟨hd, hst⟩ | ⟨hd, hst⟩
  · have hv : (r.state v).e.validPc = true := by
      simp only [State.dropsE, Bool.and_eq_true] at hd
      exact hd.1.1
    obtain ⟨hs, hlost⟩ := dropsE_cases hi hd hl.no_trap
    exact .inl ⟨hst, hv, hs, hlost⟩
  · simp only [State.dropsM, Bool.and_eq_true, State.flushM,
      ← r.trapCaughtW_eq_pendingExceptionM, hl.no_trap, Bool.false_or] at hd
    exact .inr ⟨hst, hd.1.1.1, hd.1.1.2, hd.2⟩

/-- Where an older instruction can be, if it is not lost: it has committed, or it is in execute or
in the memory stage. -/
theorem older_cases {m T : ℕ} (hm : ∃ u', m = u' + 1 ∧ (r.state u').entersE (r.inputs u') = true)
    (hmT : m ≤ T) (htrap : ∀ v ≤ T, (r.state v).trapCaughtW = false)
    (hkept : ∀ v < T, ¬ r.LostAt m v) :
    (∃ t < T, r.Commits m t) ∨ ((r.state T).e.validPc = true ∧ r.stampE T = m) ∨
      ((r.state T).m.validPc = true ∧ r.stampM T = m) := by
  obtain ⟨u', rfl, hin'⟩ := hm
  rcases fate_or_lost (Nat.lt_of_succ_le hmT) hin' with hfate | ⟨v, hv, hlost⟩
  · cases hfate with
    | inE hv hn => exact .inr (.inl ⟨hv, hn⟩)
    | inM hv hn => exact .inr (.inr ⟨hv, hn⟩)
    | committed t hlt hc => exact .inl ⟨t, hlt, hc⟩
    | removed t hle hr =>
      have := htrap t hle
      simp [hr.trap] at this
  · exact absurd hlost (hkept v hv)

/-- An instruction that writes a register other than `x0` is not lost in a cycle that keeps the
writes. -/
theorem not_lostAt_of_writer (hi : r.InstrSlave rom) {a : BitVec 5} (ha : a ≠ 0) {n v : ℕ}
    (hw : r.Writer a n) (hK : r.WritesKept v) : ¬ r.LostAt n v := by
  intro hl
  rcases hl.cases hi with ⟨rfl, hv, hs, hlost⟩ | ⟨rfl, hv, hs, hp⟩
  · obtain ⟨hreg, rfl⟩ := (writer_stampE_iff hv).mp hw
    rcases hlost with hj | ⟨-, hrd⟩
    · exact ha (hK.link hs hj hreg)
    · exact ha hrd
  · obtain ⟨hreg, rfl⟩ := (writer_stampM_iff hv).mp hw
    exact ha (hK.load hs hp hreg)

/-- Where an older instruction that writes a register can be. -/
theorem writer_cases (hi : r.InstrSlave rom) {a : BitVec 5} (ha : a ≠ 0) {m T : ℕ} (hmT : m ≤ T)
    (hw : r.Writer a m) (htrap : ∀ v ≤ T, (r.state v).trapCaughtW = false)
    (hK : ∀ v < T, r.WritesKept v) :
    (∃ t < T, r.Commits m t) ∨ ((r.state T).e.validPc = true ∧ r.stampE T = m) ∨
      ((r.state T).m.validPc = true ∧ r.stampM T = m) := by
  obtain ⟨u', hmu', hin', -⟩ := id hw
  exact older_cases ⟨u', hmu', hin'⟩ hmT htrap
    fun v hv => not_lostAt_of_writer hi ha hw (hK v hv)

end Run

end RvPipelineCore

import RvPipelineCore.Registers
import RvPipelineCore.Untrapped

/-!
# Source operands

What an instruction reads against what its source registers hold after all older instructions.

- `Run.operands_current`: the forwarded operands of an ALU, multiply, branch, load or store
  instruction are current, unless an `auipc` next to it is forwarded;
- `Run.unforwarded_current`: so are the base of a `jalr` and the source of a CSR instruction, unless
  one of the two instructions ahead of it writes the register.
-/

namespace RvPipelineCore

open Temporal

namespace State

variable (s : State)

/-- The forwarding multiplexers: the value for source register `rs`, read in decode as `rd`. -/
def bypass (rs : BitVec 5) (rd : BitVec 32) : BitVec 32 :=
  mux3 rd s.resultW s.m.aluResult
    (HazardUnit.forward rs s.m.rd s.w.rd s.cm.regWrite s.cw.regWrite)

/-- The first source operand in execute is the value read in decode, after the forwarding
multiplexer. -/
theorem srcAForwardE_eq : s.srcAForwardE = s.bypass s.e.rs1 s.e.rd1 := rfl

/-- The second source operand in execute is the value read in decode, after the forwarding
multiplexer. -/
theorem writeDataE_eq : s.writeDataE = s.bypass s.e.rs2 s.e.rd2 := rfl

/-- The forwarding multiplexer takes the result in the memory stage if it belongs to the register,
then that of write-back, and the value read in decode otherwise. -/
theorem bypass_eq {rs : BitVec 5} (hrs : rs ≠ 0) (rd : BitVec 32) :
    s.bypass rs rd =
      if s.writesM rs then s.m.aluResult
      else if s.cw.regWrite = true ∧ s.w.rd = rs then s.resultW else rd := by
  simp only [bypass, HazardUnit.forward, writesM, mux3, if_pos hrs, eq_comm (a := rs), and_comm]
  split_ifs <;> simp_all

/-- The register `x0` is never forwarded to. -/
theorem bypass_zero (rd : BitVec 32) : s.bypass 0 rd = rd := by
  simp [bypass, HazardUnit.forward, mux3]

end State

namespace Run

variable {x : DontCare} {r : Run x} {rom : BitVec 32 → BitVec 32}

/-! ## How long an instruction has been in execute -/

/-- An instruction in execute has been held there since it entered. -/
theorem e_since (t : ℕ) (h : (r.state t).e.validPc = true) :
    ∃ u < t, (r.state u).entersE (r.inputs u) = true ∧ ∀ v, u < v → v ≤ t →
      (r.state v).e = (r.state u).executeInput x ∧
      (r.state v).ce = (r.state u).controlInputE x ∧ r.stampE v = u + 1 ∧
      (v < t → (r.state v).flushE = false ∧ (r.state v).stallE (r.inputs v) = true) := by
  induction t with
  | zero => simp at h
  | succ t ih =>
    -- execute is emptied, or takes a word in, or keeps its own
    rcases r.e_cases t with ⟨-, he, -⟩ | ⟨hf, hs, he, hc, hst⟩ | ⟨hf, hs, he, hc, hst⟩
    · simp [he] at h
    · rw [he] at h
      refine ⟨t, t.lt_succ_self, ?_, fun v h₁ h₂ => ?_⟩
      · simp only [State.entersE, hf, hs, Bool.not_false, Bool.and_true]
        exact h
      · obtain rfl : v = t + 1 := by omega
        exact ⟨he, hc, hst, fun hlt => absurd hlt (lt_irrefl _)⟩
    · rw [he] at h
      obtain ⟨u, hu, hin, hsince⟩ := ih h
      refine ⟨u, by omega, hin, fun v h₁ h₂ => ?_⟩
      rcases Nat.lt_or_eq_of_le h₂ with h₃ | rfl
      · obtain ⟨he', hc', hst', -⟩ := hsince v h₁ (by omega)
        refine ⟨he', hc', hst', fun _ => ?_⟩
        rcases Nat.lt_succ_iff_lt_or_eq.mp h₃ with h₄ | rfl
        · exact (hsince v h₁ h₄.le).2.2.2 h₄
        · exact ⟨hf, hs⟩
      · obtain ⟨he', hc', hst', -⟩ := hsince t hu le_rfl
        exact ⟨he.trans he', hc.trans hc', hst.trans hst', fun hlt => absurd hlt (lt_irrefl _)⟩

/-- When an instruction enters execute, the one that was there moves to the memory stage. -/
theorem m_succ_of_entersE {u : ℕ} (hin : (r.state u).entersE (r.inputs u) = true) :
    (r.state (u + 1)).m = (r.state u).memoryInput ∧
      (r.state (u + 1)).cm = (r.state u).controlInputM := by
  simp only [State.entersE, State.flushE, Bool.and_eq_true, Bool.not_eq_true',
    Bool.or_eq_false_iff] at hin
  obtain ⟨⟨-, -, hpm⟩, hs⟩ := hin
  simp only [State.stallE, Bool.or_eq_false_iff] at hs
  rcases r.m_cases u with ⟨hf, -⟩ | ⟨-, -, -, hm, hc, -⟩ | ⟨-, hs', -⟩
  · simp [State.flushM, hpm, hs.2] at hf
  · exact ⟨hm, hc⟩
  · simp [hs.1] at hs'

/-- An instruction in execute that is no divide has come there in some cycle, and since then it has
only waited for what is in the memory stage. -/
theorem exists_entry (hi : r.InstrSlave rom) {t : ℕ} (hv : (r.state t).e.validPc = true)
    (hdiv : (r.state t).ce.divInstr = false) :
    ∃ u < t, (r.state u).entersE (r.inputs u) = true ∧ r.stampE t = u + 1 ∧
      (r.state t).e = (r.state u).executeInput x ∧ ∀ v, u < v → v ≤ t →
        (r.state v).m = (r.state t).m ∧ (r.state v).cm = (r.state t).cm ∧
          (v < t → (r.state v).stallM (r.inputs v) = true) := by
  obtain ⟨u, hut, hin, hsince⟩ := e_since t hv
  obtain ⟨he, hce, hst, -⟩ := hsince t hut le_rfl
  have hwait : ∀ v, u < v → v < t → (r.state v).hazard.divPending = false ∧
      (r.state v).hazard.pendingExceptionM = false ∧
      (r.state v).stallM (r.inputs v) = true := by
    intro v h₁ h₂
    obtain ⟨he', hce', -, hkeep⟩ := hsince v h₁ h₂.le
    obtain ⟨hfe, hse⟩ := hkeep h₂
    have hp : (r.state v).hazard.divPending = false := by
      by_contra hp
      have := divInstr_of_divPending hi v (Bool.not_eq_false _ ▸ hp) (by rw [he', ← he, hv])
      rw [hce', ← hce, hdiv] at this
      exact Bool.false_ne_true this
    simp only [State.flushE, Bool.or_eq_false_iff] at hfe
    simp only [State.stallE, hp, Bool.or_false] at hse
    exact ⟨hp, hfe.2, hse⟩
  refine ⟨u, hut, hin, hst, he, fun v h₁ h₂ => ?_⟩
  -- from `v` on the memory stage is held
  have hheld : ∀ w, v ≤ w → w ≤ t →
      (r.state w).m = (r.state v).m ∧ (r.state w).cm = (r.state v).cm := by
    refine always_between ⟨rfl, rfl⟩ fun w h₃ h₄ ih => ?_
    obtain ⟨hp, hpm, hs⟩ := hwait w (by omega) h₄
    rcases r.m_cases w with ⟨hf, -⟩ | ⟨-, hs', -⟩ | ⟨-, -, hm, hc, -⟩
    · simp [State.flushM, hp, hpm] at hf
    · simp [hs] at hs'
    · exact ⟨hm.trans ih.1, hc.trans ih.2⟩
  obtain ⟨hm, hc⟩ := hheld t h₂ le_rfl
  exact ⟨hm.symm, hc.symm, fun hlt => (hwait v h₁ hlt).2.2⟩

/-! ## Forwarding -/

/-- An exception of the instruction in execute shows in the memory stage. -/
theorem no_exceptionE {u : ℕ} (hm : (r.state (u + 1)).m = (r.state u).memoryInput)
    (hx : (r.state (u + 1)).isInstrExceptionM = false) : (r.state u).isInstrExceptionE = false := by
  simp only [State.isInstrExceptionM, hm, State.memoryInput, Bool.or_eq_false_iff] at hx
  simp [State.isInstrExceptionE, hx]

/-- What the memory stage writes into a source register of the instruction that has just entered
execute is no load and no link register. -/
theorem resultSrc_of_entersE {u : ℕ} (hin : (r.state u).entersE (r.inputs u) = true)
    (htrap : ∀ v ≤ u + 2, (r.state v).trapCaughtW = false) {a : BitVec 5}
    (ha : a = rs1Of (r.state u).d.instr ∨ a = rs2Of (r.state u).d.instr)
    (hw : (r.state (u + 1)).writesM a) :
    (r.state (u + 1)).cm.resultSrc = 0b00 ∨ (r.state (u + 1)).cm.resultSrc = 0b11 := by
  obtain ⟨hm, hc⟩ := m_succ_of_entersE hin
  have hv : (r.state u).e.validPc = true := by
    have := m_valid_of_writesM hw
    rwa [hm] at this
  have hx : ∀ v ≤ u + 1, (r.state v).isInstrExceptionM = false := fun v hv => by
    rw [← r.succ_trapCaughtW]
    exact htrap (v + 1) (by omega)
  have he := no_exceptionE hm (hx (u + 1) le_rfl)
  have hill : (r.state u).e.illegalInstruction = false := by
    simp only [State.isInstrExceptionE, Bool.or_eq_false_iff] at he
    exact he.1.1
  obtain ⟨q, -, -, -, hce, hsome, -⟩ := r.e_origin_legal u hv hill
  obtain ⟨hreg, hrd⟩ := hw
  rw [hc] at hreg ⊢
  rw [hm] at hrd
  simp only [State.controlInputM] at hreg ⊢
  simp only [State.memoryInput] at hrd
  -- a load would have made decode wait, and a jump would have emptied it
  simp only [State.entersE, State.flushE, Bool.and_eq_true, Bool.not_eq_true',
    Bool.or_eq_false_iff] at hin
  obtain ⟨⟨-, ⟨⟨hlw, hj⟩, -⟩, -⟩, -⟩ := hin
  rw [hce] at hreg ⊢
  rcases (result_of_decode x hsome).1 hreg with h | h | h | h
  · exact .inl h
  · have hld : (r.state u).ce.loadInstr = true := by rw [hce]; exact h
    rcases ha with rfl | rfl <;> simp [State.lwStallD, HazardUnit.lwStallD, hld, hrd] at hlw
  · have hjump : (r.state u).ce.jump = true := by rw [hce]; exact h
    have hxw := htrap u (by omega)
    rw [State.trapCaughtW_eq] at hxw
    simp [State.jumpInstr, State.pcSrcE, hjump, he, hx u (by omega), hxw] at hj
  · exact .inr h

/-- With an instruction waiting in the memory stage when the next one enters execute, write-back is
empty in that cycle. -/
theorem not_writesM_of_backToBack (hi : r.InstrSlave rom) {u : ℕ} {a : BitVec 5}
    (hin : (r.state u).entersE (r.inputs u) = true) (hv : (r.state (u + 1)).m.validPc = true) :
    ¬ (r.state u).writesM a := by
  intro hw
  rw [(m_succ_of_entersE hin).1] at hv
  have := (backToBack hi u (State.d_valid_of_entersE hin) hv).m_empty
  simp [m_valid_of_writesM hw] at this

/-- Where a source operand comes from: register `a` was read as `rd` in decode. -/
def Port (r : Run x) (t : ℕ) (a : BitVec 5) (rd : BitVec 32) : Prop :=
  ∀ u, (r.state t).e = (r.state u).executeInput x → rd = (r.state u).readReg a ∧
    (a = rs1Of (r.state u).d.instr ∨ a = rs2Of (r.state u).d.instr)

/-- The first source operand in execute was read in decode from the register that the word names
there. -/
theorem port_rs1 (t : ℕ) : r.Port t (r.state t).e.rs1 (r.state t).e.rd1 := by
  intro u he
  rw [he]
  exact ⟨rfl, .inl rfl⟩

/-- The second source operand in execute was read in decode from the register that the word names
there. -/
theorem port_rs2 (t : ℕ) : r.Port t (r.state t).e.rs2 (r.state t).e.rd2 := by
  intro u he
  rw [he]
  exact ⟨rfl, .inr rfl⟩

section Operand

variable {t : ℕ} {a : BitVec 5} {rd : BitVec 32}

/-- What is written back in a cycle was in the memory stage in the cycle before. -/
theorem writesW_iff : (r.state (t + 1)).cw.regWrite = true ∧ (r.state (t + 1)).w.rd = a ↔
    (r.state t).writesM a := by
  rw [r.succ_cw, r.succ_w]
  rfl

/-- Apart from the memory stage, the forwarding multiplexers deliver what decode would read now. -/
theorem bypass_eq_regMemNext (hi : r.InstrSlave rom)
    (htrap : ∀ v ≤ t + 1, (r.state v).trapCaughtW = false)
    (hv : (r.state t).e.validPc = true) (hdiv : (r.state t).ce.divInstr = false) (ha : a ≠ 0)
    (hport : r.Port t a rd) : (r.state t).bypass a rd =
      if (r.state t).writesM a then (r.state t).m.aluResult else (r.state t).regMemNext a := by
  obtain ⟨u, hut, hin, -, he, hheld⟩ := exists_entry hi hv hdiv
  have hrd : rd = (r.state u).regMemNext a := by
    rw [(hport u he).1, State.readReg, if_pos ha]
  rw [State.bypass_eq _ ha]
  split_ifs with hw hw'
  · rfl
  all_goals obtain ⟨s, rfl⟩ : ∃ s, t = s + 1 := ⟨t - 1, by omega⟩
  · rw [writesW_iff] at hw'
    rw [regMemNext_succ_of_writesM (htrap (s + 1) (by omega)) hw']
  · rw [writesW_iff] at hw'
    rw [regMemNext_succ_of_not hw', hrd]
    rcases Nat.lt_or_eq_of_le (Nat.lt_succ_iff.mp hut) with hlt | rfl
    · -- the instruction waits for an access, which has kept the memory stage since
      have hno : ∀ v, u < v → v ≤ s → ¬ (r.state v).writesM a := by
        intro v h₁ h₂
        rw [State.writesM, (hheld v h₁ (by omega)).1, (hheld v h₁ (by omega)).2.1]
        exact hw
      have hvm := r.stallM_valid ((hheld (u + 1) (by omega) (by omega)).2.2 (by omega))
      refine (eq_of_stable (f := fun v => (r.state v).regMemNext a) hlt.le fun v h₁ h₂ => ?_).symm
      rcases Nat.lt_or_eq_of_le h₁ with h₃ | rfl
      · exact regMemNext_succ_of_not (hno v h₃ h₂.le)
      · exact regMemNext_succ_of_not (not_writesM_of_backToBack hi hin hvm)
    · rfl

/-- An instruction that writes a source register of the one in execute commits in this cycle, with
the value that is forwarded, unless it is an `auipc`. -/
theorem writesAt_of_writesM (hi : r.InstrSlave rom)
    (htrap : ∀ v ≤ t + 1, (r.state v).trapCaughtW = false) (hv : (r.state t).e.validPc = true)
    (hdiv : (r.state t).ce.divInstr = false) (hport : r.Port t a rd) (hw : (r.state t).writesM a)
    (hsrc : (r.state t).cm.resultSrc ≠ 0b11) :
    r.WritesAt a t ∧ (r.state (t + 1)).resultW = (r.state t).m.aluResult := by
  obtain ⟨u, hut, hin, -, he, hheld⟩ := exists_entry hi hv hdiv
  obtain ⟨hm, hc, -⟩ := hheld (u + 1) (by omega) hut
  have hkind : (r.state t).cm.resultSrc = 0b00 := by
    have hw' : (r.state (u + 1)).writesM a := by
      rw [State.writesM, hm, hc]
      exact hw
    rw [← hc] at hsrc ⊢
    exact (resultSrc_of_entersE hin (fun v hv => htrap v (by omega)) (hport u he).2
      hw').resolve_right hsrc
  refine ⟨(writesAt_or_stallM (htrap (t + 1) le_rfl) hw).resolve_right fun hs => ?_, ?_⟩
  · -- what waits is no source of the result
    simp only [State.stallM, Bool.and_eq_true] at hs
    obtain ⟨q, -, -, -, -, -, hcq⟩ := r.m_origin t (m_valid_of_writesM hw)
    have hls := hs.1
    have hreg := hw.1
    rw [hcq] at hls hreg hkind
    simp only [State.controlInputM] at hls hreg hkind
    simp [((kindsE (r := r) q).loadStore hls).2.2.2.2 hreg] at hkind
  · simp [State.resultW, r.succ_w, r.succ_cw, hkind, mux4, State.writebackInput]

/-- The forwarding multiplexers deliver what is committed at the end of the cycle. -/
theorem bypass_archRegs (hi : r.InstrSlave rom)
    (htrap : ∀ v ≤ t + 1, (r.state v).trapCaughtW = false) (hK : ∀ v < t, r.WritesKept v)
    (hv : (r.state t).e.validPc = true) (hdiv : (r.state t).ce.divInstr = false) (ha : a ≠ 0)
    (hport : r.Port t a rd)
    (hsrc : (r.state t).writesM a → (r.state t).cm.resultSrc ≠ 0b11) :
    (r.state t).bypass a rd = r.archRegs a (t + 1) := by
  rw [bypass_eq_regMemNext hi htrap hv hdiv ha hport]
  split_ifs with hw
  · obtain ⟨hat, hval⟩ := writesAt_of_writesM hi htrap hv hdiv hport hw (hsrc hw)
    rw [archRegs_succ_of_writesAt hat, hval]
  · rw [archRegs_succ_of_not fun hat => hw hat.2]
    refine (regMemNext_eq ha t (fun v hv => htrap v (by omega)) hK).resolve_right ?_
    exact fun h => hw h.2

/-- What is forwarded is the value of the register after all older instructions. -/
theorem regAfter_bypass (hi : r.InstrSlave rom)
    (htrap : ∀ v ≤ t + 1, (r.state v).trapCaughtW = false) (hK : ∀ v < t, r.WritesKept v)
    (hv : (r.state t).e.validPc = true) (hdiv : (r.state t).ce.divInstr = false)
    (hport : r.Port t a rd)
    (hsrc : a ≠ 0 → (r.state t).writesM a → (r.state t).cm.resultSrc ≠ 0b11) :
    r.RegAfter (r.stampE t) a ((r.state t).bypass a rd) := by
  obtain ⟨u, hut, hin, hst, he, -⟩ := exists_entry hi hv hdiv
  by_cases ha : a = 0
  · -- `x0` reads as zero
    have hrd := (hport u he).1
    rw [ha, State.readReg, if_neg (by simp)] at hrd
    rw [RegAfter, if_pos ha, ha, State.bypass_zero, hrd]
  · rw [bypass_archRegs hi htrap hK hv hdiv ha hport (hsrc ha)]
    refine regAfter_archRegs ha (fun t' ht' hat => ?_) fun m hm hw => ?_
    · exact (r.stampM_lt_stampE t' hat.1.valid).trans_le (r.stampE_mono (by omega))
    · rcases writer_cases hi ha (T := t) (by omega) hw (fun v hv => htrap v (by omega)) hK with
        ⟨t', ht', hc⟩ | ⟨-, hn⟩ | ⟨hvm, hn⟩
      · exact ⟨t', by omega, hc⟩
      · omega
      · -- it commits in this cycle
        have hwm := (writer_stampM_iff hvm).mp (hn ▸ hw)
        obtain ⟨hat, -⟩ := writesAt_of_writesM hi htrap hv hdiv hport hwm (hsrc ha hwm)
        exact ⟨t, t.lt_succ_self, hn ▸ hat.1⟩

end Operand

variable (r)

/-- No `auipc` in the memory stage writes a source operand of the instruction in execute. -/
structure AuipcApart (v : ℕ) : Prop where
  rs1 : usesRs1 (r.state v).e.op = true → (r.state v).e.rs1 ≠ 0 →
    (r.state v).writesM (r.state v).e.rs1 → (r.state v).cm.resultSrc ≠ 0b11
  rs2 : usesRs2 (r.state v).e.op = true → (r.state v).e.rs2 ≠ 0 →
    (r.state v).writesM (r.state v).e.rs2 → (r.state v).cm.resultSrc ≠ 0b11

/-- Whether no `auipc` in the memory stage writes an operand of execute can be decided from the
state. -/
instance (v : ℕ) : Decidable (r.AuipcApart v) :=
  decidable_of_iff
    ((usesRs1 (r.state v).e.op = true → (r.state v).e.rs1 ≠ 0 →
        (r.state v).writesM (r.state v).e.rs1 → (r.state v).cm.resultSrc ≠ 0b11) ∧
      (usesRs2 (r.state v).e.op = true → (r.state v).e.rs2 ≠ 0 →
        (r.state v).writesM (r.state v).e.rs2 → (r.state v).cm.resultSrc ≠ 0b11))
    ⟨fun h => ⟨h.1, h.2⟩, fun h => ⟨h.1, h.2⟩⟩

/-- In a run without traps in which no register write is lost, the forwarded operands of an ALU,
multiply, branch, load or store instruction are the values of its source registers after all older
instructions, in every cycle it is in execute, unless an `auipc` ahead of it writes one of them. -/
theorem operands_current (hi : r.InstrSlave rom) (t : ℕ)
    (htrap : ∀ v ≤ t + 1, (r.state v).trapCaughtW = false) (hK : ∀ v < t, r.WritesKept v)
    (hA : r.AuipcApart t) (hv : (r.state t).e.validPc = true)
    (hdiv : (r.state t).ce.divInstr = false) :
    (usesRs1 (r.state t).e.op = true →
        r.RegAfter (r.stampE t) (r.state t).e.rs1 (r.state t).srcAForwardE) ∧
      (usesRs2 (r.state t).e.op = true →
        r.RegAfter (r.stampE t) (r.state t).e.rs2 (r.state t).writeDataE) :=
  ⟨fun hu => regAfter_bypass hi htrap hK hv hdiv (port_rs1 t) (hA.rs1 hu),
    fun hu => regAfter_bypass hi htrap hK hv hdiv (port_rs2 t) (hA.rs2 hu)⟩

/-- In cycle 11 the `addi x6, x5, 1` behind a load and an `addi x5, x0, 7` is in execute, and the 7
is forwarded to it from the memory stage. -/
theorem operands_current_addi :
    (quietBench [0x00002083, 0x00700293, 0x00128313]).run₀.RegAfter 11 5 7 := by
  have h := (operands_current (quietBench [0x00002083, 0x00700293, 0x00128313]).run₀
    (TestBench.run₀_instrSlave _) 11 (by decide +kernel) (by decide +kernel) (by decide +kernel)
    (by decide +kernel) (by decide +kernel)).1 (by decide +kernel)
  rw [show (quietBench [0x00002083, 0x00700293, 0x00128313]).run₀.stampE 11 = 11 by decide +kernel,
    show ((quietBench [0x00002083, 0x00700293, 0x00128313]).run₀.state 11).e.rs1 = 5 by
      decide +kernel,
    show ((quietBench [0x00002083, 0x00700293, 0x00128313]).run₀.state 11).srcAForwardE = 7 by
      decide +kernel] at h
  exact h

/-- With an `auipc x5, 0` in the place of the first `addi`, `x5` becomes `0xc`, but the ALU result
of the `auipc`, 0, is forwarded. -/
theorem stale_auipc :
    ∃ (r : Run TestBench.zeros) (rom : BitVec 32 → BitVec 32) (t : ℕ),
      r.Exact ∧ r.InstrSlave rom ∧ r.DataSlave ∧ (∀ v, (r.state v).trapCaughtW = false) ∧
        (r.state t).entersM (r.inputs t) = true ∧ (r.state t).ce.divInstr = false ∧
        usesRs1 (r.state t).e.op = true ∧
        ¬ r.RegAfter (r.stampE t) (r.state t).e.rs1 (r.state t).srcAForwardE := by
  refine ⟨(quietBench [0x00002083, 0x00000297, 0x00028313]).run₀, _, 11, TestBench.run₀_exact _,
    TestBench.run₀_instrSlave _, TestBench.run₀_dataSlave _,
    quietBench_untrapped (by decide +kernel), by decide +kernel, by decide +kernel,
    by decide +kernel, fun h => ?_⟩
  rw [show (quietBench [0x00002083, 0x00000297, 0x00028313]).run₀.stampE 11 = 11 by decide +kernel,
    show ((quietBench [0x00002083, 0x00000297, 0x00028313]).run₀.state 11).e.rs1 = 5 by
      decide +kernel,
    show ((quietBench [0x00002083, 0x00000297, 0x00028313]).run₀.state 11).srcAForwardE = 0 by
      decide +kernel] at h
  -- the `auipc` leaves decode in cycle 9 and commits in cycle 11
  have hlast : (quietBench [0x00002083, 0x00000297, 0x00028313]).run₀.RegAfter 11 5 0xc := by
    rw [RegAfter, if_neg (by decide)]
    refine .written 10 _ (by decide) ⟨9, rfl, by decide +kernel⟩
      ⟨11, by decide +kernel, by decide +kernel⟩ fun k _ _ => by omega
  exact absurd (hlast.unique h) (by decide)

/-! ## Operands that are not forwarded -/

end Run

/-- The word is a `jalr`, a `csrrw`, a `csrrs` or a `csrrc`: its `rs1` is not forwarded. -/
def readsUnforwarded (w : BitVec 32) : Bool :=
  opcodeOf w == 0b1100111 ||
    opcodeOf w == 0b1110011 && (funct3Of w == 0b001 || funct3Of w == 0b010 || funct3Of w == 0b011)

namespace Run

variable {x : DontCare} (r : Run x) {rom : BitVec 32 → BitVec 32}

/-- When an instruction that reads its `rs1` without forwarding enters execute in cycle `v`, neither
of the two instructions ahead of it writes this register. -/
structure SourceSettled (v : ℕ) : Prop where
  execute : (r.state v).entersE (r.inputs v) = true →
    readsUnforwarded (r.state v).d.instr = true → rs1Of (r.state v).d.instr ≠ 0 →
    (r.state v).ce.regWrite = true → (r.state v).e.rd ≠ rs1Of (r.state v).d.instr
  memory : (r.state v).entersE (r.inputs v) = true →
    readsUnforwarded (r.state v).d.instr = true → rs1Of (r.state v).d.instr ≠ 0 →
    ¬ (r.state v).writesM (rs1Of (r.state v).d.instr)

/-- Whether the unforwarded source of the instruction entering execute is settled can be decided
from the state and the inputs of the cycle. -/
instance (v : ℕ) : Decidable (r.SourceSettled v) :=
  decidable_of_iff
    (((r.state v).entersE (r.inputs v) = true →
        readsUnforwarded (r.state v).d.instr = true → rs1Of (r.state v).d.instr ≠ 0 →
        (r.state v).ce.regWrite = true → (r.state v).e.rd ≠ rs1Of (r.state v).d.instr) ∧
      ((r.state v).entersE (r.inputs v) = true →
        readsUnforwarded (r.state v).d.instr = true → rs1Of (r.state v).d.instr ≠ 0 →
        ¬ (r.state v).writesM (rs1Of (r.state v).d.instr)))
    ⟨fun h => ⟨h.1, h.2⟩, fun h => ⟨h.1, h.2⟩⟩

variable {r}

/-- What decode reads is current for the instruction that enters execute, if neither of the two
ahead of it writes the register. -/
theorem regAfter_readReg (hi : r.InstrSlave rom) {u : ℕ} {a : BitVec 5}
    (htrap : ∀ v ≤ u, (r.state v).trapCaughtW = false) (hK : ∀ v < u, r.WritesKept v)
    (he : a ≠ 0 → (r.state u).ce.regWrite = true → (r.state u).e.rd ≠ a)
    (hm : a ≠ 0 → ¬ (r.state u).writesM a) :
    r.RegAfter (u + 1) a ((r.state u).readReg a) := by
  by_cases ha : a = 0
  · rw [RegAfter, if_pos ha, State.readReg, if_neg (by simpa using ha)]
  · have hread : (r.state u).readReg a = r.archRegs a u := by
      -- The value read is what the architecture holds, once the writer in memory is left out.
      rw [State.readReg, if_pos ha]
      exact (regMemNext_eq ha u htrap hK).resolve_right fun h => hm ha h.2
    rw [hread]
    refine regAfter_archRegs ha (fun t ht hat => ?_) fun m hmn hw => ?_
    · have := (r.stampM_le_stampE t).trans (r.stampE_le t)
      omega
    -- A writer older than the instruction in execute is finished, or is one of the two in the way.
    · rcases writer_cases hi ha (T := u) (by omega) hw htrap hK with
        hc | ⟨hv, hn⟩ | ⟨hv, hn⟩
      · exact hc
      · obtain ⟨hreg, hrd⟩ := (writer_stampE_iff hv).mp (hn ▸ hw)
        exact absurd hrd (he ha hreg)
      · exact absurd ((writer_stampM_iff hv).mp (hn ▸ hw)) (hm ha)

/-- A `jalr` jumps to the register plus the offset, with bit 0 cleared. -/
theorem jumpPcTargetE_jalr {t : ℕ} (hv : (r.state t).e.validPc = true)
    (hop : (r.state t).e.op = 0b1100111) :
    (r.state t).jumpPcTargetE =
      (adder (r.state t).e.rd1 (r.state t).e.immExt).extractLsb' 1 31 ++ 0#1 := by
  obtain ⟨u, -, hin, he, hc⟩ := r.e_origin t hv
  have hopu : opcodeOf (r.state u).d.instr = 0b1100111 := by
    rw [he] at hop
    exact hop
  have hout : (r.state t).ce.mretInstr = false ∧ (r.state t).ce.pcTargetSrc = false := by
    rw [hc]
    simp [State.controlInputE, State.outControlD,
      (r.state u).mainDec_of_valid x (State.d_valid_of_entersE hin), decode_jalr x hopu]
  simp [State.jumpPcTargetE, State.pcTargetE, State.pcTargetCalcE, State.pcSrcAE, hout, hop, mux2]

variable (r)

/-- In a run without traps in which no register write is lost and no `jalr` or CSR instruction reads
a register that one of the two instructions ahead of it writes, the base of a `jalr` and the source
of a CSR instruction are the value of `rs1` after all older instructions. -/
theorem unforwarded_current (hi : r.InstrSlave rom) (t : ℕ)
    (htrap : ∀ v ≤ t, (r.state v).trapCaughtW = false) (hK : ∀ v < t, r.WritesKept v)
    (hS : ∀ v < t, r.SourceSettled v) (hv : (r.state t).e.validPc = true) :
    ((r.state t).e.op = 0b1100111 → ∃ v, r.RegAfter (r.stampE t) (r.state t).e.rs1 v ∧
        (r.state t).jumpPcTargetE = (adder v (r.state t).e.immExt).extractLsb' 1 31 ++ 0#1) ∧
      ((r.state t).e.op = 0b1110011 → (r.state t).e.funct3 = 0b001 ∨
          (r.state t).e.funct3 = 0b010 ∨ (r.state t).e.funct3 = 0b011 →
        ∃ v, r.RegAfter (r.stampE t) (r.state t).e.rs1 v ∧ (r.state t).outWriteCsrE =
          (r.state t).csr.outWriteCsr (r.state t).e.funct3 (r.state t).e.csrAddress v
            (r.state t).e.immExt) := by
  obtain ⟨u, hst, hin, he, -⟩ := r.e_origin t hv
  have hut : u < t := by
    have := r.stampE_le t
    omega
  -- the register has been read on the way into execute
  have hcur (hr : readsUnforwarded (r.state u).d.instr = true) :
      r.RegAfter (r.stampE t) (r.state t).e.rs1 (r.state t).e.rd1 := by
    rw [hst, he]
    exact regAfter_readReg hi (fun v hv => htrap v (by omega)) (fun v hv => hK v (by omega))
      ((hS u hut).execute hin hr) ((hS u hut).memory hin hr)
  constructor
  · intro hop
    refine ⟨_, hcur ?_, jumpPcTargetE_jalr hv hop⟩
    rw [he] at hop
    simp only [State.executeInput] at hop
    simp [readsUnforwarded, hop]
  · intro hop hf
    refine ⟨_, hcur ?_, rfl⟩
    rw [he] at hop hf
    simp only [State.executeInput] at hop hf
    rcases hf with hf | hf | hf <;> simp [readsUnforwarded, hop, hf]

/-- With slaves that wait, the `addi x1, x0, 5` ahead of a `csrrw x0, mscratch, x1` has written `x1`
when the `csrrw` is in decode. -/
theorem unforwarded_current_csrrw :
    ∃ v, (quietBench [0x00500093, 0x34009073]).run₁.RegAfter
        ((quietBench [0x00500093, 0x34009073]).run₁.stampE 13)
        ((quietBench [0x00500093, 0x34009073]).run₁.state 13).e.rs1 v ∧
      ((quietBench [0x00500093, 0x34009073]).run₁.state 13).outWriteCsrE =
        ((quietBench [0x00500093, 0x34009073]).run₁.state 13).csr.outWriteCsr
          ((quietBench [0x00500093, 0x34009073]).run₁.state 13).e.funct3
          ((quietBench [0x00500093, 0x34009073]).run₁.state 13).e.csrAddress v
          ((quietBench [0x00500093, 0x34009073]).run₁.state 13).e.immExt :=
  (unforwarded_current (quietBench [0x00500093, 0x34009073]).run₁
    (TestBench.run₁_instrSlave _) 13 (by decide +kernel) (by decide +kernel) (by decide +kernel)
    (by decide +kernel)).2 (by decide +kernel) (by decide +kernel)

/-- With slaves that do not, it reads the old value of `x1`: the `addi` is in the memory stage when
the `csrrw` enters execute. -/
theorem stale_csr_source :
    ∃ (r : Run TestBench.zeros) (rom : BitVec 32 → BitVec 32) (t : ℕ),
      r.Exact ∧ r.InstrSlave rom ∧ r.DataSlave ∧ (∀ v, (r.state v).trapCaughtW = false) ∧
        (r.state t).entersM (r.inputs t) = true ∧ (r.state t).e.op = 0b1110011 ∧
        (r.state t).e.funct3 = 0b001 ∧
        ¬ r.RegAfter (r.stampE t) (r.state t).e.rs1 (r.state t).outWriteCsrE := by
  refine ⟨(quietBench [0x00500093, 0x34009073]).run₀, _, 9, TestBench.run₀_exact _,
    TestBench.run₀_instrSlave _, TestBench.run₀_dataSlave _,
    quietBench_untrapped (by decide +kernel), by decide +kernel, by decide +kernel,
    by decide +kernel, fun h => ?_⟩
  rw [show (quietBench [0x00500093, 0x34009073]).run₀.stampE 9 = 9 by decide +kernel,
    show ((quietBench [0x00500093, 0x34009073]).run₀.state 9).e.rs1 = 1 by decide +kernel,
    show ((quietBench [0x00500093, 0x34009073]).run₀.state 9).outWriteCsrE = 0 by
      decide +kernel] at h
  have hlast : (quietBench [0x00500093, 0x34009073]).run₀.RegAfter 9 1 5 := by
    rw [RegAfter, if_neg (by decide)]
    refine .written 7 _ (by decide) ⟨6, rfl, by decide +kernel⟩
      ⟨8, by decide +kernel, by decide +kernel⟩ fun k h₁ h₂ => ?_
    -- nothing has entered execute between the two
    rintro ⟨u, hu, hin, -⟩
    obtain rfl : u = 7 := by omega
    exact absurd hin (by decide +kernel)
  exact absurd (hlast.unique h) (by decide)

end Run

end RvPipelineCore

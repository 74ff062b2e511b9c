import RvPipelineCore.Operands
import RvPipelineCore.Quotient

/-!
# Divisions in the pipeline

The divider takes its operands from the forwarding multiplexers in the second cycle that the divide
is in execute. By then the instruction that was in the memory stage when the divide left decode is
out of the pipeline, and nothing is forwarded from it.

`Run.division_current`: the result of a divide is that of its source registers after all older
instructions, unless the instruction in the memory stage writes one of them when the divide leaves
decode.
-/

namespace RvPipelineCore

open Temporal

/-- The instruction in the memory stage writes register `a`, and the one in execute does not write
it again. -/
def State.leftBehind (s : State) (a : BitVec 5) : Prop :=
  a ≠ 0 ∧ s.writesM a ∧ ¬ (s.ce.regWrite = true ∧ s.e.rd = a)

/-- Whether an operand register is left behind by an instruction ahead can be decided from the
state. -/
instance (s : State) (a : BitVec 5) : Decidable (s.leftBehind a) :=
  inferInstanceAs (Decidable (_ ∧ _))

namespace Run

variable {x : DontCare} {r : Run x} {rom : BitVec 32 → BitVec 32}

/-! ## One division -/

/-- A divide that stays in execute from its entry in cycle `u` up to cycle `q`. -/
structure Stays (r : Run x) (u q : ℕ) : Prop where
  e : ∀ v, u < v → v ≤ q → (r.state v).e = (r.state u).executeInput x
  ce : ∀ v, u < v → v ≤ q → (r.state v).ce = (r.state u).controlInputE x
  not_flushed : ∀ v, u < v → v < q → (r.state v).flushE = false
  stalled : ∀ v, u < v → v < q → (r.state v).stallE (r.inputs v) = true

/-- When a divide enters execute, the divider is about to see the start level rise. -/
theorem issued_of_entersE (hi : r.InstrSlave rom) {u : ℕ}
    (hin : (r.state u).entersE (r.inputs u) = true) (hdiv : (r.state u).divInstrD = true) :
    (r.state (u + 1)).hazard.divPending = true ∧ (r.state (u + 1)).div.Remaining 34 := by
  have hd := State.d_valid_of_entersE hin
  simp only [State.entersE, State.stallE, Bool.and_eq_true, Bool.not_eq_true',
    Bool.or_eq_false_iff] at hin
  have hp := hin.2.2
  -- a divide in execute leaves decode empty, so that none is there yet
  have hce : (r.state u).ce.divInstr = false := by
    by_contra hce
    simp [d_empty_of_divInstr hi (Bool.not_eq_false _ ▸ hce)] at hd
  have hq : (r.state u).div.Quiet := by
    -- of the four stages of a divide only the first one allows another to enter
    cases divideStage hi u with
    | idle _ _ hq => exact hq
    | underway _ hp' => simp [hp] at hp'
    | done _ hce' => simp [hce] at hce'
    | orphaned hp' => simp [hp] at hp'
  obtain ⟨hq', hfirst⟩ := divider_quiet_succ hq hce
  exact ⟨by rw [succ_divPending, hdiv, if_pos rfl], .issued hfirst hq'.idle⟩

section Division

variable {u q : ℕ}

/-- One cycle of the division of a divide that stays in execute takes one step of the divider and
keeps its flag up. -/
theorem Stays.step (hi : r.InstrSlave rom) (h : r.Stays u q) (hdiv : (r.state u).divInstrD = true)
    {v n : ℕ} (huv : u < v) (hvq : v < q) (hp : (r.state v).hazard.divPending = true)
    (hn : (r.state v).div.Remaining (n + 1)) :
    (r.state (v + 1)).hazard.divPending = true ∧ (r.state (v + 1)).div = (r.state v).div.next false
      (r.state v).srcAE (r.state v).srcBE true (funct3Of (r.state u).d.instr) ∧
      (r.state (v + 1)).div.Remaining n := by
  -- the divide stays in execute, and so does its `funct3`
  have hce : (r.state v).ce.divInstr = true := by
    rw [h.ce v huv hvq.le]
    exact hdiv
  have hf : (r.state v).e.funct3 = funct3Of (r.state u).d.instr := by
    rw [h.e v huv hvq.le]
    rfl
  have hnext := r.succ_div v
  rw [h.not_flushed v huv hvq, hce, hf] at hnext
  refine ⟨?_, hnext, ?_⟩
  -- nothing in decode can set the flag again, and the divide is not completed
  · rw [succ_divPending, divInstrD_of_empty (d_empty_of_divInstr hi hce), State.divCompletedE,
      h.not_flushed v huv hvq, hn.not_completed, hp]
    simp
  · rw [hnext]
    exact hn.next _ _ _

/-- While the divide stays in execute the division goes on, with the operands of its second cycle
there. -/
theorem Stays.underway (hi : r.InstrSlave rom) (h : r.Stays u q)
    (hin : (r.state u).entersE (r.inputs u) = true) (hdiv : (r.state u).divInstrD = true)
    (k : ℕ) (hk : k ≤ 34) (hkq : u + 1 + k ≤ q) :
    (r.state (u + 1 + k)).hazard.divPending = true ∧
      (r.state (u + 1 + k)).div.Remaining (34 - k) ∧
      (2 ≤ k → (r.state (u + 1 + k)).div.Dividing (divOp (funct3Of (r.state u).d.instr))
        (r.state (u + 2)).srcAE (r.state (u + 2)).srcBE (34 - k)) := by
  induction k with
  | zero =>
    obtain ⟨hp, hn⟩ := issued_of_entersE hi hin hdiv
    exact ⟨hp, hn, fun h => by omega⟩
  | succ k ih =>
    obtain ⟨hp, hn, hd⟩ := ih (by omega) (by omega)
    rw [show 34 - k = 34 - (k + 1) + 1 by omega] at hn hd
    obtain ⟨hp', hnext, hn'⟩ := h.step hi hdiv (by omega) (by omega) hp hn
    refine ⟨hp', hn', fun h2 => ?_⟩
    rw [← Nat.add_assoc, hnext]
    rcases Nat.lt_or_eq_of_le h2 with h3 | h3
    · obtain ⟨hloop, hstart⟩ := hn.looping (by omega)
      exact (hd (by omega)).next hloop hstart _ _ _ _
    · -- the cycle of the rising edge
      obtain rfl : k = 1 := by omega
      exact Divider.dividing_of_start hn.start_eq _ _ _ _

/-- When the divide moves on, the divider has its result. -/
theorem Stays.divResult (hi : r.InstrSlave rom) (h : r.Stays u q)
    (hin : (r.state u).entersE (r.inputs u) = true) (hdiv : (r.state u).divInstrD = true)
    (huq : u < q) (hp : (r.state q).hazard.divPending = false) :
    u + 2 < q ∧ (r.state q).div.divResult = (divOp (funct3Of (r.state u).d.instr)).eval
      (r.state (u + 2)).srcAE (r.state (u + 2)).srcBE := by
  -- until the end the flag would be up
  have hle : u + 36 ≤ q := by
    by_contra hlt
    have := (h.underway hi hin hdiv (q - (u + 1)) (by omega) (by omega)).1
    rw [show u + 1 + (q - (u + 1)) = q by omega, hp] at this
    exact Bool.false_ne_true this
  obtain ⟨hp', hn, hd⟩ := h.underway hi hin hdiv 34 le_rfl (by omega)
  have hce : ∀ v, u < v → v ≤ q → (r.state v).ce.divInstr = true := fun v h₁ h₂ => by
    rw [h.ce v h₁ h₂]
    exact hdiv
  have hnext := r.succ_div (u + 35)
  rw [h.not_flushed _ (by omega) (by omega), hce _ (by omega) (by omega),
    h.e (u + 35) (by omega) (by omega)] at hnext
  -- after that nothing keeps the divide in execute
  have hq : q = u + 36 := by
    by_contra hne
    have hp36 : (r.state (u + 36)).hazard.divPending = false := by
      have hd := d_empty_of_divInstr hi (hce (u + 35) (by omega) (by omega))
      rw [succ_divPending, divInstrD_of_empty hd,
        State.divCompletedE, h.not_flushed _ (by omega) (by omega), hn.completed]
      simp
    have hs := h.stalled (u + 36) (by omega) (by omega)
    cases divideStage hi (u + 36) with
    | idle _ hce' => simp [hce (u + 36) (by omega) (by omega)] at hce'
    | underway _ hp'' => simp [hp36] at hp''
    | done _ _ _ _ hm => simp [State.stallE, State.stallM, cm_loadStore_of_empty hm, hp36] at hs
    | orphaned hp'' => simp [hp36] at hp''
  refine ⟨by omega, ?_⟩
  rw [hq, hnext]
  obtain ⟨hloop, hstart⟩ := hn.looping (by decide)
  exact (hd (by omega)).divResult hloop hstart _ _ _

/-- A divide that commits has stayed in execute until it moved on. -/
theorem stays_of_commits {c : ℕ} (hin : (r.state u).entersE (r.inputs u) = true)
    (hc : r.Commits (u + 1) c) : ∃ q < c, u < q ∧ r.Stays u q ∧
      (r.state q).hazard.divPending = false ∧ (r.state c).m = (r.state q).memoryInput ∧
      (r.state c).cm = (r.state q).controlInputM := by
  obtain ⟨q, hqc, hv, hs, hst, hm, hcm⟩ := r.m_origin c hc.valid
  obtain ⟨u', hu', -, hsince⟩ := e_since q hv
  have hstq := (hsince q hu' le_rfl).2.2.1
  have hstc := hc.stamp
  obtain rfl : u' = u := by omega
  simp only [State.stallE, Bool.or_eq_false_iff] at hs
  exact ⟨q, hqc, hu', ⟨fun v h₁ h₂ => (hsince v h₁ h₂).1, fun v h₁ h₂ => (hsince v h₁ h₂).2.1,
    fun v h₁ h₂ => ((hsince v h₁ h₂.le).2.2.2 h₂).1,
    fun v h₁ h₂ => ((hsince v h₁ h₂.le).2.2.2 h₂).2⟩, hs.2, hm, hcm⟩

end Division

/-! ## The operands -/

section Operand

variable (r)

/-- When a divide enters execute in cycle `v`, its source registers are not left behind. -/
structure DivideSettled (v : ℕ) : Prop where
  rs1 : (r.state v).entersE (r.inputs v) = true → (r.state v).divInstrD = true →
    ¬ (r.state v).leftBehind (rs1Of (r.state v).d.instr)
  rs2 : (r.state v).entersE (r.inputs v) = true → (r.state v).divInstrD = true →
    ¬ (r.state v).leftBehind (rs2Of (r.state v).d.instr)

/-- Whether the operands of a divide that enters execute are settled can be decided from the state
and the inputs of the cycle. -/
instance (v : ℕ) : Decidable (r.DivideSettled v) :=
  decidable_of_iff
    (((r.state v).entersE (r.inputs v) = true → (r.state v).divInstrD = true →
        ¬ (r.state v).leftBehind (rs1Of (r.state v).d.instr)) ∧
      ((r.state v).entersE (r.inputs v) = true → (r.state v).divInstrD = true →
        ¬ (r.state v).leftBehind (rs2Of (r.state v).d.instr)))
    ⟨fun h => ⟨h.1, h.2⟩, fun h => ⟨h.1, h.2⟩⟩

variable {r} {u : ℕ} {a : BitVec 5}

/-- The instruction ahead of a divide that writes a source register commits in the first cycle of
the divide in execute. -/
theorem writesAt_of_divide
    (hp : (r.state (u + 1)).hazard.divPending = true)
    (htrap : (r.state (u + 2)).trapCaughtW = false) (hK : r.WritesKept (u + 1)) (ha : a ≠ 0)
    (hw : (r.state (u + 1)).writesM a) : r.WritesAt a (u + 1) := by
  refine (writesAt_or_stallM htrap hw).resolve_right fun hs => ha ?_
  -- a load that waited there would be lost
  rw [← hw.2]
  exact hK.load hs hp hw.1

/-- In the second cycle of a divide in execute the forwarding multiplexers deliver what has been
committed. -/
theorem bypass_divide (hi : r.InstrSlave rom) (hin : (r.state u).entersE (r.inputs u) = true)
    (hdiv : (r.state u).divInstrD = true)
    (htrap : ∀ v ≤ u + 2, (r.state v).trapCaughtW = false) (hK : ∀ v ≤ u + 1, r.WritesKept v)
    (hS : ¬ (r.state u).leftBehind a) (ha : a ≠ 0) :
    (r.state (u + 2)).bypass a ((r.state u).readReg a) = r.archRegs a (u + 2) := by
  have hp := (issued_of_entersE hi hin hdiv).1
  have hm : ¬ (r.state (u + 2)).writesM a := fun hw => by
    have := m_valid_of_writesM hw
    simp [r.succ_m_validPc, State.entersM, State.flushM, hp] at this
  rw [State.bypass_eq _ ha, if_neg hm]
  simp only [writesW_iff]
  split_ifs with hw
  · rw [archRegs_succ_of_writesAt (writesAt_of_divide hp (htrap _ le_rfl) (hK _ le_rfl) ha hw)]
  · -- then nothing has been written since the divide was in decode
    have hno : ¬ (r.state u).writesM a := fun hu => by
      obtain ⟨hm', hc'⟩ := m_succ_of_entersE hin
      rw [State.writesM, hm', hc'] at hw
      exact hS ⟨ha, hu, hw⟩
    rw [archRegs_succ_of_not fun hat => hw hat.2, archRegs_succ_of_not fun hat => hno hat.2,
      State.readReg, if_pos ha]
    exact (regMemNext_eq ha u (fun v hv => htrap v (by omega)) fun v hv =>
      hK v (by omega)).resolve_right fun h => hno h.2

/-- The forwarding multiplexers deliver to the divider, two cycles after the divide has entered
execute, the value of the register after all older instructions. -/
theorem regAfter_divide (hi : r.InstrSlave rom) (hin : (r.state u).entersE (r.inputs u) = true)
    (hdiv : (r.state u).divInstrD = true)
    (htrap : ∀ v ≤ u + 2, (r.state v).trapCaughtW = false) (hK : ∀ v ≤ u + 1, r.WritesKept v)
    (hS : ¬ (r.state u).leftBehind a) :
    r.RegAfter (u + 1) a ((r.state (u + 2)).bypass a ((r.state u).readReg a)) := by
  -- `x0` is zero wherever it is read
  by_cases ha : a = 0
  · rw [RegAfter, if_pos ha, ha, State.bypass_zero, State.readReg, if_neg (by simp)]
  · rw [bypass_divide hi hin hdiv htrap hK hS ha]
    have hp := (issued_of_entersE hi hin hdiv).1
    have hst : r.stampE (u + 1) = u + 1 := by
      simp only [State.entersE, Bool.and_eq_true, Bool.not_eq_true'] at hin
      exact r.stampE_succ_of_load hin.2
    -- writers that have committed have done so before the divide is in its second cycle
    refine regAfter_archRegs ha (fun t ht hat => ?_) fun m hm hw => ?_
    · rw [← hst]
      exact (r.stampM_lt_stampE t hat.1.valid).trans_le (r.stampE_mono (by omega))
    -- a writer has committed, is younger, or is the instruction in the memory stage
    · rcases writer_cases hi ha (T := u + 1) (by omega) hw
        (fun v hv => htrap v (by omega)) (fun v hv => hK v (by omega)) with
        ⟨t, ht, hc⟩ | ⟨-, hn⟩ | ⟨hv, hn⟩
      · exact ⟨t, by omega, hc⟩
      · omega
      · have hwm := (writer_stampM_iff hv).mp (hn ▸ hw)
        have hat := writesAt_of_divide hp (htrap _ le_rfl) (hK _ le_rfl) ha hwm
        exact ⟨u + 1, by omega, hn ▸ hat.1⟩

/-- The control signals of a divide: both operands are registers and the result is the one of
execute. -/
theorem outControlD_of_divInstrD (hd : (r.state u).d.isDecodeFlush = true)
    (hdiv : (r.state u).divInstrD = true) :
    ((r.state u).outControlD x).aluSrcA = false ∧ ((r.state u).outControlD x).aluSrcB = false ∧
      ((r.state u).outControlD x).resultSrc = 0b00 := by
  have hop : opcodeOf (r.state u).d.instr = 0b0110011 := by
    simp only [State.divInstrD, mulDivDecoder] at hdiv
    split_ifs at hdiv with h
    exact h.1
  simp [State.outControlD, (r.state u).mainDec_of_valid x hd, decode_rType x hop]

/-- The operands of the divider are those of the forwarding multiplexers. -/
theorem Stays.srcs {q : ℕ} (h : r.Stays u q) (hd : (r.state u).d.isDecodeFlush = true)
    (hdiv : (r.state u).divInstrD = true) (hq : u + 2 ≤ q) :
    (r.state (u + 2)).srcAE = (r.state (u + 2)).bypass (rs1Of (r.state u).d.instr)
        ((r.state u).readReg (rs1Of (r.state u).d.instr)) ∧
      (r.state (u + 2)).srcBE = (r.state (u + 2)).bypass (rs2Of (r.state u).d.instr)
        ((r.state u).readReg (rs2Of (r.state u).d.instr)) := by
  obtain ⟨ha, hb, -⟩ := outControlD_of_divInstrD hd hdiv
  have he := h.e (u + 2) (by omega) hq
  have hc := h.ce (u + 2) (by omega) hq
  constructor
  · rw [State.srcAE, State.srcAForwardE_eq, hc, he]
    simp only [State.controlInputE, ha, mux2]
    rfl
  · rw [State.srcBE, State.writeDataE_eq, hc, he]
    simp only [State.controlInputE, hb, mux2]
    rfl

/-- What a divide that commits hands to the register file is the result of the divider. -/
theorem resultW_of_divide {q c : ℕ} (hd : (r.state u).d.isDecodeFlush = true)
    (hdiv : (r.state u).divInstrD = true) (h : r.Stays u q) (huq : u < q)
    (hm : (r.state c).m = (r.state q).memoryInput)
    (hcm : (r.state c).cm = (r.state q).controlInputM) :
    (r.state (c + 1)).resultW = (r.state q).div.divResult := by
  have hce : (r.state q).ce.divInstr = true := by
    rw [h.ce q huq le_rfl]
    exact hdiv
  have hsrc : (r.state q).ce.resultSrc = 0b00 := by
    rw [h.ce q huq le_rfl]
    exact (outControlD_of_divInstrD hd hdiv).2.2
  have hcsr := (e_of_divInstr hce).1
  simp [State.resultW, r.succ_w, r.succ_cw, State.writebackInput, hm, hcm, State.memoryInput,
    State.controlInputM, State.dataOutputFromExecute, State.aluOrMuldivResultE, hsrc, hce, hcsr,
    mux2, mux4]

end Operand

variable (r)

/-- In a run without traps in which no register write is lost and every divide leaves decode with
its source registers settled, a divide that reaches write-back carries the result for the values of
its source registers after all older instructions. -/
theorem division_current (hi : r.InstrSlave rom) (u c : ℕ)
    (htrap : ∀ v ≤ c, (r.state v).trapCaughtW = false) (hK : ∀ v < c, r.WritesKept v)
    (hS : ∀ v < c, r.DivideSettled v) (hin : (r.state u).entersE (r.inputs u) = true)
    (hdiv : (r.state u).divInstrD = true) (hc : r.Commits (u + 1) c) :
    ∃ a b, r.RegAfter (u + 1) (rs1Of (r.state u).d.instr) a ∧
      r.RegAfter (u + 1) (rs2Of (r.state u).d.instr) b ∧
      (r.state (c + 1)).resultW = (divOp (funct3Of (r.state u).d.instr)).eval a b := by
  have hd := State.d_valid_of_entersE hin
  obtain ⟨q, hqc, huq, hstay, hp, hm, hcm⟩ := stays_of_commits hin hc
  obtain ⟨hlt, hres⟩ := hstay.divResult hi hin hdiv huq hp
  obtain ⟨hsrcA, hsrcB⟩ := hstay.srcs hd hdiv hlt.le
  rw [resultW_of_divide hd hdiv hstay huq hm hcm, hres, hsrcA, hsrcB]
  have hcur (a : BitVec 5) := regAfter_divide (a := a) hi hin hdiv
    (fun v hv => htrap v (by omega)) (fun v hv => hK v (by omega))
  exact ⟨_, _, hcur _ ((hS u (by omega)).rs1 hin hdiv), hcur _ ((hS u (by omega)).rs2 hin hdiv),
    rfl⟩

/-- With a `nop` between an `addi x1, x0, 6` and a `div x3, x1, x1`, `x1` is written when the divide
leaves decode. -/
theorem division_current_nop :
    ∃ a b, (quietBench [0x00600093, 0x00000013, 0x0210c1b3]).run₀.RegAfter 11
        (rs1Of ((quietBench [0x00600093, 0x00000013, 0x0210c1b3]).run₀.state 10).d.instr) a ∧
      (quietBench [0x00600093, 0x00000013, 0x0210c1b3]).run₀.RegAfter 11
        (rs2Of ((quietBench [0x00600093, 0x00000013, 0x0210c1b3]).run₀.state 10).d.instr) b ∧
      ((quietBench [0x00600093, 0x00000013, 0x0210c1b3]).run₀.state 48).resultW = (divOp (funct3Of
        ((quietBench [0x00600093, 0x00000013, 0x0210c1b3]).run₀.state 10).d.instr)).eval a b :=
  division_current (quietBench [0x00600093, 0x00000013, 0x0210c1b3]).run₀
    (TestBench.run₀_instrSlave _) 10 47 (by decide +kernel) (by decide +kernel) (by decide +kernel)
    (by decide +kernel) (by decide +kernel) (by decide +kernel)

/-- Without it the divide samples the old value of `x1`: six by six gives all ones, as by zero. -/
theorem stale_division :
    ∃ (r : Run TestBench.zeros) (rom : BitVec 32 → BitVec 32) (u c : ℕ),
      r.Exact ∧ r.InstrSlave rom ∧ r.DataSlave ∧ (∀ v, (r.state v).trapCaughtW = false) ∧
        (r.state u).entersE (r.inputs u) = true ∧ (r.state u).divInstrD = true ∧
        r.Commits (u + 1) c ∧
        ¬ ∃ a b, r.RegAfter (u + 1) (rs1Of (r.state u).d.instr) a ∧
          r.RegAfter (u + 1) (rs2Of (r.state u).d.instr) b ∧
          (r.state (c + 1)).resultW = (divOp (funct3Of (r.state u).d.instr)).eval a b := by
  refine ⟨(quietBench [0x00600093, 0x0210c1b3]).run₀, _, 8, 45, TestBench.run₀_exact _,
    TestBench.run₀_instrSlave _, TestBench.run₀_dataSlave _,
    quietBench_untrapped (by decide +kernel), by decide +kernel, by decide +kernel,
    by decide +kernel, ?_⟩
  rintro ⟨a, b, ha, hb, h⟩
  rw [show rs1Of ((quietBench [0x00600093, 0x0210c1b3]).run₀.state 8).d.instr = 1 by
    decide +kernel] at ha
  rw [show rs2Of ((quietBench [0x00600093, 0x0210c1b3]).run₀.state 8).d.instr = 1 by
    decide +kernel] at hb
  rw [show ((quietBench [0x00600093, 0x0210c1b3]).run₀.state 46).resultW = .allOnes 32 by
    decide +kernel, show funct3Of ((quietBench [0x00600093, 0x0210c1b3]).run₀.state 8).d.instr =
    0b100 by decide +kernel] at h
  -- the `addi` leaves decode in cycle 6 and commits in cycle 8
  have hlast : (quietBench [0x00600093, 0x0210c1b3]).run₀.RegAfter 9 1 6 := by
    rw [RegAfter, if_neg (by decide)]
    refine .written 7 _ (by decide) ⟨6, rfl, by decide +kernel⟩
      ⟨8, by decide +kernel, by decide +kernel⟩ fun k h₁ h₂ => ?_
    -- nothing has entered execute between the two
    rintro ⟨u, hu, hin, -⟩
    obtain rfl : u = 7 := by omega
    exact absurd hin (by decide +kernel)
  rw [ha.unique hlast, hb.unique hlast] at h
  exact absurd h (by decide)

end Run

end RvPipelineCore

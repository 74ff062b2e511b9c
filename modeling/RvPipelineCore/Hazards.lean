import RvPipelineCore.Spaced

/-!
# Which stages can be occupied at the same time

The hazards of the core come from neighbouring instructions, and the instruction port keeps most
neighbours apart: decode is never loaded in two consecutive cycles. The results hold in every run,
whatever the slaves and the interrupt lines do.

- `Run.backToBack`: with an instruction both in decode and in execute, nothing is ahead of the two,
  no divide is among them and none is pending;
- `Run.divInstr_of_divPending`: while a divide is pending, execute holds nothing but a divide;
- `Run.exists_controlOf`: the control signals in execute are those of some word, an illegal
  instruction having those of an earlier one.
-/

namespace RvPipelineCore

/-- The kinds of an instruction in execute exclude each other: a CSR write, an access to memory and
a transfer of control never meet in one instruction. -/
structure KindsE (e : ExecuteReg) (c : ControlRegE) : Prop where
  csrWrite : e.csrWrite = true → c.branch = false ∧ c.jump = false ∧ c.loadStore = false
  loadStore : c.loadStore = true → c.branch = false ∧ c.jump = false ∧ e.csrWrite = false ∧
    e.envCallInstr = false ∧ (c.regWrite = true → c.resultSrc = 1)
  loadInstr : c.loadInstr = true → c.loadStore = true
  memWrite : c.memWrite = true → c.loadStore = true
  mretInstr : c.mretInstr = true → c.jump = true

namespace Run

variable {x : DontCare} {r : Run x} {rom : BitVec 32 → BitVec 32}

/-! ## Neighbours -/

/-- After decode has loaded, the instruction port is idle for a cycle. -/
theorem idle_of_decodeLoads (hi : r.InstrSlave rom) {t : ℕ}
    (h : (r.state t).decodeLoads (r.inputs t) = true) :
    (r.state (t + 1)).instrPort.state = .idle := by
  have hack := (State.decodeLoads_eq_true h).1
  rw [r.succ_instrPort]
  simp [InstrPort.next, (hi.active hack).1, hack]

/-- When decode takes a word, the transfer that brought it is under way on the instruction port. -/
theorem active_of_decodeLoads (hi : r.InstrSlave rom) {t : ℕ}
    (h : (r.state t).decodeLoads (r.inputs t) = true) :
    (r.state t).instrPort.state = .active :=
  (hi.active (State.decodeLoads_eq_true h).1).1

/-- A divide that is in decode while the port is active was there before, and is pending. -/
theorem divPending_of_divInstrD (hi : r.InstrSlave rom) {t : ℕ}
    (h : (r.state t).divInstrD = true) (hact : (r.state t).instrPort.state = .active) :
    (r.state t).hazard.divPending = true := by
  cases t with
  | zero => simp at hact
  | succ t =>
    rcases r.d_cases t with ⟨hl, -⟩ | ⟨-, hd⟩ | ⟨-, -, hd⟩
    · simp [idle_of_decodeLoads hi hl] at hact
    · simp [State.divInstrD_of_d_eq_zero _ hd] at h
    · have hdiv : (r.state t).divInstrD = true := by rwa [State.divInstrD, hd] at h
      rw [succ_divPending, hdiv, if_pos rfl]

/-- What is ahead of an instruction in decode that has another one in execute before it. -/
structure BackToBack (r : Run x) (t : ℕ) : Prop where
  idle : (r.state t).instrPort.state = .idle
  m_empty : (r.state t).m.validPc = false
  not_pending : (r.state t).hazard.divPending = false
  not_divide : (r.state t).ce.divInstr = false

/-- Behind an instruction in execute that is back to back with the word in decode, no access and no
divide holds execute back. -/
theorem BackToBack.stallE {t : ℕ} (h : r.BackToBack t) :
    (r.state t).stallE (r.inputs t) = false := by
  simp [State.stallE, State.stallM, cm_loadStore_of_empty h.m_empty, h.not_pending]

/-- Decode and execute come to be both occupied in one way: an instruction that decode has held goes
to execute, where nothing was, and decode loads the next one. -/
private theorem loads_of_ih (hi : r.InstrSlave rom) {t : ℕ}
    (ih : (r.state t).d.isDecodeFlush = true → (r.state t).e.validPc = true → r.BackToBack t)
    (hd : (r.state (t + 1)).d.isDecodeFlush = true) (he : (r.state (t + 1)).e.validPc = true) :
    (r.state t).decodeLoads (r.inputs t) = true ∧ (r.state t).entersE (r.inputs t) = true ∧
      (r.state t).e.validPc = false := by
  rw [r.succ_e_validPc, Bool.or_eq_true, Bool.and_eq_true, Bool.not_eq_true'] at he
  rcases r.d_cases t with ⟨hl, -⟩ | ⟨-, hd'⟩ | ⟨-, hs, hd'⟩
  · have hse := (State.decodeLoads_eq_true hl).2.2.1
    have hin : (r.state t).entersE (r.inputs t) = true := by
      rcases he with hin | ⟨hle, -⟩
      · exact hin
      · simp [State.leavesE, hse] at hle
    refine ⟨hl, hin, ?_⟩
    by_contra hev
    have hidle := (ih (State.d_valid_of_entersE hin) (Bool.not_eq_false _ ▸ hev)).idle
    simp [active_of_decodeLoads hi hl] at hidle
  · simp [hd'] at hd
  · -- decode cannot be held with both occupied
    rw [hd'] at hd
    rcases he with hin | ⟨hle, hev⟩
    · simp [r.stallD_of_entersE t hin] at hs
    · simp [State.leavesE, (ih hd hev).stallE] at hle

/-- Decode and execute are both occupied only for a cycle at a time, with nothing ahead of them. -/
theorem backToBack (hi : r.InstrSlave rom) (t : ℕ) (hd : (r.state t).d.isDecodeFlush = true)
    (he : (r.state t).e.validPc = true) : r.BackToBack t := by
  induction t with
  | zero => simp at hd
  | succ t ih =>
    obtain ⟨hl, -, hev⟩ := loads_of_ih hi ih hd he
    have hse := (State.decodeLoads_eq_true hl).2.2.1
    simp only [State.stallE, Bool.or_eq_false_iff] at hse
    -- a divide in decode would have been there before, and would be pending
    have hdiv : (r.state t).divInstrD = false := by
      by_contra hdiv
      simp [divPending_of_divInstrD hi (Bool.not_eq_false _ ▸ hdiv)
        (active_of_decodeLoads hi hl)] at hse
    refine ⟨idle_of_decodeLoads hi hl, ?_, ?_, ?_⟩
    · simp [r.succ_m_validPc, State.entersM, hev, hse.1]
    · simp [succ_divPending, hdiv, hse.2]
    · rcases r.e_cases t with ⟨-, -, hc⟩ | ⟨-, -, -, hc, -⟩ | ⟨-, hs, -⟩
      · simp [hc]
      · rw [hc]
        exact hdiv
      · simp [State.stallE, hse] at hs

/-- In the cycle before decode and execute are both occupied, decode takes a word, and the
instruction of execute enters it from decode. -/
theorem loads_of_backToBack (hi : r.InstrSlave rom) {t : ℕ}
    (hd : (r.state (t + 1)).d.isDecodeFlush = true) (he : (r.state (t + 1)).e.validPc = true) :
    (r.state t).decodeLoads (r.inputs t) = true ∧ (r.state t).entersE (r.inputs t) = true ∧
      (r.state t).e.validPc = false :=
  loads_of_ih hi (backToBack hi t) hd he

/-- Nothing is in decode while a divide is in execute, since the divide has blocked the fetch stage
from its arrival on. -/
theorem d_empty_of_divInstr (hi : r.InstrSlave rom) {t : ℕ}
    (h : (r.state t).ce.divInstr = true) : (r.state t).d.isDecodeFlush = false := by
  by_contra hd
  have := (backToBack hi t (Bool.not_eq_false _ ▸ hd) (e_valid_of_divInstr h)).not_divide
  simp [h] at this

/-- Nothing is in decode behind instructions in execute and in the memory stage. -/
theorem d_empty_of_full (hi : r.InstrSlave rom) {t : ℕ} (he : (r.state t).e.validPc = true)
    (hm : (r.state t).m.validPc = true) : (r.state t).d.isDecodeFlush = false := by
  by_contra hd
  have := (backToBack hi t (Bool.not_eq_false _ ▸ hd) he).m_empty
  simp [hm] at this

/-- While a divide is pending, execute holds a divide or nothing. -/
theorem divInstr_of_divPending (hi : r.InstrSlave rom) (t : ℕ)
    (hp : (r.state t).hazard.divPending = true) (he : (r.state t).e.validPc = true) :
    (r.state t).ce.divInstr = true := by
  induction t with
  | zero => simp at hp
  | succ t ih =>
    rw [succ_divPending] at hp
    rcases r.e_cases t with ⟨-, he', -⟩ | ⟨-, hs, -, hc, -⟩ | ⟨-, hs, he', hc, -⟩
    · simp [he'] at he
    · -- the flag has just been set by the divide that enters execute
      rw [hc]
      simp only [State.stallE, Bool.or_eq_false_iff] at hs
      split_ifs at hp with hdiv
      · exact hdiv
      · simp [hs.2] at hp
    · rw [he'] at he
      rw [hc]
      split_ifs at hp with hdiv
      · simp [(backToBack hi t (d_valid_of_divInstrD hdiv) he).stallE] at hs
      · exact ih hp he

/-! ## Control signals -/

/-- The control signals in decode are those of some word: the one that is there, or, for an illegal
one, an earlier one. -/
theorem exists_controlOf (t : ℕ) : ∃ w, ControlOf w ((r.state t).outControlD x) := by
  -- all zero is what a `fence` decodes to
  have hzero : ∃ w, ControlOf w 0 := by
    refine ⟨0b0001111, ?_⟩
    constructor <;> decide
  induction t with
  | zero =>
    rw [State.outControlD_of_d_eq_zero x _ r.zero_d]
    exact hzero
  | succ t ih =>
    cases hv : (r.state (t + 1)).d.isDecodeFlush with
    | false =>
      rw [State.outControlD_of_d_eq_zero x _ (r.d_bubble _ hv)]
      exact hzero
    | true =>
      rw [State.outControlD, State.mainDec_of_valid _ x hv]
      rcases decode_cases x (r.state (t + 1)).d.instr with ⟨c, hc, hof⟩ | ⟨o, hc, ho⟩
      · rw [hc]
        exact ⟨_, hof⟩
      · rw [hc]
        cases o with
        | none =>
          -- the latch of the decoder
          rw [Option.getD_none, r.succ_outControl]
          exact ih
        | some c =>
          rw [Option.getD_some] at ho ⊢
          rw [ho]
          exact hzero

/-- The kinds of instruction exclude each other in execute, illegal instructions included. -/
theorem kindsE (t : ℕ) : KindsE (r.state t).e (r.state t).ce := by
  cases hv : (r.state t).e.validPc with
  | false =>
    obtain ⟨he, hc⟩ := r.e_bubble t hv
    rw [he, hc]
    constructor <;> decide
  | true =>
    obtain ⟨u, -, -, he, hc⟩ := r.e_origin t hv
    obtain ⟨w, hof⟩ := exists_controlOf (r := r) u
    rw [he, hc]
    exact ⟨hof.csrWrite, hof.loadStore, hof.loadInstr, hof.memWrite, hof.mretInstr⟩

/-- A load or store in the memory stage is nothing else. -/
theorem m_of_loadStore {t : ℕ} (h : (r.state t).cm.loadStore = true) :
    (r.state t).m.csrWrite = false ∧ (r.state t).m.mretInstr = false ∧
      (r.state t).m.envCallInstr = false := by
  obtain ⟨q, -, -, -, -, hm, hc⟩ := r.m_origin t (m_valid_of_loadStore h)
  rw [hc] at h
  obtain ⟨-, hj, hcsr, henv, -⟩ := (kindsE (r := r) q).loadStore h
  rw [hm]
  refine ⟨hcsr, ?_, henv⟩
  by_contra hmret
  simp [(kindsE (r := r) q).mretInstr (Bool.not_eq_false _ ▸ hmret)] at hj

end Run

end RvPipelineCore

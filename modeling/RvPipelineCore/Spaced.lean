import RvPipelineCore.Fetch
import RvPipelineCore.Transfers

/-!
# Runs with one instruction at a time

With slaves that wait at least one cycle, a new word reaches decode only when the previous
instruction has passed the memory stage: the four stages hold one valid instruction among them, but
for a finished divide that moves on while the next word arrives. `Run.Spaced` is that invariant, for
runs without interrupts.

It makes the conditions of `Run.Orderly` and `Run.Undisturbed` hold in every cycle, so program order
and the data port are exact in such runs.
-/

namespace RvPipelineCore

open Temporal

namespace Run

variable {x : DontCare} (r : Run x) {rom : BitVec 32 → BitVec 32}

/-- A run with slaves that wait at least one cycle, and no interrupts. -/
structure Delayed (rom : BitVec 32 → BitVec 32) : Prop where
  instr : r.InstrSlave rom
  data : r.DataSlave
  instrWait : r.InstrDelayed
  dataWait : r.DataDelayed
  quiet : r.NoInterrupts

variable {r}

/-! ## Interrupts and divides -/

/-- Without interrupts on the two lines none is ever attached to the memory stage. -/
theorem interruptM_of_noInterrupts (h : r.NoInterrupts) (t : ℕ) :
    (r.state t).interruptM = false := by
  have hfirst : ∀ t, (r.state t).csr.interruptExternalEdge.firstReg = false ∧
      (r.state t).csr.interruptTimerEdge.firstReg = false := by
    intro t
    cases t with
    | zero =>
      exact ⟨r.zero_eq (fun s => s.csr.interruptExternalEdge.firstReg) fun _ => rfl,
        r.zero_eq (fun s => s.csr.interruptTimerEdge.firstReg) fun _ => rfl⟩
    | succ t =>
      obtain ⟨he, ht⟩ := h t
      rw [r.succ_csr]
      simp [CsrExec.next, EdgeDetector.next, CsrExec.intrExtAsync, CsrExec.intrTimerAsync, he, ht]
  simp [State.interruptM, CsrExec.interruptExternalM, CsrExec.interruptTimerM,
    EdgeDetector.edgeDetected, hfirst t]

/-- In a run with waiting slaves and no interrupts, none is attached to the memory stage. -/
theorem Delayed.interruptM (h : r.Delayed rom) (t : ℕ) : (r.state t).interruptM = false :=
  interruptM_of_noInterrupts h.quiet t

/-- In a run with waiting slaves and no interrupts, the memory stage is flagged by causes of its own
instruction only. -/
theorem Delayed.isInstrExceptionM_eq (h : r.Delayed rom) (t : ℕ) :
    (r.state t).isInstrExceptionM = (r.state t).syncExceptionM := by
  rw [State.isInstrExceptionM_eq, h.interruptM, Bool.or_false]

/-- In a run with waiting slaves and no interrupts, a bubble in the memory stage is not flagged. -/
theorem Delayed.isInstrExceptionM_of_empty (h : r.Delayed rom) {t : ℕ}
    (hm : (r.state t).m.validPc = false) : (r.state t).isInstrExceptionM = false := by
  rw [h.isInstrExceptionM_eq, r.syncExceptionM_of_empty hm]

/-- In a run with waiting slaves and no interrupts, every flag of the memory stage belongs to a
valid instruction. -/
theorem Delayed.m_valid_of_exception (h : r.Delayed rom) {t : ℕ}
    (hx : (r.state t).isInstrExceptionM = true) : (r.state t).m.validPc = true :=
  r.m_valid_of_exception hx fun hi => by simp [h.interruptM] at hi

/-- A divide in execute is a valid instruction, since a bubble has no control signals. -/
theorem e_valid_of_divInstr {t : ℕ} (h : (r.state t).ce.divInstr = true) :
    (r.state t).e.validPc = true :=
  e_valid_of (f := fun s => s.ce.divInstr) (fun s _ hc => by simp [hc]) h

/-- A divide in execute asks for nothing but the divider. -/
theorem e_of_divInstr {t : ℕ} (h : (r.state t).ce.divInstr = true) :
    (r.state t).e.csrWrite = false ∧ (r.state t).e.illegalInstruction = false ∧
      (r.state t).e.envCallInstr = false ∧ (r.state t).ce.loadStore = false ∧
      (r.state t).ce.memWrite = false ∧ (r.state t).ce.loadInstr = false ∧
      (r.state t).pcSrcE = false := by
  have hv := e_valid_of_divInstr h
  obtain ⟨u, hu, hin, he, hc⟩ := r.e_origin t hv
  have hop : opcodeOf (r.state u).d.instr = 0b0110011 := by
    rw [hc] at h
    simp only [State.controlInputE, State.divInstrD, mulDivDecoder] at h
    split_ifs at h with h1
    exact h1.1
  -- the opcode of a divide is decoded
  have hill : (r.state t).e.illegalInstruction = false := by
    have hdec := (r.state u).mainDec_of_valid x (State.d_valid_of_entersE hin)
    rw [he]
    simp only [State.executeInput, State.illegalInstructionD, hdec, decode_rType x hop]
  -- so its control signals are those of its kind
  obtain ⟨u', hu', -, -, -, -, hof⟩ := r.e_origin_legal t hv hill
  obtain rfl : u = u' := by omega
  obtain ⟨hls, hcsr, hb, hj, henv⟩ := hof.rType hop
  have hmw : ((r.state u).outControlD x).memWrite = false := by
    by_contra hmw
    simp [hof.memWrite (Bool.not_eq_false _ ▸ hmw)] at hls
  have hli : ((r.state u).outControlD x).loadInstr = false := by
    by_contra hli
    simp [hof.loadInstr (Bool.not_eq_false _ ▸ hli)] at hls
  have hb' : (r.state t).ce.branch = false := by rw [hc]; exact hb
  have hj' : (r.state t).ce.jump = false := by rw [hc]; exact hj
  refine ⟨by rw [he]; exact hcsr, hill, by rw [he]; exact henv, by rw [hc]; exact hls,
    by rw [hc]; exact hmw, by rw [hc]; exact hli, ?_⟩
  have hk : (r.state t).takeBranchE = false := by simp [State.takeBranchE, branchCheck, hb']
  simp [State.pcSrcE, State.isMispredictNtbranchE, State.branchMispredict, branchMisprediction, hv,
    hb', hj', hk]

/-! ## The invariant -/

/-- At most one stage holds a valid instruction, but for a finished divide in the memory stage with
the next word in decode. -/
structure Spaced (r : Run x) (t : ℕ) : Prop where
  /-- A word in decode has just arrived, with nothing ahead of it that stalls or traps. -/
  decode : (r.state t).d.isDecodeFlush = true → (r.state t).instrPort.state = .idle ∧
    (r.state t).e.validPc = false ∧ (r.state t).hazard.divPending = false ∧
    (r.state t).cm.loadStore = false ∧ (r.state t).syncExceptionM = false
  /-- An instruction in execute is alone, and only a divide sees an acknowledge there. -/
  execute : (r.state t).e.validPc = true → (r.state t).d.isDecodeFlush = false ∧
    (r.state t).m.validPc = false ∧ ((r.state t).ce.divInstr = false →
      (r.inputs t).instrWbAck = false ∧ (r.state t).hazard.divPending = false)
  /-- A pending divide keeps the memory stage empty. -/
  divide : (r.state t).hazard.divPending = true → (r.state t).m.validPc = false
  /-- Nothing is in execute when a trap is taken. -/
  trap : (r.state t).trapCaughtW = true → (r.state t).e.validPc = false

/-- An empty decode stage holds no divide. -/
theorem divInstrD_of_empty {t : ℕ} (h : (r.state t).d.isDecodeFlush = false) :
    (r.state t).divInstrD = false :=
  State.divInstrD_of_d_eq_zero _ (r.d_bubble t h)

/-- An empty memory stage makes no access. -/
theorem cm_loadStore_of_empty {t : ℕ} (h : (r.state t).m.validPc = false) :
    (r.state t).cm.loadStore = false := by
  simp [(r.m_bubble t h).2]

/-- An idle port sees no acknowledge, and none in the next cycle either. -/
theorem Delayed.no_ack_of_idle (h : r.Delayed rom) {t : ℕ}
    (hidle : (r.state t).instrPort.state = .idle) :
    (r.inputs t).instrWbAck = false ∧ (r.inputs (t + 1)).instrWbAck = false := by
  constructor <;> by_contra hack
  · have := (h.instr.active (Bool.not_eq_false _ ▸ hack)).1
    simp [hidle] at this
  · obtain ⟨u, hu, hcyc, -⟩ := h.instrWait (t + 1) (Bool.not_eq_false _ ▸ hack)
    obtain rfl : t = u := by omega
    rw [(r.instrPort_cyc t).1, hidle] at hcyc
    exact absurd hcyc (by decide)

/-- In a spaced cycle a word in decode is not stalled, because nothing ahead of it waits. -/
theorem Spaced.stallD {t : ℕ} (hs : Spaced r t) (hv : (r.state t).d.isDecodeFlush = true) :
    (r.state t).stallD (r.inputs t) = false := by
  obtain ⟨-, he, hdiv, hls, -⟩ := hs.decode hv
  have hli : (r.state t).ce.loadInstr = false := by
    simp [(r.e_bubble t he).2]
  simp [State.stallD, State.stallE, State.stallM, State.lwStallD, HazardUnit.lwStallD, hdiv, hls,
    hli]

/-- An instruction other than a divide passes execute in one cycle. -/
theorem Spaced.stallE {t : ℕ} (hs : Spaced r t) (hv : (r.state t).e.validPc = true)
    (hdiv : (r.state t).ce.divInstr = false) : (r.state t).stallE (r.inputs t) = false := by
  obtain ⟨-, hm, hrest⟩ := hs.execute hv
  simp [State.stallE, State.stallM, cm_loadStore_of_empty hm, (hrest hdiv).2]

/-- An instruction in the memory stage has nothing behind it in execute. -/
theorem Spaced.e_empty {t : ℕ} (hs : Spaced r t) (hv : (r.state t).m.validPc = true) :
    (r.state t).e.validPc = false := by
  by_contra hve
  have := (hs.execute (Bool.not_eq_false _ ▸ hve)).2.1
  simp [hv] at this

/-- In a spaced cycle no exception is ahead of an instruction in execute. -/
theorem Spaced.pendingExceptionM {t : ℕ} (hs : Spaced r t) (hv : (r.state t).e.validPc = true) :
    (r.state t).hazard.pendingExceptionM = false := by
  rw [← r.trapCaughtW_eq_pendingExceptionM]
  by_contra htrap
  simp [hs.trap (Bool.not_eq_false _ ▸ htrap)] at hv

/-- In a spaced cycle decode takes a word only when it was empty before. -/
theorem Spaced.empty_of_decodeLoads (h : r.Delayed rom) {t : ℕ} (hs : Spaced r t)
    (hl : (r.state t).decodeLoads (r.inputs t) = true) :
    (r.state t).d.isDecodeFlush = false := by
  by_contra hv
  have := (h.no_ack_of_idle (hs.decode (Bool.not_eq_false _ ▸ hv)).1).1
  simp [(State.decodeLoads_eq_true hl).1] at this

/-- An instruction in execute when decode loads is a divide that is done. -/
theorem Spaced.divide_of_decodeLoads {t : ℕ} (hs : Spaced r t)
    (hl : (r.state t).decodeLoads (r.inputs t) = true) (hv : (r.state t).e.validPc = true) :
    (r.state t).ce.divInstr = true := by
  by_contra hdiv
  obtain ⟨-, -, hrest⟩ := hs.execute hv
  have := (hrest (Bool.not_eq_true _ ▸ hdiv)).1
  simp [(State.decodeLoads_eq_true hl).1] at this

/-- What decode loads finds the rest of the pipeline as `Spaced.decode` says. -/
theorem Spaced.succ_decode (h : r.Delayed rom) {t : ℕ} (hs : Spaced r t)
    (hv : (r.state (t + 1)).d.isDecodeFlush = true) :
    (r.state (t + 1)).instrPort.state = .idle ∧ (r.state (t + 1)).e.validPc = false ∧
      (r.state (t + 1)).hazard.divPending = false ∧ (r.state (t + 1)).cm.loadStore = false ∧
      (r.state (t + 1)).syncExceptionM = false := by
  -- only a word that has just arrived can be in decode
  rcases r.d_cases t with ⟨hl, -⟩ | ⟨-, hd⟩ | ⟨-, hst, hd⟩
  · obtain ⟨hack, -, hse, -⟩ := State.decodeLoads_eq_true hl
    have hd := hs.empty_of_decodeLoads h hl
    have hdiv : (r.state t).hazard.divPending = false := by
      simp only [State.stallE, Bool.or_eq_false_iff] at hse
      exact hse.2
    refine ⟨?_, ?_, ?_, ?_⟩
    · rw [r.succ_instrPort]
      simp [InstrPort.next, (h.instr.active hack).1, hack]
    · simp [r.succ_e_validPc, State.entersE, State.leavesE, hd, hse]
    · simp [succ_divPending, divInstrD_of_empty hd, hdiv]
    · -- the instruction that moves to the memory stage is a divide
      rcases r.m_cases t with ⟨-, hm, hc⟩ | ⟨-, -, -, hm, hc, -⟩ | ⟨-, hsm, -⟩
      · exact ⟨by simp [hc], State.syncExceptionM_of_m_eq_zero _ hm hc⟩
      · cases hve : (r.state t).e.validPc with
        | true =>
          obtain ⟨-, hill, henv, hls, hmw, -, hsrc⟩ :=
            e_of_divInstr (hs.divide_of_decodeLoads hl hve)
          refine ⟨by rw [hc]; exact hls, ?_⟩
          simp [State.syncExceptionM, State.storeMisalignedM, State.loadMisalignedM,
            storeMisaligned, loadMisaligned, hm, hc, State.memoryInput, State.controlInputM,
            State.misalignedPcE, hill, henv, hls, hmw, hsrc]
        | false =>
          have hz := r.e_bubble t hve
          rw [State.memoryInput_of_e_eq_zero _ hz.1 hz.2] at hm
          rw [State.controlInputM_of_ce_eq_zero _ hz.2] at hc
          exact ⟨by simp [hc], State.syncExceptionM_of_m_eq_zero _ hm hc⟩
      · simp [State.stallE, hsm] at hse
  · simp [hd] at hv
  · rw [hd] at hv
    simp [hs.stallD hv] at hst

/-- What enters execute, or stays there, finds the rest as `Spaced.execute` says. -/
theorem Spaced.succ_execute (h : r.Delayed rom) {t : ℕ} (hs : Spaced r t)
    (hv : (r.state (t + 1)).e.validPc = true) :
    (r.state (t + 1)).d.isDecodeFlush = false ∧ (r.state (t + 1)).m.validPc = false ∧
      ((r.state (t + 1)).ce.divInstr = false →
        (r.inputs (t + 1)).instrWbAck = false ∧
          (r.state (t + 1)).hazard.divPending = false) := by
  rcases r.e_cases t with ⟨-, he, -⟩ | ⟨-, hse, he, hc, -⟩ | ⟨hfe, hse, he, hc, -⟩
  · simp [he] at hv
  · -- a word moves on from decode
    have hvd : (r.state t).d.isDecodeFlush = true := by
      rw [he] at hv
      exact hv
    obtain ⟨hidle, hve, hdiv, hls, -⟩ := hs.decode hvd
    obtain ⟨hack, hack'⟩ := h.no_ack_of_idle hidle
    refine ⟨?_, ?_, fun hdivE => ⟨hack', ?_⟩⟩
    · simp [r.succ_d_isDecodeFlush, r.decodeLoads_of_no_ack hack, hs.stallD hvd]
    · simp [r.succ_m_validPc, State.entersM, State.stallM, hve, hls]
    · have hdivD : (r.state t).divInstrD = false := by
        rw [hc] at hdivE
        exact hdivE
      simp [succ_divPending, hdivD, hdiv]
  · -- only a divide stays
    have hve : (r.state t).e.validPc = true := by rw [← he, hv]
    obtain ⟨hd, hm, -⟩ := hs.execute hve
    have hdiv : (r.state t).ce.divInstr = true := by
      by_contra hdiv
      simp [hs.stallE hve (Bool.not_eq_true _ ▸ hdiv)] at hse
    have hpend : (r.state t).hazard.divPending = true := by
      simpa [State.stallE, State.stallM, cm_loadStore_of_empty hm] using hse
    refine ⟨?_, ?_, fun hdivE => ?_⟩
    · simp [r.succ_d_isDecodeFlush, State.decodeLoads, State.stallD, hse, hd]
    · simp [r.succ_m_validPc, State.entersM, State.flushM, hpend]
    · rw [hc, hdiv] at hdivE
      exact absurd hdivE.symm Bool.false_ne_true

/-- One cycle of a run with waiting slaves keeps the instructions spaced. -/
theorem Spaced.succ (h : r.Delayed rom) {t : ℕ} (hs : Spaced r t) : Spaced r (t + 1) := by
  refine ⟨hs.succ_decode h, hs.succ_execute h, fun hpend => ?_, fun htrap => ?_⟩
  · rw [succ_divPending] at hpend
    cases hdivD : (r.state t).divInstrD with
    | true =>
      obtain ⟨-, hve, -, hls, -⟩ := hs.decode (d_valid_of_divInstrD hdivD)
      simp [r.succ_m_validPc, State.entersM, State.stallM, hve, hls]
    | false =>
      have hdiv : (r.state t).hazard.divPending = true := by
        by_contra hdiv
        simp [hdivD, hdiv] at hpend
      simp [r.succ_m_validPc, State.entersM, State.flushM, hdiv]
  · rw [r.succ_trapCaughtW] at htrap
    have hvm := h.m_valid_of_exception htrap
    -- the flagged instruction is alone
    have hd : (r.state t).d.isDecodeFlush = false := by
      by_contra hvd
      obtain ⟨-, -, -, -, hsync⟩ := hs.decode (Bool.not_eq_false _ ▸ hvd)
      simp [h.isInstrExceptionM_eq, hsync] at htrap
    simp [r.succ_e_validPc, State.entersE, hd, hs.e_empty hvm]

/-- A run with waiting slaves and no interrupts is spaced in every cycle. -/
theorem Delayed.spaced (h : r.Delayed rom) (t : ℕ) : Spaced r t := by
  induction t with
  | zero =>
    exact ⟨fun hv => by simp at hv, fun hv => by simp at hv, fun hv => by simp at hv,
      fun _ => by simp⟩
  | succ t ih => exact ih.succ h

/-! ## Consequences -/

/-- What enters the memory stage behind an instruction that leaves it is a bubble. -/
theorem Spaced.succ_m_empty {t : ℕ} (hs : Spaced r t) (hv : (r.state t).m.validPc = true)
    (hsm : (r.state t).stallM (r.inputs t) = false) : (r.state (t + 1)).m.validPc = false := by
  simp [r.succ_m_validPc, State.entersM, hs.e_empty hv, hsm]

/-- A run with waiting slaves and no interrupts is orderly in every cycle, so that it loses no
instruction. -/
theorem Delayed.orderly (h : r.Delayed rom) (t : ℕ) : r.Orderly t := by
  have hs := h.spaced t
  refine ⟨fun hi => ?_, fun hx hsm => ?_, fun hve hfe hpm => ?_, fun hsm hdiv => ?_⟩
  · simp [h.interruptM] at hi
  · have hm := hs.succ_m_empty (h.m_valid_of_exception hx) hsm
    by_contra hx'
    simp [h.m_valid_of_exception (Bool.not_eq_false _ ▸ hx')] at hm
  · cases hdiv : (r.state t).ce.divInstr with
    | true =>
      -- no flush reaches a divide without an exception
      obtain ⟨-, -, -, -, -, hli, hsrc⟩ := e_of_divInstr hdiv
      simp [State.flushE, State.lwStallD, HazardUnit.lwStallD, State.jumpInstr, hli, hsrc, hpm]
        at hfe
    | false => exact hs.stallE hve hdiv
  · have := r.stallM_valid hsm
    simp [hs.divide hdiv] at this

/-- A run with waiting slaves and no interrupts disturbs no load or store in any cycle. -/
theorem Delayed.undisturbed (h : r.Delayed rom) (t : ℕ) : r.Undisturbed t := by
  intro hls hsync
  have hv := m_valid_of_loadStore hls
  refine ⟨h.interruptM t, ?_, fun hdiv => ?_⟩
  · by_contra hpm
    rw [Bool.not_eq_false, ← r.trapCaughtW_eq_pendingExceptionM] at hpm
    obtain ⟨q, rfl, hx⟩ := exists_exception_of_trap hpm
    -- the flagged instruction is either still there or has left a bubble
    cases hsm : (r.state q).stallM (r.inputs q) with
    | false => simp [(h.spaced q).succ_m_empty (h.m_valid_of_exception hx) hsm] at hv
    | true =>
      rcases r.m_cases q with ⟨-, hm, -⟩ | ⟨-, hsm', -⟩ | ⟨-, -, hm, hc, -⟩
      · simp [hm] at hv
      · simp [hsm] at hsm'
      · rw [State.syncExceptionM_congr _ hm hc, ← h.isInstrExceptionM_eq, hx] at hsync
        exact absurd hsync.symm Bool.false_ne_true
  · simp [(h.spaced t).divide hdiv] at hv

end Run

end RvPipelineCore

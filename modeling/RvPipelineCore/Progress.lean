import RvPipelineCore.Redirect
import RvPipelineCore.Spaced

/-!
# Progress of the fetch

A pipeline that has run empty, with nothing pending, fetches until a word reaches decode, and that
word enters execute in the next cycle. An acknowledge may be ignored on the way, after a redirect or
a trap, but only one: `Run.Drained.exists_firstEntry` follows the port over at most two transfers.

The instruction slave must answer in the end (`Run.InstrFair`); nothing bounds its delay.
-/

namespace RvPipelineCore

open Temporal

namespace Run

variable {x : DontCare} {r : Run x} {rom : BitVec 32 → BitVec 32}

/-! ## A word in decode -/

/-- With slaves that wait, a word in decode enters execute at once, unless a trap removes it. -/
theorem Delayed.entersE_eq (h : r.Delayed rom) {t : ℕ}
    (hv : (r.state t).d.isDecodeFlush = true) :
    (r.state t).entersE (r.inputs t) = !(r.state t).trapCaughtW := by
  have he := ((h.spaced t).decode hv).2.1
  have hs := (h.spaced t).stallD hv
  have hc := (r.e_bubble t he).2
  have hsrc := r.pcSrcE_of_empty t he
  simp only [State.stallD, Bool.or_eq_false_iff] at hs
  have hli : (r.state t).lwStallD = false := hs.1.1
  simp [State.entersE, State.flushE, State.jumpInstr, hv, hs.1.2, hli, hsrc,
    r.trapCaughtW_eq_pendingExceptionM]

/-- In a run with waiting slaves a word in decode has been taken in the cycle before, and decode was
empty then. -/
theorem Delayed.decodeLoads_of_valid (h : r.Delayed rom) {t : ℕ}
    (hv : (r.state (t + 1)).d.isDecodeFlush = true) :
    (r.state t).decodeLoads (r.inputs t) = true ∧ (r.state t).d.isDecodeFlush = false := by
  rcases r.d_cases t with ⟨hl, -⟩ | ⟨-, hd⟩ | ⟨-, hs, hd⟩
  · exact ⟨hl, (h.spaced t).empty_of_decodeLoads h hl⟩
  · simp [hd] at hv
  · rw [hd] at hv
    simp [(h.spaced t).stallD hv] at hs

/-- The latch of the main decoder is clear under a word in decode: it follows a bubble. -/
theorem Delayed.outControl_eq_zero (h : r.Delayed rom) {t : ℕ}
    (hv : (r.state t).d.isDecodeFlush = true) : (r.state t).outControl = 0 := by
  cases t with
  | zero => simp at hv
  | succ t =>
    obtain ⟨-, hd⟩ := h.decodeLoads_of_valid hv
    rw [r.succ_outControl, State.outControlD_of_d_eq_zero x _ (r.d_bubble t hd)]

/-- Only an illegal word in decode raises `pending_exception_f`, so with decode empty the flag stays
down. -/
theorem pendingExceptionF_succ {t : ℕ} (hd : (r.state t).d.isDecodeFlush = false)
    (hp : (r.state t).hazard.pendingExceptionF = false) :
    (r.state (t + 1)).hazard.pendingExceptionF = false := by
  have hill := State.illegalInstructionD_of_d_eq_zero x _ (r.d_bubble t hd)
  rw [r.succ_hazard]
  simp [State.hazardNext, HazardUnit.pendingExceptionFNext, HazardUnit.setClear, hill, hp]

/-- A pending illegal word is one of the instructions on their way to write-back. -/
theorem Delayed.pendingExceptionF (h : r.Delayed rom) (t : ℕ)
    (hp : (r.state t).hazard.pendingExceptionF = true) :
    (r.state t).e.illegalInstruction = true ∨ (r.state t).m.illegalInstruction = true ∨
      (r.state t).w.illegalInstruction = true := by
  induction t with
  | zero => simp at hp
  | succ t ih =>
    have hsp := h.spaced t
    rw [r.succ_hazard] at hp
    simp only [State.hazardNext, HazardUnit.pendingExceptionFNext, HazardUnit.setClear] at hp
    split_ifs at hp with hset hclear
    · -- the word in decode enters execute
      simp only [Bool.and_eq_true, Bool.not_eq_true'] at hset
      obtain ⟨hill, hpm⟩ := hset
      have hd := d_valid_of (State.illegalInstructionD_of_d_eq_zero x) hill
      have hin := h.entersE_eq hd
      rw [r.trapCaughtW_eq_pendingExceptionM, hpm] at hin
      simp only [State.entersE, Bool.and_eq_true, Bool.not_eq_true', Bool.not_false] at hin
      rcases r.e_cases t with ⟨hf, -⟩ | ⟨-, -, he, -⟩ | ⟨-, hs, -⟩
      · simp [hin.1.2] at hf
      · left
        rw [he]
        exact hill
      · simp [hin.2] at hs
    · rcases ih hp with he | hm | hw
      · have hv : (r.state t).e.validPc = true :=
          e_valid_of (f := fun s => s.e.illegalInstruction) (fun s he _ => by simp [he]) he
        have hdiv : (r.state t).ce.divInstr = false := by
          by_contra hdiv
          simp [(e_of_divInstr (Bool.not_eq_false _ ▸ hdiv)).2.1] at he
        have hpm := hsp.pendingExceptionM hv
        have hse := hsp.stallE hv hdiv
        rcases r.m_cases t with ⟨hf, -⟩ | ⟨-, -, -, hm, -, -⟩ | ⟨-, hsm, -⟩
        · simp [State.flushM, hpm, ((hsp.execute hv).2.2 hdiv).2] at hf
        · right
          left
          rw [hm]
          exact he
        · simp [State.stallE, hsm] at hse
      · right
        right
        rw [r.succ_w]
        exact hm
      · exact absurd hw hclear

/-! ## The drained pipeline -/

/-- Nothing is in decode or execute, and no divide or illegal word is pending: the memory stage is
alone. -/
structure Alone (r : Run x) (t : ℕ) : Prop where
  d : (r.state t).d.isDecodeFlush = false
  e : (r.state t).e.validPc = false
  div : (r.state t).hazard.divPending = false
  illegal : (r.state t).hazard.pendingExceptionF = false

/-- Nothing is in decode, execute or the memory stage, and neither a divide nor an illegal word is
pending. -/
structure Emptied (r : Run x) (t : ℕ) : Prop extends Alone r t where
  m : (r.state t).m.validPc = false

/-- The pipeline up to the memory stage is empty, and write-back takes no trap in this cycle. -/
structure Drained (r : Run x) (t : ℕ) : Prop extends Emptied r t where
  trap : (r.state t).trapCaughtW = false

/-- An empty execute stage stays so with nothing in decode. -/
theorem Alone.e_succ {t : ℕ} (ha : Alone r t) : (r.state (t + 1)).e.validPc = false := by
  simp [r.succ_e_validPc, State.entersE, ha.d, ha.e]

/-- An instruction that leaves the memory stage alone leaves it empty. -/
theorem Alone.m_succ {t : ℕ} (ha : Alone r t) (hs : (r.state t).stallM (r.inputs t) = false) :
    (r.state (t + 1)).m.validPc = false := by
  simp [r.succ_m_validPc, State.entersM, ha.e, hs]

/-- The memory stage stays alone in the next cycle as long as no word is taken into decode. -/
theorem Alone.succ {t : ℕ} (ha : Alone r t)
    (hl : (r.state t).decodeLoads (r.inputs t) = false) : Alone r (t + 1) := by
  refine ⟨?_, ha.e_succ, ?_, pendingExceptionF_succ ha.d ha.illegal⟩
  · simp [r.succ_d_isDecodeFlush, hl, ha.d]
  · simp [succ_divPending, divInstrD_of_empty ha.d, ha.div]

/-- A drained pipeline takes the word of every acknowledge it does not ignore. -/
theorem Drained.decodeLoads_eq {t : ℕ} (hd : Drained r t) :
    (r.state t).decodeLoads (r.inputs t) =
      ((r.inputs t).instrWbAck && !(r.state t).hazard.ignoreInstrMemHandshake) := by
  have hls := cm_loadStore_of_empty hd.m
  have hpm := r.trapCaughtW_eq_pendingExceptionM t
  rw [hd.trap] at hpm
  have hli : (r.state t).ce.loadInstr = false := by simp [(r.e_bubble t hd.e).2]
  simp [State.decodeLoads, State.flushD, State.stallD, State.stallE, State.stallM, State.lwStallD,
    HazardUnit.lwStallD, State.jumpInstr, State.waitingOnInstruction, State.instrMemHandshake,
    State.rawInstrMemHandshake, State.isInstructionValid, r.pcSrcE_of_empty t hd.e, hli, hls,
    hd.div, hd.illegal, ← hpm]

/-- When the instruction in the memory stage leaves it in order, the pipeline drains, unless a word
arrives. -/
theorem Alone.drained_succ {t : ℕ} (ha : Alone r t)
    (hs : (r.state t).stallM (r.inputs t) = false)
    (hx : (r.state t).isInstrExceptionM = false)
    (hl : (r.state t).decodeLoads (r.inputs t) = false) : Drained r (t + 1) :=
  ⟨⟨ha.succ hl, ha.m_succ hs⟩, by rw [r.succ_trapCaughtW, hx]⟩

/-- With the pipeline emptied no exception is raised in the memory stage. -/
theorem Emptied.isInstrExceptionM (h : r.Delayed rom) {t : ℕ} (hd : Emptied r t) :
    (r.state t).isInstrExceptionM = false :=
  h.isInstrExceptionM_of_empty hd.m

/-- With the pipeline emptied the memory stage waits for no acknowledge. -/
theorem Emptied.stallM {t : ℕ} (hd : Emptied r t) :
    (r.state t).stallM (r.inputs t) = false := by
  simp [State.stallM, cm_loadStore_of_empty hd.m]

/-- Until a word arrives, an empty pipeline stays empty, and drains. -/
theorem Emptied.succ (h : r.Delayed rom) {t : ℕ} (hd : Emptied r t)
    (hl : (r.state t).decodeLoads (r.inputs t) = false) : Drained r (t + 1) :=
  hd.toAlone.drained_succ hd.stallM (hd.isInstrExceptionM h) hl

/-- A word that arrives with no exception ahead of it enters execute in the next cycle. -/
theorem Delayed.entersE_succ (h : r.Delayed rom) {t : ℕ}
    (hx : (r.state t).isInstrExceptionM = false)
    (hl : (r.state t).decodeLoads (r.inputs t) = true) :
    (r.state (t + 1)).entersE (r.inputs (t + 1)) = true := by
  have hv : (r.state (t + 1)).d.isDecodeFlush = true := by simp [r.succ_d_isDecodeFlush, hl]
  rw [h.entersE_eq hv, r.succ_trapCaughtW, hx]
  rfl

/-- The instruction port always drives a transfer or starts one, so an acknowledge comes. -/
theorem InstrFair.exists_ack (hf : r.InstrFair) (t : ℕ) :
    ∃ u, t ≤ u ∧ (r.inputs u).instrWbAck = true := by
  cases hp : (r.state t).instrPort.state with
  | active => exact hf t (by simp [(r.instrPort_cyc t).1, hp])
  | idle =>
    have hact : (r.state (t + 1)).instrPort.state = .active := by
      rw [r.succ_instrPort]
      simp [InstrPort.next, hp]
    obtain ⟨u, hle, hack⟩ := hf (t + 1) (by simp [(r.instrPort_cyc (t + 1)).1, hact])
    exact ⟨u, by omega, hack⟩

/-- In a drained pipeline an acknowledge clears the ignore flag, and nothing sets it. -/
theorem Drained.ignore_succ {t : ℕ} (hd : Drained r t)
    (h : (r.inputs t).instrWbAck = true ∨ (r.state t).hazard.ignoreInstrMemHandshake = false) :
    (r.state (t + 1)).hazard.ignoreInstrMemHandshake = false := by
  have hj : (r.state t).jumpInstr = false := by
    simp [State.jumpInstr, r.pcSrcE_of_empty t hd.e]
  rw [r.succ_hazard]
  simp only [State.hazardNext, HazardUnit.ignoreNext, State.rawInstrMemHandshake,
    State.isInstructionValid, hj, hd.trap, Bool.or_self, Bool.and_true]
  cases hi : (r.state t).hazard.ignoreInstrMemHandshake <;> simp_all

/-- From a drained pipeline on a fair instruction slave brings a word to decode, for which there is
a first cycle. -/
theorem Drained.exists_decodeLoads (h : r.Delayed rom) (hf : r.InstrFair) {t : ℕ}
    (hd : Drained r t) :
    ∃ u, First (fun v => (r.state v).decodeLoads (r.inputs v) = true) t u := by
  refine First.of_exists ?_
  by_contra hnone
  have hno : ∀ v, t ≤ v → (r.state v).decodeLoads (r.inputs v) = false := by
    intro v hv
    by_contra hl
    exact hnone ⟨v, hv, Bool.not_eq_false _ ▸ hl⟩
  have hdrained : ∀ v, t ≤ v → Drained r v := by
    intro v hv
    induction v, hv using Nat.le_induction with
    | base => exact hd
    | succ v hv ih => exact ih.toEmptied.succ h (hno v hv)
  -- the first acknowledge clears the flag for good, so the second one cannot be ignored
  obtain ⟨u, hu, hack⟩ := hf.exists_ack t
  have hclear : ∀ v, u + 1 ≤ v → (r.state v).hazard.ignoreInstrMemHandshake = false := by
    intro v hv
    induction v, hv using Nat.le_induction with
    | base => exact (hdrained u hu).ignore_succ (.inl hack)
    | succ v hv ih => exact (hdrained v (by omega)).ignore_succ (.inr ih)
  obtain ⟨u', hu', hack'⟩ := hf.exists_ack (u + 1)
  have hl := hno u' (by omega)
  rw [(hdrained u' (by omega)).decodeLoads_eq, hack', hclear u' hu'] at hl
  exact absurd hl (by decide)

/-- From a drained pipeline on, an instruction enters execute: the one at the current PC. -/
theorem Drained.exists_firstEntry (h : r.Delayed rom) (hf : r.InstrFair) {t : ℕ}
    (hd : Drained r t) :
    ∃ u, t ≤ u ∧ r.FirstEntry t (u + 1) ∧ (r.state (u + 1)).d.pc = (r.state t).pcF ∧
      ∀ v, t ≤ v → v ≤ u → Drained r v := by
  obtain ⟨u, hfirst⟩ := hd.exists_decodeLoads h hf
  -- the pipeline stays drained until the word arrives
  have hdrained := always_between hd fun v hv hlt ih =>
    Emptied.succ h ih.toEmptied (Bool.not_eq_true _ ▸ hfirst.not_before v hv hlt)
  have hin : r.FirstEntry t (u + 1) := by
    refine ⟨hfirst.le.trans u.le_succ, ?_, fun v hv hlt hin => ?_⟩
    · exact h.entersE_succ ((hdrained u hfirst.le le_rfl).isInstrExceptionM h) hfirst.holds
    · have := (hdrained v hv (by omega)).d
      simp [State.entersE, this] at hin
  refine ⟨u, hfirst.le, hin, ?_, hdrained⟩
  rw [r.pc_of_first_entry hin (fun v hv hlt => r.pcSrcE_of_empty v (hdrained v hv (by omega)).e)
    fun v hv hlt => (hdrained v hv (by omega)).trap]
  simp [State.nextPc, hd.d]

/-- After an instruction that leaves the memory stage in order, another enters execute, and until
then execute and the memory stage are empty. -/
theorem Alone.exists_firstEntry (h : r.Delayed rom) (hf : r.InstrFair) {t : ℕ} (ha : Alone r t)
    (hs : (r.state t).stallM (r.inputs t) = false)
    (hx : (r.state t).isInstrExceptionM = false) :
    ∃ t', t < t' ∧ r.FirstEntry t t' ∧ ∀ v, t < v → v ≤ t' → (r.state v).e.validPc = false ∧
      (r.state v).m.validPc = false ∧ (r.state v).trapCaughtW = false := by
  have hno : (r.state t).entersE (r.inputs t) = false := by simp [State.entersE, ha.d]
  have hnext : ∀ v, Alone r v → (r.state v).stallM (r.inputs v) = false →
      (r.state v).isInstrExceptionM = false → (r.state (v + 1)).e.validPc = false ∧
        (r.state (v + 1)).m.validPc = false ∧ (r.state (v + 1)).trapCaughtW = false :=
    fun v ha hs hx => ⟨ha.e_succ, ha.m_succ hs, by rw [r.succ_trapCaughtW, hx]⟩
  cases hl : (r.state t).decodeLoads (r.inputs t) with
  | true =>
    -- the next word arrives just as the instruction leaves
    refine ⟨t + 1, t.lt_succ_self, ⟨t.le_succ, h.entersE_succ hx hl, fun v h₁ h₂ => ?_⟩,
      fun v h₁ h₂ => ?_⟩
    · obtain rfl : v = t := by omega
      simp [hno]
    · obtain rfl : v = t + 1 := by omega
      exact hnext t ha hs hx
  | false =>
    obtain ⟨u, hu, hin, -, hdrained⟩ := (ha.drained_succ hs hx hl).exists_firstEntry h hf
    refine ⟨u + 1, by omega, ⟨by omega, hin.holds, fun v h₁ h₂ => ?_⟩, fun v h₁ h₂ => ?_⟩
    · rcases Nat.lt_or_eq_of_le h₁ with hlt | rfl
      · exact hin.not_before v hlt h₂
      · simp [hno]
    · rcases Nat.lt_or_eq_of_le h₂ with hlt | rfl
      · have hd := hdrained v h₁ (by omega)
        exact ⟨hd.e, hd.m, hd.trap⟩
      · have hd := hdrained u hu le_rfl
        exact hnext u hd.toAlone hd.stallM (hd.isInstrExceptionM h)

end Run

/-- The slaves of the test bench that wait one cycle are slow enough. -/
theorem TestBench.run₁_delayed (b : TestBench) (he : ∀ t, b.external t = false)
    (ht : ∀ t, b.timer t = false) : b.run₁.Delayed b.rom :=
  ⟨b.run₁_instrSlave, b.run₁_dataSlave, b.run₁_instrDelayed, b.run₁_dataDelayed,
    fun t => ⟨he t, ht t⟩⟩

/-- A slave of the test bench that is always ready answers. -/
theorem TestBench.run₁_instrFair (b : TestBench) (hb : ∀ t, b.instrReady t = true) :
    b.run₁.InstrFair := by
  intro t hcyc
  have hact : (b.run₁.state t).instrPort.state = .active := by
    rwa [(b.run₁.instrPort_cyc t).1, decide_eq_true_eq] at hcyc
  cases hack : (b.run₁.inputs t).instrWbAck with
  | true => exact ⟨t, le_rfl, hack⟩
  | false =>
    -- the strobe has risen in cycle `t`, so it is seen high twice in the next
    have hp : (b.run₁.state (t + 1)).instrPort = (b.run₁.state t).instrPort := by
      rw [b.run₁.succ_instrPort]
      simp [InstrPort.next, hact, hack]
    obtain ⟨hc, hs⟩ := b.run₁.instrPort_cyc t
    refine ⟨t + 1, t.le_succ, ?_⟩
    change ((((b.instrReady (t + 1) && (b.run₁.state (t + 1)).instrPort.cyc) &&
      (b.run₁.state (t + 1)).instrPort.stb) && (b.run₁.state t).instrPort.cyc) &&
        (b.run₁.state t).instrPort.stb) = true
    simp [hb, hp, hc, hs, hact]

/-- A bench whose data slave is always ready answers every transfer in the end. -/
theorem TestBench.run₁_dataFair (b : TestBench) (hb : ∀ t, b.dataReady t = true) :
    b.run₁.DataFair := by
  intro t hcyc
  have hact : (b.run₁.state t).dPort.state = .active := by
    rwa [(b.run₁.dPort_cyc t).1, decide_eq_true_eq] at hcyc
  cases hack : (b.run₁.inputs t).dWbAck with
  | true => exact ⟨t, le_rfl, hack⟩
  | false =>
    have hp := Run.dPort_of_wait hact hack
    obtain ⟨hc, hs⟩ := b.run₁.dPort_cyc t
    refine ⟨t + 1, t.le_succ, ?_⟩
    change ((((b.dataReady (t + 1) && (b.run₁.state (t + 1)).dPort.cyc) &&
      (b.run₁.state (t + 1)).dPort.stb) && (b.run₁.state t).dPort.cyc) &&
        (b.run₁.state t).dPort.stb) = true
    simp [hb, hp, hc, hs, hact]

end RvPipelineCore

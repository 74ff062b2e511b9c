import RvPipelineCore.Hazards
import RvPipelineCore.Lib.Bits

/-!
# The divide stall

`div_pending` is set while the divide is still in decode and cleared only by the divider, so it
relies on the divide reaching execute and staying there. `Run.divide_completes` is the result under
the conditions of `Run.DivideKept`; the flag is orphaned when a divide in decode is flushed or
stalled, or one in execute flushed.

`Divider.Remaining` follows the divider from the cycle in which the divide enters execute to its
completion 34 cycles later. `Run.DivideStage` is what the divider can be doing, in every run.
-/

namespace RvPipelineCore

namespace Divider

/-- `n` cycles are left until `div_completed`, if `div_start` stays high: the start is still to be
seen by the edge detector, or it is there, or the loop is running. -/
inductive Remaining (d : Divider) : ℕ → Prop
  | issued (first : d.detectStart.firstReg = false) (idle : d.divBusy = false) : Remaining d 34
  | starting (first : d.detectStart.firstReg = true) (second : d.detectStart.secondReg = false)
      (idle : d.divBusy = false) : Remaining d 33
  | running (n : ℕ) (le : n ≤ 32) (first : d.detectStart.firstReg = true)
      (second : d.detectStart.secondReg = true) (busy : d.divBusy = true)
      (mask : d.mask = 0x80000000#32 >>> (32 - n)) : Remaining d n

variable {d : Divider} {n : ℕ}

/-- In the first 32 steps of the division the bit of the mask has not been shifted out. -/
theorem mask_ne_zero (k : ℕ) (hk : k ≤ 31) : 0x80000000#32 >>> k ≠ 0#32 := by
  have h : ∀ k < 32, 0x80000000#32 >>> k ≠ 0#32 := by decide
  exact h k (by omega)

/-- The loop of the division is running with `n` of its 32 steps left: the busy flag is up and the
mask has been shifted accordingly. -/
structure Looping (d : Divider) (n : ℕ) : Prop where
  le : n ≤ 32
  busy : d.divBusy = true
  mask : d.mask = 0x80000000#32 >>> (32 - n)

/-- A loop with no step left raises `div_completed`, unless the divider is reset. -/
theorem Looping.completed (h : d.Looping 0) : d.divCompleted false = true := by
  rw [divCompleted, h.busy, h.mask]
  decide

/-- A loop with steps left does not raise `div_completed`. -/
theorem Looping.not_completed (h : d.Looping (n + 1)) : d.divCompleted false = false := by
  have hle := h.le
  have hmask : (d.mask == 0) = false := by
    rw [h.mask]
    exact beq_eq_false_iff_ne.mpr (mask_ne_zero _ (by omega))
  rw [divCompleted, hmask, Bool.and_false]

/-- The rising edge of `div_start` begins a loop of 32 steps, whatever the operands are. -/
theorem looping_of_start (h : d.start = true) (a b : BitVec 32) (divStart : Bool) (f : BitVec 3) :
    (d.next false a b divStart f).Looping 32 := by
  constructor <;> simp [Divider.next, h]

/-- One step of the loop, unless the divider is started anew. -/
theorem Looping.next (h : d.Looping (n + 1)) (hstart : d.start = false) (a b : BitVec 32)
    (divStart : Bool) (f : BitVec 3) : (d.next false a b divStart f).Looping n := by
  have hle := h.le
  refine ⟨by omega, ?_, ?_⟩ <;>
    simp only [Divider.next, hstart, h.not_completed, h.busy, Bool.false_eq_true, if_false, if_true]
  rw [h.mask, Bits.zero_append_extract (n := 31), ← BitVec.shiftRight_add]
  congr 1
  omega

/-- With 33 cycles left the edge detector gives its pulse, so the division starts. -/
theorem Remaining.start_eq (h : d.Remaining 33) : d.start = true := by
  cases h with
  | starting first second idle => simp [start, EdgeDetector.edgeDetected, first, second]
  | running _ le => omega

/-- With at most 32 cycles left the loop is running with as many steps, and no new start is seen. -/
theorem Remaining.looping (h : d.Remaining n) (hn : n ≤ 32) : d.Looping n ∧ d.start = false := by
  cases h with
  | issued | starting => omega
  | running _ le first second busy mask =>
    exact ⟨⟨le, busy, mask⟩, by simp [start, EdgeDetector.edgeDetected, second]⟩

/-- With no cycle left the divider raises `div_completed`. -/
theorem Remaining.completed (h : d.Remaining 0) : d.divCompleted false = true :=
  (h.looping (by decide)).1.completed

/-- With cycles left the divider does not raise `div_completed`. -/
theorem Remaining.not_completed (h : d.Remaining (n + 1)) : d.divCompleted false = false := by
  cases h with
  | issued _ idle => simp [divCompleted, idle]
  | starting _ _ idle => simp [divCompleted, idle]
  | running _ le _ _ busy mask => exact Looping.not_completed ⟨le, busy, mask⟩

/-- One cycle with `div_start` high and no reset takes one off the cycles left. -/
theorem Remaining.next (h : d.Remaining (n + 1)) (a b : BitVec 32) (f : BitVec 3) :
    (d.next false a b true f).Remaining n := by
  -- each stage of the divider leads to the next one
  have hdone := h.not_completed
  cases h with
  | issued first idle =>
    refine .starting ?_ ?_ ?_ <;>
      simp [Divider.next, start, EdgeDetector.edgeDetected, EdgeDetector.next, first, idle, hdone]
  | starting first second idle =>
    have hstart := (Remaining.starting first second idle).start_eq
    have hloop := looping_of_start hstart a b true f
    refine .running 32 le_rfl ?_ ?_ hloop.busy hloop.mask <;>
      simp [Divider.next, start, EdgeDetector.edgeDetected, EdgeDetector.next, first, second]
  | running _ le first second busy mask =>
    obtain ⟨hrun, hstart⟩ := (Remaining.running _ le first second busy mask).looping le
    have hloop := hrun.next hstart a b true f
    refine .running n hloop.le ?_ ?_ hloop.busy hloop.mask <;>
      simp only [Divider.next, hstart, EdgeDetector.next, first, busy, hdone, Bool.false_eq_true,
        if_false, if_true]

/-- The divider is idle and its edge detector gives no pulse, so nothing starts in the next
cycle. -/
structure Quiet (d : Divider) : Prop where
  idle : d.divBusy = false
  no_edge : d.detectStart.firstReg = true → d.detectStart.secondReg = true

/-- An idle divider whose detector has sampled a low `div_start` is quiet. -/
theorem Quiet.of_low (idle : d.divBusy = false) (first : d.detectStart.firstReg = false) :
    d.Quiet :=
  ⟨idle, fun h => by simp [first] at h⟩

/-- The cycle of completion leaves the divider quiet, with the start level sampled. -/
theorem Remaining.next_completed (h : d.Remaining 0) (a b : BitVec 32) (f : BitVec 3) :
    (d.next false a b true f).Quiet ∧ (d.next false a b true f).detectStart.firstReg = true := by
  have hdone := h.completed
  cases h with
  | running _ _ first second busy mask =>
    refine ⟨⟨?_, fun _ => ?_⟩, ?_⟩ <;>
      simp [Divider.next, start, EdgeDetector.edgeDetected, EdgeDetector.next, first, second, hdone]

/-- A quiet divider does not start a division. -/
theorem Quiet.not_start (h : d.Quiet) : d.start = false := by
  have := h.no_edge
  simp only [start, EdgeDetector.edgeDetected]
  cases h1 : d.detectStart.firstReg <;> simp_all

/-- A quiet divider does nothing at a clock edge but sample `div_start`. -/
theorem Quiet.next_eq (h : d.Quiet) (a b : BitVec 32) (reset divStart : Bool) (f : BitVec 3) :
    (d.next reset a b divStart f).divBusy = false ∧
      (d.next reset a b divStart f).detectStart = d.detectStart.next reset divStart := by
  have hdone : d.divCompleted reset = false := by simp [divCompleted, h.idle]
  unfold Divider.next
  simp only [h.not_start, hdone, h.idle, Bool.false_eq_true, if_false]
  split_ifs <;> exact ⟨rfl, rfl⟩

end Divider

namespace Run

variable {x : DontCare} (r : Run x) {rom : BitVec 32 → BitVec 32}

/-- In cycle `v` a divide in decode enters execute, and one that is pending in execute stays. -/
structure DivideKept (v : ℕ) : Prop where
  decode : (r.state v).divInstrD = true →
    (r.state v).flushE = false ∧ (r.state v).stallD (r.inputs v) = false
  execute : (r.state v).ce.divInstr = true → (r.state v).hazard.divPending = true →
    (r.state v).flushE = false

/-- Whether the divides in decode and execute are kept over a cycle can be decided from the state
and the inputs of the cycle. -/
instance (v : ℕ) : Decidable (r.DivideKept v) :=
  decidable_of_iff (((r.state v).divInstrD = true →
      (r.state v).flushE = false ∧ (r.state v).stallD (r.inputs v) = false) ∧
    ((r.state v).ce.divInstr = true → (r.state v).hazard.divPending = true →
      (r.state v).flushE = false))
    ⟨fun h => ⟨h.1, h.2⟩, fun h => ⟨h.1, h.2⟩⟩

variable {r}

/-! ## What the divider is doing -/

/-- What the divider is doing at the start of a cycle: nothing, a division of the divide in execute,
the cycle after its end, or waiting for a divide that is gone. -/
inductive DivideStage (r : Run x) (t : ℕ) : Prop
  | idle (pending : (r.state t).hazard.divPending = false)
      (execute : (r.state t).ce.divInstr = false) (quiet : (r.state t).div.Quiet)
  | underway (n : ℕ) (pending : (r.state t).hazard.divPending = true)
      (execute : (r.state t).ce.divInstr = true) (left : (r.state t).div.Remaining n)
  | done (pending : (r.state t).hazard.divPending = false)
      (execute : (r.state t).ce.divInstr = true) (quiet : (r.state t).div.Quiet)
      (first : (r.state t).div.detectStart.firstReg = true)
      (alone : (r.state t).m.validPc = false)
  | orphaned (pending : (r.state t).hazard.divPending = true)
      (execute : (r.state t).ce.divInstr = false) (quiet : (r.state t).div.Quiet)

/-- A flush of execute resets the divider, whatever it was doing. -/
theorem divider_reset {t : ℕ} (h : (r.state t).flushE = true) :
    (r.state (t + 1)).div.divBusy = false ∧
      (r.state (t + 1)).div.detectStart.firstReg = false := by
  rw [r.succ_div, h]
  simp [Divider.next, EdgeDetector.next, EdgeDetector.cleared]

/-- Without a divide in execute a quiet divider stays quiet. -/
theorem divider_quiet_succ {t : ℕ} (hq : (r.state t).div.Quiet)
    (hce : (r.state t).ce.divInstr = false) :
    (r.state (t + 1)).div.Quiet ∧ (r.state (t + 1)).div.detectStart.firstReg = false := by
  obtain ⟨hbusy, hedge⟩ := hq.next_eq (r.state t).srcAE (r.state t).srcBE (r.state t).flushE
    (r.state t).ce.divInstr (r.state t).e.funct3
  rw [← r.succ_div] at hbusy hedge
  rw [hce] at hedge
  have hfirst : (r.state (t + 1)).div.detectStart.firstReg = false := by
    rw [hedge, EdgeDetector.next]
    split_ifs <;> rfl
  exact ⟨.of_low hbusy hfirst, hfirst⟩

/-- From an idle divider the next cycle is idle again or the first one of a new division. -/
theorem DivideStage.succ_idle {t : ℕ}
    (hp : (r.state t).hazard.divPending = false) (hce : (r.state t).ce.divInstr = false)
    (hq : (r.state t).div.Quiet) : r.DivideStage (t + 1) := by
  obtain ⟨hq', hfirst⟩ := divider_quiet_succ hq hce
  have hpend := r.succ_divPending t
  rw [State.divCompletedE, Divider.divCompleted, hq.idle, hp] at hpend
  -- a divide in decode sets the flag, and enters execute only if that takes it in this cycle
  cases hdiv : (r.state t).divInstrD with
  | true =>
    rw [hdiv] at hpend
    rcases r.e_cases t with ⟨-, -, hc⟩ | ⟨-, -, -, hc, -⟩ | ⟨-, -, -, hc, -⟩
    · exact .orphaned hpend (by simp [hc]) hq'
    · exact .underway 34 hpend (by rw [hc]; exact hdiv) (.issued hfirst hq'.idle)
    · exact .orphaned hpend (by rw [hc, hce]) hq'
  | false =>
    rw [hdiv] at hpend
    refine .idle hpend ?_ hq'
    rcases r.e_cases t with ⟨-, -, hc⟩ | ⟨-, -, -, hc, -⟩ | ⟨-, -, -, hc, -⟩
    · simp [hc]
    · rw [hc]
      exact hdiv
    · rw [hc, hce]

/-- A division under way goes on, ends, or is orphaned by a flush of its instruction. -/
theorem DivideStage.succ_underway (hi : r.InstrSlave rom) {n t : ℕ}
    (hp : (r.state t).hazard.divPending = true) (hce : (r.state t).ce.divInstr = true)
    (hn : (r.state t).div.Remaining n) : r.DivideStage (t + 1) := by
  have hse : (r.state t).stallE (r.inputs t) = true := by simp [State.stallE, hp]
  have hpend := r.succ_divPending t
  rw [divInstrD_of_empty (d_empty_of_divInstr hi hce), State.divCompletedE, hp] at hpend
  have hnext := r.succ_div t
  -- execute is flushed, which resets the divider, or holds the divide
  rcases r.e_cases t with ⟨hf, -, hc⟩ | ⟨-, hs, -⟩ | ⟨hf, -, -, hc, -⟩
  · obtain ⟨hbusy, hfirst⟩ := divider_reset hf
    refine .orphaned ?_ (by simp [hc]) (.of_low hbusy hfirst)
    simpa [hf, Divider.divCompleted] using hpend
  · simp [hse] at hs
  · rw [hf] at hpend
    rw [hf, hce] at hnext
    -- in the last cycle of the run the divide is completed, and before it counts down by one
    cases n with
    | zero =>
      obtain ⟨hq, hfirst⟩ := hn.next_completed (r.state t).srcAE (r.state t).srcBE
        (r.state t).e.funct3
      rw [← hnext] at hq hfirst
      refine .done ?_ (by rw [hc, hce]) hq hfirst ?_
      · simpa [hn.completed] using hpend
      · simp [r.succ_m_validPc, State.entersM, State.flushM, hp]
    | succ n =>
      refine .underway n ?_ (by rw [hc, hce]) ?_
      · simpa [hn.not_completed] using hpend
      · rw [hnext]
        exact hn.next _ _ _

/-- From the cycle after a division, in which the divide leaves execute, the next stage of the
divider follows. -/
theorem DivideStage.succ_done (hi : r.InstrSlave rom) {t : ℕ}
    (hp : (r.state t).hazard.divPending = false) (hce : (r.state t).ce.divInstr = true)
    (hq : (r.state t).div.Quiet) (hfirst : (r.state t).div.detectStart.firstReg = true)
    (hm : (r.state t).m.validPc = false) : r.DivideStage (t + 1) := by
  have hdiv := divInstrD_of_empty (d_empty_of_divInstr hi hce)
  have hse : (r.state t).stallE (r.inputs t) = false := by
    simp [State.stallE, State.stallM, cm_loadStore_of_empty hm, hp]
  refine .idle ?_ ?_ ?_
  · simp [succ_divPending, hdiv, State.divCompletedE, Divider.divCompleted, hq.idle, hp]
  · rcases r.e_cases t with ⟨-, -, hc⟩ | ⟨-, -, -, hc, -⟩ | ⟨-, hs, -⟩
    · simp [hc]
    · rw [hc]
      exact hdiv
    · simp [hse] at hs
  · -- the edge detector has sampled the start level before
    obtain ⟨hbusy, hedge⟩ := hq.next_eq (r.state t).srcAE (r.state t).srcBE (r.state t).flushE
      (r.state t).ce.divInstr (r.state t).e.funct3
    rw [← r.succ_div] at hbusy hedge
    refine ⟨hbusy, fun h => ?_⟩
    rw [hedge, EdgeDetector.next] at h ⊢
    split_ifs at h ⊢
    · exact h
    · exact hfirst

/-- Once orphaned, the divider waits until another divide sets the flag for itself. -/
theorem DivideStage.succ_orphaned {t : ℕ} (hp : (r.state t).hazard.divPending = true)
    (hce : (r.state t).ce.divInstr = false) (hq : (r.state t).div.Quiet) :
    r.DivideStage (t + 1) := by
  refine .orphaned ?_ ?_ (divider_quiet_succ hq hce).1
  · simp [succ_divPending, State.divCompletedE, Divider.divCompleted, hq.idle, hp]
  · rcases r.e_cases t with ⟨-, -, hc⟩ | ⟨-, hs, -⟩ | ⟨-, -, -, hc, -⟩
    · simp [hc]
    · simp [State.stallE, hp] at hs
    · rw [hc, hce]

/-- In every run the divider is in one of the four stages. -/
theorem divideStage (hi : r.InstrSlave rom) (t : ℕ) : r.DivideStage t := by
  induction t with
  | zero =>
    obtain ⟨hbusy, hedge⟩ := r.zero_div
    exact .idle (by rw [r.zero_hazard]; rfl) (by simp)
      (.of_low hbusy (by simp [hedge, EdgeDetector.cleared]))
  | succ t ih =>
    cases ih with
    | idle hp hce hq => exact .succ_idle hp hce hq
    | underway n hp hce hn => exact .succ_underway hi hp hce hn
    | done hp hce hq hfirst hm => exact .succ_done hi hp hce hq hfirst hm
    | orphaned hp hce hq => exact .succ_orphaned hp hce hq

/-! ## The divide stall -/

variable (r)

/-- What holds of decode, execute and the divider at the start of a cycle. -/
structure DivideInv (t : ℕ) : Prop where
  /-- A pending divide is in execute, with nothing behind it and the divider on its way. -/
  pending : (r.state t).hazard.divPending = true → (r.state t).ce.divInstr = true ∧
    (r.state t).d.isDecodeFlush = false ∧ ∃ n, (r.state t).div.Remaining n
  /-- Without one the divider is quiet, and a divide in execute is done and about to leave. -/
  quiet : (r.state t).hazard.divPending = false → (r.state t).div.Quiet ∧
    ((r.state t).ce.divInstr = true → (r.state t).d.isDecodeFlush = false ∧
      (r.state t).m.validPc = false ∧ (r.state t).div.detectStart.firstReg = true)

variable {r}

/-- As long as every divide is kept on its way, a pending divide is in execute. -/
theorem divInstr_of_kept (t : ℕ) (hK : ∀ v < t, r.DivideKept v)
    (hp : (r.state t).hazard.divPending = true) : (r.state t).ce.divInstr = true := by
  induction t with
  | zero => simp [r.zero_hazard] at hp
  | succ t ih =>
    have hkept := hK t t.lt_succ_self
    rw [r.succ_divPending] at hp
    rw [r.succ_ce]
    split_ifs at hp with hdiv
    · -- it has just entered execute
      obtain ⟨hfe, hsd⟩ := hkept.decode hdiv
      simp only [State.stallD, Bool.or_eq_false_iff] at hsd
      rw [hfe, hsd.1.2]
      exact hdiv
    · -- or it has stayed there
      have hce := ih (fun v hv => hK v (by omega)) hp
      have hse : (r.state t).stallE (r.inputs t) = true := by simp [State.stallE, hp]
      rw [hkept.execute hce hp, hse]
      exact hce

/-- As long as every divide is kept on its way, the invariant of the divider holds. -/
theorem divideInv (hi : r.InstrSlave rom) (t : ℕ) (hK : ∀ v < t, r.DivideKept v) :
    r.DivideInv t := by
  cases divideStage hi t with
  | idle hp hce hq => exact ⟨fun h => by simp [hp] at h, fun _ => ⟨hq, fun h => by simp [hce] at h⟩⟩
  | underway n hp hce hn =>
    exact ⟨fun _ => ⟨hce, d_empty_of_divInstr hi hce, n, hn⟩, fun h => by simp [hp] at h⟩
  | done hp hce hq hfirst hm =>
    exact ⟨fun h => by simp [hp] at h,
      fun _ => ⟨hq, fun _ => ⟨d_empty_of_divInstr hi hce, hm, hfirst⟩⟩⟩
  | orphaned hp hce _ => simp [divInstr_of_kept t hK hp] at hce

/-- A divide that is pending with `n` cycles left completes after them. -/
theorem completes_of_remaining (hi : r.InstrSlave rom) {n t : ℕ} (hK : ∀ v ≤ t + n, r.DivideKept v)
    (hp : (r.state t).hazard.divPending = true) (hn : (r.state t).div.Remaining n) :
    (r.state (t + n)).divCompletedE = true ∧ ∀ m ≤ n,
      (r.state (t + m)).hazard.divPending = true ∧ (r.state (t + m)).ce.divInstr = true := by
  -- the induction is on the cycles left, and moves the start with them
  induction n generalizing t with
  | zero =>
    have hinv := divideInv hi t fun v hv => hK v (by omega)
    have hce := (hinv.pending hp).1
    refine ⟨?_, fun m hm => ?_⟩
    · rw [Nat.add_zero, State.divCompletedE, (hK t (by omega)).execute hce hp]
      exact hn.completed
    · obtain rfl : m = 0 := by omega
      exact ⟨hp, hce⟩
  | succ n ih =>
    have hinv := divideInv hi t fun v hv => hK v (by omega)
    obtain ⟨hce, hd, -⟩ := hinv.pending hp
    have hfe := (hK t (by omega)).execute hce hp
    have hpend : (r.state (t + 1)).hazard.divPending = true := by
      rw [succ_divPending, State.divCompletedE, hfe, hn.not_completed, hp]
      simp
    have hnext := hn.next (r.state t).srcAE (r.state t).srcBE (r.state t).e.funct3
    rw [← hce, ← hfe, ← r.succ_div] at hnext
    obtain ⟨hdone, hall⟩ := ih (t := t + 1) (fun v hv => hK v (by omega)) hpend hnext
    refine ⟨by rwa [show t + (n + 1) = t + 1 + n by omega], fun m hm => ?_⟩
    cases m with
    | zero => exact ⟨hp, hce⟩
    | succ m =>
      rw [show t + (m + 1) = t + 1 + m by omega]
      exact hall m (by omega)

variable (r)

/-- As long as every divide in decode enters execute and no pending one is flushed from there,
`div_pending` means that execute holds a divide, and that its divider run raises `div_completed_e`
within 34 cycles while the divide stays. -/
theorem divide_completes (hi : r.InstrSlave rom) (t : ℕ) (hK : ∀ v ≤ t + 34, r.DivideKept v)
    (hp : (r.state t).hazard.divPending = true) :
    (r.state t).ce.divInstr = true ∧ ∃ n ≤ 34, (r.state (t + n)).divCompletedE = true ∧
      ∀ m ≤ n, (r.state (t + m)).hazard.divPending = true ∧
        (r.state (t + m)).ce.divInstr = true := by
  obtain ⟨hce, -, n, hn⟩ := (divideInv hi t fun v hv => hK v (by omega)).pending hp
  have hle : n ≤ 34 := by
    cases hn with
    | issued => exact le_rfl
    | starting => omega
    | running _ le => omega
  exact ⟨hce, n, hle, completes_of_remaining hi (fun v hv => hK v (by omega)) hp hn⟩

/-- In the program whose third word is `div x3, x1, x1`, at address 8, the divide is in execute in
cycle 20 with its flag up. -/
theorem divide_completes_div :
    ((quietBench [0x0210c1b3]).run₁.state 20).ce.divInstr = true :=
  (divide_completes (quietBench [0x0210c1b3]).run₁ (TestBench.run₁_instrSlave _) 20
    (by decide +kernel) (by decide +kernel)).1

/-- A divide behind an `ecall` is in decode when the trap flushes execute: `div_pending` is set, and
execute is empty. -/
theorem divide_orphaned :
    ∃ (r : Run TestBench.zeros) (rom : BitVec 32 → BitVec 32) (t : ℕ),
      r.Exact ∧ r.InstrSlave rom ∧ r.DataSlave ∧ (r.state t).hazard.divPending = true ∧
        (r.state t).e.validPc = false ∧ (r.state t).ce.divInstr = false ∧
        (r.state t).div.divBusy = false :=
  ⟨(quietBench [0x00000073, 0x0210c1b3]).run₁, _, 20, TestBench.run₁_exact _,
    TestBench.run₁_instrSlave _, TestBench.run₁_dataSlave _, by decide +kernel⟩

end Run

end RvPipelineCore

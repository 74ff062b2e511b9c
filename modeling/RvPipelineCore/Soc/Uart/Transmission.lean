import RvPipelineCore.Lib.Temporal
import RvPipelineCore.Soc.Uart.Transmitter

/-!
# What the transmitter sends

In a run with a fixed format, in which no byte is pushed into a full FIFO, the line carries every
byte that is pushed, once and in order.

- `UartTransmitter.Run.sent`: the frames, by the step in which their start bits begin;
- `UartTransmitter.Run.conserved`: the bytes that are pushed are sent or wait;
- `UartTransmitter.Run.delivers`: how long a byte waits at most;
- `UartTransmitter.Run.drains`: when the line is free again;
- `UartTransmitter.Run.transmits`: the line shows the frames, and every byte gets there.
-/

namespace RvPipelineCore

open Serial

namespace UartTransmitter

/-- A run from a cycle on in which nothing is sent and nothing waits, as behind a reset. -/
structure Run where
  state : ℕ → UartTransmitter
  inp : ℕ → In
  start : (state 0).Quiet
  succ : ∀ t, state (t + 1) = (state t).next (inp t)

namespace Run

variable (run : Run)

/-- The number of steps that the state machine has made before cycle `t`. -/
def ticks (t : ℕ) : ℕ := Nat.count (fun u => (run.inp u).enable = true) t

/-- The bytes that have been pushed into the FIFO before cycle `t`, in order. -/
def pushed : ℕ → List (BitVec 8)
  | 0 => []
  | t + 1 => pushed t ++ if (run.inp t).tfPush then [(run.inp t).wbDatI] else []

/-- The frames that have been begun before cycle `t`, by the steps. -/
def sent : ℕ → List (Frame ℕ)
  | 0 => []
  | t + 1 => sent t ++ if (run.inp t).enable then (run.state t).started (run.ticks t) else []

/-- The bytes that wait in the FIFO. The byte that is being popped has been sent on its way. -/
def waiting (t : ℕ) : List (BitVec 8) :=
  if (run.state t).tfPop then (run.state t).fifo.contents.tail else (run.state t).fifo.contents

/-- Cycle `t` pushes a byte into a full FIFO that is not popped at the same time. -/
structure Overflows (t : ℕ) : Prop where
  push : (run.inp t).tfPush = true
  full : (run.state t).fifo.count = 16
  pop : (run.state t).tfPop = false

/-- The format stays, the FIFO is not reset, and no byte is pushed into it while it is full. -/
structure Steady (lcr : BitVec 8) : Prop where
  lcr : ∀ t, (run.inp t).lcr = lcr
  txReset : ∀ t, (run.inp t).txReset = false
  room : ∀ t, ¬ run.Overflows t

variable {run} {lcr : BitVec 8} {t u : ℕ}

/-- A cycle adds a step if `enable` is high in it. -/
theorem ticks_succ (t : ℕ) :
    run.ticks (t + 1) = run.ticks t + if (run.inp t).enable = true then 1 else 0 :=
  Nat.count_succ ..

/-- The bytes pushed up to a cycle are the first ones of those pushed up to a later cycle. -/
theorem pushed_prefix (run : Run) (h : u ≤ t) : run.pushed u <+: run.pushed t := by
  induction t, h using Nat.le_induction with
  | base => exact List.prefix_rfl
  | succ t _ ih => exact ih.trans (List.prefix_append _ _)

/-- In a cycle with `enable` high the transmitter makes a step, and its FIFO takes an edge. -/
theorem succ_enabled (h : (run.inp t).enable = true) :
    run.state (t + 1) = { (run.state t).step (run.inp t).lcr with
      fifo := (run.state t).fifo.next (run.inp t).tfPush (run.state t).tfPop (run.inp t).wbDatI
        (run.inp t).txReset (run.inp t).lsrMask } := by
  rw [run.succ, next, h]
  rfl

/-- In a cycle with `enable` low the registers keep their values, apart from the FIFO and its
pop. -/
theorem succ_disabled (h : (run.inp t).enable = false) :
    run.state (t + 1) = { run.state t with
      tfPop := false
      fifo := (run.state t).fifo.next (run.inp t).tfPush (run.state t).tfPop (run.inp t).wbDatI
        (run.inp t).txReset (run.inp t).lsrMask } := by
  rw [run.succ, next, h]
  rfl

/-- As long as the transmission is steady the FIFO is not reset. -/
theorem succ_fifo (h : run.Steady lcr) (t : ℕ) :
    (run.state (t + 1)).fifo = (run.state t).fifo.next (run.inp t).tfPush (run.state t).tfPop
      (run.inp t).wbDatI false (run.inp t).lsrMask := by
  rw [run.succ, next, h.txReset]

/-- In every cycle of a steady run the transmitter is at work on the last of the frames sent, or
between frames. -/
theorem phase (h : run.Steady lcr) (t : ℕ) :
    (run.state t).Phase lcr (run.sent t) (run.ticks t) := by
  induction t with
  | zero =>
    exact .idle run.start.tstate run.start.counter run.start.tfPop run.start.stx
      fun f hf => absurd hf List.not_mem_nil
  | succ t ih =>
    rw [sent, ticks_succ]
    cases he : (run.inp t).enable with
    | true =>
      rw [succ_enabled he, h.lcr]
      exact ih.step.withFifo _
    | false =>
      rw [succ_disabled he]
      simp only [Bool.false_eq_true, if_false, List.append_nil, Nat.add_zero]
      exact ih.hold.withFifo _

/-! ## The FIFO -/

/-- In every cycle of a steady run the pointers of the FIFO agree with its count. -/
theorem valid (h : run.Steady lcr) (t : ℕ) : (run.state t).fifo.ring.Valid := by
  induction t with
  | zero => exact run.start.valid
  | succ t ih =>
    rw [succ_fifo h]
    exact (UartTfifo.contents_next ih _ _ _ _).1

/-- What a cycle does to the bytes in the FIFO. -/
theorem contents_succ (h : run.Steady lcr) (t : ℕ) :
    (run.state (t + 1)).fifo.contents = UartTfifo.queueNext (run.state t).fifo.contents
      (run.inp t).tfPush (run.state t).tfPop (run.inp t).wbDatI := by
  rw [succ_fifo h]
  exact (UartTfifo.contents_next (valid h t) _ _ _ _).2

/-- While nothing is popped, bytes are added at the end. -/
theorem contents_of_not_pop (h : run.Steady lcr) (hpop : (run.state t).tfPop = false) :
    (run.state (t + 1)).fifo.contents = (run.state t).fifo.contents ++
      if (run.inp t).tfPush then [(run.inp t).wbDatI] else [] := by
  rw [contents_succ h, hpop]
  cases hpush : (run.inp t).tfPush with
  | false => rw [UartTfifo.queueNext, if_neg Bool.false_ne_true, List.append_nil]
  | true =>
    have hle : (run.state t).fifo.count.toNat ≤ 16 := (valid h t).le
    -- a byte that is pushed into a full FIFO would take the place of the oldest one
    have hne : (run.state t).fifo.count ≠ 16 := fun hfull => h.room t ⟨hpush, hfull, hpop⟩
    have hlt : (run.state t).fifo.contents.length < 16 := by
      rw [UartTfifo.length_contents]
      bv_omega
    rw [UartTfifo.queueNext, if_pos hlt, if_pos rfl]

/-- A FIFO whose count is not zero holds a byte. -/
theorem contents_ne_nil {s : UartTfifo} (h : s.count ≠ 0) : s.contents ≠ [] := by
  intro hnil
  apply h
  have hlen := UartTfifo.length_contents (s := s)
  rw [hnil] at hlen
  exact BitVec.eq_of_toNat_eq hlen.symm

/-- A byte that is taken out of the FIFO, or popped, is there. -/
theorem contents_of_popByte (h : run.Steady lcr)
    (hor : (run.state t).tstate = .popByte ∨ (run.state t).tfPop = true) :
    (run.state t).fifo.contents ≠ [] := by
  induction t with
  | zero =>
    rw [run.start.tstate, run.start.tfPop] at hor
    rcases hor with hor | hor <;> exact absurd hor (by decide)
  | succ t ih =>
    -- the byte has been there in the cycle before, and has not been popped
    have hbefore : (run.state t).fifo.contents ≠ [] ∧ (run.state t).tfPop = false := by
      have hphase := phase h t
      cases he : (run.inp t).enable with
      | true =>
        rw [succ_enabled he, h.lcr] at hor
        rcases hor with hor | hor
        · obtain ⟨-, hcount, hpop⟩ := hphase.step_popByte hor
          exact ⟨contents_ne_nil hcount, hpop⟩
        · have hstate := hphase.step_tfPop.mp hor
          exact ⟨ih (.inl hstate), hphase.tfPop_of_popByte hstate⟩
      | false =>
        rw [succ_disabled he] at hor
        have hstate := hor.resolve_right Bool.false_ne_true
        exact ⟨ih (.inl hstate), hphase.tfPop_of_popByte hstate⟩
    rw [contents_of_not_pop h hbefore.2]
    exact List.append_ne_nil_of_left_ne_nil hbefore.1 _

/-- The next byte to go is at the output of the FIFO. -/
theorem contents_eq_dataOut (hne : (run.state t).fifo.contents ≠ []) :
    (run.state t).fifo.contents =
      (run.state t).fifo.dataOut :: (run.state t).fifo.contents.tail := by
  refine UartTfifo.contents_eq_cons ?_
  rw [← UartTfifo.length_contents]
  exact List.length_pos_iff.mpr hne

/-- What a cycle begins to send, it takes from the bytes that wait, and what it pushes, it adds to
them. -/
theorem waiting_succ (h : run.Steady lcr) (t : ℕ) :
    (if (run.inp t).enable then (run.state t).started (run.ticks t) else []).map Frame.byte ++
        run.waiting (t + 1) =
      run.waiting t ++ if (run.inp t).tfPush then [(run.inp t).wbDatI] else [] := by
  have hphase := phase h t
  cases hpop : (run.state t).tfPop with
  | true =>
    -- the byte that has been taken out leaves the FIFO
    have hstate : (run.state t).tstate ≠ .popByte := by
      intro hstate
      rw [hphase.tfPop_of_popByte hstate] at hpop
      exact absurd hpop Bool.false_ne_true
    have hnone : (run.state t).started (run.ticks t) = [] := if_neg hstate
    have hnext : (run.state (t + 1)).tfPop = false := by
      cases he : (run.inp t).enable with
      | true =>
        rw [succ_enabled he, h.lcr, ← Bool.not_eq_true]
        exact fun hp => hstate (hphase.step_tfPop.mp hp)
      | false => rw [succ_disabled he]
    have hne := contents_of_popByte h (.inr hpop)
    rw [hnone, ite_self, waiting, waiting, hnext, hpop, if_pos rfl, if_neg Bool.false_ne_true,
      contents_succ h, hpop, List.map_nil, List.nil_append]
    cases (run.inp t).tfPush with
    | true => rw [UartTfifo.queueNext, if_neg hne, if_pos rfl]
    | false => rw [UartTfifo.queueNext, if_neg Bool.false_ne_true, List.append_nil]
  | false =>
    have hcontents := contents_of_not_pop h hpop
    have hwait : run.waiting t = (run.state t).fifo.contents := by
      rw [waiting, hpop, if_neg Bool.false_ne_true]
    by_cases hstart : (run.inp t).enable = true ∧ (run.state t).tstate = .popByte
    · -- the byte is on its way, and still in the FIFO
      obtain ⟨he, hstate⟩ := hstart
      have hone : (run.state t).started (run.ticks t) =
          [⟨run.ticks t + 2, (run.state t).fifo.dataOut⟩] := if_pos hstate
      have hnext : (run.state (t + 1)).tfPop = true := by
        rw [succ_enabled he, h.lcr]
        exact hphase.step_tfPop.mpr hstate
      have hne := contents_of_popByte h (.inl hstate)
      rw [if_pos he, hone, waiting, hnext, if_pos rfl, hcontents, hwait,
        List.tail_append_of_ne_nil hne]
      nth_rewrite 2 [contents_eq_dataOut hne]
      rfl
    · have hnone : (if (run.inp t).enable = true then (run.state t).started (run.ticks t) else []) =
          [] := by
        cases he : (run.inp t).enable with
        | true => rw [if_pos rfl, started, if_neg fun hstate => hstart ⟨he, hstate⟩]
        | false => rw [if_neg Bool.false_ne_true]
      have hnext : (run.state (t + 1)).tfPop = false := by
        cases he : (run.inp t).enable with
        | true =>
          rw [succ_enabled he, h.lcr, ← Bool.not_eq_true]
          exact fun hp => hstart ⟨he, hphase.step_tfPop.mp hp⟩
        | false => rw [succ_disabled he]
      rw [hnone, waiting, hnext, if_neg Bool.false_ne_true, hcontents, hwait, List.map_nil,
        List.nil_append]

/-- The bytes that have been pushed have been sent or wait. -/
theorem conserved (h : run.Steady lcr) (t : ℕ) :
    (run.sent t).map Frame.byte ++ run.waiting t = run.pushed t := by
  induction t with
  | zero =>
    rw [sent, waiting, run.start.tfPop, if_neg Bool.false_ne_true, run.start.contents]
    rfl
  | succ t ih => rw [sent, List.map_append, List.append_assoc, waiting_succ h, ← List.append_assoc,
      ih, pushed]

/-! ## The line -/

/-- In a steady run each frame ends before the next one begins. -/
theorem spaced (h : run.Steady lcr) (t : ℕ) : (format lcr).Spaced 1 (run.sent t) := by
  induction t with
  | zero => exact List.Pairwise.nil
  | succ t ih =>
    rw [sent]
    refine List.pairwise_append.mpr ⟨ih, ?_, fun f hf g hg => ?_⟩
    · rw [started]
      split_ifs
      · exact List.pairwise_singleton _ _
      · exact List.Pairwise.nil
      · exact List.Pairwise.nil
    · rw [started] at hg
      split_ifs at hg with he hstate
      · -- a frame is begun in `popByte`, when the stop bits of the last one are almost over
        obtain rfl := List.mem_singleton.mp hg
        rw [Nat.one_mul]
        cases phase h t with
        | idle tstate => exact absurd (tstate.symm.trans hstate) (by decide)
        | popByte _ _ _ _ ended => exact ended f hf
        | bit past f i j split old hi hj time tstate =>
          rw [tstate, bitState] at hstate
          split_ifs at hstate
      · exact absurd hg List.not_mem_nil
      · exact absurd hg List.not_mem_nil

/-- Between two cycles only frames are added that begin after the step of the first one. -/
theorem exists_sent (run : Run) (hu : u ≤ t) :
    ∃ rest, run.sent t = run.sent u ++ rest ∧ ∀ f ∈ rest, run.ticks u < f.start := by
  -- Only the last cycle can start a frame that is not in the list yet, and at most one.
  induction t, hu using Nat.le_induction with
  | base => exact ⟨[], (List.append_nil _).symm, fun f hf => absurd hf List.not_mem_nil⟩
  | succ t hu ih =>
    obtain ⟨rest, hrest, hlater⟩ := ih
    rw [sent, hrest, List.append_assoc]
    refine ⟨_, rfl, fun f hf => ?_⟩
    rcases List.mem_append.mp hf with hf | hf
    · exact hlater f hf
    · rw [started] at hf
      split_ifs at hf
      · obtain rfl := List.mem_singleton.mp hf
        have hmono : run.ticks u ≤ run.ticks t := Nat.count_monotone _ hu
        change run.ticks u < run.ticks t + 2
        omega
      · exact absurd hf List.not_mem_nil
      · exact absurd hf List.not_mem_nil

/-- In every cycle the line has the level of the frames. -/
theorem drives_sent (h : run.Steady lcr) (hu : u ≤ t) :
    (format lcr).Drives 1 (run.sent t) (run.ticks u) (run.state u).stxOTmp := by
  obtain ⟨rest, hrest, hlater⟩ := run.exists_sent hu
  rw [hrest]
  exact (phase h u).drives.append hlater

/-! ## The end of the line -/

variable (run lcr) in
/-- The steps until the bits of the last frame are out. -/
def busy (t : ℕ) : ℕ :=
  match (run.sent t).getLast? with
  | none => 0
  | some f => f.start + (format lcr).ticks - 3 - run.ticks t

variable (run lcr) in
/-- The steps until `n` bytes in all have been sent and the bits of the last frame are out. -/
def left (n t : ℕ) : ℕ :=
  (format lcr).ticks * (n - (run.sent t).length) + run.busy lcr t -
    if (run.state t).tstate = .popByte then 1 else 0

/-- A transmitter whose frames have all ended has no steps to make for them. -/
theorem busy_of_ended {t : ℕ} (hended : ∀ f ∈ run.sent t,
    f.start + (format lcr).ticks ≤ run.ticks t + 3) : run.busy lcr t = 0 := by
  rw [busy]
  split
  · rfl
  · next f hf =>
    have hle := hended f (List.mem_of_getLast? hf)
    omega

/-- In the states that send, the last frame takes between one step more and all of a frame but two
steps; in the others it is over. -/
theorem left_cases (h : run.Steady lcr) (t : ℕ) :
    ((run.state t).tstate = .idle ∧ run.busy lcr t = 0) ∨
      ((run.state t).tstate = .popByte ∧ run.busy lcr t = 0) ∨
      ((run.state t).tstate ≠ .popByte ∧ (run.state t).tstate ≠ .idle ∧ 0 < run.busy lcr t ∧
        run.busy lcr t + 2 ≤ (format lcr).ticks) := by
  have hcases := stop_cases lcr
  have hticks : (format lcr).ticks = 16 * (format lcr).length + (format lcr).stop := rfl
  cases phase h t with
  | idle tstate counter pop stx ended => exact .inl ⟨tstate, busy_of_ended ended⟩
  | popByte tstate counter pop stx ended =>
    exact .inr (.inl ⟨tstate, busy_of_ended fun f hf => (ended f hf).trans (by omega)⟩)
  | bit past f i j split old hi hj time tstate =>
    have hlast : (run.sent t).getLast? = some f := by rw [split, List.getLast?_concat]
    have hbusy : run.busy lcr t = f.start + (format lcr).ticks - 3 - run.ticks t := by
      rw [busy, hlast]
    -- in the states that send there is a step to go at least
    have hbit : bitState (format lcr) i ≠ .popByte ∧ bitState (format lcr) i ≠ .idle := by
      rw [bitState]
      split_ifs <;> decide
    have hsteps : bitSteps (format lcr) i = if i < (format lcr).length then 16 else
      (format lcr).stop - 2 := rfl
    refine .inr (.inr ⟨by rw [tstate]; exact hbit.1, by rw [tstate]; exact hbit.2, ?_, ?_⟩)
    · rw [hbusy]
      split_ifs at hsteps <;> omega
    · rw [hbusy]
      omega

/-- A step from `idle` takes a byte if the FIFO has one, and stays there otherwise. -/
theorem step_idle {s : UartTransmitter} (lcr : BitVec 8) (hstate : s.tstate = .idle) :
    (s.step lcr).tstate = if s.fifo.count = 0 then .idle else .popByte := by
  simp only [step, hstate]
  split_ifs <;> rfl

variable (lcr) in
/-- A step that begins no frame makes the steps of the last frame one less. -/
theorem busy_succ (hsent : run.sent (t + 1) = run.sent t)
    (hticks : run.ticks (t + 1) = run.ticks t + 1) :
    run.busy lcr (t + 1) = run.busy lcr t - 1 := by
  rw [busy, busy, hsent, hticks]
  split <;> omega

variable (lcr) in
/-- A step that begins no frame brings the last one nearer to its end. -/
theorem succ_of_not_popByte (he : (run.inp t).enable = true)
    (hstate : (run.state t).tstate ≠ .popByte) :
    run.sent (t + 1) = run.sent t ∧ run.busy lcr (t + 1) = run.busy lcr t - 1 := by
  have hnone : (run.state t).started (run.ticks t) = [] := if_neg hstate
  have hsent : run.sent (t + 1) = run.sent t := by
    rw [sent, hnone, ite_self, List.append_nil]
  have hticks := run.ticks_succ t
  rw [if_pos he] at hticks
  exact ⟨hsent, busy_succ lcr hsent hticks⟩

variable (lcr) in
/-- A step in `popByte` begins a frame, for which all steps but two are still to be made. -/
theorem succ_of_popByte (he : (run.inp t).enable = true)
    (hstate : (run.state t).tstate = .popByte) :
    (run.sent (t + 1)).length = (run.sent t).length + 1 ∧
      run.busy lcr (t + 1) = (format lcr).ticks - 2 := by
  have hone : (run.state t).started (run.ticks t) =
      [⟨run.ticks t + 2, (run.state t).fifo.dataOut⟩] := if_pos hstate
  have hticks := run.ticks_succ t
  rw [if_pos he] at hticks
  refine ⟨?_, ?_⟩
  · rw [sent, if_pos he, hone, List.length_append, List.length_singleton]
  · rw [busy, sent, if_pos he, hone, List.getLast?_concat]
    change run.ticks t + 2 + (format lcr).ticks - 3 - run.ticks (t + 1) = _
    omega

/-- A cycle without a step leaves what is left as it is. -/
theorem left_of_disabled (n : ℕ) (he : (run.inp t).enable = false) :
    run.left lcr n (t + 1) = run.left lcr n t := by
  have hticks := run.ticks_succ t
  rw [he, if_neg Bool.false_ne_true] at hticks
  have hsent : run.sent (t + 1) = run.sent t := by
    rw [sent, he, if_neg Bool.false_ne_true, List.append_nil]
  have hstate : (run.state (t + 1)).tstate = (run.state t).tstate := by rw [succ_disabled he]
  rw [left, left, busy, busy, hticks, hsent, hstate, Nat.add_zero]

/-- The bytes that have been sent and those that wait are as many as have been pushed. -/
theorem length_pushed (h : run.Steady lcr) (t : ℕ) :
    (run.pushed t).length = (run.sent t).length + (run.waiting t).length := by
  rw [← conserved h t, List.length_append, List.length_map]

/-- In `popByte` a byte has been pushed that has not been sent yet. -/
theorem lt_of_popByte (h : run.Steady lcr) (hstate : (run.state t).tstate = .popByte) :
    (run.sent t).length < (run.pushed t).length := by
  have hlen := length_pushed h t
  have hpos : 0 < (run.waiting t).length := by
    rw [waiting, (phase h t).tfPop_of_popByte hstate, if_neg Bool.false_ne_true]
    exact List.length_pos_iff.mpr (contents_of_popByte h (.inl hstate))
  omega

/-- Every step takes one off what is left until `n` of the pushed bytes have been sent, and after
that as long as no further frame is begun. -/
theorem left_succ (h : run.Steady lcr) {n : ℕ} (hn : n ≤ (run.pushed t).length)
    (hpop : (run.state t).tstate = .popByte → (run.sent t).length < n) :
    run.left lcr n (t + 1) = run.left lcr n t - if (run.inp t).enable then 1 else 0 := by
  cases he : (run.inp t).enable with
  | false => exact left_of_disabled n he
  | true =>
    have hstate : (run.state (t + 1)).tstate = ((run.state t).step lcr).tstate := by
      rw [succ_enabled he, h.lcr]
    rw [left, left, hstate, if_pos rfl]
    rcases left_cases h t with ⟨hidle, hbusy⟩ | ⟨hpopByte, hbusy⟩ | ⟨hnpop, hnidle, hpos, -⟩
    · have hnpop : (run.state t).tstate ≠ .popByte := by
        rw [hidle]
        decide
      obtain ⟨hsent, hbusy'⟩ := succ_of_not_popByte lcr he hnpop
      have hnext := step_idle lcr hidle
      rw [hsent, hbusy', hbusy, if_neg hnpop]
      by_cases hcount : (run.state t).fifo.count = 0
      · -- nothing waits, so there is nothing to be made less
        have hnil : (run.waiting t).length = 0 := by
          have hcontents : (run.state t).fifo.contents = [] := by
            rw [← List.length_eq_zero_iff, UartTfifo.length_contents, hcount]
            rfl
          rw [waiting, hcontents, List.length_eq_zero_iff]
          exact ite_self _
        have hzero : n - (run.sent t).length = 0 := by
          have hlen := length_pushed h t
          omega
        rw [if_pos hcount] at hnext
        simp [hnext, hzero]
      · rw [if_neg hcount] at hnext
        simp [hnext]
    · -- a frame takes the place of a byte that waited
      obtain ⟨hsent, hbusy'⟩ := succ_of_popByte lcr he hpopByte
      have hnext := (popByte_holds lcr hpopByte).2.1
      have hcases := stop_cases lcr
      have hF : (format lcr).ticks = 16 * (format lcr).length + (format lcr).stop := rfl
      have hlt := hpop hpopByte
      have hsub : n - (run.sent t).length = n - ((run.sent t).length + 1) + 1 := by omega
      rw [hsent, hbusy', hbusy, hpopByte, hnext, if_pos rfl, if_neg (by decide), hsub, Nat.mul_add]
      omega
    · obtain ⟨hsent, hbusy'⟩ := succ_of_not_popByte lcr he hnpop
      have hnext : ((run.state t).step lcr).tstate ≠ .popByte :=
        fun hp => hnidle ((phase h t).step_popByte hp).1
      rw [hsent, hbusy', if_neg hnpop, if_neg hnext]
      omega

/-- What is left to be sent takes at most the steps of a frame for each waiting byte and one frame
more. -/
theorem left_le (h : run.Steady lcr) (t : ℕ) :
    run.left lcr (run.pushed t).length t ≤ (format lcr).ticks * ((run.waiting t).length + 1) := by
  have hbusy : run.busy lcr t ≤ (format lcr).ticks := by
    rcases left_cases h t with ⟨-, hzero⟩ | ⟨-, hzero⟩ | ⟨-, -, -, hle⟩ <;> omega
  rw [left, length_pushed h, Nat.add_sub_cancel_left, Nat.mul_add, Nat.mul_one]
  omega

/-- From cycle `t` to cycle `v` what is left to be sent becomes less by the steps made in between,
as long as no later byte is begun. -/
theorem left_of_steps (h : run.Steady lcr) {n v : ℕ} (hn : n ≤ (run.pushed t).length)
    (hpop : ∀ u, t ≤ u → u < v → (run.state u).tstate = .popByte → (run.sent u).length < n)
    (htv : t ≤ v) : run.left lcr n v = run.left lcr n t - (run.ticks v - run.ticks t) := by
  induction v, htv using Nat.le_induction with
  | base => rw [Nat.sub_self, Nat.sub_zero]
  | succ v hv ih =>
    have hl := ih fun u htu huv => hpop u htu (by omega)
    have hmono : run.ticks t ≤ run.ticks v := Nat.count_monotone _ hv
    have hpushed := (run.pushed_prefix hv).length_le
    rw [left_succ h (hn.trans hpushed) (hpop v hv v.lt_succ_self), hl, ticks_succ]
    split_ifs <;> omega

/-- Whatever is pushed behind them, the bytes that have been pushed before cycle `t` are on their
way within as many steps as the frames of those that wait take, and one frame more. -/
theorem delivers (h : run.Steady lcr) {v : ℕ} (htv : t ≤ v)
    (hv : run.ticks t + (format lcr).ticks * ((run.waiting t).length + 1) ≤ run.ticks v) :
    run.pushed t <+: (run.sent v).map Frame.byte := by
  have hpre : (run.sent v).map Frame.byte <+: run.pushed v := ⟨_, conserved h v⟩
  refine List.prefix_of_prefix_length_le (run.pushed_prefix htv) hpre ?_
  rw [List.length_map]
  by_contra hlt
  -- if a byte were left, then all steps until `v` would have taken something off
  have hl := left_of_steps h le_rfl (fun u _ huv _ => ?_) htv
  · have hbound := left_le h t
    have hzero : run.left lcr (run.pushed t).length v = 0 := by omega
    have hcases := stop_cases lcr
    have hF : (format lcr).ticks = 16 * (format lcr).length + (format lcr).stop := rfl
    have hmul : (format lcr).ticks * 1 ≤
        (format lcr).ticks * ((run.pushed t).length - (run.sent v).length) :=
      Nat.mul_le_mul_left _ (by omega)
    rw [left] at hzero
    split_ifs at hzero <;> omega
  · obtain ⟨rest, hrest, -⟩ := run.exists_sent huv.le
    have hlen := congrArg List.length hrest
    rw [List.length_append] at hlen
    omega

/-- Between two cycles in which nothing is pushed the pushed bytes are the same. -/
theorem pushed_of_quiet {v : ℕ} (hquiet : ∀ u, t ≤ u → u < v → (run.inp u).tfPush = false)
    (htv : t ≤ v) : run.pushed v = run.pushed t := by
  refine Temporal.eq_of_stable htv fun u hu huv => ?_
  rw [pushed, hquiet u hu huv, if_neg Bool.false_ne_true, List.append_nil]

/-- While nothing more is pushed, everything that waits goes out, and the stop bit of the last frame
is as good as over, within as many steps as the frames take and one frame more. -/
theorem drains (h : run.Steady lcr) {v : ℕ}
    (hquiet : ∀ u, t ≤ u → u < v → (run.inp u).tfPush = false) (htv : t ≤ v)
    (hv : run.ticks t + (format lcr).ticks * ((run.waiting t).length + 1) ≤ run.ticks v) :
    (run.sent v).map Frame.byte = run.pushed t ∧
      ∀ f ∈ run.sent v, f.start + (format lcr).ticks ≤ run.ticks v + 3 := by
  have hpushed (u : ℕ) (htu : t ≤ u) (huv : u ≤ v) : run.pushed u = run.pushed t :=
    pushed_of_quiet (fun w htw hwu => hquiet w htw (by omega)) htu
  have hall := conserved h v
  rw [hpushed v htv le_rfl] at hall
  have hsent : (run.sent v).map Frame.byte = run.pushed t :=
    List.IsPrefix.eq_of_length_le ⟨_, hall⟩ (delivers h htv hv).length_le
  refine ⟨hsent, ?_⟩
  have hl := left_of_steps h le_rfl (fun u htu huv hstate => ?_) htv
  · have hbound := left_le h t
    have hzero : run.left lcr (run.pushed t).length v = 0 := by omega
    have hdone : (run.pushed t).length - (run.sent v).length = 0 := by
      rw [← hsent, List.length_map, Nat.sub_self]
    rw [left, hdone, Nat.mul_zero, Nat.zero_add] at hzero
    -- in the other phases something is left, or something waits
    rcases left_cases h v with ⟨hidle, -⟩ | ⟨hpop, -⟩ | ⟨hnpop, -, hpos, -⟩
    · cases phase h v with
      | idle _ _ _ _ ended => exact ended
      | popByte tstate => exact absurd (hidle.symm.trans tstate) (by decide)
      | bit past f i j split old hi hj time tstate =>
        rw [hidle, bitState] at tstate
        split_ifs at tstate
    · have hlt := lt_of_popByte h hpop
      rw [hpushed v htv le_rfl] at hlt
      omega
    · rw [if_neg hnpop] at hzero
      omega
  · have hlt := lt_of_popByte h hstate
    rwa [hpushed u htu huv.le] at hlt

/-! ## The transmitter -/

/-- With a format whose break bit is clear, the line carries in this format the frames that have
been sent: those of the bytes that have been pushed, in order and with room for their stop bits, but
for the bytes that wait. A byte that has been pushed is on its way within the time of the frames of
those that wait and of one frame more, and if nothing more is pushed, the last stop bit is over
within three more steps. -/
theorem transmits (h : run.Steady lcr) (hbreak : lcr.getLsbD 6 = false) (t : ℕ) :
    (run.sent t).map Frame.byte ++ run.waiting t = run.pushed t ∧
      (format lcr).Spaced 1 (run.sent t) ∧
      (∀ u ≤ t, (format lcr).Drives 1 (run.sent t) (run.ticks u) ((run.state u).stxPadO lcr)) ∧
      ∀ v, t ≤ v →
        run.ticks t + (format lcr).ticks * ((run.waiting t).length + 1) ≤ run.ticks v →
          run.pushed t <+: (run.sent v).map Frame.byte ∧
            ((∀ u, t ≤ u → u < v → (run.inp u).tfPush = false) →
              (run.sent v).map Frame.byte = run.pushed t ∧
                ∀ f ∈ run.sent v, f.start + (format lcr).ticks ≤ run.ticks v + 3) := by
  refine ⟨conserved h t, spaced h t, fun u hu => ?_, fun v htv hv =>
    ⟨delivers h htv hv, fun hquiet => drains h hquiet htv hv⟩⟩
  rw [stxPadO, hbreak, if_neg Bool.false_ne_true]
  exact drives_sent h hu

/-- The states of the transmitter after a reset, for given inputs. -/
def states (s : UartTransmitter) (inp : ℕ → In) : ℕ → UartTransmitter
  | 0 => s.reset
  | t + 1 => (states s inp t).next (inp t)

/-- The run of the transmitter after a reset, with given inputs. -/
def ofInputs (s : UartTransmitter) (inp : ℕ → In) : Run :=
  ⟨states s inp, inp, reset_quiet s, fun _ => rfl⟩

/-- Two letters in seven bits with odd parity, pushed in the first two cycles, with a step in every
cycle. -/
def lettersRun : Run :=
  .ofInputs default fun t =>
    ⟨0x0A, decide (t < 2), if t = 0 then 0x41 else 0x42, true, false, false⟩

/-- The run of the two letters keeps its format and overflows nothing. -/
theorem lettersRun_steady : lettersRun.Steady 0x0A := by
  refine ⟨fun _ => rfl, fun _ => rfl, fun t hover => ?_⟩
  have hlt : t < 2 := of_decide_eq_true hover.push
  have hfull : ∀ u < 2, (lettersRun.state u).fifo.count ≠ 16 := by decide
  exact hfull t hlt hover.full

/-- In the run of the two letters a step is made in every cycle. -/
theorem lettersRun_ticks (t : ℕ) : lettersRun.ticks t = t :=
  Nat.count_iff_forall.mpr fun _ _ => rfl

/-- Three frames of 160 steps behind the second push both letters have been sent. -/
theorem transmits_letters :
    (lettersRun.sent 482).map Frame.byte = [0x41, 0x42] ∧
      ∀ f ∈ lettersRun.sent 482, f.start + 160 ≤ 485 := by
  have hwaiting : (lettersRun.waiting 2).length = 2 := by decide
  obtain ⟨-, -, -, hsent⟩ := transmits lettersRun_steady (by decide) 2
  have hF : (format 0x0A).ticks = 160 := by decide
  obtain ⟨hbytes, hended⟩ := (hsent 482 (by decide) (by
    rw [lettersRun_ticks, lettersRun_ticks, hwaiting, hF])).2
      fun u hu _ => decide_eq_false (by omega)
  rw [hF, lettersRun_ticks] at hended
  exact ⟨hbytes.trans (by decide), hended⟩

end Run

end UartTransmitter

end RvPipelineCore

import RvPipelineCore.Lib.RingBuffer

/-!
# The transmit FIFO of the UART

`uart_tfifo` of `rtl/soc/uart`, with its memory `raminfr`. A byte that is pushed into a full FIFO
does not go away: it takes the place of the oldest one.

- `UartTfifo.contents_next`: what a clock edge does to the queue;
- `UartTfifo.Run.queue_correct`: the queue and the overrun flag over whole runs.
-/

namespace RvPipelineCore

/-- The clock edge of `raminfr`: the entry at the address is written if the write enable is up. -/
def raminfr {w : ℕ} {α : Type*} (ram : BitVec w → α) (we : Bool) (a : BitVec w) (di : α) :
    BitVec w → α :=
  if we then Function.update ram a di else ram

/-- The registers of `uart_tfifo`: the memory of sixteen bytes, the two pointers, the count and the
overrun flag. -/
structure UartTfifo where
  ram : BitVec 4 → BitVec 8
  top : BitVec 4
  bottom : BitVec 4
  count : BitVec 5
  overrun : Bool
  deriving Inhabited

namespace UartTfifo

variable (s : UartTfifo)

/-- `data_out`: the byte at the bottom of the queue. -/
def dataOut : BitVec 8 := s.ram s.bottom

/-- `wb_rst_i`, which clears the pointers, the count and the flag and leaves the memory. -/
def reset : UartTfifo := ⟨s.ram, 0, 0, 0, false⟩

/-- `top`, `bottom` and `count` after a clock edge without a reset of the FIFO. -/
def pointers (push pop : Bool) : BitVec 4 × BitVec 4 × BitVec 5 :=
  match push, pop with
  | true, false =>
    if s.count < 16 then (s.top + 1, s.bottom, s.count + 1) else (s.top, s.bottom, s.count)
  | false, true =>
    if s.count > 0 then (s.top, s.bottom + 1, s.count - 1) else (s.top, s.bottom, s.count)
  | true, true => (s.top + 1, s.bottom + 1, s.count)
  | false, false => (s.top, s.bottom, s.count)

/-- One clock edge of `uart_tfifo`: the byte is written by a push, the pointers move, and a push
into a full FIFO sets the overrun flag. -/
def next (push pop : Bool) (dataIn : BitVec 8) (fifoReset resetStatus : Bool) : UartTfifo :=
  let p := if fifoReset then (0, 0, 0) else s.pointers push pop
  { ram := raminfr s.ram push s.top dataIn
    top := p.1
    bottom := p.2.1
    count := p.2.2
    overrun :=
      if fifoReset || resetStatus then false
      else if push && s.count == 16 then true
      else s.overrun }

/-- The FIFO as a ring buffer of sixteen entries. -/
def ring : RingBuffer 4 (BitVec 8) := ⟨s.ram, s.top, s.bottom, s.count.toNat⟩

/-- The bytes that wait in the FIFO, the oldest first. -/
def contents : List (BitVec 8) := s.ring.contents

/-- What a clock edge should do to a queue of at most 16 bytes. -/
def queueNext (q : List (BitVec 8)) (push pop : Bool) (dataIn : BitVec 8) : List (BitVec 8) :=
  match push, pop with
  | true, false => if q.length < 16 then q ++ [dataIn] else dataIn :: q.tail
  | false, true => q.tail
  | true, true => if q = [] then [] else q.tail ++ [dataIn]
  | false, false => q

variable {s} {push pop resetStatus : Bool} {dataIn : BitVec 8}

/-- There are as many bytes in the FIFO as its count says. -/
theorem length_contents : s.contents.length = s.count.toNat := RingBuffer.length_contents

/-- A reset leaves pointers that agree with the count. -/
theorem reset_valid : s.reset.ring.Valid := ⟨rfl, Nat.zero_le _⟩

/-- A reset leaves an empty queue. -/
theorem reset_contents : s.reset.contents = [] := by rfl

/-- The oldest byte of a FIFO that is not empty is at its output. -/
theorem contents_eq_cons (hpos : 0 < s.count.toNat) :
    s.contents = s.dataOut :: s.contents.tail := by
  rw [contents, RingBuffer.contents_pop hpos]
  rfl

/-- A clock edge is an operation of the ring buffer. -/
theorem ring_next : (s.next push pop dataIn false resetStatus).ring =
    match push, pop with
    | true, false =>
      if s.count.toNat < 16 then s.ring.push dataIn else s.ring.overwrite dataIn
    | false, true => if 0 < s.count.toNat then s.ring.pop else s.ring
    | true, true => s.ring.shift dataIn
    | false, false => s.ring := by
  have hring : (s.next push pop dataIn false resetStatus).ring =
      ⟨raminfr s.ram push s.top dataIn, (s.pointers push pop).1, (s.pointers push pop).2.1,
        (s.pointers push pop).2.2.toNat⟩ := rfl
  rw [hring]
  cases push <;> cases pop
  · rfl
  · by_cases hpos : s.count > 0
    · have hpos' : 0 < s.count.toNat := BitVec.lt_def.mp hpos
      have hsub : (s.count - 1).toNat = s.count.toNat - 1 := by bv_omega
      rw [pointers, if_pos hpos]
      dsimp only
      rw [hsub, if_pos hpos']
      rfl
    · -- an empty FIFO ignores a pop
      have hpos' : ¬ 0 < s.count.toNat := fun h => hpos (BitVec.lt_def.mpr h)
      rw [pointers, if_neg hpos]
      dsimp only
      rw [if_neg hpos']
      rfl
  · by_cases hroom : s.count < 16
    · have hroom' : s.count.toNat < 16 := BitVec.lt_def.mp hroom
      have hadd : (s.count + 1).toNat = s.count.toNat + 1 := by bv_omega
      rw [pointers, if_pos hroom]
      dsimp only
      rw [hadd, if_pos hroom']
      rfl
    · -- a full one writes the byte, but moves no pointer
      have hroom' : ¬ s.count.toNat < 16 := fun h => hroom (BitVec.lt_def.mpr h)
      rw [pointers, if_neg hroom]
      dsimp only
      rw [if_neg hroom']
      rfl
  · rfl

/-- A clock edge does to the FIFO what it should do to the queue. -/
theorem contents_next (h : s.ring.Valid) (push pop resetStatus : Bool) (dataIn : BitVec 8) :
    (s.next push pop dataIn false resetStatus).ring.Valid ∧
      (s.next push pop dataIn false resetStatus).contents =
        queueNext s.contents push pop dataIn := by
  have hlen := length_contents (s := s)
  have hle : s.count.toNat ≤ 16 := h.le
  rw [contents, ring_next]
  cases push <;> cases pop
  · exact ⟨h, rfl⟩
  · dsimp only [queueNext]
    split_ifs with hpos
    · refine ⟨h.pop hpos, ?_⟩
      rw [contents, RingBuffer.contents_pop (b := s.ring) hpos, List.tail_cons]
    · have hnil : s.contents = [] := by
        rw [← List.length_eq_zero_iff]
        omega
      exact ⟨h, by rw [hnil]; exact hnil⟩
  · dsimp only [queueNext]
    rw [hlen]
    split_ifs with hroom
    · exact ⟨h.push hroom, RingBuffer.contents_push h hroom⟩
    · -- the two pointers are at the same place
      have hfull : s.ring.count = 2 ^ 4 := le_antisymm hle (not_lt.mp hroom)
      refine ⟨h.overwrite, ?_⟩
      rw [RingBuffer.contents_overwrite h hfull, contents,
        RingBuffer.contents_pop (b := s.ring) (by rw [hfull]; decide), List.tail_cons]
  · dsimp only [queueNext]
    refine ⟨h.shift, ?_⟩
    split_ifs with hnil
    · refine RingBuffer.contents_shift_empty ?_
      rw [hnil] at hlen
      exact hlen.symm
    · have hpos : 0 < s.ring.count := by
        change 0 < s.count.toNat
        rw [← hlen]
        exact List.length_pos_iff.mpr hnil
      rw [RingBuffer.contents_shift h hpos, contents, RingBuffer.contents_pop hpos, List.tail_cons]

/-- A reset of the FIFO leaves an empty queue and pointers that agree with the count, whatever else
happens at the edge. -/
theorem next_fifoReset (s : UartTfifo) (push pop resetStatus : Bool) (dataIn : BitVec 8) :
    (s.next push pop dataIn true resetStatus).ring.Valid ∧
      (s.next push pop dataIn true resetStatus).contents = [] :=
  ⟨⟨rfl, Nat.zero_le _⟩, rfl⟩

/-- A run of the FIFO after a reset, with any pushes, pops and resets. -/
structure Run where
  state : ℕ → UartTfifo
  push : ℕ → Bool
  pop : ℕ → Bool
  dataIn : ℕ → BitVec 8
  fifoReset : ℕ → Bool
  resetStatus : ℕ → Bool
  start : ∃ s : UartTfifo, state 0 = s.reset
  succ : ∀ t, state (t + 1) =
    (state t).next (push t) (pop t) (dataIn t) (fifoReset t) (resetStatus t)

namespace Run

variable (run : Run) {t : ℕ}

/-- The queue in cycle `t`, computed from the pushes, the pops and the resets before it. -/
def queue : ℕ → List (BitVec 8)
  | 0 => []
  | t + 1 =>
    if run.fifoReset t then [] else queueNext (queue t) (run.push t) (run.pop t) (run.dataIn t)

/-- Cycle `t` pushes into a full FIFO. The flag is not raised if it is cleared at the same edge. -/
structure Overruns (t : ℕ) : Prop where
  push : run.push t = true
  full : (run.queue t).length = 16
  kept : run.fifoReset t = false ∧ run.resetStatus t = false

variable {run}

variable (run) in
/-- In every cycle of a run the FIFO holds the queue that the pushes and pops say, and its pointers
agree with the count. -/
theorem contents_eq (t : ℕ) : (run.state t).ring.Valid ∧ (run.state t).contents = run.queue t := by
  induction t with
  | zero =>
    obtain ⟨s, hs⟩ := run.start
    rw [hs]
    exact ⟨reset_valid, reset_contents⟩
  | succ t ih =>
    obtain ⟨hvalid, hqueue⟩ := ih
    rw [run.succ, queue]
    cases run.fifoReset t with
    | true => exact next_fifoReset _ _ _ _ _
    | false =>
      obtain ⟨hvalid', hnext⟩ :=
        contents_next hvalid (run.push t) (run.pop t) (run.resetStatus t) (run.dataIn t)
      exact ⟨hvalid', by rw [hnext, hqueue]; rfl⟩

/-- The overrun flag is set by a push into a full FIFO, and lasts until the FIFO or the flag is
reset. -/
theorem overrun_succ : (run.state (t + 1)).overrun = true ↔
    run.Overruns t ∨ (run.state t).overrun = true ∧
      run.fifoReset t = false ∧ run.resetStatus t = false := by
  have hlen : (run.queue t).length = (run.state t).count.toNat := by
    rw [← (run.contents_eq t).2, length_contents]
  have hfull : ((run.state t).count == 16) = true ↔ (run.queue t).length = 16 := by
    rw [beq_iff_eq, hlen, ← BitVec.toNat_inj]
    rfl
  have hiff : run.Overruns t ↔ run.push t = true ∧ ((run.state t).count == 16) = true ∧
      run.fifoReset t = false ∧ run.resetStatus t = false := by
    rw [hfull]
    exact ⟨fun h => ⟨h.push, h.full, h.kept⟩, fun h => ⟨h.1, h.2.1, h.2.2⟩⟩
  rw [hiff, run.succ, next]
  cases run.fifoReset t <;> cases run.resetStatus t <;> cases run.push t <;>
    cases (run.state t).count == 16 <;> simp

/-- In every run the FIFO is a queue of at most 16 bytes. A byte that is pushed into a full one
replaces the oldest, and `overrun` says whether that has happened since the flag was last
cleared. -/
theorem queue_correct (t : ℕ) :
    (run.state t).contents = run.queue t ∧ (run.queue t).length ≤ 16 ∧
      (run.state t).count.toNat = (run.queue t).length ∧
      (run.queue t ≠ [] → (run.queue t).head? = some (run.state t).dataOut) ∧
      ((run.state t).overrun = true ↔ ∃ u < t, run.Overruns u ∧
        ∀ v, u < v → v < t → run.fifoReset v = false ∧ run.resetStatus v = false) := by
  obtain ⟨hvalid, hqueue⟩ := run.contents_eq t
  have hlen : (run.state t).count.toNat = (run.queue t).length := by
    rw [← hqueue, length_contents]
  refine ⟨hqueue, ?_, hlen, fun hne => ?_, ?_⟩
  · rw [← hlen]
    exact hvalid.le
  · have hpos : 0 < (run.state t).count.toNat := by
      rw [hlen]
      exact List.length_pos_iff.mpr hne
    rw [← hqueue, contents_eq_cons hpos, List.head?_cons]
  · clear hvalid hqueue hlen
    -- cycle by cycle, the flag is raised or kept
    induction t with
    | zero =>
      obtain ⟨s, hs⟩ := run.start
      rw [hs]
      simp [reset]
    | succ t ih =>
      rw [overrun_succ, ih]
      constructor
      · rintro (hnew | ⟨⟨u, hu, hover, hkept⟩, hclear⟩)
        · exact ⟨t, t.lt_succ_self, hnew, fun v h₁ h₂ => by omega⟩
        · refine ⟨u, by omega, hover, fun v h₁ h₂ => ?_⟩
          rcases Nat.lt_succ_iff_lt_or_eq.mp h₂ with h₃ | rfl
          · exact hkept v h₁ h₃
          · exact hclear
      · rintro ⟨u, hu, hover, hkept⟩
        rcases Nat.lt_succ_iff_lt_or_eq.mp hu with hlt | rfl
        · exact .inr ⟨⟨u, hlt, hover, fun v h₁ h₂ => hkept v h₁ (by omega)⟩,
            hkept t hlt t.lt_succ_self⟩
        · exact .inl hover

end Run

end UartTfifo

end RvPipelineCore

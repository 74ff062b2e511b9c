import RvPipelineCore.Soc.Uart.Receiver

/-!
# The receive FIFO of the UART

`uart_rfifo` as a queue of bytes with their error bits, as long as nothing is pushed into it while
it is full. A byte that is popped takes its error bits with it.

- `UartRfifo.contents_next`: what a clock edge does to the queue.
-/

namespace RvPipelineCore

namespace UartRfifo

variable (s : UartRfifo)

/-- The FIFO of the receiver as a ring buffer, whose entries are the bytes with their error bits. -/
def ring : RingBuffer 4 (BitVec 11) :=
  ⟨fun a => s.ram a ++ s.fifo a, s.top, s.bottom, s.count.toNat⟩

/-- The entries that wait in the FIFO of the receiver, the oldest first. -/
def contents : List (BitVec 11) := s.ring.contents

/-- What a clock edge does to a queue that has room. -/
def queueNext (q : List (BitVec 11)) (push pop : Bool) (dataIn : BitVec 11) : List (BitVec 11) :=
  match push, pop with
  | true, false => q ++ [dataIn]
  | false, true => q.tail
  | true, true => if q = [] then [] else q.tail ++ [dataIn]
  | false, false => q

variable {s} {push pop : Bool} {dataIn : BitVec 11}

/-- There are as many entries in the FIFO as its count says. -/
theorem length_contents : s.contents.length = s.count.toNat := RingBuffer.length_contents

/-- If the queue is popped only while it is not empty, the pop and the push both take effect. -/
theorem queueNext_eq {q : List (BitVec 11)} (hne : pop = true → q ≠ []) :
    queueNext q push pop dataIn =
      (if pop then q.tail else q) ++ if push then [dataIn] else [] := by
  cases push <;> cases pop
  · exact (List.append_nil q).symm
  · exact (List.append_nil q.tail).symm
  · rfl
  · exact if_neg (hne rfl)

/-- The oldest entry of a FIFO that is not empty is at its output. -/
theorem contents_eq_cons (hne : s.contents ≠ []) : s.contents = s.dataOut :: s.contents.tail := by
  have hpos : 0 < s.ring.count := by
    rw [← RingBuffer.length_contents]
    exact List.length_pos_iff.mpr hne
  rw [contents, RingBuffer.contents_pop hpos]
  rfl

/-- A byte and its error bits are written into two memories. -/
theorem update_entry (ram : BitVec 4 → BitVec 8) (fifo : BitVec 4 → BitVec 3) (a : BitVec 4)
    (dataIn : BitVec 11) :
    (fun b => Function.update ram a (dataIn.extractLsb' 3 8) b ++
      Function.update fifo a (dataIn.extractLsb' 0 3) b) =
      Function.update (fun b => ram b ++ fifo b) a dataIn := by
  funext b
  by_cases hb : b = a
  · subst hb
    rw [Function.update_self, Function.update_self, Function.update_self]
    exact BitVec.extractLsb'_append_extractLsb'
  · rw [Function.update_of_ne hb, Function.update_of_ne hb, Function.update_of_ne hb]

/-- Clearing the error bits of a place changes the entry there to the byte without errors. -/
theorem update_flags (ram : BitVec 4 → BitVec 8) (fifo : BitVec 4 → BitVec 3) (a : BitVec 4) :
    (fun b => ram b ++ Function.update fifo a 0 b) =
      Function.update (fun b => ram b ++ fifo b) a (ram a ++ 0#3) := by
  funext b
  by_cases hb : b = a
  · subst hb
    rw [Function.update_self, Function.update_self]
    rfl
  · rw [Function.update_of_ne hb, Function.update_of_ne hb]

/-! ## A clock edge -/

variable {resetStatus : Bool}

/-- The next ring buffer, from the memory and the pointers of the next FIFO. -/
theorem ring_next : (s.next push pop dataIn false resetStatus).ring =
    ⟨fun a => raminfr s.ram push s.top (dataIn.extractLsb' 3 8) a ++
        (s.pointers push pop (dataIn.extractLsb' 0 3)).1 a,
      (s.pointers push pop (dataIn.extractLsb' 0 3)).2.1,
      (s.pointers push pop (dataIn.extractLsb' 0 3)).2.2.1,
      (s.pointers push pop (dataIn.extractLsb' 0 3)).2.2.2.toNat⟩ := rfl

/-- A push into a FIFO with room is a push of the ring buffer. -/
theorem ring_next_push (hlt : s.count < 16) :
    (s.next true false dataIn false resetStatus).ring = s.ring.push dataIn := by
  have hadd : (s.count + 1).toNat = s.count.toNat + 1 := by bv_omega
  rw [ring_next, pointers, if_pos hlt]
  dsimp only
  rw [hadd, raminfr, if_pos rfl, update_entry]
  rfl

/-- A push with a pop at the same time is a shift of the ring buffer. -/
theorem ring_next_shift :
    (s.next true true dataIn false resetStatus).ring = s.ring.shift dataIn := by
  rw [ring_next, pointers]
  dsimp only
  rw [raminfr, if_pos rfl, update_entry]
  rfl

/-- A pop is a pop of the ring buffer that also clears the error bits of the place. -/
theorem ring_next_pop (hpos : s.count > 0) : (s.next false true dataIn false resetStatus).ring =
    { s.ring.pop with
      mem := Function.update s.ring.mem s.ring.bottom (s.ram s.bottom ++ 0#3) } := by
  have hsub : (s.count - 1).toNat = s.count.toNat - 1 := by bv_omega
  rw [ring_next, pointers, if_pos hpos]
  dsimp only
  rw [hsub, raminfr, if_neg Bool.false_ne_true, update_flags]
  rfl

/-- A pop of an empty FIFO does nothing. -/
theorem ring_next_empty (hpos : ¬ s.count > 0) :
    (s.next false true dataIn false resetStatus).ring = s.ring := by
  rw [ring_next, pointers, if_neg hpos, raminfr, if_neg Bool.false_ne_true]
  rfl

/-- Without a push and a pop the ring buffer stays as it is. -/
theorem ring_next_none : (s.next false false dataIn false resetStatus).ring = s.ring := by
  rw [ring_next, pointers, raminfr, if_neg Bool.false_ne_true]
  rfl

/-- A clock edge does to the FIFO what it should do to the queue. -/
theorem contents_next (h : s.ring.Valid) (push pop resetStatus : Bool) (dataIn : BitVec 11)
    (hroom : push = true → pop = false → s.count ≠ 16) :
    (s.next push pop dataIn false resetStatus).ring.Valid ∧
      (s.next push pop dataIn false resetStatus).contents =
        queueNext s.contents push pop dataIn := by
  have hle : s.count.toNat ≤ 16 := h.le
  have htail (hpos : 0 < s.ring.count) : s.contents.tail = s.ring.pop.contents := by
    rw [contents, RingBuffer.contents_pop hpos, List.tail_cons]
  rw [contents]
  cases push <;> cases pop <;> dsimp only [queueNext]
  · rw [ring_next_none]
    exact ⟨h, rfl⟩
  · by_cases hpos : s.count > 0
    · have hpos' : 0 < s.ring.count := BitVec.lt_def.mp hpos
      rw [ring_next_pop hpos, htail hpos']
      exact ⟨⟨(h.pop hpos').top, (h.pop hpos').le⟩, RingBuffer.contents_clear h.le⟩
    · -- a pop of an empty FIFO is ignored
      have hnil : s.contents = [] := by
        rw [← List.length_eq_zero_iff, length_contents]
        bv_omega
      rw [ring_next_empty hpos, hnil]
      exact ⟨h, hnil⟩
  · have hlt : s.count < 16 := by
      have := hroom rfl rfl
      bv_omega
    have hlt' : s.ring.count < 2 ^ 4 := BitVec.lt_def.mp hlt
    rw [ring_next_push hlt]
    exact ⟨h.push hlt', RingBuffer.contents_push h hlt'⟩
  · rw [ring_next_shift]
    refine ⟨h.shift, ?_⟩
    split_ifs with hnil
    · exact RingBuffer.contents_shift_empty (RingBuffer.contents_eq_nil.mp hnil)
    · have hpos : 0 < s.ring.count := by
        rw [← RingBuffer.length_contents]
        exact List.length_pos_iff.mpr hnil
      rw [htail hpos]
      exact RingBuffer.contents_shift h hpos

end UartRfifo

end RvPipelineCore

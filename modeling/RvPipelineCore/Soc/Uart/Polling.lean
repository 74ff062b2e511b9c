import RvPipelineCore.Soc.Uart.Config
import RvPipelineCore.Soc.Uart.Transmission

/-!
# Writing when the line status allows it

Software that reads the bit `THRE` of the line status before each byte that it writes never finds
the FIFO of the transmitter full. The register behind the bit is set by an edge, and a counter holds
the edge back for about one character behind a write.

- `UartAccess.Polled`: the accesses of such software;
- `UartRegs.Thre`: what the bit says, kept by every cycle;
- `UartRegs.Run.count_of_push`: a byte that is pushed finds the FIFO empty.
-/

namespace RvPipelineCore

namespace UartAccess

/-- Whether the line status has had the bit `THRE` since the last byte was written. -/
def poll (ready : Bool) : UartAccess → Bool
  | .read addr dat => if addr = 5 then dat.getLsbD 5 else ready
  | .write addr _ => if addr = 0 then false else ready

/-- After these accesses, starting without it, the line status has had the bit `THRE` since the last
byte was written. -/
def ready (accesses : List UartAccess) : Bool := accesses.foldl poll false

/-- Before each byte that is written, the line status has been read with the bit `THRE`. -/
def Polled (accesses : List UartAccess) : Prop :=
  ∀ past dat rest, accesses = past ++ .write 0 dat :: rest →
    (UartConfig.initial.after past).dlab = false → ready past = true

/-- The byte that an access writes for the transmitter, while `dlab` is clear. -/
def written : UartAccess → Option (BitVec 8)
  | .read _ _ => none
  | .write addr dat => if addr = 0 then some dat else none

variable {past rest : List UartAccess} {a : UartAccess}

/-- A property of every access and those before it is one of every place in the list. -/
theorem forall_splits {P : List UartAccess → UartAccess → Prop} {accesses : List UartAccess} :
    (∀ past a rest, accesses = past ++ a :: rest → P past a) ↔
      ∀ n, ∀ hn : n < accesses.length, P (accesses.take n) (accesses.get ⟨n, hn⟩) := by
  constructor
  · intro h n hn
    refine h _ _ (accesses.drop (n + 1)) ?_
    rw [List.get_eq_getElem, ← List.drop_eq_getElem_cons hn, List.take_append_drop]
  · rintro h past a rest rfl
    have hat := h past.length (by rw [List.length_append]; exact Nat.lt_add_of_pos_right (by simp))
    rwa [List.take_left, List.get_eq_getElem, List.getElem_append_right le_rfl,
      getElem_congr_idx (Nat.sub_self _), List.getElem_cons_zero] at hat

/-- Whether accesses are polled can be decided by looking at each of the writes. -/
instance (accesses : List UartAccess) : Decidable (Polled accesses) :=
  decidable_of_iff (∀ n, ∀ hn : n < accesses.length,
      (accesses.get ⟨n, hn⟩).written.isSome = true →
        (UartConfig.initial.after (accesses.take n)).dlab = false →
          ready (accesses.take n) = true) <| by
    rw [← forall_splits (P := fun past a => a.written.isSome = true →
      (UartConfig.initial.after past).dlab = false → ready past = true)]
    constructor
    · exact fun h past dat rest hsplit => h past _ rest hsplit rfl
    · intro h past a rest hsplit hwrite
      cases a with
      | read addr dat => exact absurd hwrite Bool.false_ne_true
      | write addr dat =>
        rw [written] at hwrite
        split_ifs at hwrite with hzero
        · exact h past dat rest (by rw [hsplit, hzero])
        · exact absurd hwrite Bool.false_ne_true

/-- One more access changes whether the software may write, as `poll` says. -/
theorem ready_append_singleton : ready (past ++ [a]) = poll (ready past) a := by
  rw [ready, List.foldl_append]
  rfl

/-- The first accesses of polled ones are polled. -/
theorem Polled.of_append (h : Polled (past ++ rest)) : Polled past := by
  intro past' dat rest' hsplit
  refine h past' dat (rest' ++ rest) ?_
  rw [hsplit, List.append_assoc, List.cons_append]

end UartAccess

namespace UartRegs

open UartAccess

/-- While the bit is set the FIFO is empty, and it stays clear until a byte that is written is in
the FIFO. -/
structure Thre (s : UartRegs) : Prop where
  le : s.transmitter.fifo.count ≤ 1
  empty : s.lsr.getLsbD 5 = true → s.transmitter.fifo.count = 0 ∧ s.tfPush = false
  push : s.tfPush = true → s.transmitter.fifo.count = 0 ∧ s.blockCnt ≠ 0
  /-- The edge that sets it is still to come. -/
  edge : s.lsr.getLsbD 5 = false → s.lsrSet.getLsbD 5 = false ∨ s.lsrD.getLsbD 5 = false

variable {s : UartRegs} {i : In}

/-- Bit 5 of the line status is to be set when the transmitter FIFO is empty and the block counter
has ended. -/
theorem lsrSet_five :
    s.lsrSet.getLsbD 5 = (s.transmitter.fifo.count == 0 && s.threSetEn) :=
  Bits.getLsbD_ofFn _ (5 : Fin 8)

/-- The next value of bit 5 of the line status: set by the rising edge of its condition, cleared by
a write of a byte. -/
theorem lsr_five : (s.next i).lsr.getLsbD 5 =
    ((s.lsr.getLsbD 5 || s.lsrSet.getLsbD 5 && !s.lsrD.getLsbD 5) && !s.fifoWrite i) := by
  have hclear : (s.lsrClear i).getLsbD 5 = s.fifoWrite i := Bits.getLsbD_ofFn _ (5 : Fin 8)
  have hlsr : (s.next i).lsr = (s.lsr ||| (s.lsrSet &&& ~~~s.lsrD)) &&& ~~~s.lsrClear i := by
    rw [next]
  rw [hlsr, BitVec.getLsbD_and, BitVec.getLsbD_or, BitVec.getLsbD_and, BitVec.getLsbD_not,
    BitVec.getLsbD_not, hclear]
  simp

/-- A byte is pushed into the transmitter FIFO in the cycle after its write. -/
theorem tfPush_next : (s.next i).tfPush = s.fifoWrite i := rfl

/-- The next transmitter FIFO, from the push of the registers and the pop of the transmitter. -/
theorem fifo_next : (s.next i).transmitter.fifo =
    s.transmitter.fifo.next s.tfPush s.transmitter.tfPop i.wbDatI s.txReset (s.lsrMask i) := by
  rw [next, UartTransmitter.next]

/-- An empty transmitter FIFO stays empty until a byte is pushed. -/
theorem count_next (hcount : s.transmitter.fifo.count = 0) (hpush : s.tfPush = false) :
    (s.next i).transmitter.fifo.count = 0 := by
  rw [fifo_next, hpush, UartTfifo.next]
  cases s.txReset with
  | true => rfl
  | false => cases hpop : s.transmitter.tfPop <;> simp [UartTfifo.pointers, hcount]

/-- The transmitter FIFO has one byte at most, provided that a byte is pushed into an empty one
only. -/
theorem count_next_le (hle : s.transmitter.fifo.count ≤ 1)
    (hpush : s.tfPush = true → s.transmitter.fifo.count = 0) :
    (s.next i).transmitter.fifo.count ≤ 1 := by
  rw [fifo_next, UartTfifo.next]
  cases s.txReset with
  | true => exact Nat.zero_le _
  | false =>
    -- Nothing waits when the byte is pushed, so it is the only one whether or not one is popped.
    cases hp : s.tfPush with
    | true =>
      cases hpop : s.transmitter.tfPop <;> simp [UartTfifo.pointers, hpush hp]
    | false =>
      cases hpop : s.transmitter.tfPop with
      | false => simpa [UartTfifo.pointers] using hle
      | true =>
        by_cases hpos : s.transmitter.fifo.count > 0
        · simp only [UartTfifo.pointers, if_pos hpos, Bool.false_eq_true, if_false]
          bv_omega
        · simpa only [UartTfifo.pointers, if_neg hpos, Bool.false_eq_true, if_false] using hle

/-- The block counter never starts from zero. -/
theorem blockValue_ne_zero : s.blockValue ≠ 0 := by
  rw [blockValue]
  generalize s.lcr.extractLsb' 0 4 = v
  revert v
  decide

/-- One cycle keeps the relation between `THRE` and the FIFO, provided that a byte is written only
while the bit is set. -/
theorem Thre.next (h : s.Thre) (hwrite : s.fifoWrite i = true → s.lsr.getLsbD 5 = true) :
    (s.next i).Thre := by
  have hblock (hpush : s.fifoWrite i = true) : (s.next i).blockCnt ≠ 0 := by
    have hload : (s.next i).blockCnt = s.blockValue := by
      simp only [UartRegs.next, hwrite hpush, hpush, Bool.and_self, if_true]
    rw [hload]
    exact blockValue_ne_zero
  refine ⟨count_next_le h.le fun hpush => (h.push hpush).1, fun hlsr => ?_, fun hpush => ?_,
    fun hlsr => ?_⟩
  · rw [lsr_five, Bool.and_eq_true, Bool.not_eq_true'] at hlsr
    obtain ⟨hset, hnone⟩ := hlsr
    refine ⟨?_, tfPush_next.trans hnone⟩
    rcases Bool.or_eq_true_iff.mp hset with hold | hnew
    · obtain ⟨hcount, hpush⟩ := h.empty hold
      exact count_next hcount hpush
    · -- the counter has run out, so nothing is on its way into the FIFO
      rw [lsrSet_five, threSetEn] at hnew
      simp only [Bool.and_eq_true, beq_iff_eq] at hnew
      obtain ⟨⟨hcount, hblock⟩, -⟩ := hnew
      exact count_next hcount (Bool.of_not_eq_true fun hpush => (h.push hpush).2 hblock)
  · -- software writes a byte only while the bit is set
    rw [tfPush_next] at hpush
    obtain ⟨hcount, hnone⟩ := h.empty (hwrite hpush)
    exact ⟨count_next hcount hnone, hblock hpush⟩
  · cases hpush : s.fifoWrite i with
    | true =>
      refine .inl ?_
      -- the write has loaded the counter, which holds the bit back
      rw [lsrSet_five, threSetEn, beq_false_of_ne (hblock hpush), Bool.and_false]
    | false =>
      rw [lsr_five, hpush, Bool.not_false, Bool.and_true, Bool.or_eq_false_iff] at hlsr
      refine .inr ?_
      change s.lsrSet.getLsbD 5 = false
      rcases h.edge hlsr.1 with hset | hold
      · exact hset
      · have hnew := hlsr.2
        rwa [hold, Bool.not_false, Bool.and_true] at hnew

/-- A reset leaves the relation between `THRE` and the FIFO. -/
theorem reset_thre (s : UartRegs) : s.reset.Thre := by
  have hset : (0b01100000 : BitVec 8).getLsbD 5 = true := by decide
  exact ⟨Nat.zero_le _, fun _ => ⟨rfl, rfl⟩, fun h => absurd h Bool.false_ne_true,
    fun h => absurd (hset.symm.trans h) (by decide)⟩

namespace Run

variable {run : Run} {t : ℕ}

/-- Once the bit has been read, it stays until a byte is written. -/
theorem lsr_of_ready (t : ℕ) (hready : ready (run.made t) = true) :
    (run.state t).lsr.getLsbD 5 = true := by
  induction t with
  | zero => exact absurd hready Bool.false_ne_true
  | succ t ih =>
    rw [made, accesses] at hready
    rw [run.succ, lsr_five]
    split_ifs at hready with hwe hre
    · -- a write to another register
      rw [ready_append_singleton, poll] at hready
      split_ifs at hready with hzero
      have hnone : (run.state t).fifoWrite (run.inp t) = false := by
        rw [fifoWrite, In.writes, beq_false_of_ne hzero, Bool.and_false, Bool.false_and]
      rw [ih hready, hnone]
      rfl
    · -- a read that returns the bit, or one of another register
      have hbefore : (run.state t).lsr.getLsbD 5 = true := by
        rw [ready_append_singleton, poll] at hready
        split_ifs at hready with hfive
        · have hdat : (run.state t).wbDatO (run.inp t) = (run.state t).lsr := by
            simp only [wbDatO, hfive]
            rfl
          rwa [hdat] at hready
        · exact ih hready
      rw [hbefore, fifoWrite, In.writes, Bool.of_not_eq_true hwe]
      rfl
    · rw [List.append_nil] at hready
      rw [ih hready, fifoWrite, In.writes, Bool.of_not_eq_true hwe]
      rfl

/-- With polled software the relation between `THRE` and the FIFO holds in every cycle. -/
theorem thre (hpolled : ∀ t, Polled (run.made t)) (t : ℕ) : (run.state t).Thre := by
  induction t with
  | zero =>
    obtain ⟨s, hs⟩ := run.start
    rw [hs]
    exact reset_thre s
  | succ t ih =>
    rw [run.succ]
    refine ih.next fun hwrite => lsr_of_ready t ?_
    rw [fifoWrite, In.writes, Bool.and_eq_true, Bool.and_eq_true, beq_iff_eq, Bool.not_eq_true']
      at hwrite
    obtain ⟨⟨hwe, hzero⟩, hdlab⟩ := hwrite
    refine hpolled (t + 1) _ (run.inp t).wbDatI [] ?_ ?_
    · rw [made, accesses, if_pos hwe, hzero]
    · rw [← config_eq]
      exact hdlab

/-- With polled software a byte that is pushed finds the transmitter FIFO empty. -/
theorem count_of_push (hpolled : ∀ t, Polled (run.made t)) (hpush : (run.state t).tfPush = true) :
    (run.state t).transmitter.fifo.count = 0 :=
  ((thre hpolled t).push hpush).1

end Run

end UartRegs

end RvPipelineCore

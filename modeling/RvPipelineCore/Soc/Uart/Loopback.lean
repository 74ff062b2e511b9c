import RvPipelineCore.Soc.Uart.ReceiveFifo
import RvPipelineCore.Soc.Uart.Reception
import RvPipelineCore.Soc.Uart.Session
import RvPipelineCore.Soc.Uart.Top

/-!
# Loopback

With the loopback bit of the modem control the transmitter sends to the receiver. What software
reads is then what it has written, in every format and with every divisor, if it polls the line
status and does not let more than sixteen bytes wait.

- `UartRegs.AtRest`: the registers when nothing is on its way;
- `UartRegs.Run.Loops`: runs of such software;
- `UartRegs.Run.Arrived`: what the receiver has, kept by every cycle;
- `UartTop.Run.loops_back`: what the software reads.
-/

namespace RvPipelineCore

open Serial

namespace UartAccess

/-- The byte that an access reads from the receiver, while `dlab` is clear. -/
def readOut : UartAccess → Option (BitVec 8)
  | .read addr dat => if addr = 0 then some dat else none
  | .write _ _ => none

/-- Whether the line status has had the bit `DR` since the last byte was read. -/
def pollData (ready : Bool) : UartAccess → Bool
  | .read addr dat => if addr = 5 then dat.getLsbD 0 else if addr = 0 then false else ready
  | .write _ _ => ready

/-- After these accesses the bit for received data has been read as set, and no byte has been read
since. -/
def dataReady (accesses : List UartAccess) : Bool := accesses.foldl pollData false

/-- Before each byte that is read, the line status has been read with the bit `DR`. -/
def Drained (accesses : List UartAccess) : Prop :=
  ∀ past dat rest, accesses = past ++ .read 0 dat :: rest → dataReady past = true

/-- Whether accesses are drained can be decided by looking at each read of the receiver. -/
instance (accesses : List UartAccess) : Decidable (Drained accesses) :=
  decidable_of_iff (∀ n, ∀ hn : n < accesses.length,
      (accesses.get ⟨n, hn⟩).readOut.isSome = true → dataReady (accesses.take n) = true) <| by
    rw [← forall_splits (P := fun past a => a.readOut.isSome = true → dataReady past = true)]
    constructor
    · exact fun h past dat rest hsplit => h past _ rest hsplit rfl
    · intro h past a rest hsplit hread
      cases a with
      | read addr dat =>
        rw [readOut] at hread
        split_ifs at hread with hzero
        · exact h past dat rest (by rw [hsplit, hzero])
        · exact absurd hread Bool.false_ne_true
      | write addr dat => exact absurd hread Bool.false_ne_true

/-- The first ones of drained accesses are drained. -/
theorem Drained.of_append {past rest : List UartAccess} (h : Drained (past ++ rest)) :
    Drained past := by
  intro past' dat rest' hsplit
  refine h past' dat (rest' ++ rest) ?_
  rw [hsplit, List.append_assoc, List.cons_append]

/-- One more access changes whether a byte may be read, as `pollData` says. -/
theorem dataReady_append_singleton {past : List UartAccess} {a : UartAccess} :
    dataReady (past ++ [a]) = pollData (dataReady past) a := by
  rw [dataReady, List.foldl_append]
  rfl

end UartAccess

namespace UartRegs

open UartAccess
open UartTransmitter (format)
open UartReceiver (handed pushAt)

/-- The format is `lcr`, the loopback bit is set, and nothing is on its way. -/
structure AtRest (s : UartRegs) (lcr : BitVec 8) : Prop where
  lcr : s.lcr = lcr
  dlab : s.dlab = false
  noBreak : s.lcr.getLsbD 6 = false
  loopback : s.loopback = true
  txReset : s.txReset = false
  rxReset : s.rxReset = false
  tfPush : s.tfPush = false
  rfPop : s.rfPop = false
  data : s.lsr.getLsbD 0 = false
  quiet : s.transmitter.Quiet
  listening : s.receiver.Listening s.lcr
  valid : s.receiver.fifo.ring.Valid
  empty : s.receiver.fifo.contents = []

/-- What has been received and not been read. An entry that is being popped has been read. -/
def unread (s : UartRegs) : List (BitVec 11) :=
  if s.rfPop then s.receiver.fifo.contents.tail else s.receiver.fifo.contents

/-- The byte of an entry of the receiver's FIFO, above its three error bits. -/
def entryByte (e : BitVec 11) : BitVec 8 := e.extractLsb' 3 8

/-- What the frames of a format carry of a byte. -/
def carried (lcr byte : BitVec 8) : BitVec 8 :=
  (byte.setWidth (format lcr).dataBits).setWidth 8

/-- The entry that the receiver hands over for a byte has the byte as the format has carried it. -/
theorem entryByte_handed (lcr byte : BitVec 8) :
    entryByte (handed (format lcr) byte) = carried lcr byte :=
  BitVec.extractLsb'_append_eq_left

/-- The bit for received data is set by an entry that comes into the empty FIFO. -/
theorem lsrSet_zero {s : UartRegs} :
    s.lsrSet.getLsbD 0 = (s.receiver.fifo.count == 0 && s.receiver.rfPushPulse) :=
  Bits.getLsbD_ofFn _ (0 : Fin 8)

/-- The bit for received data stays set until the last entry is popped with no other one coming, or
the FIFO is cleared. -/
theorem lsr_zero {s : UartRegs} {i : In} : (s.next i).lsr.getLsbD 0 =
    ((s.lsr.getLsbD 0 || s.lsrSet.getLsbD 0 && !s.lsrD.getLsbD 0) &&
      !(s.receiver.fifo.count == 1 && s.rfPop && !s.receiver.rfPushPulse || s.rxReset)) := by
  have hclear : (s.lsrClear i).getLsbD 0 =
      (s.receiver.fifo.count == 1 && s.rfPop && !s.receiver.rfPushPulse || s.rxReset) :=
    Bits.getLsbD_ofFn _ (0 : Fin 8)
  have hlsr : (s.next i).lsr = (s.lsr ||| (s.lsrSet &&& ~~~s.lsrD)) &&& ~~~s.lsrClear i := by
    rw [next]
  rw [hlsr, BitVec.getLsbD_and, BitVec.getLsbD_or, BitVec.getLsbD_and, BitVec.getLsbD_not,
    BitVec.getLsbD_not, hclear]
  simp

namespace Run

variable (run : Run)

/-- The accesses that the bus makes in the `t` cycles from cycle `t₀` on, in order. -/
def since (t₀ : ℕ) : ℕ → List UartAccess
  | 0 => []
  | t + 1 => since t₀ t ++ (run.state (t₀ + t)).accesses (run.inp (t₀ + t))

/-- The receiver from cycle `t₀` on, as a run of its own, with what the registers give it. -/
def reception (t₀ : ℕ) : UartReceiver.Run where
  state t := (run.state (t₀ + t)).receiver
  inp t := ⟨(run.state (t₀ + t)).lcr, (run.state (t₀ + t)).rfPop, (run.state (t₀ + t)).serialIn,
    (run.state (t₀ + t)).enable, (run.state (t₀ + t)).rxReset,
    (run.state (t₀ + t)).lsrMask (run.inp (t₀ + t))⟩
  succ t := by
    rw [← Nat.add_assoc, run.succ]
    rfl

/-- The bus writes or reads in a cycle, does not read in the next one, and leaves its data. -/
structure Paced : Prop where
  holds : run.Holds
  single : ∀ t, (run.inp t).wbWeI = true → (run.inp t).wbReI = false
  apart : ∀ t, (run.inp t).wbReI = true → (run.inp (t + 1)).wbReI = false

/-- Software that, from cycle `t₀` on, changes neither the format nor the FIFOs, writes a byte after
it has read `THRE`, reads one after it has read `DR`, and is at most sixteen bytes ahead. -/
structure Loops (lcr : BitVec 8) (t₀ : ℕ) : Prop where
  atRest : (run.state t₀).AtRest lcr
  keeps : ∀ t, ∀ a ∈ run.since t₀ t, a.Keeps
  polled : ∀ t, Polled (run.made t)
  drained : ∀ t, Drained (run.since t₀ t)
  window : ∀ t, ((run.since t₀ t).filterMap written).length ≤
    ((run.since t₀ t).filterMap readOut).length + 16

/-- What the receiver has in a cycle: what has been received has been read, or can be read next. -/
structure Arrived (t₀ t : ℕ) : Prop where
  valid : (run.state (t₀ + t)).receiver.fifo.ring.Valid
  pop : (run.state (t₀ + t)).rfPop = true → (run.state (t₀ + t)).receiver.fifo.contents ≠ []
  data : (run.state (t₀ + t)).lsr.getLsbD 0 = true →
    (run.state (t₀ + t)).receiver.fifo.contents ≠ []
  ready : dataReady (run.since t₀ t) = true →
    (run.state (t₀ + t)).receiver.fifo.contents ≠ [] ∧ (run.state (t₀ + t)).rfPop = false
  split : (run.since t₀ t).filterMap readOut ++ (run.state (t₀ + t)).unread.map entryByte =
    ((run.reception t₀).received t).map entryByte

variable {run} {lcr : BitVec 8} {t₀ t : ℕ}

/-- The accesses made up to a cycle are those made before `t₀` and those made since. -/
theorem made_add (t : ℕ) : run.made (t₀ + t) = run.made t₀ ++ run.since t₀ t := by
  induction t with
  | zero => exact (List.append_nil _).symm
  | succ t ih => rw [← Nat.add_assoc, made, ih, since, List.append_assoc]

/-- The FIFO of the receiver is popped one cycle after a byte is read, for one cycle. -/
theorem rfPop_succ (t : ℕ) : (run.state (t₀ + (t + 1))).rfPop =
    if (run.state (t₀ + t)).rfPop then false
    else (run.state (t₀ + t)).fifoRead (run.inp (t₀ + t)) := by
  rw [← Nat.add_assoc, run.succ, next]

namespace Loops

section Line

variable (h : run.Loops lcr t₀)

include h

/-- The format, `dlab` and the loopback bit stay as they were set in cycle `t₀`. -/
theorem config (t : ℕ) : (run.state (t₀ + t)).lcr = lcr ∧ (run.state (t₀ + t)).dlab = false ∧
    (run.state (t₀ + t)).loopback = true := by
  -- `dlab` and the loopback bit are bits of registers that stay
  suffices hsame : (run.state (t₀ + t)).lcr = (run.state t₀).lcr ∧
      (run.state (t₀ + t)).mcr = (run.state t₀).mcr by
    refine ⟨hsame.1.trans h.atRest.lcr, ?_, ?_⟩
    · rw [dlab, hsame.1]
      exact h.atRest.dlab
    · rw [UartRegs.loopback, hsame.2]
      exact h.atRest.loopback
  induction t with
  | zero => exact ⟨rfl, rfl⟩
  | succ t ih =>
    have hdlab : (run.state (t₀ + t)).config.dlab = false := by
      change (run.state (t₀ + t)).lcr.getLsbD 7 = false
      rw [ih.1]
      exact h.atRest.dlab
    obtain ⟨hlcr, hmcr, -⟩ := UartConfig.after_keeps hdlab
      fun a ha => h.keeps (t + 1) a (List.mem_append_right _ ha)
    rw [← config_next, ← run.succ] at hlcr hmcr
    exact ⟨hlcr.trans ih.1, hmcr.trans ih.2⟩

/-- Neither of the two FIFOs is cleared from cycle `t₀` on. -/
theorem resets (t : ℕ) :
    (run.state (t₀ + t)).txReset = false ∧ (run.state (t₀ + t)).rxReset = false := by
  cases t with
  | zero => exact ⟨h.atRest.txReset, h.atRest.rxReset⟩
  | succ t =>
    have hno : (run.inp (t₀ + t)).writes 2 = false := by
      by_contra hwrites
      have haccess := accesses_of_writes (Bool.of_not_eq_false hwrites)
      have hmem : UartAccess.write 2 (run.inp (t₀ + t)).wbDatI ∈ run.since t₀ (t + 1) := by
        rw [since, haccess]
        exact List.mem_append_right _ (List.mem_singleton_self _)
      exact (h.keeps (t + 1) _ hmem).1 rfl
    rw [← Nat.add_assoc, run.succ, next, hno]
    exact ⟨rfl, rfl⟩

/-- The transmission from cycle `t₀` on is steady: its format stays, and no byte is pushed into a
full FIFO. -/
theorem steady : (run.transmission t₀ h.atRest.quiet).Steady lcr := by
  refine ⟨fun t => (h.config t).1, fun t => (h.resets t).1, fun t hover => ?_⟩
  have hcount := count_of_push h.polled hover.push
  exact absurd (hover.full.symm.trans hcount) (by decide)

/-- In loopback the receiver hears the level that the transmitter puts out, whatever comes in on the
line. -/
theorem serialIn_eq (t : ℕ) :
    (run.state (t₀ + t)).serialIn = (run.state (t₀ + t)).transmitter.stxOTmp := by
  obtain ⟨hlcr, -, hloop⟩ := h.config t
  have hbreak : (run.state (t₀ + t)).lcr.getLsbD 6 = false := by
    rw [hlcr, ← h.atRest.lcr]
    exact h.atRest.noBreak
  rw [serialIn, hloop, if_pos rfl, serialOut, UartTransmitter.stxPadO, hbreak,
    if_neg Bool.false_ne_true]

/-- The receiver listens to the frames that the transmitter sends, with the same ticks. -/
theorem listens (t : ℕ) : (run.reception t₀).Listens lcr
    ((run.transmission t₀ h.atRest.quiet).sent t) t where
  start := by
    have hlistening := h.atRest.listening
    rw [h.atRest.lcr] at hlistening
    exact hlistening
  spaced := UartTransmitter.Run.spaced h.steady t
  line u hu := by
    have hdrives := UartTransmitter.Run.drives_sent h.steady hu.le
    change Format.Drives _ 1 _ _ (run.state (t₀ + u)).serialIn
    rw [h.serialIn_eq u]
    exact hdrives
  lcr u _ := (h.config u).1

/-- The bytes that the transmitter is given are those that the software writes, one cycle later. -/
theorem pushed_eq_written (hdat : run.Holds) (t : ℕ) :
    (run.transmission t₀ h.atRest.quiet).pushed (t + 1) =
      (run.since t₀ t).filterMap written := by
  induction t with
  | zero =>
    -- nothing is being pushed at the start
    have hpush : ((run.transmission t₀ h.atRest.quiet).inp 0).tfPush = false := h.atRest.tfPush
    rw [UartTransmitter.Run.pushed, UartTransmitter.Run.pushed, hpush]
    rfl
  | succ t ih =>
    rw [UartTransmitter.Run.pushed, ih, since, List.filterMap_append]
    -- what is pushed now has been written in the cycle before
    congr 1
    refine (push_eq hdat (t₀ + t)).trans ?_
    have hdlab : (run.state (t₀ + t)).config.dlab = false := (h.config t).2.1
    rw [accesses]
    split_ifs with hwe hre
    · rw [UartConfig.text, UartConfig.text, UartConfig.byte, hdlab, List.append_nil,
        List.filterMap_cons, written]
      simp only [and_true]
      split_ifs <;> rfl
    · rfl
    · rfl

/-- What the receiver has handed over so far is a beginning of what has been written, cut to the
bits of the format. -/
theorem received_prefix (hdat : run.Holds) (t : ℕ) :
    ((run.reception t₀).received (t + 1)).map entryByte <+:
      ((run.since t₀ t).filterMap written).map (carried lcr) := by
  obtain ⟨done, hphase, hreceived⟩ := UartReceiver.Run.phase (h.listens t) le_rfl
  have hdone : done <+: (run.transmission t₀ h.atRest.quiet).sent t := hphase.done_prefix
  have hsent := UartTransmitter.Run.conserved h.steady t
  have hpushed : (run.transmission t₀ h.atRest.quiet).pushed t <+:
      (run.since t₀ t).filterMap written := by
    rw [← h.pushed_eq_written hdat]
    exact List.prefix_append _ _
  rw [hreceived, List.map_map]
  have hentry : (entryByte ∘ fun f : Frame ℕ => handed (format lcr) f.byte) =
      carried lcr ∘ Frame.byte := funext fun f => entryByte_handed lcr f.byte
  rw [hentry, ← List.map_map]
  refine ((hdone.map _).trans ?_).map _
  rw [← hsent] at hpushed
  exact (List.prefix_append _ _).trans hpushed

end Line

/-! ## In the FIFO of the receiver -/

section Fifo

variable (h : run.Loops lcr t₀) (hpaced : run.Paced) (harrived : run.Arrived t₀ t)

include h harrived in
/-- When the receiver hands an entry over, the FIFO has room for it: software has not more than
sixteen bytes on their way. -/
theorem count_ne (hdat : run.Holds) (hpulse : (run.state (t₀ + t)).receiver.rfPushPulse = true)
    (hpop : (run.state (t₀ + t)).rfPop = false) :
    (run.state (t₀ + t)).receiver.fifo.count ≠ 16 := by
  intro hfull
  have hunread : (run.state (t₀ + t)).unread.length = 16 := by
    rw [unread, hpop, if_neg Bool.false_ne_true, UartRfifo.length_contents, hfull]
    rfl
  have hsplit := congrArg List.length harrived.split
  have hle := (h.received_prefix hdat t).length_le
  have hwindow := h.window t
  have hpulse' : ((run.reception t₀).state t).rfPushPulse = true := hpulse
  rw [UartReceiver.Run.received, hpulse', if_pos rfl] at hle
  simp only [List.length_append, List.length_map, List.length_singleton] at hsplit hle
  omega

include h harrived in
/-- A cycle keeps the FIFO of the receiver valid, removes the entry that is popped, and adds the one
that is handed over. -/
theorem contents_succ (hdat : run.Holds) :
    (run.state (t₀ + (t + 1))).receiver.fifo.ring.Valid ∧
      (run.state (t₀ + (t + 1))).receiver.fifo.contents = (run.state (t₀ + t)).unread ++
        if (run.state (t₀ + t)).receiver.rfPushPulse then
          [(run.state (t₀ + t)).receiver.rfDataIn] else [] := by
  have hfifo : (run.state (t₀ + (t + 1))).receiver.fifo =
      (run.state (t₀ + t)).receiver.fifo.next (run.state (t₀ + t)).receiver.rfPushPulse
        (run.state (t₀ + t)).rfPop (run.state (t₀ + t)).receiver.rfDataIn false
        ((run.state (t₀ + t)).lsrMask (run.inp (t₀ + t))) := by
    rw [← (h.resets t).2, ← Nat.add_assoc, run.succ]
    rfl
  obtain ⟨hvalid, hnext⟩ := UartRfifo.contents_next harrived.valid _ _
    ((run.state (t₀ + t)).lsrMask (run.inp (t₀ + t))) (run.state (t₀ + t)).receiver.rfDataIn
    (h.count_ne harrived hdat)
  rw [hfifo]
  exact ⟨hvalid, hnext.trans (UartRfifo.queueNext_eq harrived.pop)⟩

include h harrived in
/-- An entry that is in the FIFO of the receiver and is not being popped is still there in the next
cycle. -/
theorem contents_ne_succ (hdat : run.Holds)
    (hready : (run.state (t₀ + t)).receiver.fifo.contents ≠ [] ∧
      (run.state (t₀ + t)).rfPop = false) :
    (run.state (t₀ + (t + 1))).receiver.fifo.contents ≠ [] := by
  rw [(h.contents_succ harrived hdat).2, unread, hready.2, if_neg Bool.false_ne_true]
  exact List.append_ne_nil_of_left_ne_nil hready.1 _

omit t in
include h hpaced in
/-- Accesses are apart, so that nothing is popped from the FIFO in the cycle of a read. -/
theorem rfPop_of_read {t : ℕ} (hre : (run.inp (t₀ + t)).wbReI = true) :
    (run.state (t₀ + t)).rfPop = false := by
  cases t with
  | zero => exact h.atRest.rfPop
  | succ t =>
    have hbefore : (run.inp (t₀ + t)).wbReI = false := by
      by_contra hread
      exact absurd ((hpaced.apart _ (Bool.of_not_eq_false hread)).symm.trans hre) (by decide)
    rw [rfPop_succ, fifoRead, reads, hbefore]
    exact ite_self _

include hpaced in
/-- A read of the receiver's buffer is an access that returns the byte of the first entry. -/
theorem accesses_of_fifoRead (hread : (run.state t).fifoRead (run.inp t) = true) :
    (run.state t).accesses (run.inp t) =
      [.read 0 (entryByte (run.state t).receiver.fifo.dataOut)] := by
  rw [fifoRead, reads, Bool.and_eq_true, Bool.and_eq_true, beq_iff_eq, Bool.not_eq_true'] at hread
  obtain ⟨⟨hre, haddr⟩, hdlab⟩ := hread
  have hwe : (run.inp t).wbWeI = false := by
    by_contra hwe
    exact absurd ((hpaced.single t (Bool.of_not_eq_false hwe)).symm.trans hre) (by decide)
  rw [accesses, hwe, if_neg Bool.false_ne_true, if_pos hre, haddr, wbDatO, haddr, hdlab]
  rfl

/-- In a cycle in which the receiver's buffer is not read, the accesses read no byte out of it. -/
theorem readOut_of_not_fifoRead (hread : (run.state t).fifoRead (run.inp t) = false)
    (hdlab : (run.state t).dlab = false) :
    ((run.state t).accesses (run.inp t)).filterMap readOut = [] := by
  rw [fifoRead, reads, hdlab, Bool.not_false, Bool.and_true] at hread
  rw [accesses]
  split_ifs with hwe hre
  · rfl
  · rw [hre, Bool.true_and, beq_eq_false_iff_ne] at hread
    have hnone : readOut (.read (run.inp t).wbAddrI ((run.state t).wbDatO (run.inp t))) = none :=
      if_neg hread
    rw [List.filterMap_cons, hnone, List.filterMap_nil]
  · rfl

include h hpaced harrived in
/-- When the software reads the receiver's buffer, there is an entry in it that is not being popped:
it has seen the bit for received data before. -/
theorem ready_of_fifoRead (hread : (run.state (t₀ + t)).fifoRead (run.inp (t₀ + t)) = true) :
    (run.state (t₀ + t)).receiver.fifo.contents ≠ [] ∧ (run.state (t₀ + t)).rfPop = false := by
  refine harrived.ready (h.drained (t + 1) (run.since t₀ t)
    (entryByte (run.state (t₀ + t)).receiver.fifo.dataOut) [] ?_)
  rw [since, accesses_of_fifoRead hpaced hread]

include h hpaced harrived in
/-- While the bit `DR` is set, the FIFO is not empty. -/
theorem data_succ (hlsr : (run.state (t₀ + (t + 1))).lsr.getLsbD 0 = true) :
    (run.state (t₀ + (t + 1))).receiver.fifo.contents ≠ [] := by
  rw [← Nat.add_assoc, run.succ, lsr_zero, Bool.and_eq_true, Bool.or_eq_true, Bool.not_eq_true',
    Bool.or_eq_false_iff] at hlsr
  obtain ⟨hset, hclear, -⟩ := hlsr
  rw [(h.contents_succ harrived hpaced.holds).2]
  cases hpulse : (run.state (t₀ + t)).receiver.rfPushPulse with
  | true =>
    rw [if_pos rfl]
    exact List.append_ne_nil_of_right_ne_nil _ (List.cons_ne_nil _ _)
  | false =>
    rw [if_neg Bool.false_ne_true, List.append_nil, unread]
    have hold : (run.state (t₀ + t)).receiver.fifo.contents ≠ [] := by
      rcases hset with hold | hnew
      · exact harrived.data hold
      · rw [lsrSet_zero, hpulse, Bool.and_false, Bool.false_and] at hnew
        exact absurd hnew Bool.false_ne_true
    rw [hpulse, Bool.not_false, Bool.and_true] at hclear
    split_ifs with hpop
    · -- the last entry would clear the bit
      rw [hpop, Bool.and_true, beq_eq_false_iff_ne] at hclear
      intro htail
      apply hclear
      have hone : (run.state (t₀ + t)).receiver.fifo.contents.length = 1 := by
        rw [UartRfifo.contents_eq_cons hold, htail]
        rfl
      rw [UartRfifo.length_contents] at hone
      exact BitVec.eq_of_toNat_eq hone
    · exact hold

include h hpaced harrived in
/-- Once the bit `DR` has been read, there is something until it is read. -/
theorem ready_succ (hready : dataReady (run.since t₀ (t + 1)) = true) :
    (run.state (t₀ + (t + 1))).receiver.fifo.contents ≠ [] ∧
      (run.state (t₀ + (t + 1))).rfPop = false := by
  -- an entry that is there stays, and none is popped without a read
  suffices hnow : ((run.state (t₀ + t)).receiver.fifo.contents ≠ [] ∧
      (run.state (t₀ + t)).rfPop = false) ∧
      (run.state (t₀ + t)).fifoRead (run.inp (t₀ + t)) = false by
    refine ⟨h.contents_ne_succ harrived hpaced.holds hnow.1, ?_⟩
    rw [rfPop_succ, hnow.2]
    exact ite_self _
  rw [since, accesses] at hready
  split_ifs at hready with hwe hre
  · rw [dataReady_append_singleton] at hready
    refine ⟨harrived.ready hready, ?_⟩
    rw [fifoRead, reads, hpaced.single _ hwe]
    rfl
  · rw [dataReady_append_singleton, pollData] at hready
    have hpop := h.rfPop_of_read hpaced hre
    split_ifs at hready with hfive hzero
    · -- `DR` has just been read
      have hdat : (run.state (t₀ + t)).wbDatO (run.inp (t₀ + t)) = (run.state (t₀ + t)).lsr := by
        simp only [wbDatO, hfive]
        rfl
      rw [hdat] at hready
      refine ⟨⟨harrived.data hready, hpop⟩, ?_⟩
      rw [fifoRead, reads, hfive, Bool.and_eq_false_iff]
      exact .inl (Bool.and_false _)
    · refine ⟨harrived.ready hready, ?_⟩
      rw [fifoRead, reads, beq_false_of_ne hzero, Bool.and_false, Bool.false_and]
  · rw [List.append_nil] at hready
    refine ⟨harrived.ready hready, ?_⟩
    rw [fifoRead, reads, Bool.of_not_eq_true hre]
    rfl

include h hpaced harrived in
/-- What is read in a cycle is the oldest of what has not been read. -/
theorem unread_succ : ((run.state (t₀ + t)).accesses (run.inp (t₀ + t))).filterMap readOut ++
      (run.state (t₀ + (t + 1))).unread.map entryByte =
    ((run.state (t₀ + t)).unread ++
      if (run.state (t₀ + t)).receiver.rfPushPulse then
        [(run.state (t₀ + t)).receiver.rfDataIn] else []).map entryByte := by
  have hnext := (h.contents_succ harrived hpaced.holds).2
  rw [← hnext]
  cases hread : (run.state (t₀ + t)).fifoRead (run.inp (t₀ + t)) with
  | true =>
    -- the first unread entry is read, and will be popped in the next cycle
    obtain ⟨hne, hpop⟩ := h.ready_of_fifoRead hpaced harrived hread
    have hpop' : (run.state (t₀ + (t + 1))).rfPop = true := by rw [rfPop_succ, hpop, hread]; rfl
    have hhead : (run.state (t₀ + t)).unread = (run.state (t₀ + t)).receiver.fifo.contents := by
      rw [unread, hpop, if_neg Bool.false_ne_true]
    rw [hhead, UartRfifo.contents_eq_cons hne] at hnext
    rw [accesses_of_fifoRead hpaced hread, unread, if_pos hpop', hnext]
    rfl
  | false =>
    -- nothing is popped in the next cycle, so that all entries there are unread
    have hpop' : (run.state (t₀ + (t + 1))).rfPop = false := by rw [rfPop_succ, hread, ite_self]
    rw [readOut_of_not_fifoRead hread (h.config t).2.1, List.nil_append, unread, hpop',
      if_neg Bool.false_ne_true]

include h hpaced harrived in
/-- A cycle keeps the invariant, whether an entry is handed over, read, both or neither. -/
theorem arrived_succ : run.Arrived t₀ (t + 1) where
  valid := (h.contents_succ harrived hpaced.holds).1
  pop hpop := by
    rw [rfPop_succ] at hpop
    split_ifs at hpop with hbefore
    exact h.contents_ne_succ harrived hpaced.holds (h.ready_of_fifoRead hpaced harrived hpop)
  data := h.data_succ hpaced harrived
  ready := h.ready_succ hpaced harrived
  split := by
    rw [since, List.filterMap_append, List.append_assoc, h.unread_succ hpaced harrived,
      List.map_append, ← List.append_assoc, harrived.split, UartReceiver.Run.received,
      List.map_append]
    rfl

omit t harrived in
include h hpaced in
/-- In every cycle of a run in loopback the invariant is true. -/
theorem arrived (t : ℕ) : run.Arrived t₀ t := by
  induction t with
  | zero =>
    refine ⟨h.atRest.valid, fun hpop => ?_, fun hdata => ?_, fun hready => ?_, ?_⟩
    · exact absurd (h.atRest.rfPop.symm.trans hpop) Bool.false_ne_true
    · exact absurd (h.atRest.data.symm.trans hdata) Bool.false_ne_true
    · exact absurd hready Bool.false_ne_true
    · rw [since, unread, Nat.add_zero, h.atRest.rfPop, h.atRest.empty]
      rfl
  | succ t ih => exact h.arrived_succ hpaced ih

/-! ## From end to end -/

include h hpaced in
/-- In every cycle, what the software has read is a beginning of what it has written, cut to the
bits of the format. -/
theorem readOut_prefix (t : ℕ) : (run.since t₀ t).filterMap readOut <+:
    ((run.since t₀ t).filterMap written).map (carried lcr) := by
  have hreceived : (run.reception t₀).received t <+: (run.reception t₀).received (t + 1) :=
    List.prefix_append _ _
  refine List.IsPrefix.trans ?_ ((hreceived.map entryByte).trans (h.received_prefix hpaced.holds t))
  rw [← (h.arrived hpaced t).split]
  exact List.prefix_append _ _

include h in
/-- In the cycle behind one without a write nothing is pushed into the FIFO of the transmitter. -/
theorem tfPush_of_quiet (hdat : run.Holds) {u : ℕ}
    (hquiet : ((run.state (t₀ + u)).accesses (run.inp (t₀ + u))).filterMap written = []) :
    ((run.transmission t₀ h.atRest.quiet).inp (u + 1)).tfPush = false := by
  have hpushed := h.pushed_eq_written hdat (u + 1)
  rw [since, List.filterMap_append, hquiet, List.append_nil, UartTransmitter.Run.pushed,
    h.pushed_eq_written hdat, List.append_right_eq_self] at hpushed
  by_contra hpush
  rw [if_pos (Bool.of_not_eq_false hpush)] at hpushed
  exact absurd hpushed (List.cons_ne_nil _ _)

include h in
/-- Not more bytes wait in the FIFO of the transmitter than it has places. -/
theorem length_waiting_le (t : ℕ) :
    ((run.transmission t₀ h.atRest.quiet).waiting t).length ≤ 16 := by
  have hle : ((run.transmission t₀ h.atRest.quiet).state t).fifo.contents.length ≤ 16 := by
    rw [UartTfifo.length_contents]
    exact (UartTransmitter.Run.valid h.steady t).le
  rw [UartTransmitter.Run.waiting]
  split_ifs
  · rw [List.length_tail]
    omega
  · exact hle

include h hpaced in
/-- When nothing more is written for the time of seventeen frames, all that has been written has
arrived. -/
theorem arrives {v : ℕ} (htv : t < v)
    (hquiet : ∀ u, t ≤ u → u < v →
      ((run.state (t₀ + u)).accesses (run.inp (t₀ + u))).filterMap written = [])
    (hticks : (run.reception t₀).ticks (t + 1) + (format lcr).ticks * 17 ≤
      (run.reception t₀).ticks v) :
    (run.since t₀ (v + 1)).filterMap readOut ++
        (run.state (t₀ + (v + 1))).unread.map entryByte =
      ((run.since t₀ t).filterMap written).map (carried lcr) := by
  have hwaiting := Nat.mul_le_mul_left (format lcr).ticks
    (Nat.add_le_add_right (h.length_waiting_le (t + 1)) 1)
  have hsame (u : ℕ) :
      (run.transmission t₀ h.atRest.quiet).ticks u = (run.reception t₀).ticks u := rfl
  obtain ⟨hsent, hended⟩ := UartTransmitter.Run.drains h.steady (t := t + 1) (v := v)
    (fun u hu huv => by
      obtain ⟨w, rfl⟩ := Nat.exists_eq_succ_of_ne_zero (show u ≠ 0 by omega)
      exact h.tfPush_of_quiet hpaced.holds (hquiet w (by omega) (by omega)))
    htv (by rw [hsame, hsame]; omega)
  obtain ⟨done, hphase, hreceived⟩ := UartReceiver.Run.phase (h.listens v) le_rfl
  -- the frames are over, and so is the middle of their stop bits
  have hdone : done = (run.transmission t₀ h.atRest.quiet).sent v := by
    rw [hphase.done_eq, List.filter_eq_self]
    intro f hf
    have hend := hended f hf
    have hbounds := UartReceiver.pushAt_bounds lcr
    have hstop := UartTransmitter.stop_cases lcr
    have hF : (format lcr).ticks = 16 * (format lcr).length + (format lcr).stop := rfl
    rw [hsame] at hend
    rw [decide_eq_true_iff]
    omega
  have hentry : (entryByte ∘ fun f : Frame ℕ => handed (format lcr) f.byte) =
      carried lcr ∘ Frame.byte := funext fun f => entryByte_handed lcr f.byte
  rw [(h.arrived hpaced (v + 1)).split, hreceived, List.map_map, hentry, ← List.map_map, hdone,
    hsent, h.pushed_eq_written hpaced.holds]

end Fifo

end Loops

end Run

end UartRegs

namespace UartTop.Run

open UartAccess UartRegs

variable {run : UartTop.Run} {lcr : BitVec 8} {t₀ : ℕ}

/-- The bus interface makes one access at a time, and has a cycle without a read behind each
read. -/
theorem regs_paced (h : run.Holds) : run.regs.Paced where
  holds := regs_holds h
  single t hwe := by
    have hweO : (run.state t).wb.weO = true := hwe
    have hreO : (run.regs.inp t).wbReI = (run.state t).wb.reO := rfl
    rw [UartWb.weO, Bool.and_eq_true, Bool.and_eq_true, Bool.and_eq_true] at hweO
    rw [hreO, UartWb.reO, hweO.1.1.1]
    rfl
  apart t hre := by
    -- behind a read the machine is no longer in its first state
    have hphase := phase h t
    have hreO : (run.state t).wb.reO = true := hre
    have hnext : (run.regs.inp (t + 1)).wbReI = (run.state (t + 1)).wb.reO := rfl
    rw [UartWb.reO, Bool.and_eq_true, Bool.and_eq_true, Bool.and_eq_true, hphase.wre,
      decide_eq_true_iff] at hreO
    obtain ⟨⟨⟨-, hstb⟩, hcyc⟩, hzero⟩ := hreO
    have hwre : (run.state (t + 1)).wb.wre = (run.state t).wb.fsm.2.2 := by rw [wb_succ]; rfl
    rw [UartWb.fsm_zero hzero, hstb, hcyc] at hwre
    rw [hnext, UartWb.reO, hwre]
    exact Bool.and_false _

/-- In loopback, polling software reads what it has written, in order, once, and cut to the bits of
the format. What it has written can be read when it has written nothing more for the time of
seventeen frames. -/
theorem loops_back (hholds : run.Holds) (h : run.regs.Loops lcr t₀) (t : ℕ) :
    (run.regs.since t₀ t).filterMap readOut <+:
        ((run.regs.since t₀ t).filterMap written).map (carried lcr) ∧
      ∀ v, t < v →
        (∀ u, t ≤ u → u < v →
          ((run.regs.state (t₀ + u)).accesses (run.regs.inp (t₀ + u))).filterMap written = []) →
        (run.regs.reception t₀).ticks (t + 1) + (UartTransmitter.format lcr).ticks * 17 ≤
          (run.regs.reception t₀).ticks v →
        (run.regs.since t₀ (v + 1)).filterMap readOut ++
            (run.regs.state (t₀ + (v + 1))).unread.map entryByte =
          ((run.regs.since t₀ t).filterMap written).map (carried lcr) :=
  ⟨h.readOut_prefix (regs_paced hholds) t,
    fun _ htv hquiet hticks => h.arrives (regs_paced hholds) htv hquiet hticks⟩

/-! ## An example -/

/-- The accesses of software that sets the loopback bit, writes a letter, writes a second one while
the first is on its way, and polls for each of them until it is there to be read. -/
def loopScript : List UartAccess :=
  [.write 3 0x80, .write 0 1, .write 3 0x03, .write 4 0x10, .read 5 0x60, .write 0 0x41] ++
    List.replicate 24 (.read 5 0) ++
    [.read 5 0x20, .write 0 0x42, .read 5 0x01, .read 0 0x41] ++
    List.replicate 22 (.read 5 0) ++
    [.read 5 0x20, .read 5 0x20, .read 5 0x20, .read 5 0x61, .read 0 0x42]

/-- The run in which these accesses are made, with the line high. -/
def loopRun : Run := script true (loopScript[·]?)

/-- After the first four accesses the UART is in loopback and at rest, with an empty FIFO on either
side. -/
theorem loopRun_atRest : (loopRun.regs.state 24).AtRest 0x03 where
  lcr := by decide +kernel
  dlab := by decide +kernel
  noBreak := by decide +kernel
  loopback := by decide +kernel
  txReset := by decide +kernel
  rxReset := by decide +kernel
  tfPush := by decide +kernel
  rfPop := by decide +kernel
  data := by decide +kernel
  quiet := ⟨by decide +kernel, by decide +kernel, by decide +kernel, by decide +kernel,
    ⟨by decide +kernel, by decide +kernel⟩, by decide +kernel⟩
  listening := ⟨by decide +kernel, by decide +kernel, by decide +kernel⟩
  valid := ⟨by decide +kernel, by decide +kernel⟩
  empty := by decide +kernel

/-- What has been done before a cycle is the beginning of the script. -/
theorem loopRun_made (t : ℕ) : loopRun.regs.made t <+: loopScript := by
  have hmade : loopRun.regs.made (6 * loopScript.length) = loopScript := by decide +kernel
  rcases Nat.le_total t (6 * loopScript.length) with ht | ht
  · have hstarts := loopRun.regs.made_prefix ht
    rwa [hmade] at hstarts
  · have hall : loopRun.regs.made t = loopRun.regs.made (6 * loopScript.length) :=
      script_made_of_le (fun _ hk => List.getElem?_eq_none hk) ht
    rw [hall, hmade]

/-- What has been done from cycle 24 on is a beginning of what the script does behind its first four
accesses. -/
theorem loopRun_since (t : ℕ) : loopRun.regs.since 24 t <+: loopScript.drop 4 := by
  have hstarts := loopRun_made (24 + t)
  have hbefore : loopRun.regs.made 24 = loopScript.take 4 := by decide +kernel
  have hscript : loopScript = loopScript.take 4 ++ loopScript.drop 4 := rfl
  rw [hscript, UartRegs.Run.made_add, hbefore] at hstarts
  exact (List.prefix_append_right_inj _).mp hstarts

/-- The master of the script holds its requests until they are acknowledged. -/
theorem loopRun_holds : loopRun.Holds := script_holds

/-- The software of the script is what the theorem asks for. -/
theorem loopRun_loops : loopRun.regs.Loops 0x03 24 where
  atRest := loopRun_atRest
  keeps t a ha := by
    -- what the script does, any beginning of it does too
    have hall : ∀ a ∈ loopScript.drop 4, a.Keeps := by decide
    exact hall a ((loopRun_since t).subset ha)
  polled t := by
    have hall : Polled loopScript := by decide
    obtain ⟨rest, hrest⟩ := loopRun_made t
    rw [← hrest] at hall
    exact hall.of_append
  drained t := by
    have hall : Drained (loopScript.drop 4) := by decide
    obtain ⟨rest, hrest⟩ := loopRun_since t
    rw [← hrest] at hall
    exact hall.of_append
  window t := by
    -- there are two letters in the whole script
    have hlen := ((loopRun_since t).filterMap written).length_le
    have htwo : ((loopScript.drop 4).filterMap written).length = 2 := by decide
    omega

/-- With two letters, of which the second is written while the first is on its way: what has been
read up to a cycle, and what will be there to be read when both have arrived. -/
theorem loops_back_letters :
    (loopRun.regs.since 24 342).filterMap readOut <+:
        ((loopRun.regs.since 24 342).filterMap written).map (carried 0x03) ∧
      ∀ v, 342 < v →
        (∀ u, 342 ≤ u → u < v →
          ((loopRun.regs.state (24 + u)).accesses (loopRun.regs.inp (24 + u))).filterMap written =
            []) →
        (loopRun.regs.reception 24).ticks (342 + 1) +
            (UartTransmitter.format 0x03).ticks * 17 ≤ (loopRun.regs.reception 24).ticks v →
        (loopRun.regs.since 24 (v + 1)).filterMap readOut ++
            (loopRun.regs.state (24 + (v + 1))).unread.map entryByte =
          ((loopRun.regs.since 24 342).filterMap written).map (carried 0x03) :=
  loops_back loopRun_holds loopRun_loops 342

end UartTop.Run

end RvPipelineCore

import Mathlib.Data.BitVec
import Mathlib.Data.List.Basic

/-!
# The UART string writers

`uart_write_str` of `sw/uart_lib`, in assembly and in C. Both poll the line status before each
character. The assembly looks for the end of the string behind a character that it has written, so
it writes the NUL of an empty string and reads on.

- `UartLib.Assembly.nextChar_writes`: what the assembly writes of a string that is not empty;
- `UartLib.CLang.forLoop_writes`: what the C code writes before `i` overflows;
- `UartLib.agree_iff`: when the two agree.
-/

namespace RvPipelineCore

namespace UartLib

/-! ## Accesses -/

/-- An access of a writer: a byte of the string is read, the line status is read, or a byte or a
word is stored to `UART_TX_HOLD_REG`. -/
inductive Event
  | load (adr : BitVec 32)
  | status (word : BitVec 32)
  | sb (data : BitVec 8)
  | sw (data : BitVec 32)
  deriving DecidableEq

/-- The byte that is stored to the transmit register, which has the low lane of the bus. -/
def Event.sent : Event → Option (BitVec 8)
  | .sb data => some data
  | .sw data => some (data.setWidth 8)
  | _ => none

/-- How a writer ends on some line-status values: it polls for another one, it has returned and left
some unread, or a signed integer has overflowed. -/
inductive Outcome
  | polling
  | returned (rest : List (BitVec 32))
  | undefined

/-- The accesses that a writer makes, in order, and how it ends on the statuses given to it. -/
structure Trace where
  events : List Event
  outcome : Outcome

/-- A trace with some accesses put in front of it. -/
def Trace.after (events : List Event) (t : Trace) : Trace := ⟨events ++ t.events, t.outcome⟩

/-- A trace is its accesses in front of an empty trace with its outcome. -/
theorem Trace.after_nil (t : Trace) : Trace.after t.events ⟨[], t.outcome⟩ = t := by
  rw [Trace.after, List.append_nil]

/-- `UART_FIFO_TX_EMPTY`: the mask of the TX-empty bit in the line status. -/
def uartFifoTxEmpty : BitVec 32 := 0x20

/-! ## The writers -/

section Source

variable (mem : BitVec 32 → BitVec 8)

/-- The loop `next_char` of the assembly: it polls the status, stores the character once the
transmitter is empty, and goes on with the next one unless it is NUL. -/
def Assembly.nextChar (t1 a0 : BitVec 32) : List (BitVec 32) → Trace
  | [] => ⟨[], .polling⟩
  | word :: rest =>
    let t2 := (word.setWidth 8).signExtend 32
    if t2 &&& uartFifoTxEmpty = 0 then (nextChar t1 a0 rest).after [.status word]
    else
      let t1' := (mem (a0 + 1)).signExtend 32
      Trace.after [.status word, .sb (t1.setWidth 8), .load (a0 + 1)]
        (if t1' ≠ 0 then nextChar t1' (a0 + 1) rest else ⟨[], .returned rest⟩)

/-- `uart_write_str` of the assembly: it loads the first character and enters the loop without
looking at it. -/
def Assembly.uartWriteStr (a0 : BitVec 32) (words : List (BitVec 32)) : Trace :=
  (nextChar mem ((mem a0).signExtend 32) a0 words).after [.load a0]

/-- `uart_write_char` of the C code: it polls the status and then stores the character. A `char` is
unsigned here. -/
def CLang.uartWriteChar (c : BitVec 8) : List (BitVec 32) → Trace
  | [] => ⟨[], .polling⟩
  | word :: rest =>
    if word &&& uartFifoTxEmpty = 0 then (uartWriteChar c rest).after [.status word]
    else ⟨[.status word, .sw (c.setWidth 32)], .returned rest⟩

/-- `strlen`, looking at so many bytes at most, so that it is defined for every memory. -/
def CLang.strlenUpTo : ℕ → BitVec 32 → ℕ
  | 0, _ => 0
  | n + 1, string => if mem string = 0 then 0 else strlenUpTo n (string + 1) + 1

/-- `strlen`: the number of bytes before the first NUL, looking at the whole address space at
most. -/
def CLang.strlen (string : BitVec 32) : ℕ := strlenUpTo mem (2 ^ 32) string

/-- The bytes that `strlen` reads: those of the string and the NUL behind it. -/
def CLang.strlenReads (string : BitVec 32) : List Event :=
  (List.range (strlen mem string + 1)).map fun i => .load (string + BitVec.ofNat 32 i)

/-- The loop of `uart_write_str` of the C code. `left` is how often `int i` can be incremented. -/
def CLang.forLoop (string : BitVec 32) (left i : ℕ) (words : List (BitVec 32)) : Trace :=
  Trace.after (strlenReads mem string) <|
    if i < strlen mem string then
      let char := uartWriteChar (mem (string + BitVec.ofNat 32 i)) words
      Trace.after (.load (string + BitVec.ofNat 32 i) :: char.events) <|
        match char.outcome, left with
        | .returned rest, left + 1 => forLoop string left (i + 1) rest
        | .returned _, 0 => ⟨[], .undefined⟩
        | outcome, _ => ⟨[], outcome⟩
    else ⟨[], .returned words⟩

/-- `uart_write_str` of the C code, whose loop variable is a signed integer of 32 bits. -/
def CLang.uartWriteStr (string : BitVec 32) (words : List (BitVec 32)) : Trace :=
  forLoop mem string (2 ^ 31 - 1) 0 words

end Source

/-! ## What a writer should do -/

/-- The string `s` is in memory at `adr`, with a NUL behind it. -/
structure StringAt (mem : BitVec 32 → BitVec 8) (adr : BitVec 32) (s : List (BitVec 8)) :
    Prop where
  byte : ∀ i (hi : i < s.length), mem (adr + BitVec.ofNat 32 i) = s[i]
  nonzero : ∀ c ∈ s, c ≠ 0
  nul : mem (adr + BitVec.ofNat 32 s.length) = 0

/-- The TX-empty bit of a line status, which tells that a byte may be stored. -/
def txEmpty (word : BitVec 32) : Bool := word.getLsbD 5

/-- Every store is preceded by a status with the TX-empty bit, without another status or store in
between. `ready` says whether there has been such a status before. -/
def Guarded : Bool → List Event → Prop
  | _, [] => True
  | ready, .load _ :: events => Guarded ready events
  | _, .status word :: events => Guarded (txEmpty word) events
  | ready, .sb _ :: events => ready = true ∧ Guarded false events
  | ready, .sw _ :: events => ready = true ∧ Guarded false events

/-- From character `i` of the string `s` at `adr` on, a writer that reads a status with the TX-empty
bit `n` times stores the characters one by one, and then returns. Of an empty string nothing is
stored. -/
structure Writes (adr : BitVec 32) (s : List (BitVec 8)) (i n : ℕ) (t : Trace) : Prop where
  sent : t.events.filterMap Event.sent = (s.drop i).take n
  guarded : Guarded false t.events
  inside : ∀ p, .load p ∈ t.events → ∃ j ≤ s.length, p = adr + BitVec.ofNat 32 j
  defined : t.outcome ≠ .undefined
  returned : s ≠ [] → s.length ≤ i + n → ∃ rest, t.outcome = .returned rest

/-- The status that an access reads, if it reads one. -/
def Event.polled : Event → Option (BitVec 32)
  | .status word => some word
  | _ => none

/-- The statuses that a writer reads are the first ones of those given to it. If it returns, it
leaves the others. -/
def Consumes (words : List (BitVec 32)) (t : Trace) : Prop :=
  ∃ left, words = t.events.filterMap Event.polled ++ left ∧
    ∀ rest, t.outcome = .returned rest → rest = left

/-- Accesses that are guarded without a status before them are also guarded behind one. -/
theorem Guarded.of_false {events : List Event} (h : Guarded false events) :
    Guarded true events := by
  induction events with
  | nil => trivial
  | cons event events ih =>
    cases event with
    | load _ => exact ih h
    | status _ => exact h
    | sb _ => exact absurd h.1 Bool.false_ne_true
    | sw _ => exact absurd h.1 Bool.false_ne_true

/-- Guarded accesses followed by accesses that begin with a status of their own are guarded. -/
theorem Guarded.append {ready : Bool} {events events' : List Event} (h : Guarded ready events)
    (h' : Guarded false events') : Guarded ready (events ++ events') := by
  induction events generalizing ready with
  | nil =>
    cases ready with
    | false => exact h'
    | true => exact h'.of_false
  | cons event events ih =>
    cases event with
    | load _ => exact ih h
    | status _ => exact ih h
    | sb _ => exact ⟨h.1, ih h.2⟩
    | sw _ => exact ⟨h.1, ih h.2⟩

/-- Masking a status with `UART_FIFO_TX_EMPTY` gives zero if and only if its TX-empty bit is
clear. -/
theorem and_uartFifoTxEmpty (word : BitVec 32) :
    word &&& uartFifoTxEmpty = 0 ↔ txEmpty word = false := by
  have hmask : uartFifoTxEmpty = BitVec.twoPow 32 5 := by decide
  rw [hmask, BitVec.and_twoPow, txEmpty]
  cases word.getLsbD 5 <;> decide

/-- The byte that the assembly loads has the TX-empty bit of the word. -/
theorem txEmpty_byte (word : BitVec 32) :
    txEmpty ((word.setWidth 8).signExtend 32) = txEmpty word := by
  rw [txEmpty, BitVec.getLsbD_signExtend, BitVec.getLsbD_setWidth]
  rfl

variable {mem : BitVec 32 → BitVec 8} {adr : BitVec 32} {s : List (BitVec 8)} {i : ℕ}
  {words : List (BitVec 32)}

namespace StringAt

/-- The address space is not big enough for a longer string. -/
theorem length_lt (h : StringAt mem adr s) : s.length < 2 ^ 32 := by
  by_contra hlen
  have hlt : s.length - 2 ^ 32 < s.length := by omega
  have hwrap : BitVec.ofNat 32 s.length = BitVec.ofNat 32 (s.length - 2 ^ 32) := by
    apply BitVec.eq_of_toNat_eq
    rw [BitVec.toNat_ofNat, BitVec.toNat_ofNat]
    omega
  have hnul := h.nul
  rw [hwrap, h.byte _ hlt] at hnul
  exact h.nonzero _ (List.getElem_mem hlt) hnul

/-- The characters of a string in memory are not NUL. -/
theorem ne_zero (h : StringAt mem adr s) (hi : i < s.length) :
    mem (adr + BitVec.ofNat 32 i) ≠ 0 := by
  rw [h.byte i hi]
  exact h.nonzero _ (List.getElem_mem hi)

/-- The address after that of character `i` is the address of the next character. -/
theorem add_one (adr : BitVec 32) (i : ℕ) :
    adr + BitVec.ofNat 32 i + 1 = adr + BitVec.ofNat 32 (i + 1) := by
  rw [BitVec.add_assoc, BitVec.ofNat_add]
  rfl

/-- The address of the first character is that of the string. -/
theorem add_zero (adr : BitVec 32) : adr + BitVec.ofNat 32 0 = adr := BitVec.add_zero adr

/-- Counted from character `i` on, `strlen` gives the number of the remaining characters, if it may
look at so many. -/
theorem strlenUpTo (h : StringAt mem adr s) {n : ℕ} (hi : i ≤ s.length)
    (hn : s.length ≤ i + n) :
    CLang.strlenUpTo mem n (adr + BitVec.ofNat 32 i) = s.length - i := by
  induction n generalizing i with
  | zero =>
    rw [CLang.strlenUpTo]
    omega
  | succ n ih =>
    rw [CLang.strlenUpTo]
    rcases hi.lt_or_eq with hlt | rfl
    · rw [if_neg (h.ne_zero hlt), add_one, ih hlt (by omega)]
      omega
    · rw [if_pos h.nul, Nat.sub_self]

/-- `strlen` of a string in memory is the length of the string. -/
theorem strlen (h : StringAt mem adr s) : CLang.strlen mem adr = s.length := by
  have hlen := h.length_lt
  have hall := h.strlenUpTo (i := 0) (n := 2 ^ 32) (Nat.zero_le _) (by omega)
  rwa [add_zero] at hall

end StringAt

section Steps

variable {n : ℕ} {t : Trace} {word : BitVec 32}

/-- A writer that has characters left and has seen no TX-empty bit is polling, and has stored
nothing. -/
theorem Writes.polling (hi : s ≠ [] → i < s.length) : Writes adr s i 0 ⟨[], .polling⟩ :=
  ⟨rfl, trivial, by simp, by simp, fun hs hlen => absurd (hi hs) (by omega)⟩

/-- A writer that has no characters left returns without a store. -/
theorem Writes.finish (hi : i = s.length) (n : ℕ) (rest : List (BitVec 32)) :
    Writes adr s i n ⟨[], .returned rest⟩ :=
  ⟨by simp [hi], trivial, by simp, by simp, fun _ _ => ⟨rest, rfl⟩⟩

/-- A status without the TX-empty bit in front of a trace changes nothing about what it writes. -/
theorem Writes.poll (hword : txEmpty word = false) (h : Writes adr s i n t) :
    Writes adr s i n (t.after [.status word]) := by
  obtain ⟨sent, guarded, inside, defined, returned⟩ := h
  refine ⟨sent, ?_, fun p hp => inside p (by simpa [Trace.after] using hp), defined, returned⟩
  rw [← hword] at guarded
  exact guarded

/-- A load from the string in front of a trace changes nothing about what it writes. -/
theorem Writes.load {p : BitVec 32} (hp : ∃ j ≤ s.length, p = adr + BitVec.ofNat 32 j)
    (h : Writes adr s i n t) : Writes adr s i n (t.after [.load p]) := by
  obtain ⟨sent, guarded, inside, defined, returned⟩ := h
  refine ⟨sent, guarded, fun q hq => ?_, defined, returned⟩
  rcases List.mem_cons.mp hq with heq | hq
  · rwa [Event.load.inj heq]
  · exact inside q hq

/-- A status with the TX-empty bit, and a store of the next character. -/
theorem Writes.store {store : Event} (hi : i < s.length) (hword : txEmpty word = true)
    (hstore : store = .sb s[i] ∨ store = .sw (s[i].setWidth 32)) (h : Writes adr s (i + 1) n t) :
    Writes adr s i (n + 1) (t.after [.status word, store]) := by
  obtain ⟨sent, guarded, inside, defined, returned⟩ := h
  have hsent : store.sent = some s[i] := by
    rcases hstore with rfl | rfl
    · rfl
    · rw [Event.sent, BitVec.setWidth_setWidth_of_le _ (by decide), BitVec.setWidth_eq]
  refine ⟨?_, ?_, fun p hp => ?_, defined, fun hs hlen => returned hs (by omega)⟩
  · rw [List.drop_eq_getElem_cons hi, List.take_succ_cons, ← sent]
    exact (List.filterMap_cons_none rfl).trans (List.filterMap_cons_some hsent)
  · rcases hstore with rfl | rfl <;> exact ⟨hword, guarded⟩
  · have hne : Event.load p ≠ store := by
      rcases hstore with rfl | rfl <;> simp
    exact inside p (by simpa [Trace.after, hne] using hp)

/-- A writer that does nothing leaves all its statuses, whether it has returned or not. -/
theorem Consumes.nil (words : List (BitVec 32)) {outcome : Outcome}
    (h : outcome = .polling ∨ outcome = .returned words) : Consumes words ⟨[], outcome⟩ := by
  refine ⟨words, rfl, fun rest hrest => ?_⟩
  rcases h with rfl | rfl
  · cases hrest
  · exact (Outcome.returned.inj hrest).symm

/-- Accesses in front of a trace read the first statuses. -/
theorem Consumes.after (h : Consumes words t) (events : List Event) :
    Consumes (events.filterMap Event.polled ++ words) (t.after events) := by
  obtain ⟨left, hwords, hleft⟩ := h
  refine ⟨left, ?_, hleft⟩
  change _ = (events ++ t.events).filterMap Event.polled ++ left
  rw [List.filterMap_append, List.append_assoc, ← hwords]

end Steps

/-! ## The assembly -/

namespace Assembly

/-- The assembly loop polls again after a status without the TX-empty bit. -/
theorem nextChar_polls {word : BitVec 32} (hword : txEmpty word = false) (t1 a0 : BitVec 32) :
    nextChar mem t1 a0 (word :: words) = (nextChar mem t1 a0 words).after [.status word] := by
  rw [nextChar]
  exact if_pos ((and_uartFifoTxEmpty _).mpr ((txEmpty_byte word).trans hword))

/-- On a status with the TX-empty bit the assembly loop stores its character, loads the next one,
and ends if that is NUL. -/
theorem nextChar_stores {word : BitVec 32} (hword : txEmpty word = true) (t1 a0 : BitVec 32) :
    nextChar mem t1 a0 (word :: words) =
      Trace.after [.status word, .sb (t1.setWidth 8), .load (a0 + 1)]
        (if (mem (a0 + 1)).signExtend 32 ≠ 0 then
          nextChar mem ((mem (a0 + 1)).signExtend 32) (a0 + 1) words
        else ⟨[], .returned words⟩) := by
  have hbyte : txEmpty ((word.setWidth 8).signExtend 32) ≠ false := by
    rw [txEmpty_byte, hword]
    decide
  rw [nextChar]
  exact if_neg ((and_uartFifoTxEmpty _).not.mpr hbyte)

/-- The low byte of a character extended by its sign is the character. -/
theorem setWidth_signExtend (c : BitVec 8) : (c.signExtend 32).setWidth 8 = c := by
  apply BitVec.eq_of_getLsbD_eq
  intro j hj
  have hj32 : j < 32 := by omega
  rw [BitVec.getLsbD_setWidth, BitVec.getLsbD_signExtend, if_pos hj, decide_eq_true hj,
    decide_eq_true hj32, Bool.true_and, Bool.true_and]

/-- A character extended by its sign is zero if and only if it is NUL. -/
theorem signExtend_eq_zero (c : BitVec 8) : c.signExtend 32 = 0 ↔ c = 0 := by
  constructor
  · intro h
    rw [← setWidth_signExtend c, h]
    rfl
  · rintro rfl
    rfl

/-- From a character of the string on, the loop writes the rest. -/
theorem nextChar_writes (h : StringAt mem adr s) (words : List (BitVec 32)) (hi : i < s.length) :
    Writes adr s i (words.countP txEmpty)
      (nextChar mem ((mem (adr + BitVec.ofNat 32 i)).signExtend 32) (adr + BitVec.ofNat 32 i)
        words) := by
  induction words generalizing i with
  | nil => exact .polling fun _ => hi
  | cons word words ih =>
    cases hword : txEmpty word with
    | false =>
      rw [nextChar_polls hword, List.countP_cons_of_neg (by simp [hword])]
      exact (ih hi).poll hword
    | true =>
      rw [nextChar_stores hword, List.countP_cons_of_pos hword, StringAt.add_one,
        setWidth_signExtend, h.byte i hi]
      -- the byte loaded behind the character is the next one or the NUL
      rcases Nat.lt_or_eq_of_le (Nat.succ_le_of_lt hi) with hnext | hlast
      · rw [if_pos ((signExtend_eq_zero _).not.mpr (h.ne_zero hnext))]
        exact ((ih hnext).load ⟨i + 1, hnext.le, rfl⟩).store hi hword (.inl rfl)
      · have hnul : mem (adr + BitVec.ofNat 32 (i + 1)) = 0 := by
          rw [← Nat.succ_eq_add_one, hlast]
          exact h.nul
        rw [if_neg (not_not.mpr ((signExtend_eq_zero _).mpr hnul))]
        exact ((Writes.finish hlast _ words).load ⟨i + 1, hlast.le, rfl⟩).store hi hword (.inl rfl)

/-- As long as no status has the TX-empty bit, the assembly loop stores nothing and goes on
polling. -/
theorem nextChar_waits (hi : s ≠ [] → i < s.length) (t1 a0 : BitVec 32)
    (hnone : words.countP txEmpty = 0) : Writes adr s i 0 (nextChar mem t1 a0 words) := by
  induction words with
  | nil => exact .polling hi
  | cons word words ih =>
    cases hword : txEmpty word with
    | false =>
      rw [List.countP_cons_of_neg (by simp [hword])] at hnone
      rw [nextChar_polls hword]
      exact (ih hnone).poll hword
    | true =>
      rw [List.countP_cons_of_pos hword] at hnone
      omega

/-- The assembly loop stores a character on the first status with the TX-empty bit, before it looks
for the end of the string. -/
theorem sent_nextChar_ne_nil (t1 a0 : BitVec 32) (hwords : 0 < words.countP txEmpty) :
    (nextChar mem t1 a0 words).events.filterMap Event.sent ≠ [] := by
  induction words with
  | nil => simp at hwords
  | cons word words ih =>
    cases hword : txEmpty word with
    | false =>
      rw [List.countP_cons_of_neg (by simp [hword])] at hwords
      rw [nextChar_polls hword]
      exact ih hwords
    | true =>
      rw [nextChar_stores hword]
      simp [Trace.after, Event.sent]

/-- The assembly loop reads its statuses in order. -/
theorem nextChar_consumes (t1 a0 : BitVec 32) (words : List (BitVec 32)) :
    Consumes words (nextChar mem t1 a0 words) := by
  induction words generalizing t1 a0 with
  | nil => exact .nil _ (.inl rfl)
  | cons word words ih =>
    rw [nextChar]
    dsimp only
    split_ifs
    · exact (ih _ _).after [.status word]
    · exact (ih _ _).after [.status word, .sb _, .load _]
    · exact (Consumes.nil words (.inr rfl)).after [.status word, .sb _, .load _]

/-- `uart_write_str` of the assembly reads its statuses in order. -/
theorem uartWriteStr_consumes (a0 : BitVec 32) (words : List (BitVec 32)) :
    Consumes words (uartWriteStr mem a0 words) :=
  (nextChar_consumes _ _ words).after [.load a0]

end Assembly

/-! ## The C code -/

namespace CLang

/-- The C function polls again after a status without the TX-empty bit. -/
theorem uartWriteChar_polls {word : BitVec 32} (hword : txEmpty word = false) (c : BitVec 8) :
    uartWriteChar c (word :: words) = (uartWriteChar c words).after [.status word] := by
  rw [uartWriteChar]
  exact if_pos ((and_uartFifoTxEmpty _).mpr hword)

/-- On a status with the TX-empty bit the C function stores its character and returns. -/
theorem uartWriteChar_stores {word : BitVec 32} (hword : txEmpty word = true) (c : BitVec 8) :
    uartWriteChar c (word :: words) =
      ⟨[.status word, .sw (c.setWidth 32)], .returned words⟩ := by
  rw [uartWriteChar]
  exact if_neg ((and_uartFifoTxEmpty _).not.mpr (by simp [hword]))

/-- A character is written unless no status has the TX-empty bit. What comes then may follow. -/
theorem uartWriteChar_cases (adr : BitVec 32) (words : List (BitVec 32)) (hi : i < s.length) :
    (words.countP txEmpty = 0 ∧ (uartWriteChar s[i] words).outcome = .polling ∧
        Writes adr s i 0 (uartWriteChar s[i] words)) ∨
      ∃ rest, words.countP txEmpty = rest.countP txEmpty + 1 ∧
        (uartWriteChar s[i] words).outcome = .returned rest ∧
        ∀ n t, Writes adr s (i + 1) n t →
          Writes adr s i (n + 1) (t.after (uartWriteChar s[i] words).events) := by
  induction words with
  | nil => exact .inl ⟨rfl, rfl, .polling fun _ => hi⟩
  | cons word words ih =>
    cases hword : txEmpty word with
    | false =>
      rw [uartWriteChar_polls hword, List.countP_cons_of_neg (by simp [hword])]
      -- the status is read in vain, whatever becomes of the character
      rcases ih with ⟨hcount, hout, hwrites⟩ | ⟨rest, hcount, hout, hwrites⟩
      · exact .inl ⟨hcount, hout, hwrites.poll hword⟩
      · exact .inr ⟨rest, hcount, hout, fun n t ht => (hwrites n t ht).poll hword⟩
    | true =>
      rw [uartWriteChar_stores hword, List.countP_cons_of_pos hword]
      exact .inr ⟨words, rfl, rfl, fun n t ht => ht.store hi hword (.inr rfl)⟩

/-- The reads of `strlen` in front of a trace are loads from the string and its NUL, which change
nothing about what is written. -/
theorem Writes.reads {n : ℕ} {t : Trace} (h : StringAt mem adr s) (ht : Writes adr s i n t) :
    Writes adr s i n (t.after (strlenReads mem adr)) := by
  have hall (js : List ℕ) (hjs : ∀ j ∈ js, j ≤ s.length) :
      Writes adr s i n (t.after (js.map fun j => .load (adr + BitVec.ofNat 32 j))) := by
    induction js with
    | nil => exact ht
    | cons j js ih =>
      exact (ih fun k hk => hjs k (List.mem_cons_of_mem _ hk)).load
        ⟨j, hjs j List.mem_cons_self, rfl⟩
  refine hall _ fun j hj => ?_
  rw [List.mem_range, h.strlen] at hj
  omega

/-- At the end of the string the loop of the C code compares once more and returns. -/
theorem forLoop_end (h : StringAt mem adr s) (left : ℕ) :
    forLoop mem adr left s.length words =
      Trace.after (strlenReads mem adr) ⟨[], .returned words⟩ := by
  rw [forLoop, h.strlen, if_neg (Nat.lt_irrefl _)]

/-- At a character it waits for the transmitter and goes on behind it. -/
theorem forLoop_char (h : StringAt mem adr s) (left : ℕ) (hi : i < s.length) :
    forLoop mem adr left i words =
      Trace.after (strlenReads mem adr) (Trace.after [.load (adr + BitVec.ofNat 32 i)]
        (Trace.after (uartWriteChar s[i] words).events
          (match (uartWriteChar s[i] words).outcome, left with
          | .returned rest, left + 1 => forLoop mem adr left (i + 1) rest
          | .returned _, 0 => ⟨[], .undefined⟩
          | outcome, _ => ⟨[], outcome⟩))) := by
  rw [forLoop, h.strlen, if_pos hi, h.byte i hi]
  rfl

/-- As long as no status has the TX-empty bit, the loop of the C code stores nothing and goes on
polling. -/
theorem forLoop_waits (h : StringAt mem adr s) (left : ℕ) (hi : i < s.length)
    (hout : (uartWriteChar s[i] words).outcome = .polling)
    (hwrites : Writes adr s i 0 (uartWriteChar s[i] words)) :
    Writes adr s i 0 (forLoop mem adr left i words) := by
  rw [forLoop_char h left hi, hout]
  refine Writes.reads h (.load ⟨i, hi.le, rfl⟩ ?_)
  rw [← Trace.after_nil (uartWriteChar s[i] words), hout] at hwrites
  exact hwrites

/-- While `i` cannot overflow, the loop writes the rest of the string. -/
theorem forLoop_writes (h : StringAt mem adr s) {left : ℕ} (hi : i ≤ s.length)
    (hleft : left < s.length - i → words.countP txEmpty ≤ left) :
    Writes adr s i (words.countP txEmpty) (forLoop mem adr left i words) := by
  induction left generalizing i words with
  | zero =>
    -- `i` may not be incremented any more, so that no character may be written
    rcases hi.lt_or_eq with hlt | rfl
    · have hnone := hleft (by omega)
      rcases uartWriteChar_cases adr words hlt with
        ⟨hcount, hout, hwrites⟩ | ⟨rest, hcount, -, -⟩
      · rw [hcount]
        exact forLoop_waits h 0 hlt hout hwrites
      · omega
    · rw [forLoop_end h]
      exact Writes.reads h (.finish rfl _ _)
  | succ left ih =>
    rcases hi.lt_or_eq with hlt | rfl
    -- the character is written, or all remaining statuses are read in vain
    · rcases uartWriteChar_cases adr words hlt with
        ⟨hcount, hout, hwrites⟩ | ⟨rest, hcount, hout, hwrites⟩
      · rw [hcount]
        exact forLoop_waits h _ hlt hout hwrites
      · rw [forLoop_char h _ hlt, hout, hcount]
        exact Writes.reads h (.load ⟨i, hi, rfl⟩
          (hwrites _ _ (ih hlt fun hlen => by have := hleft (by omega); omega)))
    · rw [forLoop_end h]
      exact Writes.reads h (.finish rfl _ _)

/-- For a string that is longer than the loop variable can count, and with enough statuses, the loop
variable overflows, which C leaves undefined. -/
theorem forLoop_undefined (h : StringAt mem adr s) {left : ℕ} (hi : i + left < s.length)
    (hwords : left < words.countP txEmpty) :
    (forLoop mem adr left i words).outcome = .undefined := by
  induction left generalizing i words with
  | zero =>
    have hlt : i < s.length := by omega
    rcases uartWriteChar_cases adr words hlt with
      ⟨hcount, -, -⟩ | ⟨rest, -, hout, -⟩
    -- there are more statuses with the bit than increments, so that the character is written
    · omega
    · rw [forLoop_char h 0 hlt, hout]
      rfl
  | succ left ih =>
    have hlt : i < s.length := by omega
    rcases uartWriteChar_cases adr words hlt with
      ⟨hcount, -, -⟩ | ⟨rest, hcount, hout, -⟩
    · omega
    · rw [forLoop_char h _ hlt, hout]
      exact ih (by omega) (by omega)

end CLang

/-! ## The two together -/

/-- Both writers store the same bytes, those of the string, as long as the status allows it. -/
structure Agree (mem : BitVec 32 → BitVec 8) (adr : BitVec 32) (s : List (BitVec 8))
    (words : List (BitVec 32)) : Prop where
  same : (Assembly.uartWriteStr mem adr words).events.filterMap Event.sent =
    (CLang.uartWriteStr mem adr words).events.filterMap Event.sent
  assembly : Writes adr s 0 (words.countP txEmpty) (Assembly.uartWriteStr mem adr words)
  cLang : Writes adr s 0 (words.countP txEmpty) (CLang.uartWriteStr mem adr words)

/-- The writers agree unless the string is empty and the transmitter becomes empty, or the string is
so long that `i` overflows. -/
theorem agree_iff (h : StringAt mem adr s) (words : List (BitVec 32)) :
    Agree mem adr s words ↔ (s = [] → words.countP txEmpty = 0) ∧
      (2 ^ 31 ≤ s.length → words.countP txEmpty < 2 ^ 31) := by
  constructor
  · rintro ⟨-, hasm, hc⟩
    refine ⟨fun hs => ?_, fun hlen => ?_⟩
    -- of the empty string the assembly writes a byte, if it ever can
    · by_contra hcount
      have hsent := hasm.sent
      rw [hs, List.drop_nil, List.take_nil] at hsent
      exact Assembly.sent_nextChar_ne_nil _ _ (Nat.pos_of_ne_zero hcount) hsent
    -- of a string that is too long the C code writes characters until `i` overflows
    · by_contra hcount
      exact hc.defined (CLang.forLoop_undefined h (by omega) (by omega))
  · rintro ⟨hempty, hlong⟩
    have hc : Writes adr s 0 (words.countP txEmpty) (CLang.uartWriteStr mem adr words) :=
      CLang.forLoop_writes h (Nat.zero_le _) (by omega)
    have hasm : Writes adr s 0 (words.countP txEmpty) (Assembly.uartWriteStr mem adr words) := by
      rw [Assembly.uartWriteStr]
      refine .load ⟨0, Nat.zero_le _, (StringAt.add_zero adr).symm⟩ ?_
      -- of the empty string nothing may be written, and nothing can
      by_cases hs : s = []
      · rw [hempty hs]
        exact Assembly.nextChar_waits (fun hne => absurd hs hne) _ _ (hempty hs)
      · have hwrites := Assembly.nextChar_writes h words (List.length_pos_of_ne_nil hs)
        rwa [StringAt.add_zero] at hwrites
    exact ⟨hasm.sent.trans hc.sent.symm, hasm, hc⟩

/-- The memory of the example: the string "AB" at address 16, and zeros elsewhere. -/
def exampleMem (adr : BitVec 32) : BitVec 8 :=
  if adr = 16 then 0x41 else if adr = 17 then 0x42 else 0

/-- The transmitter is not found empty at the first look, and at the three others it is. -/
theorem agree_iff_two_chars : Agree exampleMem 16 [0x41, 0x42] [0, 0x60, 0x20, 0x60] := by
  have hstr : StringAt exampleMem 16 [0x41, 0x42] := by
    refine ⟨?_, by decide, by decide⟩
    decide
  exact (agree_iff hstr [0, 0x60, 0x20, 0x60]).mpr ⟨by decide, by decide⟩

/-- The assembly stores the NUL of an empty string, where the C code stores nothing, so that the two
disagree. -/
theorem assembly_writes_nul : StringAt (fun _ => 0) 16 [] ∧ ¬ Agree (fun _ => 0) 16 [] [0x60] := by
  refine ⟨⟨fun i hi => absurd hi (Nat.not_lt_zero i), by decide, rfl⟩, fun h => ?_⟩
  exact absurd h.assembly.sent (by decide)

end UartLib

end RvPipelineCore

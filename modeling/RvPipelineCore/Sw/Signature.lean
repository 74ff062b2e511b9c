import Mathlib.Tactic.Ring
import RvPipelineCore.Lib.Serial
import RvPipelineCore.Sw.UartLib

/-!
# The signature of a compliance test

`RVMODEL_HALT` of `riscv-target/rv_core/env` ends a test. With the functions of `sw/uart_lib` it
sends the words between two labels, in hexadecimal and one to a line, and a string behind them.

- `UartLib.hexText`: the digits of a number;
- `UartLib.Sends`: what a writer does that sends a text;
- `UartLib.Assembly.rvmodelHalt_stores`: what `RVMODEL_HALT` sends behind `uart_init`.
-/

namespace RvPipelineCore

namespace UartLib

open Serial

/-- What follows goes on with the status words that are left. -/
def Trace.andThen (t : Trace) (k : List (BitVec 32) → Trace) : Trace :=
  match t.outcome with
  | .returned rest => (k rest).after t.events
  | _ => t

/-! ## The assembly -/

namespace Assembly

section Loops

/-- `uart_send_digit`: the word that it stores for the low four bits, which is the character of the
digit in lower case. -/
def uartSendDigit (t2 : BitVec 32) : BitVec 32 :=
  let t2 := t2 &&& 0xF
  if t2.slt 10 then t2 + 0x30 else t2 + -10 + 0x61

/-- The loop `send_digit`: it polls the status, sends the highest four bits of the word as a digit,
and shifts the word, eight times. -/
def sendDigit (t0 t1 : BitVec 32) : List (BitVec 32) → Trace
  | [] => ⟨[], .polling⟩
  | word :: rest =>
    let t5 := (word.setWidth 8).signExtend 32
    if t5 &&& uartFifoTxEmpty = 0 then (sendDigit t0 t1 rest).after [.status word]
    else
      let t1' := t1 + -1
      Trace.after [.status word, .sw (uartSendDigit (t0 >>> 28))]
        (if t1' ≠ 0 then sendDigit (t0 <<< 4) t1' rest else ⟨[], .returned rest⟩)

/-- `uart_send_byte`: it polls the status and then stores the low byte of its argument. -/
def uartSendByte (a4 : BitVec 32) : List (BitVec 32) → Trace
  | [] => ⟨[], .polling⟩
  | word :: rest =>
    let t1 := (word.setWidth 8).signExtend 32
    if t1 &&& uartFifoTxEmpty = 0 then (uartSendByte a4 rest).after [.status word]
    else ⟨[.status word, .sb (a4.setWidth 8)], .returned rest⟩

variable {t0 t1 a4 : BitVec 32} {words rest : List (BitVec 32)}

/-- A loop that has ended has read a status word. -/
theorem length_lt_of_sendDigit (h : (sendDigit t0 t1 words).outcome = .returned rest) :
    rest.length < words.length := by
  induction words generalizing t0 t1 with
  | nil => cases h
  | cons word words ih =>
    rw [sendDigit] at h
    dsimp only at h
    split_ifs at h
    · exact Nat.lt_succ_of_lt (ih h)
    · exact Nat.lt_succ_of_lt (ih h)
    · obtain rfl := Outcome.returned.inj h
      exact Nat.lt_succ_self _

/-- A call of `uart_send_byte` that returns has used up at least one status. -/
theorem length_lt_of_uartSendByte (h : (uartSendByte a4 words).outcome = .returned rest) :
    rest.length < words.length := by
  induction words with
  | nil => cases h
  | cons word words ih =>
    rw [uartSendByte] at h
    split_ifs at h
    · exact Nat.lt_succ_of_lt (ih h)
    · obtain rfl := Outcome.returned.inj h
      exact Nat.lt_succ_self _

end Loops

section Source

variable (mem : BitVec 32 → BitVec 8)

/-- `lw` from an aligned address: the four bytes from there on, the lowest first. -/
def lw (adr : BitVec 32) : BitVec 32 := mem (adr + 3) ++ mem (adr + 2) ++ mem (adr + 1) ++ mem adr

/-- `uart_send_hex`. Its load reads the four bytes of the word. -/
def uartSendHex (a0 : BitVec 32) (words : List (BitVec 32)) : Trace :=
  (sendDigit (lw mem a0) 8 words).after
    ((List.range 4).map fun i => .load (a0 + BitVec.ofNat 32 i))

/-- A word sent in a line of its own: its eight digits and a newline. -/
def sendLine (a0 : BitVec 32) (words : List (BitVec 32)) : Trace :=
  (uartSendHex mem a0 words).andThen (uartSendByte 0x0a)

/-- Sending a line uses up at least one status, which the loop over the words needs for its
termination. -/
theorem length_lt_of_sendLine {a0 : BitVec 32} {words rest : List (BitVec 32)}
    (h : (sendLine mem a0 words).outcome = .returned rest) : rest.length < words.length := by
  rw [sendLine, Trace.andThen] at h
  split at h
  · next rest' hout =>
    exact (length_lt_of_uartSendByte h).trans (length_lt_of_sendDigit hout)
  · next hout => exact absurd h (hout rest)

/-- The loop `signature_dump_loop`, with a signed comparison of the addresses. -/
def signatureDumpLoop (a0 a1 : BitVec 32) (words : List (BitVec 32)) : Trace :=
  if a1.sle a0 then ⟨[], .returned words⟩
  else
    match _h : (sendLine mem a0 words).outcome with
    | .returned rest =>
      (signatureDumpLoop (a0 + 4) a1 rest).after (sendLine mem a0 words).events
    | _ => sendLine mem a0 words
  termination_by words.length
  decreasing_by exact length_lt_of_sendLine mem _h

/-- `RVMODEL_HALT` behind `uart_init`: the words of the signature, one in a line, and then the
string that stops the simulation. -/
def rvmodelHalt (beginSignature endSignature stopSim : BitVec 32) (words : List (BitVec 32)) :
    Trace :=
  (signatureDumpLoop mem beginSignature endSignature words).andThen (uartWriteStr mem stopSim)

end Source

end Assembly

/-! ## Texts -/

/-- The character of a hexadecimal digit, in lower case. -/
def hexDigit (d : ℕ) : BitVec 8 := BitVec.ofNat 8 (Nat.digitChar d).toNat

/-- The last `k` hexadecimal digits of a number, the most significant first. -/
def hexText : ℕ → ℕ → List (BitVec 8)
  | 0, _ => []
  | k + 1, m => hexDigit (m / 16 ^ k % 16) :: hexText k m

/-- The value of the character of a digit, the inverse of `hexDigit` on digits. -/
def hexDigitValue (c : BitVec 8) : ℕ := if c.toNat < 0x3A then c.toNat - 0x30 else c.toNat - 0x57

/-- The number that a text of digits stands for, the highest digit first. -/
def hexValue (text : List (BitVec 8)) : ℕ := text.foldl (fun n c => 16 * n + hexDigitValue c) 0

/-- The text of a number in `k` digits has `k` characters. -/
theorem length_hexText (k m : ℕ) : (hexText k m).length = k := by
  induction k with
  | zero => rfl
  | succ k ih => rw [hexText, List.length_cons, ih]

/-- The value of the character of a digit is the digit. -/
theorem hexDigitValue_hexDigit {d : ℕ} (hd : d < 16) : hexDigitValue (hexDigit d) = d := by
  have hall : ∀ d < 16, hexDigitValue (hexDigit d) = d := by decide
  exact hall d hd

/-- The character of a digit is not a newline. -/
theorem hexDigit_ne_newline {d : ℕ} (hd : d < 16) : hexDigit d ≠ newline := by
  have hall : ∀ d < 16, hexDigit d ≠ newline := by decide
  exact hall d hd

/-- A text reads as the number that it has been made of. -/
theorem hexValue_hexText (k m : ℕ) : hexValue (hexText k m) = m % 16 ^ k := by
  have hfold (k n : ℕ) :
      (hexText k m).foldl (fun n c => 16 * n + hexDigitValue c) n = n * 16 ^ k + m % 16 ^ k := by
    induction k generalizing n with
    | zero => rw [Nat.pow_zero, Nat.mod_one, Nat.mul_one]; rfl
    | succ k ih =>
      have hd : m / 16 ^ k % 16 < 16 := Nat.mod_lt _ (by decide)
      rw [hexText, List.foldl_cons, ih, hexDigitValue_hexDigit hd, Nat.pow_succ, Nat.mod_mul]
      ring
  rw [hexValue, hfold, Nat.zero_mul, Nat.zero_add]

/-- The text of a number has no newline in it. -/
theorem newline_notMem_hexText (k m : ℕ) : newline ∉ hexText k m := by
  induction k with
  | zero => exact List.not_mem_nil
  | succ k ih =>
    rw [hexText, List.mem_cons, not_or]
    exact ⟨(hexDigit_ne_newline (Nat.mod_lt _ (by decide))).symm, ih⟩

/-! ## What a writer should do -/

/-- With `n` statuses that have the TX-empty bit, the text `s` is stored byte by byte, as far as
they go. -/
structure Stores (s : List (BitVec 8)) (n : ℕ) (t : Trace) : Prop where
  sent : t.events.filterMap Event.sent = s.take n
  guarded : Guarded false t.events

/-- A writer that does so, and returns when it has stored the last byte. -/
structure Sends (s : List (BitVec 8)) (n : ℕ) (t : Trace) : Prop extends Stores s n t where
  polling : n < s.length → t.outcome = .polling
  returned : s.length ≤ n → ∃ rest, t.outcome = .returned rest ∧
    rest.countP txEmpty + s.length = n

section Steps

variable {s s' : List (BitVec 8)} {n : ℕ} {t : Trace} {word : BitVec 32}
  {words : List (BitVec 32)}

/-- A sender with something left to send and no status is polling. -/
theorem Sends.waiting (hs : s ≠ []) : Sends s 0 ⟨[], .polling⟩ :=
  ⟨⟨rfl, trivial⟩, fun _ => rfl, fun h => absurd h (List.length_pos_of_ne_nil hs).not_ge⟩

/-- A sender with nothing left to send returns, and has all its statuses left. -/
theorem Sends.done (words : List (BitVec 32)) :
    Sends [] (words.countP txEmpty) ⟨[], .returned words⟩ :=
  ⟨⟨by simp, trivial⟩, fun h => absurd h (Nat.not_lt_zero _), fun _ => ⟨words, rfl, rfl⟩⟩

/-- A status without the TX-empty bit in front of a trace changes nothing about what it sends. -/
theorem Sends.poll (hword : txEmpty word = false) (h : Sends s n t) :
    Sends s n (t.after [.status word]) := by
  refine ⟨⟨h.sent, ?_⟩, h.polling, h.returned⟩
  have hguarded := h.guarded
  rw [← hword] at hguarded
  exact hguarded

/-- Loads in front of a trace change nothing about what it stores. -/
theorem Stores.load (h : Stores s n t) (adrs : List (BitVec 32)) :
    Stores s n (t.after (adrs.map .load)) := by
  induction adrs with
  | nil => exact h
  | cons adr adrs ih => exact ⟨ih.sent, ih.guarded⟩

/-- Loads in front of a trace change nothing about what it sends. -/
theorem Sends.load (h : Sends s n t) (adrs : List (BitVec 32)) :
    Sends s n (t.after (adrs.map .load)) :=
  ⟨h.toStores.load adrs, h.polling, h.returned⟩

/-- A status with the TX-empty bit, and a store of the next byte. -/
theorem Sends.store {store : Event} {c : BitVec 8} (hword : txEmpty word = true)
    (hstore : store = .sb c ∨ ∃ dat : BitVec 32, dat.setWidth 8 = c ∧ store = .sw dat)
    (h : Sends s n t) : Sends (c :: s) (n + 1) (t.after [.status word, store]) := by
  have hsent : store.sent = some c := by
    rcases hstore with rfl | ⟨dat, rfl, rfl⟩ <;> rfl
  refine ⟨⟨?_, ?_⟩, fun hlt => h.polling (Nat.lt_of_succ_lt_succ hlt), fun hle => ?_⟩
  · rw [List.take_succ_cons, ← h.sent]
    exact (List.filterMap_cons_none rfl).trans (List.filterMap_cons_some hsent)
  · rcases hstore with rfl | ⟨dat, -, rfl⟩ <;> exact ⟨hword, h.guarded⟩
  · obtain ⟨rest, hout, hcount⟩ := h.returned (Nat.le_of_succ_le_succ hle)
    exact ⟨rest, hout, by rw [List.length_cons, ← hcount]; rfl⟩

/-- A writer goes on where the last one has returned. -/
theorem Stores.andThen {k : List (BitVec 32) → Trace} (h : Sends s n t)
    (hk : ∀ rest : List (BitVec 32), Stores s' (rest.countP txEmpty) (k rest)) :
    Stores (s ++ s') n (t.andThen k) := by
  rw [Trace.andThen]
  rcases Nat.lt_or_ge n s.length with hlt | hge
  · rw [h.polling hlt]
    refine ⟨?_, h.guarded⟩
    rw [h.sent, List.take_append_of_le_length hlt.le]
  · obtain ⟨rest, hout, hcount⟩ := h.returned hge
    have hrest : n - s.length = rest.countP txEmpty := by omega
    rw [hout]
    refine ⟨?_, h.guarded.append (hk rest).guarded⟩
    change (t.events ++ (k rest).events).filterMap Event.sent = _
    rw [List.filterMap_append, h.sent, (hk rest).sent, List.take_append, hrest]

/-- A sender followed by another one sends both texts, the second with the statuses that the first
has left. -/
theorem Sends.andThen {k : List (BitVec 32) → Trace} (h : Sends s n t)
    (hk : ∀ rest : List (BitVec 32), Sends s' (rest.countP txEmpty) (k rest)) :
    Sends (s ++ s') n (t.andThen k) := by
  refine ⟨.andThen h fun rest => (hk rest).toStores, fun hlt => ?_, fun hle => ?_⟩
  · rw [List.length_append] at hlt
    rw [Trace.andThen]
    rcases Nat.lt_or_ge n s.length with hlt' | hge
    · rw [h.polling hlt']
      exact h.polling hlt'
    · obtain ⟨rest, hout, hcount⟩ := h.returned hge
      rw [hout]
      exact (hk rest).polling (by omega)
  · rw [List.length_append] at hle ⊢
    obtain ⟨rest, hout, hcount⟩ := h.returned (by omega)
    obtain ⟨rest', hout', hcount'⟩ := (hk rest).returned (by omega)
    rw [Trace.andThen, hout]
    exact ⟨rest', hout', by omega⟩

/-- A writer that goes on where the last one has returned reads the statuses that are left. -/
theorem Consumes.andThen {k : List (BitVec 32) → Trace} (h : Consumes words t)
    (hk : ∀ rest, t.outcome = .returned rest → Consumes rest (k rest)) :
    Consumes words (t.andThen k) := by
  obtain ⟨left, hwords, hleft⟩ := h
  rw [Trace.andThen]
  split
  · next rest hout =>
    obtain rfl := hleft rest hout
    rw [hwords]
    exact (hk rest hout).after t.events
  · next hnot => exact ⟨left, hwords, hleft⟩

end Steps

/-! ## What the assembly does -/

namespace Assembly

variable {mem : BitVec 32 → BitVec 8} {word : BitVec 32} {words : List (BitVec 32)}

/-- The loops poll the low byte of the status: without the TX-empty bit it gives zero under the
mask. -/
theorem and_of_not_txEmpty (hword : txEmpty word = false) :
    (word.setWidth 8).signExtend 32 &&& uartFifoTxEmpty = 0 :=
  (and_uartFifoTxEmpty _).mpr ((txEmpty_byte word).trans hword)

/-- With the TX-empty bit the low byte of the status does not give zero under the mask. -/
theorem and_of_txEmpty (hword : txEmpty word = true) :
    ¬ (word.setWidth 8).signExtend 32 &&& uartFifoTxEmpty = 0 := by
  rw [and_uartFifoTxEmpty, txEmpty_byte, hword]
  decide

/-- `uart_send_byte` sends its byte on the first status with the TX-empty bit. -/
theorem uartSendByte_sends (a4 : BitVec 32) (words : List (BitVec 32)) :
    Sends [a4.setWidth 8] (words.countP txEmpty) (uartSendByte a4 words) := by
  induction words with
  | nil => exact .waiting (List.cons_ne_nil _ _)
  | cons word words ih =>
    cases hword : txEmpty word with
    | false =>
      rw [uartSendByte, if_pos (and_of_not_txEmpty hword),
        List.countP_cons_of_neg (by simp [hword])]
      exact ih.poll hword
    | true =>
      rw [uartSendByte, if_neg (and_of_txEmpty hword), List.countP_cons_of_pos hword]
      exact (Sends.done words).store hword (.inl rfl)

/-- `uart_send_byte` reads its statuses in order. -/
theorem uartSendByte_consumes (a4 : BitVec 32) (words : List (BitVec 32)) :
    Consumes words (uartSendByte a4 words) := by
  induction words with
  | nil => exact .nil _ (.inl rfl)
  | cons word words ih =>
    rw [uartSendByte]
    split_ifs
    · exact ih.after [.status word]
    · exact (Consumes.nil words (.inr rfl)).after [.status word, .sb (a4.setWidth 8)]

/-- The loop `send_digit` reads its statuses in order. -/
theorem sendDigit_consumes (t0 t1 : BitVec 32) (words : List (BitVec 32)) :
    Consumes words (sendDigit t0 t1 words) := by
  induction words generalizing t0 t1 with
  | nil => exact .nil _ (.inl rfl)
  | cons word words ih =>
    rw [sendDigit]
    dsimp only
    split_ifs
    · exact (ih _ _).after [.status word]
    · exact (ih _ _).after [.status word, .sw _]
    · exact (Consumes.nil words (.inr rfl)).after [.status word, .sw _]

/-- The upper four bits of a word become the character of its highest digit. -/
theorem uartSendDigit_eq (t0 : BitVec 32) :
    (uartSendDigit (t0 >>> 28)).setWidth 8 = hexDigit (t0.toNat / 2 ^ 28) := by
  have hall : ∀ d : BitVec 4, (uartSendDigit (d.setWidth 32)).setWidth 8 = hexDigit d.toNat := by
    decide
  have hlt : t0.toNat / 2 ^ 28 < 2 ^ 4 := by
    have := t0.isLt
    omega
  have hd := hall (BitVec.ofNat 4 (t0.toNat / 2 ^ 28))
  rw [BitVec.toNat_ofNat, Nat.mod_eq_of_lt hlt] at hd
  rw [← hd]
  congr 2
  apply BitVec.eq_of_toNat_eq
  rw [BitVec.toNat_ushiftRight, Nat.shiftRight_eq_div_pow, BitVec.toNat_setWidth,
    BitVec.toNat_ofNat, Nat.mod_eq_of_lt hlt, Nat.mod_eq_of_lt (hlt.trans (by decide))]

/-- With `k + 1` digits to go, the register has them in its upper part. -/
theorem sendDigit_sends {k m : ℕ} (hk : k < 8) (words : List (BitVec 32)) :
    Sends (hexText (k + 1) m) (words.countP txEmpty)
      (sendDigit (BitVec.ofNat 32 (m * 16 ^ (7 - k))) (BitVec.ofNat 32 (k + 1)) words) := by
  -- a status word that does not have the bit leaves the registers
  induction words generalizing k with
  | nil => exact .waiting (List.cons_ne_nil _ _)
  | cons word words ih =>
    cases hword : txEmpty word with
    | false =>
      rw [sendDigit, if_pos (and_of_not_txEmpty hword), List.countP_cons_of_neg (by simp [hword])]
      exact (ih hk).poll hword
    | true =>
      have hsplit : (16 : ℕ) ^ 7 = 16 ^ k * 16 ^ (7 - k) := by
        rw [← Nat.pow_add]
        congr 1
        omega
      have hdigit : (BitVec.ofNat 32 (m * 16 ^ (7 - k))).toNat / 2 ^ 28 = m / 16 ^ k % 16 := by
        have h32 : (2 : ℕ) ^ 32 = 2 ^ 28 * 16 := by norm_num
        have h28 : (2 : ℕ) ^ 28 = 16 ^ k * 16 ^ (7 - k) := by rw [← hsplit]; norm_num
        rw [BitVec.toNat_ofNat, h32, Nat.mod_mul_right_div_self, h28,
          Nat.mul_div_mul_right _ _ (Nat.pow_pos (by decide))]
      have hcount : BitVec.ofNat 32 (k + 1) + -1 = BitVec.ofNat 32 k := by
        rw [BitVec.ofNat_add, BitVec.add_assoc]
        exact BitVec.add_zero _
      rw [sendDigit, if_neg (and_of_txEmpty hword), List.countP_cons_of_pos hword, hexText, hcount]
      refine Sends.store hword (.inr ⟨_, (uartSendDigit_eq _).trans ?_, rfl⟩) ?_
      · rw [hdigit]
      · cases k with
        | zero => exact Sends.done words
        | succ k =>
          have hne : BitVec.ofNat 32 (k + 1) ≠ 0 := by
            intro h
            have hnat := congrArg BitVec.toNat h
            rw [BitVec.toNat_ofNat, Nat.mod_eq_of_lt (by omega)] at hnat
            exact absurd hnat k.succ_ne_zero
          have hshift : BitVec.ofNat 32 (m * 16 ^ (7 - (k + 1))) <<< 4 =
              BitVec.ofNat 32 (m * 16 ^ (7 - k)) := by
            have hexp : 7 - k = 7 - (k + 1) + 1 := by omega
            have hpow : m * 16 ^ (7 - k) = m * 16 ^ (7 - (k + 1)) * 2 ^ 4 := by
              rw [hexp]
              ring
            apply BitVec.eq_of_toNat_eq
            rw [BitVec.toNat_shiftLeft, BitVec.toNat_ofNat, BitVec.toNat_ofNat,
              Nat.shiftLeft_eq, hpow, Nat.mod_mul_mod]
          rw [if_pos hne, hshift]
          exact ih (by omega)

/-- `uart_send_hex` sends the word at its address in eight digits, the highest first. -/
theorem uartSendHex_sends (a0 : BitVec 32) (words : List (BitVec 32)) :
    Sends (hexText 8 (lw mem a0).toNat) (words.countP txEmpty) (uartSendHex mem a0 words) := by
  have hloop := sendDigit_sends (m := (lw mem a0).toNat) (show 7 < 8 by decide) words
  rw [Nat.sub_self, Nat.pow_zero, Nat.mul_one, BitVec.ofNat_toNat, BitVec.setWidth_eq] at hloop
  have hload := hloop.load ((List.range 4).map fun i => a0 + BitVec.ofNat 32 i)
  rwa [List.map_map] at hload

/-! ## `RVMODEL_HALT` -/

/-- The line of the word at an address: its eight digits and a newline. -/
def hexLine (mem : BitVec 32 → BitVec 8) (adr : BitVec 32) : List (BitVec 8) :=
  hexText 8 (lw mem adr).toNat ++ [newline]

/-- The lines of the `n` words from an address on, in order. -/
def signatureLines (mem : BitVec 32 → BitVec 8) (adr : BitVec 32) : ℕ → List (List (BitVec 8))
  | 0 => []
  | n + 1 => hexLine mem adr :: signatureLines mem (adr + 4) n

/-- The line that stops the simulation: the text "RVMODEL_HALT" and a newline. -/
def haltLine : List (BitVec 8) :=
  [0x52, 0x56, 0x4D, 0x4F, 0x44, 0x45, 0x4C, 0x5F, 0x48, 0x41, 0x4C, 0x54, newline]

variable (mem) in
/-- There are as many lines as words, with nine characters each. -/
theorem length_signatureLines (adr : BitVec 32) (n : ℕ) :
    (signatureLines mem adr n).length = n ∧
      (signatureLines mem adr n).flatten.length = 9 * n := by
  induction n generalizing adr with
  | zero => exact ⟨rfl, rfl⟩
  | succ n ih =>
    have hline : (hexLine mem adr).length = 9 := by
      rw [hexLine, List.length_append, length_hexText]
      rfl
    rw [signatureLines, List.length_cons, List.flatten_cons, List.length_append, (ih _).1,
      (ih _).2, hline]
    exact ⟨rfl, by omega⟩

variable (mem) in
/-- Every line of the dump, the last one included, is a text without a newline followed by one. -/
theorem exists_of_mem_lines (adr : BitVec 32) (n : ℕ) :
    ∀ line ∈ signatureLines mem adr n ++ [haltLine],
      ∃ l, newline ∉ l ∧ line = l ++ [newline] := by
  induction n generalizing adr with
  | zero =>
    intro line hline
    obtain rfl := List.mem_singleton.mp hline
    exact ⟨haltLine.dropLast, by decide, rfl⟩
  | succ n ih =>
    intro line hline
    rcases List.mem_cons.mp hline with rfl | hline
    · exact ⟨_, newline_notMem_hexText 8 _, rfl⟩
    · exact ih (adr + 4) line hline

/-- Read as hexadecimal numbers, the lines are the words of the signature in order. -/
theorem hexValue_signatureLines (adr : BitVec 32) (n : ℕ) :
    (signatureLines mem adr n).map (fun line => hexValue line.dropLast) =
      (List.range n).map fun i => (lw mem (adr + BitVec.ofNat 32 (4 * i))).toNat := by
  induction n generalizing adr with
  | zero => rfl
  | succ n ih =>
    have hline : hexValue (hexLine mem adr).dropLast = (lw mem adr).toNat := by
      rw [hexLine, List.dropLast_concat, hexValue_hexText]
      exact Nat.mod_eq_of_lt (lw mem adr).isLt
    have hnext (i : ℕ) : adr + 4 + BitVec.ofNat 32 (4 * i) =
        adr + BitVec.ofNat 32 (4 * (i + 1)) := by
      rw [Nat.mul_succ, Nat.add_comm (4 * i), BitVec.ofNat_add, BitVec.add_assoc]
      rfl
    rw [signatureLines, List.map_cons, hline, ih, List.range_succ_eq_map, List.map_cons,
      List.map_map, Nat.mul_zero, StringAt.add_zero]
    congr 1
    exact List.map_congr_left fun i _ => by rw [hnext]; rfl

/-- Sending a word in a line of its own sends the line of the word. -/
theorem sendLine_sends (a0 : BitVec 32) (words : List (BitVec 32)) :
    Sends (hexLine mem a0) (words.countP txEmpty) (sendLine mem a0 words) :=
  (uartSendHex_sends a0 words).andThen fun rest => uartSendByte_sends 0x0a rest

/-- Before the end of the signature the loop sends the line of the current word and goes on with the
next one. -/
theorem signatureDumpLoop_eq {a0 a1 : BitVec 32} (hlt : ¬ a1.sle a0 = true)
    (words : List (BitVec 32)) : signatureDumpLoop mem a0 a1 words =
      (sendLine mem a0 words).andThen (signatureDumpLoop mem (a0 + 4) a1) := by
  rw [signatureDumpLoop, if_neg hlt, Trace.andThen]
  split
  · next rest hout => rw [hout]
  · -- the line has not been sent as a whole
    next hnot =>
    split
    · next rest hout => exact absurd hout (hnot rest)
    · rfl

/-- The loop over the signature reads its statuses in order. -/
theorem signatureDumpLoop_consumes (a0 a1 : BitVec 32) (words : List (BitVec 32)) :
    Consumes words (signatureDumpLoop mem a0 a1 words) := by
  induction hlen : words.length using Nat.strong_induction_on generalizing a0 words with
  | h len ih =>
    by_cases hle : a1.sle a0 = true
    · rw [signatureDumpLoop, if_pos hle]
      exact .nil words (.inr rfl)
    · have hline : Consumes words (sendLine mem a0 words) :=
        ((sendDigit_consumes _ _ words).after ((List.range 4).map fun i => .load _)).andThen
          fun rest _ => uartSendByte_consumes 0x0a rest
      rw [signatureDumpLoop_eq hle]
      exact hline.andThen fun rest hout =>
        ih rest.length (hlen ▸ length_lt_of_sendLine mem hout) _ rest rfl

/-- `RVMODEL_HALT` reads its statuses in order. -/
theorem rvmodelHalt_consumes (beginSignature endSignature stopSim : BitVec 32)
    (words : List (BitVec 32)) :
    Consumes words (rvmodelHalt mem beginSignature endSignature stopSim words) :=
  (signatureDumpLoop_consumes _ _ words).andThen fun rest _ => uartWriteStr_consumes stopSim rest

/-- Within one half of the address space the signed comparison of two addresses orders them. -/
theorem sle_iff_of_msb_eq {a a' : BitVec 32} (h : a.msb = a'.msb) :
    a.sle a' = true ↔ a.toNat ≤ a'.toNat := by
  rw [BitVec.sle_iff_toInt_le, BitVec.toInt_eq_msb_cond, BitVec.toInt_eq_msb_cond, h]
  cases a'.msb <;> simp

/-- The loop sends the words between the two addresses. It compares them as signed numbers, so that
both have to be in the same half of the address space: the RAM is in the upper one, and at its
beginning the sign changes. -/
theorem signatureDumpLoop_sends {a0 a1 : BitVec 32} {n : ℕ} (hn : a1.toNat = a0.toNat + 4 * n)
    (hhalf : a0.msb = a1.msb) (words : List (BitVec 32)) :
    Sends (signatureLines mem a0 n).flatten (words.countP txEmpty)
      (signatureDumpLoop mem a0 a1 words) := by
  induction n generalizing a0 words with
  | zero =>
    rw [signatureDumpLoop, if_pos ((sle_iff_of_msb_eq hhalf.symm).mpr (by omega))]
    exact .done words
  | succ n ih =>
    have hlt : ¬ a1.sle a0 = true := by
      rw [sle_iff_of_msb_eq hhalf.symm]
      omega
    have hnext : (a0 + 4).toNat = a0.toNat + 4 := by
      have hbound := a1.isLt
      rw [BitVec.toNat_add]
      exact Nat.mod_eq_of_lt (by change a0.toNat + 4 < 2 ^ 32; omega)
    -- the next address is between two of the same half
    have hhalf' : (a0 + 4).msb = a1.msb := by
      rw [BitVec.msb_eq_decide, BitVec.msb_eq_decide, decide_eq_decide] at hhalf ⊢
      omega
    rw [signatureDumpLoop_eq hlt, signatureLines, List.flatten_cons]
    exact (sendLine_sends a0 words).andThen fun rest => ih (by omega) hhalf' rest

/-- `RVMODEL_HALT` stores the lines of the signature and the string behind them, as far as the
statuses allow it. -/
theorem rvmodelHalt_stores {beginSignature endSignature stopSim : BitVec 32} {n : ℕ}
    {s : List (BitVec 8)} (hn : endSignature.toNat = beginSignature.toNat + 4 * n)
    (hhalf : beginSignature.msb = endSignature.msb) (hstr : StringAt mem stopSim s) (hs : s ≠ [])
    (words : List (BitVec 32)) :
    Stores ((signatureLines mem beginSignature n).flatten ++ s) (words.countP txEmpty)
      (rvmodelHalt mem beginSignature endSignature stopSim words) := by
  refine .andThen (signatureDumpLoop_sends hn hhalf words) fun rest => ?_
  have hwrites := nextChar_writes hstr rest (List.length_pos_of_ne_nil hs)
  rw [StringAt.add_zero] at hwrites
  exact Stores.load ⟨hwrites.sent, hwrites.guarded⟩ [stopSim]

end Assembly

end UartLib

end RvPipelineCore

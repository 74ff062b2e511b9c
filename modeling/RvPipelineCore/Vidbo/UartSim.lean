import Mathlib.Tactic.Ring
import RvPipelineCore.Lib.Serial

/-!
# The simulated UART receiver

`UartSim` of `vidbo/uart`: it is called with the level of the line and the simulation time,
resynchronises on every start bit, and hands out the text line by line.

- `UartSim.Phase`: what the receiver is doing with the frames, kept by every call;
- `UartSim.get_string_lines`: the strings it returns are the lines of the text sent.
-/

namespace RvPipelineCore

open Serial

/-- `UART_SM`: the states of the receiver, from waiting for an idle line to the stop bit. -/
inductive UartSm
  | idle
  | detectStartBit
  | detectMidStartBit
  | detectMidDataBit
  | stopBit
  deriving DecidableEq

/-- The fields of `UartSim`. Strings are lists of characters, and the queue is a list of strings. -/
structure UartSim where
  mBaudTime : ℕ
  mBaudWait : ℕ
  mChar : BitVec 8
  mBitPos : ℕ
  mStateMachine : UartSm
  mUartStr : List (BitVec 8)
  mQ : List (List (BitVec 8))

namespace UartSim

/-- The constructor. It leaves `m_baud_wait`, `m_char` and `m_bit_pos` as they are. -/
def construct (baudRate mBaudWait : ℕ) (mChar : BitVec 8) (mBitPos : ℕ) : UartSim :=
  ⟨1000000000 / baudRate, mBaudWait, mChar, mBitPos, .idle, [], []⟩

variable (s : UartSim)

/-- `add_char`: the received character ends the current string, which then goes to the queue, if it
is a newline, and is added to the string otherwise. -/
def addChar : UartSim :=
  if s.mChar = 0x0a then { s with mQ := s.mQ ++ [s.mUartStr ++ [s.mChar]], mUartStr := [] }
  else { s with mUartStr := s.mUartStr ++ [s.mChar] }

/-- `uart_tick`: one sample of the line at the time `main_time`, by the state of the receiver.
`m_baud_wait` is a `uint64_t`, so the times wrap around. -/
def uartTick (uartRx : Bool) (mainTime : ℕ) : UartSim :=
  match s.mStateMachine with
  | .idle => if uartRx then { s with mStateMachine := .detectStartBit } else s
  | .detectStartBit =>
    if !uartRx then
      { s with
        mStateMachine := .detectMidStartBit
        mBaudWait := (mainTime + s.mBaudTime / 2) % 2 ^ 64 }
    else s
  | .detectMidStartBit =>
    if s.mBaudWait < mainTime then
      { s with
        mStateMachine := .detectMidDataBit
        mBaudWait := (s.mBaudWait + s.mBaudTime) % 2 ^ 64
        mChar := 0
        mBitPos := 0 }
    else s
  | .detectMidDataBit =>
    if s.mBaudWait < mainTime then
      { s with
        mBaudWait := (s.mBaudWait + s.mBaudTime) % 2 ^ 64
        mChar := s.mChar ||| (BitVec.ofBool uartRx).setWidth 8 <<< s.mBitPos
        mBitPos := s.mBitPos + 1
        -- 8 bits received, 0 through 7
        mStateMachine := if s.mBitPos + 1 = 8 then .stopBit else s.mStateMachine }
    else s
  | .stopBit =>
    if s.mBaudWait < mainTime then
      { s.addChar with
        mBaudWait := (s.mBaudWait + s.mBaudTime) % 2 ^ 64
        mStateMachine := .detectStartBit }
    else s

/-- `get_string`: the first string of the queue, or an empty one if there is none, and the new
state. -/
def getString : List (BitVec 8) × UartSim :=
  match s.mQ with
  | [] => ([], s)
  | l :: q => (l, { s with mQ := q })

/-- A call of one of the two functions that the simulator uses: `uart_tick` with the level and the
time, or `get_string`. -/
inductive Call
  | tick (uartRx : Bool) (mainTime : ℕ)
  | getString

/-- The state after the calls, and the strings that they have returned. -/
def run : UartSim → List Call → UartSim × List (List (BitVec 8))
  | s, [] => (s, [])
  | s, .tick rx t :: cs => run (s.uartTick rx t) cs
  | s, .getString :: cs =>
    ((run s.getString.2 cs).1, s.getString.1 :: (run s.getString.2 cs).2)

/-- The times and levels with which the calls of `uart_tick` are made, in order. -/
def ticks : List Call → List (ℕ × Bool)
  | [] => []
  | .tick rx t :: cs => (t, rx) :: ticks cs
  | .getString :: cs => ticks cs

/-- Calls made after others start from the state that these leave, and their strings follow. -/
theorem run_append (s : UartSim) (cs cs' : List Call) :
    s.run (cs ++ cs') =
      (((s.run cs).1.run cs').1, (s.run cs).2 ++ ((s.run cs).1.run cs').2) := by
  induction cs generalizing s with
  | nil => rfl
  | cons c cs ih =>
    cases c with
    | tick rx t => exact ih _
    | getString => rw [List.cons_append, UartSim.run, ih]; rfl

variable {s}

/-- Until the line has been seen high the receiver does nothing, whatever calls are made. -/
theorem run_quiet {cs : List Call} (hlow : ∀ c ∈ ticks cs, c.2 = false)
    (sm : s.mStateMachine = .idle) (hq : s.mQ = []) :
    (s.run cs).1 = s ∧ (s.run cs).2.filter (· ≠ []) = [] := by
  induction cs with
  | nil => exact ⟨rfl, rfl⟩
  | cons c cs ih =>
    cases c with
    | tick rx t =>
      obtain rfl : rx = false := hlow (t, rx) List.mem_cons_self
      have htick : s.uartTick false t = s := by simp [uartTick, sm]
      rw [UartSim.run, htick]
      exact ih fun c hc => hlow c (List.mem_cons_of_mem _ hc)
    | getString =>
      have hget : s.getString = ([], s) := by simp [UartSim.getString, hq]
      rw [UartSim.run, hget]
      obtain ⟨hs, hout⟩ := ih hlow
      exact ⟨hs, by simpa using hout⟩

/-! ## Text -/

section Text

variable {text : List (BitVec 8)}

/-- `out` has been returned, and the rest of the text is in the queue and in the current string. -/
def Received (s : UartSim) (out : List (List (BitVec 8))) (text : List (BitVec 8)) : Prop :=
  out.filter (· ≠ []) ++ s.mQ = (cut [] text).1 ∧ s.mUartStr = (cut [] text).2

/-- `add_char` takes what has been received one character further in the text. -/
theorem Received.addChar {out : List (List (BitVec 8))} (h : s.Received out text) :
    s.addChar.Received out (text ++ [s.mChar]) := by
  obtain ⟨hq, hstr⟩ := h
  have hnl : (0x0a : BitVec 8) = newline := rfl
  rw [Received, cut_append, UartSim.addChar, hnl]
  split_ifs with hc
  · refine ⟨?_, rfl⟩
    rw [← hq, ← hstr, List.append_assoc]
  · exact ⟨hq, by rw [← hstr]⟩

/-- `get_string` takes a line out of the queue, if there is one. -/
theorem Received.getString {out : List (List (BitVec 8))} (h : s.Received out text) :
    s.getString.2.Received (out ++ [s.getString.1]) text := by
  obtain ⟨hq, hstr⟩ := h
  cases hqs : s.mQ with
  | nil =>
    -- there is no line to return, and the empty string is left out of `out`
    simp only [UartSim.getString, hqs, Received, List.filter_append]
    rw [hqs] at hq
    refine ⟨?_, hstr⟩
    rw [← hq]
    simp
  | cons l q =>
    -- a line of the queue has its newline at least
    have hl : l ≠ [] := by
      have hmem : l ∈ (cut [] text).1 := by
        rw [← hq, hqs]
        simp
      obtain ⟨l', rfl⟩ := exists_of_mem_cut hmem
      simp
    simp only [UartSim.getString, hqs, Received, List.filter_append]
    rw [hqs] at hq
    refine ⟨?_, hstr⟩
    rw [← hq]
    simp [hl]

/-- What has been returned, what is in the queue and the current string are together the text, so
that no byte is lost, duplicated or altered. -/
theorem Received.flatten {out : List (List (BitVec 8))} (h : s.Received out text) :
    out.flatten ++ s.mQ.flatten ++ s.mUartStr = text := by
  obtain ⟨hq, hstr⟩ := h
  rw [← List.flatten_filter_ne_nil, ← List.flatten_append, hq, hstr, cut_flatten, List.nil_append]

/-- Calls of `get_string` return the strings of the queue in order. -/
theorem Received.drain (n : ℕ) {out : List (List (BitVec 8))} (h : s.Received out text) :
    (s.run (List.replicate n .getString)).1.Received
        (out ++ (s.run (List.replicate n .getString)).2) text ∧
      (s.run (List.replicate n .getString)).1.mQ = s.mQ.drop n := by
  induction n generalizing s out with
  | zero => simpa [UartSim.run] using h
  | succ n ih =>
    obtain ⟨hrec, hq⟩ := ih h.getString
    have hdrop : s.getString.2.mQ = s.mQ.drop 1 := by
      cases hqs : s.mQ <;> simp [UartSim.getString, hqs]
    rw [List.replicate_succ, UartSim.run]
    refine ⟨?_, ?_⟩
    · rw [List.append_assoc] at hrec
      exact hrec
    · rw [hq, hdrop, List.drop_drop, Nat.add_comm]

end Text

/-! ## Frames -/

section Frames

variable {K : Type*} [Field K] [LinearOrder K] [IsStrictOrderedRing K]

/-- What the receiver is doing after a call at time `τ`, with `past` received and `rest` to come:
waiting for a start bit, or waiting for the middle of one of the bits of the first of `rest`, which
it has noticed at `T`. -/
inductive Phase (B : ℕ) (P : K) (s : UartSim) (τ : ℕ) (past : List (Frame K)) :
    List (Frame K) → Prop
  -- no frame has begun: those of the past have been received, and the others are to come
  | waiting {rest} (sm : s.mStateMachine = .detectStartBit)
      (old : ∀ f ∈ past, f.start + 9 * P < τ) (new : ∀ f ∈ rest, (τ : K) ≤ f.start) :
      Phase B P s τ past rest
  -- the first frame of the rest has been noticed, and is waited for in the middle of a bit
  | midStart {f rest} (T : ℕ) (noticed : Noticed B f.start T)
      (sm : s.mStateMachine = .detectMidStartBit) (old : ∀ f ∈ past, f.start + 9 * P < τ)
      (wait : s.mBaudWait = T + B / 2 + 0 * B) (time : τ ≤ T + B / 2 + 0 * B) :
      Phase B P s τ past (f :: rest)
  | midData {f rest} (T n : ℕ) (noticed : Noticed B f.start T)
      (sm : s.mStateMachine = .detectMidDataBit) (old : ∀ f ∈ past, f.start + 9 * P < τ)
      (wait : s.mBaudWait = T + B / 2 + (n + 1) * B) (time : τ ≤ T + B / 2 + (n + 1) * B)
      (lt : n < 8) (pos : s.mBitPos = n)
      (char : ∀ i, s.mChar.getLsbD i = (decide (i < n) && f.byte.getLsbD i)) :
      Phase B P s τ past (f :: rest)
  | stop {f rest} (T : ℕ) (noticed : Noticed B f.start T) (sm : s.mStateMachine = .stopBit)
      (old : ∀ f ∈ past, f.start + 9 * P < τ) (wait : s.mBaudWait = T + B / 2 + 9 * B)
      (time : τ ≤ T + B / 2 + 9 * B) (char : s.mChar = f.byte) :
      Phase B P s τ past (f :: rest)

variable {B : ℕ} {P : K} {s : UartSim} {τ t : ℕ} {past rest : List (Frame K)} {rx : Bool}

/-- The next call of `uart_tick` comes later, but by a hundredth of the bit time at most. -/
def Next (B t t' : ℕ) : Prop := t < t' ∧ 100 * t' ≤ 100 * t + B

/-- A frame ends within the time that the clock can show. -/
def Fits (P : K) (f : Frame K) : Prop := f.EndsBy P (2 ^ 64 : ℕ)

/-- The times that the receiver computes for a frame fit into 64 bits, so that the reduction does
nothing. -/
theorem wait_mod {f : Frame K} {T k : ℕ} (hB : Near B P) (hT : Noticed B f.start T)
    (hf : Fits P f) (hk : k ≤ 9) : (T + B / 2 + k * B) % 2 ^ 64 = T + B / 2 + k * B := by
  refine Nat.mod_eq_of_lt ?_
  exact_mod_cast (wait_lt hB hT hk).trans_le hf

/-- The frames that are past remain so at later times. -/
theorem old_mono (old : ∀ f ∈ past, f.start + 9 * P < (τ : K)) (h : τ < t) :
    ∀ f ∈ past, f.start + 9 * P < (t : K) :=
  fun f hf => (old f hf).trans (Nat.cast_lt.mpr h)

/-- Before the time it waits for, a call does nothing. -/
theorem uartTick_early (hsm : s.mStateMachine = .detectMidStartBit ∨
      s.mStateMachine = .detectMidDataBit ∨ s.mStateMachine = .stopBit)
    (h : ¬ s.mBaudWait < t) : s.uartTick rx t = s := by
  rcases hsm with sm | sm | sm <;> simp only [uartTick, sm, if_neg h]

/-- While it waits and the line is high, no start bit has begun. -/
theorem Phase.tick_high (hB : Near B P) (ht : Next B τ t)
    (hline : Shows P (past ++ rest) t true) (sm : s.mStateMachine = .detectStartBit)
    (old : ∀ f ∈ past, f.start + 9 * P < τ) (new : ∀ f ∈ rest, (τ : K) ≤ f.start) :
    (s.uartTick true t).Phase B P t past rest := by
  have hlt : 100 * (t : K) ≤ 100 * τ + B := by exact_mod_cast ht.2
  have hB0 : (1000 : K) ≤ B := by exact_mod_cast hB.le
  have hP := hB.slow
  have htick : s.uartTick true t = s := by simp [uartTick, sm]
  rw [htick]
  refine .waiting sm (old_mono old ht.1) fun f hf => ?_
  by_contra hcon
  have hnew := new f hf
  have hbit := hline.bit f (List.mem_append_right _ hf) 0 (by decide)
    (by rw [Nat.cast_zero, zero_mul, add_zero]; exact not_le.mp hcon)
    (by rw [Nat.cast_zero, zero_add, one_mul]; linarith)
  exact Bool.noConfusion hbit

/-- When the line is low, the start bit of the next frame has begun. -/
theorem Phase.tick_low (hB : Near B P) (hb : s.mBaudTime = B) (ho : InOrder P (past ++ rest))
    (hfit : ∀ f ∈ rest, Fits P f) (ht : Next B τ t) (hline : Shows P (past ++ rest) t false)
    (sm : s.mStateMachine = .detectStartBit) (old : ∀ f ∈ past, f.start + 9 * P < τ)
    (new : ∀ f ∈ rest, (τ : K) ≤ f.start) : (s.uartTick false t).Phase B P t past rest := by
  have hold := old_mono old ht.1
  have hlt : 100 * (t : K) ≤ 100 * τ + B := by exact_mod_cast ht.2
  have hB0 : (1000 : K) ≤ B := by exact_mod_cast hB.le
  have hP := hB.slow
  -- only a frame pulls the line low
  obtain ⟨f, hf, hge⟩ : ∃ f ∈ rest, f.start ≤ (t : K) := by
    by_contra hcon
    push Not at hcon
    refine Bool.noConfusion (hline.high fun f hf => ?_)
    rcases List.mem_append.mp hf with hf | hf
    · exact .inr (hold f hf)
    · exact .inl (hcon f hf)
  cases rest with
  | nil => simp at hf
  | cons g rest =>
    -- the first one that is to come has begun before it, or is it
    have hgf : g.start ≤ f.start := by
      rcases List.mem_cons.mp hf with rfl | hf
      · exact le_rfl
      · have hgap : g.start + 10 * P ≤ f.start :=
          (List.pairwise_cons.mp (List.pairwise_append.mp ho).2.1).1 f hf
        linarith
    have hnew := new g List.mem_cons_self
    have hT : Noticed B g.start t := ⟨hgf.trans hge, by linarith⟩
    have hmod := wait_mod hB hT (hfit g List.mem_cons_self) (k := 0) (by decide)
    refine .midStart t hT ?_ hold ?_ ?_
    · simp [uartTick, sm]
    · rw [← hmod]
      simp [uartTick, sm, hb]
    · omega

/-- The first call after the time that the receiver waits for in bit `k` falls into this bit of the
frame. -/
theorem sample {f : Frame K} {T k : ℕ} (hB : Near B P) (hT : Noticed B f.start T) (hk : k ≤ 9)
    (ht : Next B τ t) (time : τ ≤ T + B / 2 + k * B) (hwait : T + B / 2 + k * B < t) :
    f.start + k * P < t ∧ (t : K) < f.start + (k + 1) * P :=
  window hB hT hk hwait (by have := ht.2; omega)

/-- In the middle of the start bit nothing is looked at. -/
theorem Phase.tick_midStart {f : Frame K} (hB : Near B P) (hb : s.mBaudTime = B)
    (hf : Fits P f) (ht : Next B τ t) {T : ℕ} (noticed : Noticed B f.start T)
    (sm : s.mStateMachine = .detectMidStartBit) (old : ∀ f ∈ past, f.start + 9 * P < τ)
    (wait : s.mBaudWait = T + B / 2 + 0 * B) (time : τ ≤ T + B / 2 + 0 * B) :
    (s.uartTick rx t).Phase B P t past (f :: rest) := by
  have hold := old_mono old ht.1
  -- the wait is over in this call, or goes on
  by_cases hw : s.mBaudWait < t
  · have hmod := wait_mod hB noticed hf (k := 1) (by decide)
    have hnext := ht.2
    have htick : s.uartTick rx t =
        { s with
          mStateMachine := .detectMidDataBit
          mBaudWait := (s.mBaudWait + s.mBaudTime) % 2 ^ 64
          mChar := 0
          mBitPos := 0 } := by
      simp only [uartTick, sm, if_pos hw]
    have hwait : (s.mBaudWait + s.mBaudTime) % 2 ^ 64 = T + B / 2 + (0 + 1) * B := by
      rw [← hmod, wait, hb]
      congr 1
      ring
    rw [htick]
    exact .midData T 0 noticed rfl hold hwait (by omega) (by decide) rfl fun i => by simp
  · rw [uartTick_early (.inl sm) hw]
    exact .midStart T noticed sm hold wait (by omega)

/-- With the next bit of the byte the character agrees with the byte in one bit more. -/
theorem char_succ {c v : BitVec 8} {n : ℕ} (lt : n < 8)
    (char : ∀ i, c.getLsbD i = (decide (i < n) && v.getLsbD i)) (i : ℕ) :
    (c ||| (BitVec.ofBool (v.getLsbD n)).setWidth 8 <<< n).getLsbD i =
      (decide (i < n + 1) && v.getLsbD i) := by
  rw [BitVec.getLsbD_or, char, BitVec.getLsbD_shiftLeft, BitVec.getLsbD_setWidth]
  rcases Nat.lt_trichotomy i n with hi | rfl | hi
  · simp [hi, show i < n + 1 by omega]
  · simp [lt]
  · simp [show ¬ i < n by omega, show ¬ i < n + 1 by omega, show i - n ≠ 0 by omega]

/-- In the middle of a data bit its level goes to the character. -/
theorem Phase.tick_midData {f : Frame K} (hB : Near B P) (hb : s.mBaudTime = B) (hf : Fits P f)
    (ht : Next B τ t) (hline : Shows P (past ++ f :: rest) t rx) {T n : ℕ}
    (noticed : Noticed B f.start T) (sm : s.mStateMachine = .detectMidDataBit)
    (old : ∀ f ∈ past, f.start + 9 * P < τ) (wait : s.mBaudWait = T + B / 2 + (n + 1) * B)
    (time : τ ≤ T + B / 2 + (n + 1) * B) (lt : n < 8) (pos : s.mBitPos = n)
    (char : ∀ i, s.mChar.getLsbD i = (decide (i < n) && f.byte.getLsbD i)) :
    (s.uartTick rx t).Phase B P t past (f :: rest) := by
  have hold := old_mono old ht.1
  by_cases hw : s.mBaudWait < t
  · have hmod := wait_mod hB noticed hf (k := n + 2) (by omega)
    -- the sample is taken within bit `n + 1` of the frame
    obtain ⟨hlo, hhi⟩ := sample hB noticed (by omega) ht time (wait ▸ hw)
    have hrx : rx = f.byte.getLsbD n := hline.bit f (by simp) (n + 1) (by omega) hlo hhi
    have hchar := char_succ lt char
    rw [← hrx] at hchar
    have htick : s.uartTick rx t =
        { s with
          mBaudWait := (s.mBaudWait + s.mBaudTime) % 2 ^ 64
          mChar := s.mChar ||| (BitVec.ofBool rx).setWidth 8 <<< s.mBitPos
          mBitPos := s.mBitPos + 1
          mStateMachine := if s.mBitPos + 1 = 8 then .stopBit else s.mStateMachine } := by
      simp only [uartTick, sm, if_pos hw]
    have hwait : (s.mBaudWait + s.mBaudTime) % 2 ^ 64 = T + B / 2 + (n + 2) * B := by
      rw [← hmod, wait, hb]
      congr 1
      ring
    have htime : t ≤ T + B / 2 + (n + 2) * B := by
      have hnext := ht.2
      have hstep : (n + 2) * B = (n + 1) * B + B := by ring
      omega
    rw [htick]
    -- behind the eighth data bit comes the stop bit
    by_cases hlast : n = 7
    · subst hlast
      refine .stop T noticed (by simp [pos]) hold hwait htime ?_
      apply BitVec.eq_of_getLsbD_eq
      intro i hi
      rw [pos, hchar i, decide_eq_true hi, Bool.true_and]
    · refine .midData T (n + 1) noticed ?_ hold hwait htime (by omega) (by rw [pos]) ?_
      · simpa [pos, hlast] using sm
      · rw [pos]
        exact hchar
  · rw [uartTick_early (.inr (.inl sm)) hw]
    exact .midData T n noticed sm hold wait (by omega) lt pos char

/-- In the middle of the stop bit the character is there. -/
theorem Phase.tick_stop (rx : Bool) {f : Frame K} (hB : Near B P)
    (ho : InOrder P (past ++ f :: rest)) (ht : Next B τ t) {T : ℕ} (noticed : Noticed B f.start T)
    (sm : s.mStateMachine = .stopBit) (old : ∀ f ∈ past, f.start + 9 * P < τ)
    (wait : s.mBaudWait = T + B / 2 + 9 * B) (time : τ ≤ T + B / 2 + 9 * B)
    (char : s.mChar = f.byte) :
    (s.uartTick rx t).Phase B P t past (f :: rest) ∧ s.uartTick rx t = s ∨
      (s.uartTick rx t).Phase B P t (past ++ [f]) rest ∧
        ∃ w, s.uartTick rx t =
          { s.addChar with mBaudWait := w, mStateMachine := .detectStartBit } := by
  have hold := old_mono old ht.1
  -- the byte is taken once the wait is over
  by_cases hw : s.mBaudWait < t
  · obtain ⟨hlo, hhi⟩ := sample hB noticed le_rfl ht time (wait ▸ hw)
    have htick : s.uartTick rx t =
        { s.addChar with
          mBaudWait := (s.mBaudWait + s.mBaudTime) % 2 ^ 64
          mStateMachine := .detectStartBit } := by
      simp only [uartTick, sm, if_pos hw]
    refine .inr ⟨?_, _, htick⟩
    rw [htick]
    refine .waiting rfl (fun g hg => ?_) fun g hg => ?_
    · rcases List.mem_append.mp hg with hg | hg
      · exact hold g hg
      · obtain rfl := List.mem_singleton.mp hg
        exact_mod_cast hlo
    · have hgap : f.start + 10 * P ≤ g.start :=
        (List.pairwise_cons.mp (List.pairwise_append.mp ho).2.1).1 g hg
      push_cast at hhi
      linarith
  · have htick : s.uartTick rx t = s := uartTick_early (.inr (.inr sm)) hw
    rw [htick]
    exact .inl ⟨.stop T noticed sm hold wait (by omega) char, rfl⟩

/-- After a call at time `τ` and with `out` returned, the receiver has got some of the frames and is
at work on the others. -/
def Tracks (B : ℕ) (P : K) (frames : List (Frame K)) (s : UartSim)
    (out : List (List (BitVec 8))) (τ : ℕ) : Prop :=
  s.mBaudTime = B ∧ ∃ past rest, frames = past ++ rest ∧ s.Phase B P τ past rest ∧
    s.Received out (past.map Frame.byte)

variable {frames : List (Frame K)} {out : List (List (BitVec 8))}

/-- A received character leaves the bit time of the receiver as it is. -/
@[simp]
theorem addChar_mBaudTime : s.addChar.mBaudTime = s.mBaudTime := by
  rw [addChar]
  split_ifs <;> rfl

/-- Only the middle of a stop bit changes what has been received. -/
theorem uartTick_received (rx : Bool) (t : ℕ) (hsm : s.mStateMachine ≠ .stopBit)
    {text : List (BitVec 8)} (h : s.Received out text) :
    (s.uartTick rx t).Received out text ∧ (s.uartTick rx t).mBaudTime = s.mBaudTime := by
  have hkeep : (s.uartTick rx t).mQ = s.mQ ∧ (s.uartTick rx t).mUartStr = s.mUartStr ∧
      (s.uartTick rx t).mBaudTime = s.mBaudTime := by
    cases sm : s.mStateMachine with
    | stopBit => exact absurd sm hsm
    | _ =>
      simp only [uartTick, sm]
      split_ifs <;> exact ⟨rfl, rfl, rfl⟩
  rw [Received, hkeep.1, hkeep.2.1]
  exact ⟨h, hkeep.2.2⟩

/-- A call of `uart_tick` with the level of the line keeps the receiver on the track of the
frames. -/
theorem Tracks.tick (hB : Near B P) (ho : InOrder P frames) (hfit : ∀ f ∈ frames, Fits P f)
    (h : Tracks B P frames s out τ) (ht : Next B τ t) (hline : Shows P frames t rx) :
    Tracks B P frames (s.uartTick rx t) out t := by
  obtain ⟨hb, past, rest, rfl, hphase, hrec⟩ := h
  -- only the end of the stop bit adds a byte to the string
  cases hphase with
  | waiting sm old new =>
    obtain ⟨hrec', hb'⟩ := uartTick_received rx t (by simp [sm]) hrec
    refine ⟨hb'.trans hb, past, rest, rfl, ?_, hrec'⟩
    cases rx with
    | true => exact .tick_high hB ht hline sm old new
    | false =>
      exact .tick_low hB hb ho (fun f hf => hfit f (List.mem_append_right _ hf)) ht hline sm old new
  | @midStart f rest T noticed sm old wait time =>
    obtain ⟨hrec', hb'⟩ := uartTick_received rx t (by simp [sm]) hrec
    exact ⟨hb'.trans hb, past, f :: rest, rfl, .tick_midStart hB hb (hfit f (by simp)) ht noticed sm
      old wait time, hrec'⟩
  | @midData f rest T n noticed sm old wait time lt pos char =>
    obtain ⟨hrec', hb'⟩ := uartTick_received rx t (by simp [sm]) hrec
    exact ⟨hb'.trans hb, past, f :: rest, rfl, .tick_midData hB hb (hfit f (by simp)) ht hline
      noticed sm old wait time lt pos char, hrec'⟩
  | @stop f rest T noticed sm old wait time char =>
    rcases Phase.tick_stop rx hB ho ht noticed sm old wait time char with
      ⟨hphase, htick⟩ | ⟨hphase, w, htick⟩
    · rw [htick] at hphase ⊢
      exact ⟨hb, past, f :: rest, rfl, hphase, hrec⟩
    · have hb' : (s.uartTick rx t).mBaudTime = B := by
        rw [htick]
        exact addChar_mBaudTime.trans hb
      refine ⟨hb', past ++ [f], rest, by simp, hphase, ?_⟩
      have hadd := hrec.addChar
      rw [char] at hadd
      rw [htick, List.map_append]
      exact hadd

omit [IsStrictOrderedRing K] in
/-- A call of `get_string` keeps the receiver on the track of the frames, and returns what it takes
out of the queue. -/
theorem Tracks.getString (h : Tracks B P frames s out τ) :
    Tracks B P frames s.getString.2 (out ++ [s.getString.1]) τ := by
  obtain ⟨hb, past, rest, hsplit, hphase, hrec⟩ := h
  have hkeep : ∃ q, s.getString.2 = { s with mQ := q } := by
    rw [UartSim.getString]
    cases s.mQ <;> exact ⟨_, rfl⟩
  obtain ⟨q, hq⟩ := hkeep
  have hrec' := hrec.getString
  rw [hq] at hrec' ⊢
  refine ⟨hb, past, rest, hsplit, ?_, hrec'⟩
  cases hphase with
  | waiting sm old new => exact .waiting sm old new
  | midStart T noticed sm old wait time => exact .midStart T noticed sm old wait time
  | midData T n noticed sm old wait time lt pos char =>
    exact .midData T n noticed sm old wait time lt pos char
  | stop T noticed sm old wait time char => exact .stop T noticed sm old wait time char

/-- The time of the last call of `uart_tick`, or `τ` if there is none among the calls. -/
def lastTime (τ : ℕ) (cs : List Call) : ℕ := ((ticks cs).map Prod.fst).getLastD τ

/-- After a first call of `uart_tick` the last time is that of the remaining calls, counted from
it. -/
theorem lastTime_tick (τ t : ℕ) (rx : Bool) (cs : List Call) :
    lastTime τ (.tick rx t :: cs) = lastTime t cs := by
  rw [lastTime, ticks, List.map_cons, List.getLastD_cons, lastTime]

/-- The calls follow each other soon, and each reads the line. -/
structure Reads (B : ℕ) (P : K) (frames : List (Frame K)) (τ : ℕ) (cs : List Call) : Prop where
  spacing : (τ :: (ticks cs).map Prod.fst).IsChain (Next B)
  line : ∀ c ∈ ticks cs, Shows P frames c.1 c.2

/-- Any calls that read the line keep the receiver on the track of the frames, in whatever order the
two functions are called. -/
theorem Tracks.run (hB : Near B P) (ho : InOrder P frames) (hfit : ∀ f ∈ frames, Fits P f)
    (cs : List Call) (h : Tracks B P frames s out τ) (hcs : Reads B P frames τ cs) :
    Tracks B P frames (s.run cs).1 (out ++ (s.run cs).2) (lastTime τ cs) := by
  induction cs generalizing s out τ with
  | nil => simpa [UartSim.run, lastTime, ticks] using h
  | cons c cs ih =>
    obtain ⟨hspace, hline⟩ := hcs
    cases c with
    | tick rx t =>
      obtain ⟨ht, hspace⟩ := List.isChain_cons_cons.mp hspace
      rw [lastTime_tick]
      exact ih (h.tick hB ho hfit ht (hline (t, rx) List.mem_cons_self))
        ⟨hspace, fun c hc => hline c (List.mem_cons_of_mem _ hc)⟩
    | getString =>
      have hrun := ih h.getString ⟨hspace, hline⟩
      rw [List.append_assoc] at hrun
      exact hrun

/-- Once the last frame has ended, everything has been received. -/
theorem Tracks.done (hB : Near B P) (h : Tracks B P frames s out τ)
    (hend : ∀ f ∈ frames, f.EndsBy P (τ : K)) :
    s.Received out (frames.map Frame.byte) := by
  obtain ⟨-, past, rest, rfl, hphase, hrec⟩ := h
  have hP := hB.slow
  have hB0 : (1000 : K) ≤ B := by exact_mod_cast hB.le
  -- the receiver waits for no bit of a frame that has ended
  have hover : ∀ {f : Frame K} {T k}, Noticed B f.start T → k ≤ 9 → τ ≤ T + B / 2 + k * B →
      ¬ f.EndsBy P (τ : K) := by
    intro f T k hT hk htime hle
    have htime' : (τ : K) ≤ (T + B / 2 + k * B : ℕ) := by exact_mod_cast htime
    exact absurd (hle.trans htime') (not_le.mpr (wait_lt hB hT hk))
  cases hphase with
  | waiting sm old new =>
    cases rest with
    | nil => rwa [List.append_nil]
    | cons f rest =>
      have hnew := new f List.mem_cons_self
      have hf : f.start + 10 * P ≤ τ := hend f (by simp)
      linarith
  | midStart T noticed sm old wait time =>
    exact absurd (hend _ (by simp)) (hover noticed (by decide) time)
  | midData T n noticed sm old wait time lt =>
    exact absurd (hend _ (by simp)) (hover noticed (by omega) time)
  | stop T noticed sm old wait time =>
    exact absurd (hend _ (by simp)) (hover noticed (by decide) time)

/-- The line is read from before the first frame, at time `h`, to behind the last one. -/
structure Watched (B : ℕ) (P : K) (frames : List (Frame K)) (h : ℕ) (cs : List Call) : Prop
    extends Reads B P frames h cs where
  before : ∀ f ∈ frames, (h : K) ≤ f.start
  after : ∀ f ∈ frames, f.EndsBy P (lastTime h cs : ℕ)
  uint64 : lastTime h cs < 2 ^ 64

/-- From the first time that the line is seen high on, the strings that `get_string` returns,
whenever it is called, are the lines of the text sent, as far as they are not in the queue; and with
enough calls at the end, they are all lines. -/
theorem get_string_lines {baudRate : ℕ} (hB : Near (1000000000 / baudRate) P)
    (ho : InOrder P frames) {quiet cs : List Call} {h : ℕ}
    (hlow : ∀ c ∈ ticks quiet, c.2 = false)
    (hcs : Watched (1000000000 / baudRate) P frames h cs) (w : ℕ) (c : BitVec 8) (p calls : ℕ)
    (hcalls : (cut [] (frames.map Frame.byte)).1.length ≤ calls) :
    ((construct baudRate w c p).run (quiet ++ .tick true h :: cs)).1.Received
        ((construct baudRate w c p).run (quiet ++ .tick true h :: cs)).2
        (frames.map Frame.byte) ∧
      ((construct baudRate w c p).run (quiet ++ .tick true h :: cs ++
          List.replicate calls .getString)).2.filter (· ≠ []) =
        (cut [] (frames.map Frame.byte)).1 := by
  obtain ⟨hquiet, hout⟩ := run_quiet (s := construct baudRate w c p) hlow rfl rfl
  have hfit : ∀ f ∈ frames, Fits P f := fun f hf =>
    (hcs.after f hf).trans (by exact_mod_cast hcs.uint64.le)
  -- the first call that sees the line high makes the receiver wait for a start bit
  have hstart : Tracks (1000000000 / baudRate) P frames
      ((construct baudRate w c p).uartTick true h) ((construct baudRate w c p).run quiet).2 h :=
    ⟨rfl, [], frames, rfl, .waiting rfl (by simp) hcs.before, by
      rw [Received, hout]
      exact ⟨rfl, rfl⟩⟩
  have hrec := (hstart.run hB ho hfit cs hcs.toReads).done hB hcs.after
  have hrun : (construct baudRate w c p).run (quiet ++ .tick true h :: cs) =
      ((((construct baudRate w c p).uartTick true h).run cs).1,
        ((construct baudRate w c p).run quiet).2 ++
          (((construct baudRate w c p).uartTick true h).run cs).2) := by
    rw [run_append, hquiet]
    rfl
  rw [run_append _ _ (List.replicate calls _), hrun]
  refine ⟨hrec, ?_⟩
  obtain ⟨hdrain, hq⟩ := hrec.drain calls
  have hlen : (((construct baudRate w c p).uartTick true h).run cs).1.mQ.length ≤ calls := by
    refine le_trans ?_ hcalls
    rw [← hrec.1, List.length_append]
    exact Nat.le_add_left _ _
  rw [List.drop_eq_nil_of_le hlen] at hq
  rw [← hdrain.1, hq, List.append_nil]

end Frames

/-! ## An example -/

/-- Two frames, with a gap of 1400 between them at a bit period of 1010. -/
def exampleFrames : List (Frame ℚ) := [⟨500, 0x41⟩, ⟨12000, newline⟩]

/-- The level of a line that carries the two example frames, with a pause between them. -/
def exampleLevel (t : ℕ) : Bool :=
  if 500 ≤ t ∧ t < 9590 then (⟨500, 0x41⟩ : Frame ℚ).bit ((t - 500) / 1010)
  else if 12000 ≤ t ∧ t < 21090 then (⟨12000, newline⟩ : Frame ℚ).bit ((t - 12000) / 1010)
  else true

/-- A time strictly within a bit of a frame, in natural numbers. -/
theorem bit_index {f : Frame ℚ} {S j t : ℕ} (hS : f.start = S) (hlo : f.start + j * 1010 < t)
    (hhi : t < f.start + (j + 1) * 1010) : S + j * 1010 < t ∧ (t - S) / 1010 = j := by
  rw [hS] at hlo hhi
  have hlo' : S + j * 1010 < t := by exact_mod_cast hlo
  have hhi' : t < S + (j + 1) * 1010 := by exact_mod_cast hhi
  omega

/-- The example level shows the two frames at every time. -/
theorem exampleLevel_shows (t : ℕ) : Shows (1010 : ℚ) exampleFrames t (exampleLevel t) := by
  refine ⟨fun f hf j hj hlo hhi => ?_, fun hout => ?_⟩
  · rw [exampleFrames, List.mem_pair] at hf
    rcases hf with rfl | rfl
    · obtain ⟨hge, hdiv⟩ := bit_index (S := 500) (by norm_num) hlo hhi
      rw [exampleLevel, if_pos (by omega), hdiv]
    · obtain ⟨hge, hdiv⟩ := bit_index (S := 12000) (by norm_num) hlo hhi
      rw [exampleLevel, if_neg (by omega), if_pos (by omega), hdiv]
  · -- outside of both frames
    have hfirst : t < 500 ∨ 9590 < t := by
      have h := hout ⟨500, 0x41⟩ (by simp [exampleFrames])
      norm_num at h
      exact_mod_cast h
    have hsecond : t < 12000 ∨ 21090 < t := by
      have h := hout ⟨12000, newline⟩ (by simp [exampleFrames])
      norm_num at h
      exact_mod_cast h
    rw [exampleLevel, if_neg (by omega), if_neg (by omega)]

/-- Calls of `uart_tick` at every tenth unit of time from `τ` on, with the level of the example
line. -/
def exampleCalls (τ : ℕ) : ℕ → List Call
  | 0 => []
  | n + 1 => .tick (exampleLevel (τ + 10)) (τ + 10) :: exampleCalls (τ + 10) n

/-- The example calls read the line closely enough, and the last one is made at the time that their
number says. -/
theorem exampleCalls_reads (τ n : ℕ) :
    Reads 1000 (1010 : ℚ) exampleFrames τ (exampleCalls τ n) ∧
      lastTime τ (exampleCalls τ n) = τ + 10 * n := by
  induction n generalizing τ with
  | zero => exact ⟨⟨List.isChain_singleton _, by simp [exampleCalls, ticks]⟩, rfl⟩
  | succ n ih =>
    obtain ⟨⟨hspace, hline⟩, hlast⟩ := ih (τ + 10)
    refine ⟨⟨?_, fun c hc => ?_⟩, ?_⟩
    · exact List.isChain_cons_cons.mpr ⟨⟨by omega, by omega⟩, hspace⟩
    · rcases List.mem_cons.mp hc with rfl | hc
      · exact exampleLevel_shows (τ + 10)
      · exact hline c hc
    · rw [exampleCalls, lastTime_tick, hlast]
      omega

/-- On a line that is low at first, an `A` and a newline, with a gap between them and bits that are
one percent too long, arrive as one line. -/
theorem get_string_lines_letter :
    ((construct 1000000 0 0 0).run ([.tick false 0, .getString] ++ .tick true 10 ::
        exampleCalls 10 2250 ++ List.replicate 1 .getString)).2.filter (· ≠ []) =
      [[0x41, newline]] := by
  obtain ⟨hreads, hlast⟩ := exampleCalls_reads 10 2250
  have hbaud : 1000000000 / 1000000 = 1000 := by norm_num
  have hnear : Near (1000000000 / 1000000) (1010 : ℚ) := by
    rw [hbaud]
    exact ⟨le_rfl, by norm_num, by norm_num⟩
  -- the second frame begins behind the end of the first one
  have horder : InOrder (1010 : ℚ) exampleFrames := by
    refine List.pairwise_pair.mpr ?_
    rw [Frame.EndsBy]
    norm_num
  have hwatched : Watched (1000000000 / 1000000) (1010 : ℚ) exampleFrames 10
      (exampleCalls 10 2250) := by
    rw [hbaud]
    refine ⟨hreads, ?_, ?_, ?_⟩
    · simp [exampleFrames]
      norm_num
    · simp only [exampleFrames, List.mem_pair, forall_eq_or_imp, forall_eq, hlast, Frame.EndsBy]
      norm_num
    · rw [hlast]
      norm_num
  -- before the first frame the line is low, and the simulator sees no edge
  have hquiet : ∀ c ∈ ticks [.tick false 0, .getString], c.2 = false := by simp [ticks]
  exact (get_string_lines hnear horder hquiet hwatched 0 0 0 1 (by decide)).2

end UartSim

end RvPipelineCore

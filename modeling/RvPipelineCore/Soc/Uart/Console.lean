import RvPipelineCore.Soc.Uart.Session
import RvPipelineCore.Soc.Uart.Top
import RvPipelineCore.Sw.UartLib
import RvPipelineCore.Vidbo.UartSim

/-!
# The simulated console

The way of a string from the software to the console of the simulation: `uart_init` and
`uart_write_str` of `sw/uart_lib`, the bus interface and the transmitter of `rtl/soc/uart`, the
line, and the receiver of `vidbo/uart` with the constants of `vidbo/tb.cpp`.

- `UartTop.Run.Session.prints`: for any software that polls, the console shows the lines it writes;
- `UartTop.Run.writeStr_prints`: it shows the lines of a string.

The witnesses are about software that waits long enough between its accesses, so that every poll
finds the transmitter empty.
-/

namespace RvPipelineCore

open Serial

namespace UartTop.Run

open UartLib

variable (run : Run)

/-- The master keeps its requests, calls `uart_init`, and makes the accesses `rest` up to cycle
`T`. -/
structure Session (rest : List UartAccess) (T : ℕ) : Prop where
  holds : run.Holds
  all : ∀ t, T ≤ t → run.served t = uartInit ++ rest
  keeps : ∀ a ∈ rest, a.Keeps
  polled : UartAccess.Polled (uartInit ++ rest)

/-- The level of the line in nanosecond `τ`, where the reset ends in nanosecond `o`, and a cycle
takes 20 nanoseconds. -/
def level (o τ : ℕ) : Bool := (run.state ((τ - o) / 20)).regs.stxPadO

variable {run} {rest : List UartAccess} {T : ℕ}

/-- What the master sees of a session is a session of the registers. -/
theorem Session.regs (h : run.Session rest T) : run.regs.Session rest T := by
  refine ⟨fun t ht => ?_, h.keeps, h.polled⟩
  rw [← served_eq h.holds]
  exact h.all (t + 1) (by omega)

/-- During a session the line shows, in nanoseconds, frames with the bytes written, one after the
other, with bits of 8640 nanoseconds; they begin behind the reset and end soon behind the last
access. -/
theorem Session.shows (h : run.Session rest T) (o : ℕ) : ∃ frames : List (Frame ℚ),
    frames.map Frame.byte = UartConfig.initial.text (uartInit ++ rest) ∧ InOrder 8640 frames ∧
      (∀ f ∈ frames, (o : ℚ) ≤ f.start) ∧ (∀ τ : ℕ, Shows 8640 frames τ (run.level o τ)) ∧
      ∀ f ∈ frames, f.EndsBy 8640 (o + 20 * (T + 1 + 27 * 324) : ℕ) := by
  obtain ⟨e, frames, hbytes, hspaced, hpos, hdrives, hend⟩ := h.regs.carries (regs_holds h.holds)
  have hP : (16 * (20 * 27 : ℕ) : ℚ) = 8640 := by norm_num
  -- step 1 is made in nanosecond `e' + 1`
  set e' := o + 20 * (e + 1) - 1 with he'
  have hstart (f : Frame ℕ) : (Format.atTicks e' (20 * 27) f).start =
      o + 20 * (e + 1) + 540 * (f.start - 1) := by
    change e' + 1 + 540 * (f.start - 1) = _
    omega
  have hmem {g : Frame ℚ}
      (hg : g ∈ (frames.map (Format.atTicks e' (20 * 27))).map (Format.cast ℚ)) :
      ∃ f ∈ frames, g.start = (o + 20 * (e + 1) + 540 * (f.start - 1) : ℕ) := by
    obtain ⟨f', hf', rfl⟩ := List.mem_map.mp hg
    obtain ⟨f, hf, rfl⟩ := List.mem_map.mp hf'
    exact ⟨f, hf, by rw [Format.cast, hstart]⟩
  refine ⟨(frames.map (Format.atTicks e' (20 * 27))).map (Format.cast ℚ), ?_, ?_, fun g hg => ?_,
    fun τ => ?_, fun g hg => ?_⟩
  · rw [List.map_map, List.map_map, ← hbytes]
    rfl
  · rw [← hP]
    exact (hspaced.ofTicks e' (20 * 27) hpos).inOrder le_rfl
  · obtain ⟨f, -, hg⟩ := hmem hg
    rw [hg]
    exact_mod_cast (by omega : o ≤ o + 20 * (e + 1) + 540 * (f.start - 1))
  · -- a cycle is 20 nanoseconds long
    have hτ := hdrives ((τ - o) / 20)
    rw [Format.ticksBefore_div (by decide) (by decide)] at hτ
    rw [← hP]
    exact (hτ.ofTicks (by decide) hpos).shows
  · obtain ⟨f, hf, hg⟩ := hmem hg
    have hf0 := hpos f hf
    have hbound := hend f hf
    have hticks : 1 ≤ Format.ticksBefore e 27 (T + 1 + 27 * 321) := by omega
    have hle := (Format.le_ticksBefore (by decide) hticks).mp le_rfl
    have hnat : o + 20 * (e + 1) + 540 * (f.start - 1) + 10 * 8640 ≤
        o + 20 * (T + 1 + 27 * 324) := by omega
    rw [Frame.EndsBy, hg]
    exact_mod_cast hnat

end UartTop.Run

/-! ## The receiver -/

namespace UartSim

variable {K : Type*} [Field K] [LinearOrder K] [IsStrictOrderedRing K] {B τ : ℕ} {P : K}
  {frames : List (Frame K)} {s : UartSim} {cs : List Call}

/-- Behind the last frame the strings that are returned are the lines of the text. -/
theorem Tracks.lines (hB : Near B P) (ho : InOrder P frames) (h : Tracks B P frames s [] τ)
    (hcs : Reads B P frames τ cs) (hend : ∀ f ∈ frames, f.EndsBy P (lastTime τ cs : ℕ))
    (h64 : lastTime τ cs < 2 ^ 64) {calls : ℕ}
    (hcalls : (cut [] (frames.map Frame.byte)).1.length ≤ calls) :
    (s.run (cs ++ List.replicate calls .getString)).2.filter (· ≠ []) =
      (cut [] (frames.map Frame.byte)).1 := by
  have hfit : ∀ f ∈ frames, Fits P f := fun f hf =>
    (hend f hf).trans (by exact_mod_cast h64.le)
  have hrec := (h.run hB ho hfit cs hcs).done hB hend
  rw [List.nil_append] at hrec
  -- everything has been received, and what has not been returned is in the queue
  obtain ⟨hdrain, hq⟩ := hrec.drain calls
  have hlen : (s.run cs).1.mQ.length ≤ calls := by
    refine le_trans ?_ hcalls
    rw [← hrec.1, List.length_append]
    exact Nat.le_add_left _ _
  rw [List.drop_eq_nil_of_le hlen] at hq
  rw [run_append, ← hdrain.1, hq, List.append_nil]

end UartSim

open UartSim in
/-- The console shows the lines that the software writes. It is read from the reset on, at least
every 86 nanoseconds, until the last frame is over, and then asked for all lines. -/
theorem UartTop.Run.Session.prints {run : UartTop.Run} {rest : List UartAccess} {T : ℕ}
    (h : run.Session rest T) {o begin : ℕ} {cs : List Call} (hbegin : begin ≤ o)
    (spacing : (begin :: (ticks cs).map Prod.fst).IsChain (Next 8680))
    (line : ∀ c ∈ ticks cs, c.2 = run.level o c.1)
    (hend : o + 20 * (T + 1 + 27 * 324) ≤ lastTime begin cs) (h64 : lastTime begin cs < 2 ^ 64)
    (w : ℕ) (c : BitVec 8) (p : ℕ) {calls : ℕ}
    (hcalls : (cut [] (UartConfig.initial.text (UartLib.uartInit ++ rest))).1.length ≤ calls) :
    ((construct 115200 w c p).run (.tick (run.level o begin) begin :: cs ++
        List.replicate calls .getString)).2.filter (· ≠ []) =
      (cut [] (UartConfig.initial.text (UartLib.uartInit ++ rest))).1 := by
  obtain ⟨frames, hbytes, horder, hbefore, hshows, hover⟩ := h.shows o
  -- the bits of the line are 8640 nanoseconds long, those of the simulator 8680
  have hnear : Near 8680 (8640 : ℚ) := ⟨by norm_num, by norm_num, by norm_num⟩
  have hhigh : run.level o begin = true := by
    obtain ⟨s, hs⟩ := run.start
    rw [UartTop.Run.level, Nat.sub_eq_zero_of_le hbegin, Nat.zero_div]
    refine (h.regs.driven.stxPadO_eq 0).trans ?_
    change (run.state 0).regs.transmitter.stxOTmp = true
    rw [hs]
    rfl
  have hstart : Tracks 8680 (8640 : ℚ) frames ((construct 115200 w c p).uartTick true begin) []
      begin := by
    refine ⟨rfl, [], frames, rfl, .waiting rfl (by simp) fun f hf => ?_, rfl, rfl⟩
    exact (Nat.cast_le.mpr hbegin).trans (hbefore f hf)
  have hreads : Reads 8680 (8640 : ℚ) frames begin cs :=
    ⟨spacing, fun c hc => by rw [line c hc]; exact hshows c.1⟩
  rw [← hbytes] at hcalls ⊢
  rw [hhigh]
  exact hstart.lines hnear horder hreads
    (fun f hf => (hover f hf).trans (Nat.cast_le.mpr hend)) h64 hcalls

/-! ## The writers -/

/-- What an access of a writer does to the UART: the bytes of the string are read elsewhere. -/
def UartAccess.ofEvent : UartLib.Event → Option UartAccess
  | .load _ => none
  | .status word => some (.read 5 (word.setWidth 8))
  | .sb dat => some (.write 0 dat)
  | .sw dat => some (.write 0 (dat.setWidth 8))

namespace UartLib

open UartAccess

variable {events : List Event}

/-- The accesses of a writer keep the format and the divisor. -/
theorem keeps_ofEvent : ∀ a ∈ events.filterMap ofEvent, a.Keeps := by
  intro a ha
  obtain ⟨event, -, hevent⟩ := List.mem_filterMap.mp ha
  cases event <;> simp only [ofEvent, Option.some.injEq, reduceCtorEq] at hevent <;> subst hevent
  · trivial
  · exact ⟨by decide, by decide, by decide⟩
  · exact ⟨by decide, by decide, by decide⟩

/-- With the divisor not in its place, the transmitter is given what the writer stores, in order. -/
theorem text_ofEvent {c : UartConfig} (hdlab : c.dlab = false) (events : List Event) :
    c.text (events.filterMap ofEvent) = events.filterMap Event.sent := by
  have hbyte (dat : BitVec 8) : c.byte (.write 0 dat) = [dat] := if_pos ⟨rfl, hdlab⟩
  have hkeep (dat : BitVec 8) : c.access (.write 0 dat) = c := by
    simp [UartConfig.access, UartConfig.write, hdlab]
  induction events with
  | nil => rfl
  | cons event events ih =>
    cases event with
    -- loads and reads give the transmitter nothing
    | load adr => exact ih
    | status word => exact ih
    | sb dat =>
      change c.byte (.write 0 dat) ++ (c.access (.write 0 dat)).text _ = dat :: _
      rw [hbyte, hkeep, ih]
      rfl
    | sw dat =>
      change c.byte (.write 0 _) ++ (c.access (.write 0 _)).text _ = dat.setWidth 8 :: _
      rw [hbyte, hkeep, ih]
      rfl

/-- An access that comes in the list is the first one of the rest, or one behind it. -/
theorem split_cases {first past l rest : List UartAccess} {a b : UartAccess}
    (hsplit : first ++ a :: l = past ++ b :: rest) (hlen : first.length ≤ past.length) :
    first = past ∧ a = b ∨ (first ++ [a]).length ≤ past.length ∧
      first ++ [a] ++ l = past ++ b :: rest := by
  rcases hlen.eq_or_lt with heq | hlt
  · obtain ⟨hpast, hcons⟩ := List.append_inj hsplit heq
    exact .inl ⟨hpast, (List.cons.inj hcons).1⟩
  · refine .inr ⟨?_, by rw [List.append_assoc]; exact hsplit⟩
    rw [List.length_append]
    exact hlt

/-- A writer that stores behind a status with the TX-empty bit has read the bit `THRE`. -/
theorem ready_of_guarded {events : List Event} {first past rest : List UartAccess} {dat : BitVec 8}
    (hguarded : Guarded (ready first) events)
    (hsplit : first ++ events.filterMap ofEvent = past ++ .write 0 dat :: rest)
    (hlen : first.length ≤ past.length) : ready past = true := by
  -- `first` grows by the accesses of the events that are passed
  induction events generalizing first with
  | nil =>
    have hlens := congrArg List.length hsplit
    simp only [List.filterMap_nil, List.append_nil, List.length_append, List.length_cons] at hlens
    omega
  | cons event events ih =>
    cases event with
    | load adr => exact ih hguarded hsplit hlen
    | status word =>
      rcases split_cases hsplit hlen with ⟨-, hne⟩ | ⟨hlen', hsplit'⟩
      · exact absurd hne (by simp)
      · refine ih ?_ hsplit' hlen'
        have hbit : (word.setWidth 8).getLsbD 5 = txEmpty word := by
          rw [BitVec.getLsbD_setWidth]
          rfl
        rw [ready_append_singleton, poll, if_pos rfl, hbit]
        exact hguarded
    | sb word =>
      rcases split_cases hsplit hlen with ⟨rfl, -⟩ | ⟨hlen', hsplit'⟩
      · exact hguarded.1
      · refine ih ?_ hsplit' hlen'
        rw [ready_append_singleton, poll, if_pos rfl]
        exact hguarded.2
    | sw word =>
      rcases split_cases hsplit hlen with ⟨rfl, -⟩ | ⟨hlen', hsplit'⟩
      · exact hguarded.1
      · refine ih ?_ hsplit' hlen'
        rw [ready_append_singleton, poll, if_pos rfl]
        exact hguarded.2

/-- A writer that stores only behind a status with the TX-empty bit is, after `uart_init`, polling
software. -/
theorem polled_ofEvent (hguarded : Guarded false events) :
    Polled (uartInit ++ events.filterMap ofEvent) := by
  intro past dat rest hsplit hdlab
  rcases Nat.lt_or_ge past.length uartInit.length with hlt | hge
  · -- within `uart_init` address 0 is written once, with `dlab`
    have hpast : past = uartInit.take past.length := by
      have htake := congrArg (List.take past.length) hsplit
      rw [List.take_append_of_le_length hlt.le, List.take_left' rfl] at htake
      exact htake.symm
    have hget := congrArg (fun l => l[past.length]?) hsplit
    simp only [List.getElem?_append_left hlt, List.getElem?_append_right le_rfl, Nat.sub_self,
      List.getElem?_cons_zero] at hget
    have hone : past.length = 1 := by
      have hlen : past.length < 5 := hlt
      have hcases : past.length = 0 ∨ past.length = 1 ∨ past.length = 2 ∨ past.length = 3 ∨
          past.length = 4 := by omega
      rcases hcases with hn | hn | hn | hn | hn <;> rw [hn] at hget <;> simp [uartInit] at hget
      exact hn
    have hset : (UartConfig.initial.after [.write 3 0x80]).dlab = true := by decide
    rw [hone] at hpast
    rw [hpast] at hdlab
    exact absurd (hset.symm.trans hdlab) (by decide)
  · have hstart : Guarded (ready uartInit) events := hguarded
    exact ready_of_guarded hstart hsplit hge

/-- From its first character on, a writer has sent of a string as much as the statuses allowed. -/
theorem Writes.sent_eq {adr : BitVec 32} {s : List (BitVec 8)} {n : ℕ} {t : Trace}
    (h : Writes adr s 0 n t) : t.events.filterMap Event.sent = s.take n := h.sent

/-- The assembly writes any string but the empty one, as far as the statuses allow. -/
theorem Assembly.uartWriteStr_writes {mem : BitVec 32 → BitVec 8} {adr : BitVec 32}
    {s : List (BitVec 8)} (h : StringAt mem adr s) (hs : s ≠ []) (words : List (BitVec 32)) :
    Writes adr s 0 (words.countP txEmpty) (uartWriteStr mem adr words) := by
  have hwrites := nextChar_writes h words (List.length_pos_of_ne_nil hs)
  rw [StringAt.add_zero] at hwrites
  exact hwrites.load ⟨0, Nat.zero_le _, (StringAt.add_zero adr).symm⟩

/-- The C code writes any string of fewer than `2 ^ 31` bytes, as far as the statuses allow. -/
theorem CLang.uartWriteStr_writes {mem : BitVec 32 → BitVec 8} {adr : BitVec 32}
    {s : List (BitVec 8)} (h : StringAt mem adr s) (hs : s.length < 2 ^ 31)
    (words : List (BitVec 32)) :
    Writes adr s 0 (words.countP txEmpty) (uartWriteStr mem adr words) :=
  forLoop_writes h (Nat.zero_le _) (by omega)

/-- One of the two writers, on a string that it can write. -/
inductive Wrote (mem : BitVec 32 → BitVec 8) (adr : BitVec 32) (s : List (BitVec 8))
    (words : List (BitVec 32)) : Trace → Prop
  | assembly (hs : s ≠ []) : Wrote mem adr s words (Assembly.uartWriteStr mem adr words)
  | cLang (hs : s.length < 2 ^ 31) : Wrote mem adr s words (CLang.uartWriteStr mem adr words)

/-- Either writer writes a string that it can write, as far as the statuses allow. -/
theorem Wrote.writes {mem : BitVec 32 → BitVec 8} {adr : BitVec 32} {s : List (BitVec 8)}
    {words : List (BitVec 32)} {t : Trace} (hstr : StringAt mem adr s)
    (h : Wrote mem adr s words t) : Writes adr s 0 (words.countP txEmpty) t := by
  cases h with
  | assembly hs => exact Assembly.uartWriteStr_writes hstr hs words
  | cLang hs => exact CLang.uartWriteStr_writes hstr hs words

end UartLib

open UartLib UartSim in
/-- When the software calls `uart_init` and then, in assembly or in C, `uart_write_str`, the console
shows the lines of the string, as far as it has been written. -/
theorem UartTop.Run.writeStr_prints {run : UartTop.Run} (hholds : run.Holds)
    {mem : BitVec 32 → BitVec 8} {adr : BitVec 32} {s : List (BitVec 8)} (hstr : StringAt mem adr s)
    {words : List (BitVec 32)} {trace : Trace} (hwrote : Wrote mem adr s words trace) {T : ℕ}
    (hserved : ∀ t, T ≤ t →
      run.served t = uartInit ++ trace.events.filterMap UartAccess.ofEvent)
    {o begin : ℕ} {cs : List Call} (hbegin : begin ≤ o)
    (spacing : (begin :: (ticks cs).map Prod.fst).IsChain (Next 8680))
    (line : ∀ c ∈ ticks cs, c.2 = run.level o c.1)
    (hend : o + 20 * (T + 1 + 27 * 324) ≤ lastTime begin cs) (h64 : lastTime begin cs < 2 ^ 64)
    (w : ℕ) (c : BitVec 8) (p : ℕ) {calls : ℕ}
    (hcalls : (cut [] (s.take (words.countP txEmpty))).1.length ≤ calls) :
    ((construct 115200 w c p).run (.tick (run.level o begin) begin :: cs ++
        List.replicate calls .getString)).2.filter (· ≠ []) =
      (cut [] (s.take (words.countP txEmpty))).1 := by
  have hwrites := hwrote.writes hstr
  have hsession : run.Session (trace.events.filterMap UartAccess.ofEvent) T :=
    ⟨hholds, hserved, keeps_ofEvent, polled_ofEvent hwrites.guarded⟩
  -- `uart_init` gives the transmitter nothing, as its write to address 0 is for the divisor
  have htext : UartConfig.initial.text (uartInit ++ trace.events.filterMap UartAccess.ofEvent) =
      s.take (words.countP txEmpty) := by
    have hnone : UartConfig.initial.text uartInit = [] := by decide
    rw [UartConfig.text_append, hnone, List.nil_append, text_ofEvent (by decide), hwrites.sent_eq]
  rw [← htext] at hcalls ⊢
  exact hsession.prints hbegin spacing line hend h64 w c p hcalls

namespace UartSim

/-- Calls of `uart_tick` every `step` nanoseconds, `n` of them behind nanosecond `τ`, each with the
level of the line at its time. -/
def callsEvery (level : ℕ → Bool) (step τ : ℕ) : ℕ → List Call
  | 0 => []
  | n + 1 => .tick (level (τ + step)) (τ + step) :: callsEvery level step (τ + step) n

/-- Such calls are close enough together to follow the line, have its levels, and last `step * n`
nanoseconds. -/
theorem ticks_callsEvery (level : ℕ → Bool) {step : ℕ} (hstep : 0 < step ∧ step ≤ 86) (τ n : ℕ) :
    (τ :: (ticks (callsEvery level step τ n)).map Prod.fst).IsChain (Next 8680) ∧
      (∀ c ∈ ticks (callsEvery level step τ n), c.2 = level c.1) ∧
      lastTime τ (callsEvery level step τ n) = τ + step * n := by
  induction n generalizing τ with
  | zero => exact ⟨List.isChain_singleton _, by simp [callsEvery, ticks], rfl⟩
  | succ n ih =>
    obtain ⟨hspace, hline, hlast⟩ := ih (τ + step)
    refine ⟨List.isChain_cons_cons.mpr ⟨⟨by omega, by omega⟩, hspace⟩, fun c hc => ?_, ?_⟩
    · rcases List.mem_cons.mp hc with rfl | hc
      · rfl
      · exact hline c hc
    · rw [callsEvery, lastTime_tick, hlast, Nat.mul_succ]
      omega

end UartSim

/-! ## Software that waits between its polls -/

namespace UartLib

open UartAccess

/-- The accesses to the UART of a writer that finds the TX-empty bit set in each status: for each
character of the text it reads a status, and stores the character. -/
def polls (words : List (BitVec 32)) (text : List (BitVec 8)) : List Event :=
  (words.zip text).flatMap fun p => [.status p.1, .sb p.2]

variable {words : List (BitVec 32)} {text : List (BitVec 8)}

/-- Such a writer stores each character behind a status with the TX-empty bit, as a guarded one
does. -/
theorem guarded_polls (h : ∀ word ∈ words, txEmpty word = true) :
    Guarded false (polls words text) := by
  induction words generalizing text with
  | nil => trivial
  | cons word words ih =>
    cases text with
    | nil => trivial
    | cons c text =>
      exact ⟨h word List.mem_cons_self, ih fun w hw => h w (List.mem_cons_of_mem _ hw)⟩

/-- Accesses that only read statuses are guarded, as nothing is stored. -/
theorem guarded_statuses {ready : Bool} (words : List (BitVec 32)) :
    Guarded ready (words.map Event.status) := by
  induction words generalizing ready with
  | nil => trivial
  | cons word words ih => exact ih

/-- One character more is one status and one store more. -/
theorem polls_append (hlen : words.length = text.length) (word : BitVec 32) (c : BitVec 8) :
    polls (words ++ [word]) (text ++ [c]) = polls words text ++ [.status word, .sb c] := by
  rw [polls, List.zip_append hlen, List.flatMap_append]
  rfl

variable {events : List Event} {t : Trace}

/-- A guarded writer has a status for each byte that it stores, but for one that it may have had
before. -/
theorem length_sent_le {ready : Bool} (h : Guarded ready events) :
    (events.filterMap Event.sent).length ≤
      (events.filterMap Event.polled).length + ready.toNat := by
  induction events generalizing ready with
  | nil => exact Nat.zero_le _
  | cons event events ih =>
    cases event with
    | load adr => exact ih h
    | status word =>
      -- this status may be ready or not, and the one before it is lost
      have hrest := ih h
      have hone := Bool.toNat_le (txEmpty word)
      change _ ≤ (events.filterMap Event.polled).length + 1 + ready.toNat
      exact hrest.trans (by omega)
    | sb dat =>
      obtain ⟨rfl, hrest⟩ := h
      exact Nat.succ_le_succ (ih hrest)
    | sw dat =>
      obtain ⟨rfl, hrest⟩ := h
      exact Nat.succ_le_succ (ih hrest)

/-- A guarded writer that stores a byte for each status it reads, and for one that it may have had
before, stores each byte behind its status. -/
theorem filterMap_ofEvent_eq {ready : Bool} (h : Guarded ready events)
    (hlen : (events.filterMap Event.polled).length + ready.toNat ≤
      (events.filterMap Event.sent).length) :
    events.filterMap ofEvent =
      ((events.filterMap Event.sent).take ready.toNat).map (.write 0) ++
        (polls (events.filterMap Event.polled)
          ((events.filterMap Event.sent).drop ready.toNat)).filterMap ofEvent := by
  induction events generalizing ready with
  | nil =>
    cases ready with
    | false => rfl
    | true => rfl
  | cons event events ih =>
    cases event with
    | load adr => exact ih h hlen
    | status word =>
      have hrest : Guarded (txEmpty word) events := h
      have hcount := length_sent_le hrest
      simp only [List.filterMap_cons, Event.polled, Event.sent, List.length_cons] at hlen
      -- there has not been a status before, and this one is used
      have hready : ready = false := by
        cases ready with
        | false => rfl
        | true =>
          have hone := Bool.toNat_le (txEmpty word)
          rw [Bool.toNat_true] at hlen
          omega
      have hword : txEmpty word = true := by
        cases hempty : txEmpty word with
        | true => rfl
        | false =>
          rw [hempty, Bool.toNat_false] at hcount
          omega
      rw [hready, Bool.toNat_false] at hlen ⊢
      rw [hword] at hrest
      have hevents := ih hrest hlen
      obtain ⟨c, text, htext⟩ := List.exists_cons_of_ne_nil
        (List.ne_nil_of_length_pos (Nat.lt_of_lt_of_le (Nat.succ_pos _) hlen))
      rw [htext] at hevents
      simp only [List.filterMap_cons, Event.polled, Event.sent, ofEvent, hevents, htext]
      rfl
    | sb dat =>
      obtain ⟨rfl, hrest⟩ := h
      have hevents := ih hrest (Nat.le_of_succ_le_succ hlen)
      simp only [List.filterMap_cons, Event.polled, Event.sent, ofEvent, hevents]
      rfl
    | sw dat =>
      obtain ⟨rfl, hrest⟩ := h
      have hevents := ih hrest (Nat.le_of_succ_le_succ hlen)
      simp only [List.filterMap_cons, Event.polled, Event.sent, ofEvent, hevents]
      rfl

/-- A guarded writer that is given as many statuses as it stores bytes makes these accesses. -/
theorem filterMap_ofEvent_of_consumes (hguarded : Guarded false t.events)
    (hsent : t.events.filterMap Event.sent = text) (hconsumes : Consumes words t)
    (hlen : words.length = text.length) :
    t.events.filterMap ofEvent = (polls words text).filterMap ofEvent := by
  obtain ⟨left, hwords, -⟩ := hconsumes
  have hcount := length_sent_le hguarded
  rw [hsent, ← hlen, hwords, List.length_append, Bool.toNat_false] at hcount
  obtain rfl : left = [] := List.eq_nil_of_length_eq_zero (by omega)
  rw [List.append_nil] at hwords
  have hevents := filterMap_ofEvent_eq hguarded (by rw [hsent, ← hwords, hlen]; exact le_rfl)
  rw [hsent, ← hwords] at hevents
  exact hevents

end UartLib

namespace UartTop.Run

open UartAccess UartLib

/-- The slots of software that calls `uart_init`, and then sends a text: it waits for 1458 slots
before it reads the line status, and writes a character in the slot after that. -/
def patientSlots (text : List (BitVec 8)) (k : ℕ) : Option UartAccess :=
  if k < 5 then uartInit[k]?
  else
    text[(k - 5) / 1460]?.bind fun c =>
      if (k - 5) % 1460 < 1458 then none
      else if (k - 5) % 1460 = 1458 then some (.read 5 0)
      else some (.write 0 c)

/-- The run with this software, on a line that stays high. -/
def patientRun (text : List (BitVec 8)) : Run := script true (patientSlots text)

/-- The first slot behind those of the last character: five for `uart_init`, and 1460 for each
character. -/
def patientEnd (text : List (BitVec 8)) : ℕ := 5 + 1460 * text.length

section Patient

variable {text : List (BitVec 8)} {c : BitVec 8} {k : ℕ}

/-- Behind the last character the slots are empty. -/
theorem patientSlots_of_le (hk : patientEnd text ≤ k) : patientSlots text k = none := by
  rw [patientEnd] at hk
  rw [patientSlots, if_neg (by omega), List.getElem?_eq_none (by omega)]
  rfl

/-- Up to the status of the last character the slots are those of the text without it. -/
theorem patientSlots_append (hk : k < patientEnd text + 1458) :
    patientSlots (text ++ [c]) k = patientSlots text k := by
  rw [patientEnd] at hk
  by_cases hinit : k < 5
  · rw [patientSlots, if_pos hinit, patientSlots, if_pos hinit]
  rw [patientSlots, if_neg hinit, patientSlots, if_neg hinit]
  rcases Nat.lt_or_ge ((k - 5) / 1460) text.length with hlt | hge
  · rw [List.getElem?_append_left hlt]
  · have heq : (k - 5) / 1460 = text.length := by omega
    rw [heq, List.getElem?_concat_length, List.getElem?_eq_none le_rfl, Option.bind_some,
      if_pos (by omega)]
    rfl

/-- The status behind which a new last character is sent is read after 1458 slots of waiting. -/
theorem patientSlots_status (text : List (BitVec 8)) (c : BitVec 8) :
    patientSlots (text ++ [c]) (patientEnd text + 1458) = some (.read 5 0) := by
  have hdiv : (patientEnd text + 1458 - 5) / 1460 = text.length := by rw [patientEnd]; omega
  have hmod : (patientEnd text + 1458 - 5) % 1460 = 1458 := by rw [patientEnd]; omega
  rw [patientSlots, if_neg (by omega), hdiv, hmod, List.getElem?_concat_length]
  rfl

/-- The new last character is written in the slot behind that of its status. -/
theorem patientSlots_store (text : List (BitVec 8)) (c : BitVec 8) :
    patientSlots (text ++ [c]) (patientEnd text + 1458 + 1) = some (.write 0 c) := by
  have hdiv : (patientEnd text + 1458 + 1 - 5) / 1460 = text.length := by rw [patientEnd]; omega
  have hmod : (patientEnd text + 1458 + 1 - 5) % 1460 = 1459 := by rw [patientEnd]; omega
  rw [patientSlots, if_neg (by omega), hdiv, hmod, List.getElem?_concat_length]
  rfl

/-- In the first five slots the software makes the accesses of `uart_init`. -/
theorem patientRun_init : (patientRun []).regs.made (6 * 5) = uartInit := by
  rw [patientRun, script_made_succ, script_made_succ, script_made_succ, script_made_succ,
    script_made_succ]
  rfl

/-- A slot with a write adds the write to what has been made. -/
theorem script_store {srx : Bool} {slots : ℕ → Option UartAccess} {addr : BitVec 3}
    {dat : BitVec 8} (h : slots k = some (.write addr dat)) :
    (script srx slots).regs.made (6 * (k + 1)) =
      (script srx slots).regs.made (6 * k) ++ [.write addr dat] := by
  rw [script_made_succ, h]
  rfl

/-- A slot with a read of the line status adds a read of the line status in its second cycle. -/
theorem script_status {srx : Bool} {slots : ℕ → Option UartAccess} {dat : BitVec 8}
    (h : slots k = some (.read 5 dat)) :
    (script srx slots).regs.made (6 * (k + 1)) = (script srx slots).regs.made (6 * k) ++
      [.read 5 ((script srx slots).regs.state (6 * k + 1)).lsr] := by
  have hread : (script srx slots).regs.ReadsStatus (6 * k + 1) _ := script_accesses_slot h
  rw [script_made_succ, h, hread.lsr_eq]
  rfl

/-- Behind its last character the software makes no access to the registers. -/
theorem patientRun_rests {t : ℕ} (ht : 6 * patientEnd text ≤ t) :
    ((patientRun text).regs.state t).accesses ((patientRun text).regs.inp t) = [] :=
  script_accesses_eq_nil fun _ => patientSlots_of_le (by omega)

/-- What the software has done is a session, if each status has the TX-empty bit. -/
theorem patientRun_session {words : List (BitVec 32)}
    (hready : ∀ word ∈ words, txEmpty word = true)
    (hmade : (patientRun text).regs.made (6 * patientEnd text) =
      uartInit ++ (polls words text).filterMap ofEvent) :
    (patientRun text).regs.Session ((polls words text).filterMap ofEvent)
      (6 * patientEnd text) where
  all _ ht := (script_made_of_le (fun _ => patientSlots_of_le) ht).trans hmade
  keeps := keeps_ofEvent
  polled := polled_ofEvent (guarded_polls hready)

/-- The wait is long enough for `THRE` to be set again. -/
theorem patientRun_thre {words : List (BitVec 32)}
    (hready : ∀ word ∈ words, txEmpty word = true)
    (hmade : (patientRun text).regs.made (6 * patientEnd text) =
      uartInit ++ (polls words text).filterMap ofEvent) :
    ((patientRun text).regs.state (6 * (patientEnd text + 1458) + 1)).lsr.getLsbD 5 = true := by
  have hwait : 6 * (patientEnd text + 1458) + 1 =
      6 * patientEnd text + (6 * 1458 + 1 - (27 * 321 + 3)) + (27 * 321 + 3) := by omega
  have hinit : 5 ≤ ((patientRun text).regs.made
      (6 * patientEnd text + (6 * 1458 + 1 - (27 * 321 + 3)))).length := by
    rw [(patientRun_session hready hmade).all _ (Nat.le_add_right _ _), List.length_append]
    exact Nat.le_add_right 5 _
  rw [hwait]
  refine (patientRun_session hready hmade).driven.thre_set (regs_holds script_holds) hinit
    fun w hw _ => ?_
  by_contra hwrites
  have haccess := UartRegs.Run.accesses_of_writes (Bool.of_not_eq_false hwrites)
  exact absurd (haccess.symm.trans (patientRun_rests (by omega))) (by simp)

/-- The software makes the accesses of a writer that finds the TX-empty bit set in each status. -/
theorem exists_words (text : List (BitVec 8)) : ∃ words : List (BitVec 32),
    words.length = text.length ∧ (∀ word ∈ words, txEmpty word = true) ∧
      (patientRun text).regs.made (6 * patientEnd text) =
        uartInit ++ (polls words text).filterMap ofEvent := by
  induction text using List.reverseRecOn with
  | nil => exact ⟨[], rfl, by simp, patientRun_init⟩
  | append_singleton text c ih =>
    obtain ⟨words, hlen, hready, hmade⟩ := ih
    have hsame : ∀ j < patientEnd text + 1458,
        patientSlots (text ++ [c]) j = patientSlots text j := fun j => patientSlots_append
    have hend : patientEnd (text ++ [c]) = patientEnd text + 1458 + 1 + 1 := by
      rw [patientEnd, patientEnd, List.length_append, List.length_singleton]
      omega
    -- up to the status of the new character nothing has changed
    have hbefore : (patientRun (text ++ [c])).regs.made (6 * (patientEnd text + 1458)) =
        uartInit ++ (polls words text).filterMap ofEvent := by
      rw [patientRun, script_made_congr hsame le_rfl]
      exact (patientRun_session hready hmade).all _ (by omega)
    have hthre := patientRun_thre hready hmade
    rw [patientRun, ← script_regs_congr hsame le_rfl] at hthre
    change ((patientRun (text ++ [c])).regs.state _).lsr.getLsbD 5 = true at hthre
    have hread := patientSlots_status text c
    have hwrite := patientSlots_store text c
    generalize patientEnd text + 1458 = m at hend hbefore hthre hread hwrite
    refine ⟨words ++ [((patientRun (text ++ [c])).regs.state (6 * m + 1)).lsr.setWidth 32],
      by simp [hlen], fun word hmem => ?_, ?_⟩
    · rcases List.mem_append.mp hmem with hold | hnew
      · exact hready word hold
      · rw [List.mem_singleton.mp hnew, txEmpty, BitVec.getLsbD_setWidth, hthre]
        rfl
    · rw [hend, patientRun, script_store hwrite, script_status hread, polls_append hlen,
        List.filterMap_append, ← patientRun, hbefore]
      simp [ofEvent]

/-- The master sees all these accesses acknowledged, and no others. -/
theorem exists_words_served (text : List (BitVec 8)) : ∃ words : List (BitVec 32),
    words.length = text.length ∧ (∀ word ∈ words, txEmpty word = true) ∧
      ∀ t, 6 * patientEnd text + 1 ≤ t →
        (patientRun text).served t = uartInit ++ (polls words text).filterMap ofEvent := by
  obtain ⟨words, hlen, hready, hmade⟩ := exists_words text
  exact ⟨words, hlen, hready,
    fun t ht => (script_served (fun _ => patientSlots_of_le) ht).trans hmade⟩

/-- The slots of software that sends a text in this way, and then reads the line status in every
slot, for ever. -/
def pollingSlots (text : List (BitVec 8)) (k : ℕ) : Option UartAccess :=
  if k < patientEnd text then patientSlots text k else some (.read 5 0)

/-- The run with this software, on a line that stays high. -/
def pollingRun (text : List (BitVec 8)) : Run := script true (pollingSlots text)

/-- Behind the text, what the software does in a cycle is to read the line status, if anything. -/
theorem pollingRun_accesses {t : ℕ} (ht : 6 * patientEnd text ≤ t) :
    ((pollingRun text).regs.state t).accesses ((pollingRun text).regs.inp t) = [] ∨
      ∃ dat, (pollingRun text).regs.ReadsStatus t dat := by
  by_cases hmod : t % 6 = 1
  · have ht' : t = 6 * (t / 6) + 1 := by omega
    have hslot : pollingSlots text (t / 6) = some (.read 5 0) := if_neg (by omega)
    rw [ht']
    exact .inr ⟨_, script_accesses_slot hslot⟩
  · exact .inl (script_accesses_eq_nil fun h => absurd h hmod)

/-- The software reads the line status again and again, without an end. -/
theorem pollingRun_reads (n : ℕ) :
    ∃ v, n ≤ v ∧ ∃ dat, (pollingRun text).regs.ReadsStatus v dat := by
  have hslot : pollingSlots text (patientEnd text + n) = some (.read 5 0) :=
    if_neg (Nat.not_lt.mpr (Nat.le_add_right _ _))
  exact ⟨6 * (patientEnd text + n) + 1, by omega, _, script_accesses_slot hslot⟩

/-- What the software has done behind the text is to read the line status. -/
theorem pollingRun_made {words : List (BitVec 32)}
    (hmade : (patientRun text).regs.made (6 * patientEnd text) =
      uartInit ++ (polls words text).filterMap ofEvent) {t : ℕ} (ht : 6 * patientEnd text ≤ t) :
    ∃ more : List (BitVec 32), (pollingRun text).regs.made t =
      uartInit ++ (polls words text ++ more.map Event.status).filterMap ofEvent := by
  induction t, ht using Nat.le_induction with
  | base =>
    refine ⟨[], ?_⟩
    rw [List.map_nil, List.append_nil, ← hmade]
    exact script_made_congr (fun j hj => if_pos hj) le_rfl
  | succ t ht ih =>
    obtain ⟨more, hmore⟩ := ih
    rw [UartRegs.Run.made, hmore]
    -- in this cycle the software does nothing or reads another status
    rcases pollingRun_accesses ht with hnone | ⟨dat, hread⟩
    · exact ⟨more, by rw [hnone, List.append_nil]⟩
    · refine ⟨more ++ [dat.setWidth 32], ?_⟩
      have hwidth : (dat.setWidth 32).setWidth 8 = dat := by
        rw [BitVec.setWidth_setWidth_of_le _ (by decide), BitVec.setWidth_eq]
      have haccess : ((pollingRun text).regs.state t).accesses ((pollingRun text).regs.inp t) =
          [.read 5 dat] := hread
      rw [haccess]
      simp [ofEvent, hwidth]

/-- A run with this software is one with software that polls. -/
theorem pollingRun_driven (text : List (BitVec 8)) : (pollingRun text).regs.Driven := by
  obtain ⟨words, -, hready, hmade⟩ := exists_words text
  refine .of_made fun t => ?_
  obtain ⟨more, hmore⟩ := pollingRun_made hmade (le_max_right t (6 * patientEnd text))
  have hguarded : Guarded false (polls words text ++ more.map Event.status) :=
    (guarded_polls hready).append (guarded_statuses more)
  refine ⟨_, ?_, keeps_ofEvent, polled_ofEvent hguarded⟩
  rw [← hmore]
  exact UartRegs.Run.made_prefix _ (le_max_left _ _)

end Patient

/-! ## An example -/

/-- A text of two lines with one letter each. -/
def twoLines : List (BitVec 8) := [0x41, newline, 0x42, newline]

/-- A memory with this text at address 16, and nothing else. -/
def linesMem (adr : BitVec 32) : BitVec 8 :=
  if 16 ≤ adr.toNat then twoLines.getD (adr.toNat - 16) 0 else 0

/-- The text is a string in this memory. -/
theorem stringAt_linesMem : StringAt linesMem 16 twoLines := by
  refine ⟨?_, by decide, by decide⟩
  decide

/-- Behind both lines the software that reads the line status again and again finds `THRE` set. -/
theorem thre_returns_lines :
    ((pollingRun twoLines).regs.state (6 * patientEnd twoLines + (27 * 321 + 3))).lsr.getLsbD 5 =
        true ∧
      ∃ v, 6 * patientEnd twoLines ≤ v ∧ ∃ dat, (pollingRun twoLines).regs.ReadsStatus v dat ∧
        dat.getLsbD 5 = true := by
  obtain ⟨words, -, -, hmade⟩ := exists_words twoLines
  -- the five accesses of `uart_init` have been made
  have hinit : 5 ≤ ((pollingRun twoLines).regs.made (6 * patientEnd twoLines)).length := by
    obtain ⟨more, hmore⟩ := pollingRun_made hmade le_rfl
    rw [hmore, List.length_append]
    exact Nat.le_add_right 5 _
  -- behind the text nothing is written
  have hnone (w : ℕ) (hw : 6 * patientEnd twoLines ≤ w) :
      ((pollingRun twoLines).regs.inp w).writes 0 = false := by
    by_contra hwrites
    have haccess := UartRegs.Run.accesses_of_writes (Bool.of_not_eq_false hwrites)
    rcases pollingRun_accesses hw with hidle | ⟨dat, hread⟩
    · exact absurd (haccess.symm.trans hidle) (by simp)
    · exact absurd (haccess.symm.trans hread) (by simp)
  obtain ⟨hset, hpoll⟩ := UartRegs.Run.Driven.thre_returns (pollingRun_driven twoLines)
    (regs_holds script_holds) hinit
  refine ⟨(hset _ le_rfl fun w hw _ => hnone w hw).1, ?_⟩
  -- what ends the wait is a read, as there is no write
  obtain ⟨v, hv, hread | hwrites⟩ := hpoll pollingRun_reads
  · exact ⟨v, hv, hread⟩
  · exact absurd ((hnone v hv).symm.trans hwrites) Bool.false_ne_true

open UartSim in
/-- The console shows both lines of the string when it has been written. -/
theorem writeStr_prints_lines :
    ((construct 115200 0 0 0).run (.tick ((patientRun twoLines).level 0 0) 0 ::
        callsEvery ((patientRun twoLines).level 0) 80 0 11000 ++
          List.replicate 2 .getString)).2.filter (· ≠ []) = [[0x41, newline], [0x42, newline]] := by
  obtain ⟨words, hlen, hready, hserved⟩ := exists_words_served twoLines
  have hcount : words.countP txEmpty = 4 := (List.countP_eq_length.mpr hready).trans hlen
  -- all four characters are written, since each status has been ready
  have hlines : (cut [] (twoLines.take (words.countP txEmpty))).1 =
      [[0x41, newline], [0x42, newline]] := by
    rw [hcount]
    decide
  obtain ⟨hspace, hline, hlast⟩ :=
    ticks_callsEvery ((patientRun twoLines).level 0) (show 0 < 80 ∧ 80 ≤ 86 by decide) 0 11000
  have hwrites := Assembly.uartWriteStr_writes stringAt_linesMem (by decide) words
  have hsent : (Assembly.uartWriteStr linesMem 16 words).events.filterMap Event.sent =
      twoLines := by
    rw [hwrites.sent_eq, hcount]
    rfl
  -- the accesses of the writer are those of the run
  have hevents := filterMap_ofEvent_of_consumes hwrites.guarded hsent
    (Assembly.uartWriteStr_consumes 16 words) hlen
  refine (writeStr_prints script_holds stringAt_linesMem (.assembly (by decide))
    (T := 6 * patientEnd twoLines + 1) (fun t ht => ?_) le_rfl hspace hline ?_ ?_ 0 0 0 ?_).trans
      hlines
  · rw [hevents]
    exact hserved t ht
  · rw [hlast]
    decide
  · rw [hlast]
    decide
  · rw [hlines]
    decide

end UartTop.Run

end RvPipelineCore

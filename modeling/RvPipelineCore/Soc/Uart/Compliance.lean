import RvPipelineCore.Soc.Uart.Console
import RvPipelineCore.Sw.Signature

/-!
# The signature on the console

A compliance test ends with `RVMODEL_HALT`. The console of the simulation then shows its signature.

- `UartTop.Run.rvmodelHalt_prints`: the lines of the console, and the words that they stand for.
-/

namespace RvPipelineCore

open Serial UartLib UartSim

/-- When a test calls `uart_init` and goes on with `RVMODEL_HALT`, the console shows the words of
the signature, one to a line, and a last line: as many of these lines as have been written, and all
of them when the transmitter has been empty often enough. Read in hexadecimal, the lines are the
words. -/
theorem UartTop.Run.rvmodelHalt_prints {run : UartTop.Run} (hholds : run.Holds)
    {mem : BitVec 32 → BitVec 8} {beginSignature endSignature stopSim : BitVec 32} {n : ℕ}
    (hn : endSignature.toNat = beginSignature.toNat + 4 * n)
    (hhalf : beginSignature.msb = endSignature.msb)
    (hstr : StringAt mem stopSim Assembly.haltLine) {words : List (BitVec 32)} {T : ℕ}
    (hserved : ∀ t, T ≤ t → run.served t = uartInit ++
      (Assembly.rvmodelHalt mem beginSignature endSignature stopSim words).events.filterMap
        UartAccess.ofEvent)
    {o begin : ℕ} {cs : List Call} (hbegin : begin ≤ o)
    (spacing : (begin :: (ticks cs).map Prod.fst).IsChain (Next 8680))
    (line : ∀ c ∈ ticks cs, c.2 = run.level o c.1)
    (hend : o + 20 * (T + 1 + 27 * 324) ≤ lastTime begin cs) (h64 : lastTime begin cs < 2 ^ 64)
    (w : ℕ) (c : BitVec 8) (p : ℕ) {calls : ℕ} (hcalls : n + 1 ≤ calls) :
    ((construct 115200 w c p).run (.tick (run.level o begin) begin :: cs ++
        List.replicate calls .getString)).2.filter (· ≠ []) <+:
      Assembly.signatureLines mem beginSignature n ++ [Assembly.haltLine] ∧
    (9 * n + 13 ≤ words.countP txEmpty →
      ((construct 115200 w c p).run (.tick (run.level o begin) begin :: cs ++
          List.replicate calls .getString)).2.filter (· ≠ []) =
        Assembly.signatureLines mem beginSignature n ++ [Assembly.haltLine]) ∧
    (Assembly.signatureLines mem beginSignature n).map (fun line => hexValue line.dropLast) =
      (List.range n).map fun i =>
        (Assembly.lw mem (beginSignature + BitVec.ofNat 32 (4 * i))).toNat := by
  have hstores := Assembly.rvmodelHalt_stores hn hhalf hstr (by decide) words
  have hsession : run.Session ((Assembly.rvmodelHalt mem beginSignature endSignature stopSim
      words).events.filterMap UartAccess.ofEvent) T :=
    ⟨hholds, hserved, keeps_ofEvent, polled_ofEvent hstores.guarded⟩
  obtain ⟨hcount, hlen⟩ := Assembly.length_signatureLines mem beginSignature n
  have hcut := cut_lines (Assembly.exists_of_mem_lines mem beginSignature n)
  rw [List.flatten_append, List.flatten_singleton] at hcut
  set text := (Assembly.signatureLines mem beginSignature n).flatten ++ Assembly.haltLine
  have htext : UartConfig.initial.text (uartInit ++ (Assembly.rvmodelHalt mem beginSignature
      endSignature stopSim words).events.filterMap UartAccess.ofEvent) =
        text.take (words.countP txEmpty) := by
    have hnone : UartConfig.initial.text uartInit = [] := by decide
    rw [UartConfig.text_append, hnone, List.nil_append, text_ofEvent (by decide), hstores.sent]
  -- what has been written is the beginning of the text
  have hstarts : (cut [] (text.take (words.countP txEmpty))).1 <+:
      Assembly.signatureLines mem beginSignature n ++ [Assembly.haltLine] := by
    have hall := cut_prefix [] (text.take (words.countP txEmpty))
      (text.drop (words.countP txEmpty))
    rwa [List.take_append_drop, hcut] at hall
  have hcalls' : (cut [] (text.take (words.countP txEmpty))).1.length ≤ calls := by
    have hle := hstarts.length_le
    rw [List.length_append, hcount] at hle
    exact hle.trans hcalls
  have hprints : ((construct 115200 w c p).run (.tick (run.level o begin) begin :: cs ++
      List.replicate calls .getString)).2.filter (· ≠ []) =
        (cut [] (text.take (words.countP txEmpty))).1 := by
    rw [← htext] at hcalls' ⊢
    exact hsession.prints hbegin spacing line hend h64 w c p hcalls'
  refine ⟨?_, fun hwords => ?_, Assembly.hexValue_signatureLines beginSignature n⟩
  · rw [hprints]
    exact hstarts
  · have hfull : text.length ≤ words.countP txEmpty := by
      rw [List.length_append, hlen]
      exact hwords
    rw [hprints, List.take_of_length_le hfull, hcut]

/-! ## An example -/

namespace UartTop.Run

open Assembly UartAccess

/-- A RAM with the word `0x5A000000` at `0x80000010`, and the last line at `0x80000020`. -/
def haltMem (adr : BitVec 32) : BitVec 8 :=
  if 0x80000020 ≤ adr.toNat then haltLine.getD (adr.toNat - 0x80000020) 0
  else if adr = 0x80000013 then 0x5A else 0

/-- The lines that a test with this memory ends with. -/
def haltText : List (BitVec 8) := (signatureLines haltMem 0x80000010 1).flatten ++ haltLine

/-- The last line is a string in this memory, with a NUL behind it. -/
theorem stringAt_haltMem : StringAt haltMem 0x80000020 haltLine := by
  refine ⟨?_, by decide, by decide⟩
  decide

/-- The text has a line of nine characters and one of thirteen. -/
theorem length_haltText : haltText.length = 22 := by
  rw [haltText, List.length_append, (length_signatureLines haltMem 0x80000010 1).2]
  rfl

/-- With the signature in the RAM and a test that waits between its polls, the console shows the
only word of the signature and the last line. -/
theorem rvmodelHalt_prints_word :
    ((construct 115200 0 0 0).run (.tick ((patientRun haltText).level 0 0) 0 ::
        callsEvery ((patientRun haltText).level 0) 80 0 51000 ++
          List.replicate 2 .getString)).2.filter (· ≠ []) =
      signatureLines haltMem 0x80000010 1 ++ [haltLine] ∧
    (signatureLines haltMem 0x80000010 1).map (fun line => hexValue line.dropLast) =
      [0x5A000000] := by
  obtain ⟨words, hlen, hready, hserved⟩ := exists_words_served haltText
  have hcount : words.countP txEmpty = 22 :=
    (List.countP_eq_length.mpr hready).trans (hlen.trans length_haltText)
  obtain ⟨hspace, hline, hlast⟩ :=
    ticks_callsEvery ((patientRun haltText).level 0) (show 0 < 80 ∧ 80 ≤ 86 by decide) 0 51000
  have hn : (0x80000014 : BitVec 32).toNat = (0x80000010 : BitVec 32).toNat + 4 * 1 := by decide
  have hstores := rvmodelHalt_stores hn (by decide) stringAt_haltMem (by decide) words
  have hevents := filterMap_ofEvent_of_consumes hstores.guarded
    (hstores.sent.trans (List.take_of_length_le (by rw [hcount]; exact length_haltText.le)))
    (rvmodelHalt_consumes 0x80000010 0x80000014 0x80000020 words) hlen
  -- The simulation is called often enough that the last call lies behind the last frame.
  have hend : 0 + 20 * (6 * patientEnd haltText + 1 + 1 + 27 * 324) ≤ 0 + 80 * 51000 := by
    rw [patientEnd, length_haltText]
    decide
  obtain ⟨-, hfull, hvalues⟩ := rvmodelHalt_prints script_holds hn (by decide) stringAt_haltMem
    (T := 6 * patientEnd haltText + 1) (fun t ht => (hserved t ht).trans (by rw [hevents]; rfl))
    le_rfl hspace hline (by rw [hlast]; exact hend) (by rw [hlast]; decide) 0 0 0
    (show 1 + 1 ≤ 2 by decide)
  exact ⟨hfull (by rw [hcount]), hvalues.trans (by decide)⟩

end UartTop.Run

end RvPipelineCore

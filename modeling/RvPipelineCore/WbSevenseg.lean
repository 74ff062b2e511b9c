import Mathlib.Data.BitVec
import Mathlib.Data.Fin.VecNotation
import Mathlib.Tactic.FinCases

/-!
# The seven-segment display

`wb_sevenseg` of `rtl/soc/sev_seg` scans the eight digits of a word. Anode and cathode lag behind
the scan by two cycles, both of them, so that they always belong together.

- `WbSevenseg.Run.scan`: the outputs select one digit and show its nibble.
-/

namespace RvPipelineCore

/-- The registers of `wb_sevenseg`. Bit 32 of `word` is never assigned or read. -/
structure WbSevenseg where
  cnt : BitVec 32
  an : BitVec 8
  anR : BitVec 8
  curNibble : BitVec 4
  word : BitVec 32
  oWbAck : Bool
  oCa : BitVec 7
  oAn : BitVec 8

/-- The inputs of `wb_sevenseg` in one cycle: the reset and what the bus drives. -/
structure WbSevensegIn where
  iWbRst : Bool
  iWbDat : BitVec 32
  iWbSel : BitVec 4
  iWbWe : Bool
  iWbCyc : Bool
  iWbStb : Bool

namespace WbSevenseg

/-- The case statement on `cur_nibble`: the seven segments, active low, that show a hexadecimal
digit. -/
def glyph (curNibble : BitVec 4) : BitVec 7 :=
  match curNibble with
  | 0x0#4 => 0b1000000
  | 0x1#4 => 0b1111001
  | 0x2#4 => 0b0100100
  | 0x3#4 => 0b0110000
  | 0x4#4 => 0b0011001
  | 0x5#4 => 0b0010010
  | 0x6#4 => 0b0000010
  | 0x7#4 => 0b1111000
  | 0x8#4 => 0b0000000
  | 0x9#4 => 0b0011000
  | 0xA#4 => 0b0001000
  | 0xB#4 => 0b0000011
  | 0xC#4 => 0b1000110
  | 0xD#4 => 0b0100001
  | 0xE#4 => 0b0000110
  | 0xF#4 => 0b0001110
  | _ => 0b1001001

/-- Nibble `i` of a word, counted from the lowest one. -/
def nibble (word : BitVec 32) (i : Fin 8) : BitVec 4 := word.extractLsb' (4 * i) 4

/-- The nibbles of `word` that `an` selects, or-ed together. -/
def selected (word : BitVec 32) (an : BitVec 8) : BitVec 4 :=
  (List.finRange 8).foldl
    (fun acc i => acc ||| (nibble word i &&& BitVec.fill 4 (an.getLsbD i))) 0

/-- The word after a write of the lanes that `i_wb_sel` selects. -/
def writeLanes (word dat : BitVec 32) (sel : BitVec 4) : BitVec 32 :=
  (if sel.getLsbD 3 then dat.extractLsb' 24 8 else word.extractLsb' 24 8) ++
    (if sel.getLsbD 2 then dat.extractLsb' 16 8 else word.extractLsb' 16 8) ++
    (if sel.getLsbD 1 then dat.extractLsb' 8 8 else word.extractLsb' 8 8) ++
    (if sel.getLsbD 0 then dat.extractLsb' 0 8 else word.extractLsb' 0 8)

/-- One clock edge of `wb_sevenseg`: the counter goes on, the anodes rotate when it ends, and the
word is written by the bus. -/
def next (cntValue : BitVec 32) (s : WbSevenseg) (inp : WbSevensegIn) : WbSevenseg where
  cnt := if inp.iWbRst || s.cnt == 0 then cntValue else s.cnt - 1
  an :=
    if inp.iWbRst then 0b10000000
    else if s.cnt = 0 then s.an.extractLsb' 0 1 ++ s.an.extractLsb' 1 7
    else s.an
  anR := s.an
  curNibble := selected s.word s.an
  word :=
    if inp.iWbCyc && inp.iWbStb && inp.iWbWe then writeLanes s.word inp.iWbDat inp.iWbSel
    else s.word
  oWbAck := !inp.iWbRst && (inp.iWbCyc && inp.iWbStb && !s.oWbAck)
  oCa := glyph s.curNibble
  oAn := ~~~s.anR

/-- The anode outputs that select digit `i`, of which exactly one is low. -/
def anode (i : Fin 8) : BitVec 8 := ~~~(1 <<< i.val)

/-- If `an` selects digit `i` alone, the selected nibble is that of the digit. -/
theorem selected_one (word : BitVec 32) (i : Fin 8) :
    selected word (1 <<< i.val) = nibble word i := by
  have hall (v : BitVec 4) : v &&& 15#4 = v := BitVec.and_allOnes
  fin_cases i <;> simp [selected, List.finRange, nibble, BitVec.fill, hall]

/-- The scan goes on to the next digit on the right. -/
theorem rotate_one (i : Fin 8) :
    ((1#8 <<< i.val).extractLsb' 0 1 ++ (1#8 <<< i.val).extractLsb' 1 7 : BitVec 8) =
      1 <<< (i - 1).val := by
  revert i
  decide

/-- A run of the display from any contents of its registers, so that nothing is assumed of their
initial values. -/
structure Run (cntValue : BitVec 32) where
  state : ℕ → WbSevenseg
  inp : ℕ → WbSevensegIn
  succ : ∀ t, state (t + 1) = next cntValue (state t) (inp t)

namespace Run

variable {cntValue : BitVec 32} (run : Run cntValue) {t₀ t : ℕ}

/-- Once the display has been reset, it scans one digit at a time. -/
theorem an_eq (hrst : (run.inp t₀).iWbRst = true) (ht : t₀ < t) :
    ∃ i : Fin 8, (run.state t).an = 1 <<< i.val := by
  induction t, ht using Nat.le_induction with
  | base =>
    refine ⟨7, ?_⟩
    rw [run.succ]
    simp [next, hrst]
  | succ t ht ih =>
    obtain ⟨i, hi⟩ := ih
    rw [run.succ]
    simp only [next, hi]
    split_ifs
    · exact ⟨7, rfl⟩
    · exact ⟨i - 1, rotate_one i⟩
    · exact ⟨i, rfl⟩

/-- Two cycles after any cycle behind a reset, the outputs select the digit that was scanned then
and show its nibble. -/
theorem scan (hrst : (run.inp t₀).iWbRst = true) (ht : t₀ < t) :
    ∃ i : Fin 8, (run.state (t + 2)).oAn = anode i ∧
      (run.state (t + 2)).oCa = glyph (nibble (run.state t).word i) := by
  obtain ⟨i, hi⟩ := run.an_eq hrst ht
  refine ⟨i, ?_, ?_⟩
  · rw [run.succ, next, run.succ t, next, hi, anode]
  · rw [run.succ, next, run.succ t, next, hi, selected_one]

end Run

end WbSevenseg

end RvPipelineCore

import RvPipelineCore.Lib.Multiplex
import RvPipelineCore.WbSevenseg

/-!
# The simulated seven-segment display

`SevenSegment` of `vidbo/seven_segment`: it is called with samples of the outputs of `wb_sevenseg`,
collects the digits, and tells when there is a number to publish. A counter keeps it quiet until it
has seen eight digits change. The digits start as zero, which is the glyph of an 8.

- `SevenSegment.Showing.published_iff`: when a word is published;
- `SevenSegment.reports_iff`: if the first word has no digit 8, and only then, all are published.
-/

namespace RvPipelineCore

open Multiplex WbSevenseg

/-- The fields of `SevenSegment`. As a segment, −1 is `none`. -/
structure SevenSegment where
  mDigits : Fin 8 → BitVec 8
  mLastSegment : Option (Fin 8)
  mInitialDecoder : ℕ

namespace SevenSegment

/-- `SevenSegment{}`: the object as it is constructed, with all digits zero and no sample made. -/
def construct : SevenSegment := ⟨fun _ => 0, none, 0⟩

/-- `current_segment` after the loop of `sev_seg_tick`: the highest digit whose anode is low, if
there is one. -/
def currentSegment (anode : BitVec 8) : Option (Fin 8) :=
  (List.finRange 8).foldl (fun cur i => if (~~~anode).getLsbD i.val then some i else cur) none

/-- `digit` in `decoded_value`: the hexadecimal digit that the segments show, and zero for any other
pattern. -/
def digitOf (mDigit : BitVec 8) : BitVec 8 :=
  match mDigit with
  | 0x40#8 => 0x0
  | 0x79#8 => 0x1
  | 0x24#8 => 0x2
  | 0x30#8 => 0x3
  | 0x19#8 => 0x4
  | 0x12#8 => 0x5
  | 0x02#8 => 0x6
  | 0x78#8 => 0x7
  | 0x00#8 => 0x8
  | 0x18#8 => 0x9
  | 0x08#8 => 0xA
  | 0x03#8 => 0xB
  | 0x46#8 => 0xC
  | 0x21#8 => 0xD
  | 0x06#8 => 0xE
  | 0x0e#8 => 0xF
  | _ => 0x0

variable (s : SevenSegment)

/-- `sev_seg_tick`: whether the call reports a number, and the new state. A repeated digit and an
unchanged one are ignored. -/
def sevSegTick (anode cathode : BitVec 8) : Bool × SevenSegment :=
  match currentSegment anode with
  | none => (false, s)
  | some i =>
    if s.mLastSegment = some i then (false, s)
    else if cathode = s.mDigits i then (false, { s with mLastSegment := some i })
    else
      let mInitialDecoder :=
        if s.mInitialDecoder < 8 then s.mInitialDecoder + 1 else s.mInitialDecoder
      (7 < mInitialDecoder,
        { mDigits := Function.update s.mDigits i cathode
          mLastSegment := some i
          mInitialDecoder })

/-- `decoded_value`: the number whose digits the eight stored patterns show. -/
def decodedValue : BitVec 32 :=
  (List.finRange 8).foldl
    (fun val i => val ||| (digitOf (s.mDigits i)).setWidth 32 <<< (i.val * 4)) 0#32

/-- `get_display_number`: the number that the stored patterns show. -/
def getDisplayNumber : BitVec 32 := s.decodedValue

/-! ## Samples of a scan -/

/-- The cathode outputs that show a nibble, widened to the byte that the simulator passes on. -/
def cathode (n : BitVec 4) : BitVec 8 := (glyph n).setWidth 8

/-- `sev_seg_tick` on a sample of digit `i` while the display shows `word`. -/
def sample (word : BitVec 32) (i : Fin 8) : Bool × SevenSegment :=
  s.sevSegTick (anode i) (cathode (nibble word i))

/-- The state after samples of some digits while the display shows `word`. -/
def samples (word : BitVec 32) (digits : List (Fin 8)) : SevenSegment :=
  digits.foldl (fun s i => (s.sample word i).2) s

/-- Among the samples is one whose call reports a number and after which the stored digits do not
change any more. -/
def Published (word : BitVec 32) (digits : List (Fin 8)) : Prop :=
  ∃ past i rest, digits = past ++ i :: rest ∧ ((s.samples word past).sample word i).1 = true ∧
    ∀ rest', rest' <+: rest →
      (s.samples word (past ++ i :: rest')).mDigits = (s.samples word (past ++ [i])).mDigits

/-- A word, and the digits that are sampled while it is shown. -/
structure Scan where
  word : BitVec 32
  digits : List (Fin 8)

/-- Each word is shown until every digit has been newly selected. -/
def Held : Option (Fin 8) → List Scan → Prop
  | _, [] => True
  | last, sc :: scans => (∀ i, i ∈ newly last sc.digits) ∧ Held (lastOf last sc.digits) scans

/-- Every word is the display number after its scan, and is published if it is not `prev`, the word
before. -/
def Reports : SevenSegment → Option (BitVec 32) → List Scan → Prop
  | _, _, [] => True
  | s, prev, sc :: scans =>
    (s.samples sc.word sc.digits).getDisplayNumber = sc.word ∧
      (prev ≠ some sc.word → s.Published sc.word sc.digits) ∧
      Reports (s.samples sc.word sc.digits) (some sc.word) scans

/-- The samples that the simulator takes of the display, after its reset, are samples of some digit
of the word that it holds. -/
theorem exists_sample {cntValue : BitVec 32} (run : WbSevenseg.Run cntValue) {t₀ t : ℕ}
    (hrst : (run.inp t₀).iWbRst = true) (ht : t₀ < t) :
    ∃ i, s.sevSegTick (run.state (t + 2)).oAn ((run.state (t + 2)).oCa.setWidth 8) =
      s.sample (run.state t).word i := by
  obtain ⟨i, han, hca⟩ := run.scan hrst ht
  exact ⟨i, by rw [han, hca, sample, cathode]⟩

/-! ## The digits -/

/-- From the anodes that select digit `i` the loop finds this digit. -/
theorem currentSegment_anode (i : Fin 8) : currentSegment (anode i) = some i := by
  revert i
  decide

/-- The pattern of a nibble is decoded to the nibble. -/
theorem digitOf_cathode (n : BitVec 4) : digitOf (cathode n) = n.setWidth 8 := by
  revert n
  decide

/-- Different nibbles are shown by different patterns. -/
theorem cathode_injective : Function.Injective cathode := by
  intro m n h
  have hdigit : m.setWidth 8 = n.setWidth 8 := by
    rw [← digitOf_cathode, h, digitOf_cathode]
  revert m n
  decide

variable {s} {d : Fin 8 → BitVec 4} {last : Option (Fin 8)} {c : ℕ}

/-- The digits are `d`, the last sample was of `last`, and `c` times a digit has changed. -/
structure Showing (s : SevenSegment) (d : Fin 8 → BitVec 4) (last : Option (Fin 8)) (c : ℕ) :
    Prop where
  digits : s.mDigits = fun i => cathode (d i)
  segment : s.mLastSegment = last
  decoder : s.mInitialDecoder = min 8 c

/-- A new display shows eights, of which no change has been seen. -/
theorem construct_showing : construct.Showing (fun _ => 8) none 0 :=
  ⟨rfl, rfl, rfl⟩

/-- For two states that show digits, the stored patterns agree if and only if the digits do. -/
theorem Showing.digits_eq_iff {s' : SevenSegment} {d' : Fin 8 → BitVec 4}
    {last' : Option (Fin 8)} {c' : ℕ} (h : s.Showing d last c) (h' : s'.Showing d' last' c') :
    s'.mDigits = s.mDigits ↔ d' = d := by
  rw [h.digits, h'.digits]
  constructor
  · intro heq
    funext i
    exact cathode_injective (congrFun heq i)
  · rintro rfl
    rfl

/-- A second sample of the same digit is ignored and reports nothing. -/
theorem sample_again {i : Fin 8} (hlast : s.mLastSegment = some i) (word : BitVec 32) :
    s.sample word i = (false, s) := by
  rw [sample, sevSegTick, currentSegment_anode]
  exact if_pos hlast

/-- A sample of another digit that shows the stored pattern is only noted as the last one, and
reports nothing. -/
theorem sample_same {i : Fin 8} (hlast : s.mLastSegment ≠ some i) {word : BitVec 32}
    (hsame : cathode (nibble word i) = s.mDigits i) :
    s.sample word i = (false, { s with mLastSegment := some i }) := by
  rw [sample, sevSegTick, currentSegment_anode]
  exact (if_neg hlast).trans (if_pos hsame)

/-- A sample of another digit with a new pattern stores it, counts it, and reports a number if eight
have been counted. -/
theorem sample_change {i : Fin 8} (hlast : s.mLastSegment ≠ some i) {word : BitVec 32}
    (hchange : cathode (nibble word i) ≠ s.mDigits i) :
    s.sample word i = (decide (7 < s.mInitialDecoder + if s.mInitialDecoder < 8 then 1 else 0),
      { mDigits := Function.update s.mDigits i (cathode (nibble word i))
        mLastSegment := some i
        mInitialDecoder := s.mInitialDecoder + if s.mInitialDecoder < 8 then 1 else 0 }) := by
  rw [sample, sevSegTick, currentSegment_anode]
  simp only [if_neg hlast, if_neg hchange]
  split_ifs <;> rfl

/-- A sample takes over a digit that is newly selected, and returns true if that makes eight
changes. -/
theorem Showing.sample (h : s.Showing d last c) (word : BitVec 32) (i : Fin 8) :
    (s.sample word i).2.Showing (take (nibble word) last d i) (some i)
        (c + if take (nibble word) last d i = d then 0 else 1) ∧
      ((s.sample word i).1 = true ↔ take (nibble word) last d i ≠ d ∧ 8 ≤ c + 1) := by
  obtain ⟨digits, segment, decoder⟩ := h
  -- the same segment is lit as in the sample before, which is not counted again
  by_cases hlast : last = some i
  · rw [sample_again (segment.trans hlast)]
    simp only [take, if_pos hlast, if_true]
    exact ⟨⟨digits, segment.trans hlast, decoder⟩, by simp⟩
  · have hseg : s.mLastSegment ≠ some i := by rwa [segment]
    simp only [take, if_neg hlast, Function.update_eq_self_iff, ne_eq]
    -- what is taken over is the digit that has been shown, or another one
    by_cases hsame : nibble word i = d i
    · rw [sample_same hseg (by rw [digits, hsame]), if_pos hsame]
      refine ⟨⟨?_, rfl, decoder⟩, by simp [hsame]⟩
      rw [Function.update_eq_self_iff.mpr hsame]
      exact digits
    · have hchange : cathode (nibble word i) ≠ s.mDigits i := by
        rw [digits]
        exact cathode_injective.ne hsame
      rw [sample_change hseg hchange, if_neg hsame]
      refine ⟨⟨?_, rfl, ?_⟩, ?_⟩
      · rw [digits]
        exact (Function.comp_update cathode d i _).symm
      · simp only [decoder]
        split_ifs <;> omega
      · simp only [decoder, decide_eq_true_eq, hsame, not_false_eq_true, true_and]
        split_ifs <;> omega

/-- After some samples the state shows the digits that they have latched, and has counted those that
have changed. -/
theorem Showing.samples (h : s.Showing d last c) (word : BitVec 32) (digits : List (Fin 8)) :
    (s.samples word digits).Showing (latch (nibble word) last d digits) (lastOf last digits)
      (c + hammingDist d (latch (nibble word) last d digits)) := by
  induction digits generalizing s d last c with
  | nil =>
    rw [latch, hammingDist_self]
    exact h
  | cons i digits ih =>
    have hrun := ih (h.sample word i).1
    rw [Nat.add_assoc, ← hammingDist_latch] at hrun
    exact hrun

/-- A digit, shifted to its place in the number, has the bits of its nibble there and zeros
elsewhere. -/
theorem digit_bit (word : BitVec 32) (i : Fin 8) {j : ℕ} (hj : j < 32) :
    (((nibble word i).setWidth 8).setWidth 32 <<< (i.val * 4)).getLsbD j =
      (decide (i.val = j / 4) && word.getLsbD j) := by
  rw [BitVec.getLsbD_shiftLeft, BitVec.getLsbD_setWidth, BitVec.getLsbD_setWidth, nibble,
    BitVec.getLsbD_extractLsb', decide_eq_true hj, Bool.true_and]
  by_cases hi : i.val = j / 4
  · have hplace : 4 * i.val + (j - i.val * 4) = j := by omega
    rw [hplace]
    simp [hi, show ¬ j < j / 4 * 4 by omega, show j - j / 4 * 4 < 4 by omega,
      show j - j / 4 * 4 < 32 by omega, show j - j / 4 * 4 < 8 by omega]
  · rw [decide_eq_false hi, Bool.false_and]
    by_cases hlo : j < i.val * 4
    · simp [hlo]
    · simp [show ¬ j - i.val * 4 < 4 by omega]

/-- If the stored digits are those of a word, the number that is returned is the word. -/
theorem Showing.getDisplayNumber {word : BitVec 32} (h : s.Showing (nibble word) last c) :
    s.getDisplayNumber = word := by
  have hdigit (i : Fin 8) : digitOf (s.mDigits i) = (nibble word i).setWidth 8 := by
    rw [h.digits, digitOf_cathode]
  apply BitVec.eq_of_getLsbD_eq
  intro j hj
  have hbits (is : List (Fin 8)) (v : BitVec 32) :
      (is.foldl (fun val i => val ||| (digitOf (s.mDigits i)).setWidth 32 <<< (i.val * 4))
        v).getLsbD j =
        (v.getLsbD j || is.any fun i => decide (i.val = j / 4) && word.getLsbD j) := by
    induction is generalizing v with
    | nil => simp
    | cons i is ih =>
      rw [List.foldl_cons, ih, BitVec.getLsbD_or, List.any_cons, Bool.or_assoc, hdigit,
        digit_bit word i hj]
  -- bit `j` comes from digit `j / 4`
  rw [SevenSegment.getDisplayNumber, decodedValue, hbits, BitVec.getLsbD_zero, Bool.false_or,
    Bool.eq_iff_iff, List.any_eq_true]
  constructor
  · rintro ⟨i, -, hi⟩
    exact (Bool.and_eq_true_iff.mp hi).2
  · intro hbit
    exact ⟨⟨j / 4, by omega⟩, List.mem_finRange _, by simp [hbit]⟩

/-! ## What is published -/

/-- Samples made after others start from the state that these leave. -/
theorem samples_append (word : BitVec 32) (past rest : List (Fin 8)) :
    s.samples word (past ++ rest) = (s.samples word past).samples word rest :=
  List.foldl_append

/-- The first call is the one, or one of the others is. -/
theorem published_cons {word : BitVec 32} {i : Fin 8} {digits : List (Fin 8)} :
    s.Published word (i :: digits) ↔
      ((s.sample word i).1 = true ∧ ∀ rest', rest' <+: digits →
        ((s.sample word i).2.samples word rest').mDigits = (s.sample word i).2.mDigits) ∨
      (s.sample word i).2.Published word digits := by
  constructor
  · rintro ⟨past, j, rest, heq, htrue, hkeep⟩
    cases past with
    | nil =>
      obtain ⟨rfl, rfl⟩ := List.cons.inj heq
      exact .inl ⟨htrue, hkeep⟩
    | cons k past =>
      obtain ⟨rfl, rfl⟩ := List.cons.inj heq
      exact .inr ⟨past, j, rest, rfl, htrue, hkeep⟩
  · rintro (⟨htrue, hkeep⟩ | ⟨past, j, rest, rfl, htrue, hkeep⟩)
    · exact ⟨[], i, digits, rfl, htrue, hkeep⟩
    · exact ⟨i :: past, j, rest, rfl, htrue, hkeep⟩

/-- No digit changes in a run of samples if none has changed in the end. -/
theorem Showing.unchanged_iff (h : s.Showing d last c) {word : BitVec 32}
    {digits : List (Fin 8)} :
    (∀ rest', rest' <+: digits → (s.samples word rest').mDigits = s.mDigits) ↔
      latch (nibble word) last d digits = d := by
  constructor
  · intro hkeep
    exact (h.digits_eq_iff (h.samples word digits)).mp (hkeep digits List.prefix_rfl)
  · rintro hd rest' ⟨rest, rfl⟩
    exact (h.digits_eq_iff (h.samples word rest')).mpr (latch_eq_of_append hd)

/-- A word is published if a digit changes and eight have changed by then. -/
theorem Showing.published_iff (h : s.Showing d last c) (word : BitVec 32)
    (digits : List (Fin 8)) :
    s.Published word digits ↔ latch (nibble word) last d digits ≠ d ∧
      8 ≤ c + hammingDist d (latch (nibble word) last d digits) := by
  induction digits generalizing s d last c with
  | nil =>
    refine ⟨fun ⟨past, i, rest, heq, _⟩ => ?_, fun ⟨hne, _⟩ => absurd rfl hne⟩
    simp at heq
  | cons i digits ih =>
    obtain ⟨hnext, htrue⟩ := h.sample word i
    rw [published_cons, hnext.unchanged_iff, ih hnext, htrue]
    -- the changes seen are that of this sample and those of the others
    have hdist := hammingDist_latch (nibble word) d last i digits
    by_cases hlater : latch (nibble word) (some i) (take (nibble word) last d i) digits =
        take (nibble word) last d i
    · rw [latch, hlater, hammingDist_self] at hdist
      rw [latch, hlater, hdist]
      simp only [ne_eq, not_true_eq_false, false_and, or_false, and_true, Nat.add_zero]
      refine and_congr_right fun hne => ?_
      rw [if_neg hne]
    · have hpos := hammingDist_pos.mpr (Ne.symm hlater)
      have hne : latch (nibble word) last d (i :: digits) ≠ d := by
        rw [← hammingDist_pos.trans ne_comm, hdist]
        omega
      rw [hdist]
      simp only [hlater, hne, ne_eq, not_false_eq_true, and_false, false_or, true_and,
        Nat.add_assoc]

/-- The number of the call that publishes a word is the word. -/
theorem Published.number {word : BitVec 32} {digits : List (Fin 8)}
    (hp : s.Published word digits) (h : s.Showing d last c) (hheld : ∀ i, i ∈ newly last digits) :
    ∃ past i rest, digits = past ++ i :: rest ∧ ((s.samples word past).sample word i).1 = true ∧
      ((s.samples word past).sample word i).2.getDisplayNumber = word := by
  obtain ⟨past, i, rest, rfl, htrue, hkeep⟩ := hp
  refine ⟨past, i, rest, rfl, htrue, ?_⟩
  have hend := h.samples word (past ++ i :: rest)
  rw [latch_of_held hheld] at hend
  have hdigits := hkeep rest List.prefix_rfl
  rw [samples_append word past [i]] at hdigits
  have hnumber : ((s.samples word past).sample word i).2.getDisplayNumber =
      (s.samples word (past ++ i :: rest)).getDisplayNumber := by
    simp only [SevenSegment.getDisplayNumber, decodedValue, hdigits]
    rfl
  rw [hnumber, hend.getDisplayNumber]

/-! ## Sequences of words -/

/-- A word is determined by its eight nibbles. -/
theorem nibble_injective : Function.Injective nibble := by
  intro v w h
  have hshow (word : BitVec 32) : (⟨fun i => cathode (nibble word i), none, 0⟩ :
      SevenSegment).Showing (nibble word) none 0 := ⟨rfl, rfl, rfl⟩
  have hv := (hshow v).getDisplayNumber
  rw [h] at hv
  exact hv.symm.trans (hshow w).getDisplayNumber

/-- The samples of one word, in which every digit is held long enough, leave the digits of the word
stored, and report a number exactly if a digit changes and eight have changed in all. -/
theorem Showing.scan (h : s.Showing d last c) (sc : Scan)
    (hheld : ∀ i, i ∈ newly last sc.digits) :
    (s.samples sc.word sc.digits).Showing (nibble sc.word) (lastOf last sc.digits)
        (c + hammingDist d (nibble sc.word)) ∧
      (s.Published sc.word sc.digits ↔
        nibble sc.word ≠ d ∧ 8 ≤ c + hammingDist d (nibble sc.word)) := by
  have hrun := h.samples sc.word sc.digits
  have hpub := h.published_iff sc.word sc.digits
  rw [latch_of_held hheld] at hrun hpub
  exact ⟨hrun, hpub⟩

/-- When eight digits have changed, every new word is published. -/
theorem Showing.reports {scans : List Scan} {word : BitVec 32} (h : s.Showing (nibble word) last c)
    (hc : 8 ≤ c) (hheld : Held last scans) : s.Reports (some word) scans := by
  induction scans generalizing s last c word with
  | nil => trivial
  | cons sc scans ih =>
    obtain ⟨hsc, hheld⟩ := hheld
    obtain ⟨hnext, hpub⟩ := h.scan sc hsc
    refine ⟨hnext.getDisplayNumber, fun hne => hpub.mpr ⟨?_, by omega⟩,
      ih hnext (by omega) hheld⟩
    intro heq
    exact hne (congrArg some (nibble_injective heq).symm)

/-- From the initial digits, which the constructor leaves at the pattern of an eight, eight have
changed if and only if the word has no digit eight. -/
theorem eight_le_iff (word : BitVec 32) :
    8 ≤ hammingDist (fun _ => 8) (nibble word) ↔ ∀ i, nibble word i ≠ 8 := by
  rw [hammingDist]
  constructor
  · intro h i hi
    have hmem : i ∉ ({j | 8 ≠ nibble word j} : Finset (Fin 8)) := by simp [hi]
    have hlt := Finset.card_lt_univ_of_notMem hmem
    rw [Fintype.card_fin] at hlt
    exact absurd h (not_le.mpr hlt)
  · intro h
    rw [Finset.filter_true_of_mem fun i _ => (h i).symm, Finset.card_univ, Fintype.card_fin]

/-- The display reports every word of a sequence if the first one has no digit 8, and only then. -/
theorem reports_iff {scans : List Scan} (hheld : Held none scans) :
    construct.Reports none scans ↔ ∀ sc ∈ scans.head?, ∀ i, nibble sc.word i ≠ 8 := by
  cases scans with
  | nil => simp [Reports]
  | cons sc scans =>
    -- the first word is compared with eight digits 8, which the display is set to at first
    obtain ⟨hsc, hheld⟩ := hheld
    obtain ⟨hnext, hpub⟩ := construct_showing.scan sc hsc
    rw [Nat.zero_add] at hnext hpub
    simp only [List.head?_cons, Option.mem_some_iff, forall_eq']
    rw [← eight_le_iff]
    constructor
    · rintro ⟨-, hfirst, -⟩
      exact (hpub.mp (hfirst (Option.some_ne_none _).symm)).2
    · intro h8
      have hne : nibble sc.word ≠ fun _ => 8 := by
        rw [← hammingDist_pos.trans ne_comm]
        omega
      exact ⟨hnext.getDisplayNumber, fun _ => hpub.mpr ⟨hne, h8⟩, hnext.reports h8 hheld⟩

/-- One round of the scan of the display, from the highest digit to the lowest. -/
def round : List (Fin 8) := [7, 6, 5, 4, 3, 2, 1, 0]

/-- Two words are published, the first without a digit 8. -/
theorem reports_iff_two_words :
    construct.Reports none [⟨0x01234567, round⟩, ⟨0x88888888, round⟩] := by
  have hheld : Held none [⟨0x01234567, round⟩, ⟨0x88888888, round⟩] :=
    ⟨by decide, by decide, trivial⟩
  refine (reports_iff hheld).mpr ?_
  simp only [List.head?_cons, Option.mem_some_iff, forall_eq']
  decide

/-- The number 8 is not published when it comes first. -/
theorem eight_not_reported :
    Held none [⟨8, round⟩] ∧ ¬ construct.Reports none [⟨8, round⟩] := by
  have hheld : ∀ i, i ∈ newly none round := by decide
  refine ⟨⟨hheld, trivial⟩, fun hrep => ?_⟩
  obtain ⟨-, hpub⟩ := construct_showing.scan ⟨8, round⟩ hheld
  have hdist : hammingDist (fun _ => 8) (nibble 8) = 7 := by decide
  rw [hdist] at hpub
  exact absurd (hpub.mp (hrep.2.1 (by simp))).2 (by decide)

end SevenSegment

end RvPipelineCore

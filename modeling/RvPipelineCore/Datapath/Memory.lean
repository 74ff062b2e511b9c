import RvPipelineCore.Control.Decoders
import RvPipelineCore.Datapath.Lanes
import RvPipelineCore.Lib.Bits
import RvPipelineCore.Lib.Rv32

/-!
# The data port and a byte memory

A word memory with byte enables, as a data slave holds it, seen as the byte memory of `Rv32`, and
the transfer on the bus that stands for an access.

- `bytesOf_writeWord`: a store through the lanes of the bus is the store of `Rv32`;
- `mergeLanes_store`: the lanes that a store leaves disabled carry zeros;
- `maskExtend_loadValue`: the part of a word that a load takes is the value of `Rv32`.

All three need an aligned address.
-/

namespace RvPipelineCore

open Rv32

/-- The byte memory that a memory of words stands for: byte `p` is a lane of the word with the index
`p / 4`, the lowest lane first. -/
def bytesOf (ram : BitVec 30 → BitVec 32) (p : BitVec 32) : BitVec 8 :=
  (ram (p.extractLsb' 2 30)).extractLsb' (8 * (p.extractLsb' 0 2).toNat) 8

/-- A word of which the enabled bytes are replaced. -/
def mergeLanes (old new : BitVec 32) (sel : BitVec 4) : BitVec 32 :=
  (if sel.getLsbD 3 then new else old).extractLsb' 24 8 ++
    (if sel.getLsbD 2 then new else old).extractLsb' 16 8 ++
    (if sel.getLsbD 1 then new else old).extractLsb' 8 8 ++
    (if sel.getLsbD 0 then new else old).extractLsb' 0 8

/-- A memory of words after a write to the word of `adr`, of which only the selected lanes are
changed. -/
def writeWord (ram : BitVec 30 → BitVec 32) (adr data : BitVec 32) (sel : BitVec 4) :
    BitVec 30 → BitVec 32 :=
  fun i => if i = adr.extractLsb' 2 30 then mergeLanes (ram i) data sel else ram i

/-- A transfer on the data port: of the data, only the enabled bytes of a write count. -/
structure Transfer where
  adr : BitVec 32
  we : Bool
  sel : BitVec 4
  data : BitVec 32
  deriving DecidableEq

/-- The lanes that an access of this width selects when it starts at the lowest byte of a word. -/
def laneMask : Width → BitVec 4
  | .byte => 0b0001
  | .half => 0b0011
  | .word => 0b1111

/-- The bytes that a store takes from its value. -/
def storeBytes : Width → BitVec 32 → BitVec 32
  | .byte, v => (v.extractLsb' 0 8).setWidth 32
  | .half, v => (v.extractLsb' 0 16).setWidth 32
  | .word, v => v

/-- The transfer of an access: a load enables every lane, a store those of its bytes. -/
def Transfer.ofAccess : Access → Transfer
  | .load _ adr => ⟨adr, false, 0b1111, 0⟩
  | .store w adr v =>
    ⟨adr, true, laneMask w <<< (adr.extractLsb' 0 2).toNat,
      storeBytes w v <<< (8 * (adr.extractLsb' 0 2).toNat)⟩

/-! ## Words and lanes -/

/-- The lane of an address is the address modulo four. -/
theorem toNat_lane (p : BitVec 32) : (p.extractLsb' 0 2).toNat = p.toNat % 4 := by
  rw [BitVec.extractLsb'_toNat, Nat.shiftRight_zero]

/-- Two addresses lie in the same word if and only if they agree after the division by four. -/
theorem word_eq_iff (p q : BitVec 32) :
    p.extractLsb' 2 30 = q.extractLsb' 2 30 ↔ p.toNat / 4 = q.toNat / 4 := by
  have hp := p.isLt
  have hq := q.isLt
  rw [← BitVec.toNat_inj, BitVec.extractLsb'_toNat, BitVec.extractLsb'_toNat,
    Nat.shiftRight_eq_div_pow, Nat.shiftRight_eq_div_pow]
  omega

/-- A word has four lanes, so the lane of an address is below four. -/
theorem lane_lt (p : BitVec 32) : (p.extractLsb' 0 2).toNat < 4 := (p.extractLsb' 0 2).isLt

/-- An aligned access is also aligned within its word, because its width divides four. -/
theorem aligned_lane {w : Width} {adr : BitVec 32} (h : adr.toNat % w.bytes = 0) :
    (adr.extractLsb' 0 2).toNat % w.bytes = 0 := by
  rw [toNat_lane]
  cases w <;> simp only [Width.bytes] at h ⊢ <;> omega

/-- An access that is aligned within a word does not reach beyond the word. -/
theorem bytes_le {w : Width} {off : BitVec 2} (h : off.toNat % w.bytes = 0) :
    off.toNat + w.bytes ≤ 4 := by
  have := off.isLt
  cases w <;> simp only [Width.bytes] at h ⊢ <;> omega

/-- Each byte of a merged word comes from the new word where its lane is selected, and from the old
word elsewhere. -/
theorem mergeLanes_byte (old new : BitVec 32) (sel : BitVec 4) {i : ℕ} (hi : i < 4) :
    (mergeLanes old new sel).extractLsb' (8 * i) 8 =
      (if sel.getLsbD i then new else old).extractLsb' (8 * i) 8 := by
  unfold mergeLanes
  obtain rfl | rfl | rfl | rfl : i = 0 ∨ i = 1 ∨ i = 2 ∨ i = 3 := by omega
  · rw [BitVec.extractLsb'_append_eq_of_add_le (by decide), Bits.extract_extract _ (by decide)]
  · rw [BitVec.extractLsb'_append_eq_of_le (by decide),
      BitVec.extractLsb'_append_eq_of_add_le (by decide), Bits.extract_extract _ (by decide)]
  · rw [BitVec.extractLsb'_append_eq_of_le (by decide),
      BitVec.extractLsb'_append_eq_of_le (by decide),
      BitVec.extractLsb'_append_eq_of_add_le (by decide), Bits.extract_extract _ (by decide)]
  · rw [BitVec.extractLsb'_append_eq_of_le (by decide),
      BitVec.extractLsb'_append_eq_of_le (by decide),
      BitVec.extractLsb'_append_eq_of_le (by decide), Bits.extract_extract _ (by decide)]

/-! ## Stores -/

/-- The three stores with the offsets that an aligned one can have in its word. -/
theorem store_cases {f : BitVec 3} {w : Width} {off : BitVec 2}
    (h : decodeStore f = some (.store w)) (ha : off.toNat % w.bytes = 0) :
    (f = 0b000 ∧ w = .byte) ∨ (f = 0b001 ∧ w = .half ∧ (off = 0b00 ∨ off = 0b10)) ∨
      (f = 0b010 ∧ w = .word ∧ off = 0b00) := by
  have hhalf : ∀ off : BitVec 2, off.toNat % 2 = 0 → off = 0b00 ∨ off = 0b10 := by decide
  have hword : ∀ off : BitVec 2, off.toNat % 4 = 0 → off = 0b00 := by decide
  unfold decodeStore at h
  split_ifs at h with h₀ h₁ h₂ <;> obtain rfl := Op.store.inj (Option.some.inj h)
  · exact .inl ⟨h₀, rfl⟩
  · exact .inr (.inl ⟨h₁, rfl, hhalf off ha⟩)
  · exact .inr (.inr ⟨h₂, rfl, hword off ha⟩)

/-- An offset within a word is one of four. -/
theorem offset_cases (off : BitVec 2) : off = 0b00 ∨ off = 0b01 ∨ off = 0b10 ∨ off = 0b11 := by
  revert off
  decide

/-- An aligned store is not flagged as misaligned by `memory_store`. -/
theorem storeMisaligned_of_aligned {f : BitVec 3} {w : Width} {off : BitVec 2}
    (h : decodeStore f = some (.store w)) (ha : off.toNat % w.bytes = 0) (b : Bool) :
    storeMisaligned f off b = false := by
  rcases store_cases h ha with ⟨rfl, -⟩ | ⟨rfl, -, rfl | rfl⟩ | ⟨rfl, -, rfl⟩ <;> cases b <;> rfl

/-- The lanes that `memory_decoder` enables for an aligned store are those of its width, moved up to
its offset. -/
theorem memoryDecoder_eq {f : BitVec 3} {w : Width} {off : BitVec 2}
    (h : decodeStore f = some (.store w)) (ha : off.toNat % w.bytes = 0) (x : BitVec 4) :
    memoryDecoder x true f off = laneMask w <<< off.toNat := by
  rcases store_cases h ha with ⟨rfl, rfl⟩ | ⟨rfl, rfl, rfl | rfl⟩ | ⟨rfl, rfl, rfl⟩
  · rcases offset_cases off with rfl | rfl | rfl | rfl <;> rfl
  · rfl
  · rfl
  · rfl

/-- A lane is selected by an aligned access if and only if it lies between the offset and the end of
the access. -/
theorem laneMask_lane {w : Width} {off : BitVec 2} (ha : off.toNat % w.bytes = 0) {i : ℕ}
    (hi : i < 4) :
    (laneMask w <<< off.toNat).getLsbD i = decide (off.toNat ≤ i ∧ i < off.toNat + w.bytes) := by
  have hall : ∀ w : Width, ∀ off : BitVec 2, off.toNat % w.bytes = 0 → ∀ i < 4,
      (laneMask w <<< off.toNat).getLsbD i =
        decide (off.toNat ≤ i ∧ i < off.toNat + w.bytes) := by
    intro w
    cases w <;> decide
  exact hall w off ha i hi

/-- The word that `memory_store` puts on the bus for an aligned store is the stored bytes, moved up
to their lanes. -/
theorem writeDataOutput_eq {f : BitVec 3} {w : Width} {off : BitVec 2}
    (h : decodeStore f = some (.store w)) (ha : off.toNat % w.bytes = 0) (v q : BitVec 32) :
    writeDataOutput v f off true q = storeBytes w v <<< (8 * off.toNat) := by
  rcases store_cases h ha with ⟨rfl, rfl⟩ | ⟨rfl, rfl, rfl | rfl⟩ | ⟨rfl, rfl, rfl⟩
  · rcases offset_cases off with rfl | rfl | rfl | rfl
    · exact (Bits.zero_append 24 (v.extractLsb' 0 8)).trans (BitVec.shiftLeft_zero _).symm
    · exact Bits.zero_append_zero 16 8 (v.extractLsb' 0 8)
    · exact Bits.zero_append_zero 8 16 (v.extractLsb' 0 8)
    · exact Bits.append_zero 24 (v.extractLsb' 0 8)
  · exact (Bits.zero_append 16 (v.extractLsb' 0 16)).trans (BitVec.shiftLeft_zero _).symm
  · exact Bits.append_zero 16 (v.extractLsb' 0 16)
  · exact (BitVec.shiftLeft_zero v).symm

/-- The bits that a store takes are those of its value. -/
theorem storeBytes_bit (w : Width) (v : BitVec 32) {j : ℕ} (hj : j < 8 * w.bytes) :
    (storeBytes w v).getLsbD j = v.getLsbD j := by
  cases w with
  | byte =>
    rw [storeBytes, BitVec.getLsbD_setWidth, BitVec.getLsbD_extractLsb', Nat.zero_add]
    simp only [Width.bytes] at hj
    simp [show j < 8 by omega, show j < 32 by omega]
  | half =>
    rw [storeBytes, BitVec.getLsbD_setWidth, BitVec.getLsbD_extractLsb', Nat.zero_add]
    simp only [Width.bytes] at hj
    simp [show j < 16 by omega, show j < 32 by omega]
  | word => rfl

/-- The bits of a stored value above its width are zero. -/
theorem storeBytes_zero (w : Width) (v : BitVec 32) {j : ℕ} (hj : 8 * w.bytes ≤ j) :
    (storeBytes w v).getLsbD j = false := by
  cases w with
  | byte =>
    simp only [Width.bytes] at hj
    simp [storeBytes, show ¬ j < 8 by omega]
  | half =>
    simp only [Width.bytes] at hj
    simp [storeBytes, show ¬ j < 16 by omega]
  | word => exact BitVec.getLsbD_of_ge _ _ hj

/-- Byte `i` of the word on the bus is the byte of the stored value that belongs to this lane. -/
theorem storeBytes_byte {w : Width} {off : BitVec 2} (ha : off.toNat % w.bytes = 0)
    (v : BitVec 32) {i : ℕ} (h₁ : off.toNat ≤ i) (h₂ : i < off.toNat + w.bytes) :
    (storeBytes w v <<< (8 * off.toNat)).extractLsb' (8 * i) 8 =
      v.extractLsb' (8 * (i - off.toNat)) 8 := by
  have hle := bytes_le ha
  ext k hk
  rw [BitVec.getElem_extractLsb', BitVec.getElem_extractLsb', BitVec.getLsbD_shiftLeft,
    decide_eq_true (by omega), decide_eq_false (by omega), Bool.not_false, Bool.true_and,
    Bool.true_and, show 8 * i + k - 8 * off.toNat = 8 * (i - off.toNat) + k by omega]
  exact storeBytes_bit w v (by omega)

/-- Each bit of a merged word comes from the new word where its lane is selected, and from the old
word elsewhere. -/
theorem mergeLanes_bit (old new : BitVec 32) (sel : BitVec 4) {j : ℕ} (hj : j < 32) :
    (mergeLanes old new sel).getLsbD j =
      (if sel.getLsbD (j / 8) then new else old).getLsbD j := by
  have h := congrArg (BitVec.getLsbD · (j % 8))
    (mergeLanes_byte old new sel (i := j / 8) (by omega))
  simpa [BitVec.getLsbD_extractLsb', Nat.div_add_mod, Nat.mod_lt] using h

/-- The word that a store puts on the bus is zero on the lanes that the store does not select. -/
theorem mergeLanes_store {w : Width} {off : BitVec 2} (ha : off.toNat % w.bytes = 0)
    (v : BitVec 32) :
    mergeLanes 0 (storeBytes w v <<< (8 * off.toNat)) (laneMask w <<< off.toNat) =
      storeBytes w v <<< (8 * off.toNat) := by
  have hle := bytes_le ha
  apply BitVec.eq_of_getLsbD_eq
  intro j hj
  rw [mergeLanes_bit _ _ _ hj, laneMask_lane ha (by omega)]
  split_ifs with hin
  · rfl
  · rw [decide_eq_true_eq, not_and_or] at hin
    rw [BitVec.getLsbD_shiftLeft, show (0 : BitVec 32).getLsbD j = false from BitVec.getLsbD_zero]
    symm
    rcases hin with hin | hin
    · simp [show j < 8 * off.toNat by omega]
    · rw [storeBytes_zero w v (by omega), Bool.and_false]

/-- A write of the enabled lanes is the store of the bytes. -/
theorem bytesOf_writeWord {w : Width} {adr : BitVec 32} (ha : adr.toNat % w.bytes = 0)
    (ram : BitVec 30 → BitVec 32) (v : BitVec 32) :
    bytesOf (writeWord ram adr (storeBytes w v <<< (8 * (adr.extractLsb' 0 2).toNat))
        (laneMask w <<< (adr.extractLsb' 0 2).toNat)) =
      storeValue (bytesOf ram) w adr v := by
  have hoff := aligned_lane ha
  have hle := bytes_le hoff
  funext p
  have hp := p.isLt
  have hadr := adr.isLt
  have hlp := toNat_lane p
  have hla := toNat_lane adr
  have hdiff : (p - adr).toNat = (2 ^ 32 - adr.toNat + p.toNat) % 2 ^ 32 := BitVec.toNat_sub p adr
  by_cases hw : p.extractLsb' 2 30 = adr.extractLsb' 2 30
  · rw [bytesOf, writeWord, if_pos hw, mergeLanes_byte _ _ _ (lane_lt p),
      laneMask_lane hoff (lane_lt p), storeValue]
    rw [word_eq_iff] at hw
    -- in the word of the store, the enabled lanes are the bytes stored
    by_cases hin : (p - adr).toNat < w.bytes
    · have h₁ : (adr.extractLsb' 0 2).toNat ≤ (p.extractLsb' 0 2).toNat := by omega
      have h₂ : (p.extractLsb' 0 2).toNat < (adr.extractLsb' 0 2).toNat + w.bytes := by omega
      rw [if_pos hin, if_pos (decide_eq_true ⟨h₁, h₂⟩), storeBytes_byte hoff v h₁ h₂]
      congr 2
      omega
    · rw [if_neg hin, if_neg, bytesOf]
      rw [decide_eq_true_eq]
      omega
  · rw [bytesOf, writeWord, if_neg hw, storeValue, if_neg, bytesOf]
    rw [word_eq_iff] at hw
    omega

/-- A word is the concatenation of its four bytes, the highest first. -/
theorem bytes_append (v : BitVec 32) :
    v.extractLsb' 24 8 ++ v.extractLsb' 16 8 ++ v.extractLsb' 8 8 ++ v.extractLsb' 0 8 = v := by
  have h16 : v.extractLsb' 24 8 ++ v.extractLsb' 16 8 = v.extractLsb' 16 16 :=
    BitVec.extractLsb'_append_extractLsb'_eq_extractLsb' rfl
  have h24 : v.extractLsb' 16 16 ++ v.extractLsb' 8 8 = v.extractLsb' 8 24 :=
    BitVec.extractLsb'_append_extractLsb'_eq_extractLsb' rfl
  have h32 : v.extractLsb' 8 24 ++ v.extractLsb' 0 8 = v.extractLsb' 0 32 :=
    BitVec.extractLsb'_append_extractLsb'_eq_extractLsb' rfl
  rw [h16, h24, h32, BitVec.extractLsb'_eq_self]

/-! ## Loads -/

/-- The five loads with the offsets that an aligned one can have in its word. -/
theorem load_cases {f : BitVec 3} {w : Width} {u : Bool} {off : BitVec 2}
    (h : decodeLoad f = some (.load w u)) (ha : off.toNat % w.bytes = 0) :
    (w = .byte ∧ (f = 0b000 ∧ u = false ∨ f = 0b100 ∧ u = true)) ∨
      (w = .half ∧ (f = 0b001 ∧ u = false ∨ f = 0b101 ∧ u = true) ∧
        (off = 0b00 ∨ off = 0b10)) ∨
      (w = .word ∧ f = 0b010 ∧ off = 0b00) := by
  have hhalf : ∀ off : BitVec 2, off.toNat % 2 = 0 → off = 0b00 ∨ off = 0b10 := by decide
  have hword : ∀ off : BitVec 2, off.toNat % 4 = 0 → off = 0b00 := by decide
  unfold decodeLoad at h
  split_ifs at h with h₀ h₁ h₂ h₃ h₄ <;>
    obtain ⟨rfl, rfl⟩ := Op.load.inj (Option.some.inj h)
  · exact .inl ⟨rfl, .inl ⟨h₀, rfl⟩⟩
  · exact .inr (.inl ⟨rfl, .inl ⟨h₁, rfl⟩, hhalf off ha⟩)
  · exact .inr (.inr ⟨rfl, h₂, hword off ha⟩)
  · exact .inl ⟨rfl, .inr ⟨h₃, rfl⟩⟩
  · exact .inr (.inl ⟨rfl, .inr ⟨h₄, rfl⟩, hhalf off ha⟩)

/-- An aligned load is not flagged as misaligned by `mask_extend`. -/
theorem loadMisaligned_of_aligned {f : BitVec 3} {w : Width} {u : Bool} {off : BitVec 2}
    (h : decodeLoad f = some (.load w u)) (ha : off.toNat % w.bytes = 0) (b : Bool) :
    loadMisaligned off f b = false := by
  rcases load_cases h ha with ⟨-, ⟨rfl, -⟩ | ⟨rfl, -⟩⟩ |
    ⟨-, ⟨rfl, -⟩ | ⟨rfl, -⟩, rfl | rfl⟩ | ⟨-, rfl, rfl⟩ <;> cases b <;> rfl

/-- With the `funct3` of `lb` a byte is extended by its sign. -/
theorem extendByte_signed (b : BitVec 8) : extendByte 0b000 b = b.signExtend 32 :=
  (congrArg (BitVec.fill 24 · ++ b) (BitVec.msb_eq_getLsbD_last b).symm).trans
    (Bits.fill_append_signExtend 24 b)

/-- With the `funct3` of `lbu` a byte is extended by zeros. -/
theorem extendByte_unsigned (b : BitVec 8) : extendByte 0b100 b = b.setWidth 32 :=
  Bits.fill_append_setWidth 24 b

/-- With the `funct3` of `lh` a half-word is extended by its sign. -/
theorem extendHalf_signed (h : BitVec 16) : extendHalf 0b001 h = h.signExtend 32 :=
  (congrArg (BitVec.fill 16 · ++ h) (BitVec.msb_eq_getLsbD_last h).symm).trans
    (Bits.fill_append_signExtend 16 h)

/-- With the `funct3` of `lhu` a half-word is extended by zeros. -/
theorem extendHalf_unsigned (h : BitVec 16) : extendHalf 0b101 h = h.setWidth 32 :=
  Bits.fill_append_setWidth 16 h

/-- The bytes of an aligned access are in one word. -/
theorem bytesOf_add {w : Width} {adr : BitVec 32} (ha : adr.toNat % w.bytes = 0)
    (ram : BitVec 30 → BitVec 32) {j : ℕ} (hj : j < w.bytes) :
    bytesOf ram (adr + BitVec.ofNat 32 j) =
      (ram (adr.extractLsb' 2 30)).extractLsb' (8 * ((adr.extractLsb' 0 2).toNat + j)) 8 := by
  have hoff := bytes_le (aligned_lane ha)
  have hadr := adr.isLt
  have hla := toNat_lane adr
  have hsum : (adr + BitVec.ofNat 32 j).toNat = adr.toNat + j := by
    rw [BitVec.toNat_add, BitVec.toNat_ofNat]
    omega
  -- an aligned access does not leave its word
  have hword : (adr + BitVec.ofNat 32 j).extractLsb' 2 30 = adr.extractLsb' 2 30 := by
    rw [word_eq_iff, hsum]
    omega
  have hlane : ((adr + BitVec.ofNat 32 j).extractLsb' 0 2).toNat =
      (adr.extractLsb' 0 2).toNat + j := by
    rw [toNat_lane, hsum]
    omega
  rw [bytesOf, hword, hlane]

/-- The two bytes of an aligned half-word are a half of the word that holds them. -/
theorem bytesOf_half {adr : BitVec 32} (ha : adr.toNat % Width.half.bytes = 0)
    (ram : BitVec 30 → BitVec 32) :
    bytesOf ram (adr + 1) ++ bytesOf ram adr =
      (ram (adr.extractLsb' 2 30)).extractLsb' (8 * (adr.extractLsb' 0 2).toNat) 16 := by
  have h1 := bytesOf_add ha ram (j := 1) (by decide)
  rw [show adr + 1 = adr + BitVec.ofNat 32 1 from rfl, h1, bytesOf]
  exact BitVec.extractLsb'_append_extractLsb'_eq_extractLsb' (by omega)

/-- The four bytes of an aligned word, the highest first, are the word at its index in the memory of
words. -/
theorem bytesOf_word {adr : BitVec 32} (ha : adr.toNat % Width.word.bytes = 0)
    (ram : BitVec 30 → BitVec 32) :
    bytesOf ram (adr + 3) ++ bytesOf ram (adr + 2) ++ bytesOf ram (adr + 1) ++ bytesOf ram adr =
      ram (adr.extractLsb' 2 30) := by
  have h1 := bytesOf_add ha ram (j := 1) (by decide)
  have h2 := bytesOf_add ha ram (j := 2) (by decide)
  have h3 := bytesOf_add ha ram (j := 3) (by decide)
  have h0 : (adr.extractLsb' 0 2).toNat = 0 := by
    rw [toNat_lane]
    exact ha
  rw [show adr + 1 = adr + BitVec.ofNat 32 1 from rfl, h1,
    show adr + 2 = adr + BitVec.ofNat 32 2 from rfl, h2,
    show adr + 3 = adr + BitVec.ofNat 32 3 from rfl, h3, bytesOf, h0]
  exact bytes_append _

/-- The part of the word that a load takes. -/
theorem maskExtend_loadValue {f : BitVec 3} {w : Width} {u : Bool} {adr : BitVec 32}
    (h : decodeLoad f = some (.load w u)) (ha : adr.toNat % w.bytes = 0)
    (ram : BitVec 30 → BitVec 32) :
    maskExtend (ram (adr.extractLsb' 2 30)) (adr.extractLsb' 0 2) f =
      loadValue (bytesOf ram) w u adr := by
  -- a byte in one of four lanes, a half in one of two, or a word
  rcases load_cases h (aligned_lane ha) with ⟨rfl, hf⟩ | ⟨rfl, hf, hoff⟩ | ⟨rfl, rfl, -⟩
  · rw [loadValue, bytesOf]
    rcases hf with ⟨rfl, rfl⟩ | ⟨rfl, rfl⟩ <;>
      rcases offset_cases (adr.extractLsb' 0 2) with hoff | hoff | hoff | hoff <;> rw [hoff]
    · exact extendByte_signed _
    · exact extendByte_signed _
    · exact extendByte_signed _
    · exact extendByte_signed _
    · exact extendByte_unsigned _
    · exact extendByte_unsigned _
    · exact extendByte_unsigned _
    · exact extendByte_unsigned _
  · rw [loadValue]
    simp only [bytesOf_half ha]
    rcases hf with ⟨rfl, rfl⟩ | ⟨rfl, rfl⟩ <;> rcases hoff with hoff | hoff <;> rw [hoff]
    · exact extendHalf_signed _
    · exact extendHalf_signed _
    · exact extendHalf_unsigned _
    · exact extendHalf_unsigned _
  · exact (bytesOf_word ha ram).symm

end RvPipelineCore

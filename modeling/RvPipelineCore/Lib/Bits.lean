import Mathlib.Data.BitVec

/-!
# Concatenations of bit vectors

Rules for vectors that are put together from parts, as immediates and memory words are, and for
masks.

- `Bits.fill_append_signExtend`, `Bits.signExtend_append`: where the sign goes;
- `Bits.zero_append`, `Bits.extract_extract`: parts of a concatenation;
- `Bits.getLsbD_ofFn`: a vector from its bits;
- `Bits.and_allOnes_shiftLeft_eq_iff`: what a mask of leading ones decodes.
-/

namespace Bits

variable {m n k : ℕ}

/-- A vector that ends in a zero bit is even. -/
theorem getLsbD_append_zero (v : BitVec n) : (v ++ 0#1).getLsbD 0 = false := by
  rw [BitVec.getLsbD_append]
  rfl

/-- A vector with `n` zeros above it and `j` zeros below it is the vector widened and shifted to the
left by `j`. -/
theorem zero_append_zero (n j : ℕ) (v : BitVec k) :
    0#n ++ v ++ 0#j = v.setWidth (n + k + j) <<< j := by
  ext i hi
  rw [BitVec.getElem_append, BitVec.getElem_shiftLeft]
  split_ifs with h
  · simp [h]
  · rw [BitVec.getElem_append, BitVec.getElem_setWidth, decide_eq_false h, Bool.not_false,
      Bool.true_and]
    split_ifs with h'
    · exact (BitVec.getLsbD_eq_getElem h').symm
    · rw [BitVec.getElem_zero, BitVec.getLsbD_of_ge _ _ (by omega)]

/-- Zeros above a vector widen it without changing its value. -/
theorem zero_append (n : ℕ) (v : BitVec k) : 0#n ++ v = v.setWidth (n + k) := by
  ext i hi
  rw [BitVec.getElem_append, BitVec.getElem_setWidth]
  split_ifs with h
  · exact (BitVec.getLsbD_eq_getElem h).symm
  · rw [BitVec.getElem_zero, BitVec.getLsbD_of_ge _ _ (by omega)]

/-- Dropping the lowest bit and putting a zero on top is a shift to the right by one. -/
theorem zero_append_extract (v : BitVec (1 + n)) : 0#1 ++ v.extractLsb' 1 n = v >>> 1 := by
  ext i hi
  rw [BitVec.getElem_append, BitVec.getElem_ushiftRight]
  split_ifs with h
  · exact BitVec.getElem_extractLsb' _
  · rw [BitVec.getElem_zero, BitVec.getLsbD_of_ge _ _ (by omega)]

/-- Zeros below a vector widen it and shift it to the left by their number. -/
theorem append_zero (n : ℕ) (v : BitVec k) : v ++ 0#n = v.setWidth (k + n) <<< n := by
  ext i hi
  rw [BitVec.getElem_append, BitVec.getElem_shiftLeft]
  split_ifs with h
  · simp [h]
  · rw [BitVec.getElem_setWidth, decide_eq_false h, Bool.not_false, Bool.true_and]
    exact (BitVec.getLsbD_eq_getElem _).symm

/-- A part of a part of a vector is a part of the vector, whose offset is the sum of the two
offsets. -/
theorem extract_extract (v : BitVec m) {s n t k : ℕ} (h : t + k ≤ n) :
    (v.extractLsb' s n).extractLsb' t k = v.extractLsb' (s + t) k := by
  ext i hi
  rw [BitVec.getElem_extractLsb', BitVec.getElem_extractLsb', BitVec.getLsbD_extractLsb',
    decide_eq_true (by omega), Bool.true_and, Nat.add_assoc]

/-- A vector with its own sign bit repeated above it is the vector extended by its sign. -/
theorem fill_append_signExtend (n : ℕ) (v : BitVec k) :
    BitVec.fill n v.msb ++ v = v.signExtend (n + k) := by
  ext i hi
  rw [BitVec.getElem_append, BitVec.getElem_signExtend]
  split_ifs with h
  · rfl
  · rw [BitVec.getElem_fill]

/-- A vector with zeros filled in above it is the vector widened without regard to its sign. -/
theorem fill_append_setWidth (n : ℕ) (v : BitVec k) :
    BitVec.fill n false ++ v = v.setWidth (n + k) := by
  ext i hi
  rw [BitVec.getElem_append, BitVec.getElem_setWidth]
  split_ifs with h
  · exact (BitVec.getLsbD_eq_getElem h).symm
  · rw [BitVec.getElem_fill, BitVec.getLsbD_of_ge _ _ (by omega)]

/-- The sign extension of one bit of a vector repeats this bit over the whole width. -/
theorem signExtend_bit (n : ℕ) (v : BitVec k) (j : ℕ) :
    (v.extractLsb' j 1).signExtend n = BitVec.fill n (v.getLsbD j) := by
  ext i hi
  rw [BitVec.getElem_signExtend, BitVec.getElem_fill, BitVec.msb_eq_getLsbD_last]
  split_ifs with h
  · obtain rfl : i = 0 := by omega
    simp
  · simp

/-- The sign of a concatenation is that of its high part. -/
theorem signExtend_append (n : ℕ) (u : BitVec m) (v : BitVec k) (hm : 0 < m) :
    (u ++ v).signExtend (n + k) = u.signExtend n ++ v := by
  ext i hi
  rw [BitVec.getElem_signExtend, BitVec.getElem_append, BitVec.msb_append, if_neg (by omega)]
  split_ifs with h₁ h₂ h₂
  · rw [BitVec.getElem_append, dif_pos h₂]
  · rw [BitVec.getElem_append, dif_neg h₂, BitVec.getElem_signExtend, dif_pos (by omega)]
  · omega
  · rw [BitVec.getElem_signExtend, dif_neg (by omega)]

/-- The sign extension of a concatenation of five parts extends the uppermost part only and leaves
the others as they are. -/
theorem signExtend_append₄ (n : ℕ) {p q l : ℕ} (u : BitVec m) (a : BitVec p) (b : BitVec q)
    (c : BitVec l) (v : BitVec k) (hm : 0 < m) :
    (u ++ a ++ b ++ c ++ v).signExtend (n + p + q + l + k) =
      u.signExtend n ++ a ++ b ++ c ++ v := by
  rw [signExtend_append _ _ _ (by omega), signExtend_append _ _ _ (by omega),
    signExtend_append _ _ _ (by omega), signExtend_append _ _ _ hm]

/-- The vector of width `n` whose bit `i` is `f i`, built from its lowest bit upwards. -/
def ofFn (f : Fin n → Bool) : BitVec n := (BitVec.iunfoldr (fun i _ => ((), f i)) ()).2

/-- Bit `i` of the vector built from `f` is `f i`. -/
@[simp]
theorem getLsbD_ofFn (f : Fin n → Bool) (i : Fin n) : (ofFn f).getLsbD i = f i :=
  BitVec.iunfoldr_getLsbD (fun _ => ()) i fun _ => rfl

/-- A single bit that is shifted to place `k`. -/
theorem getLsbD_ofBool_shiftLeft (b : Bool) (k : ℕ) (i : Fin n) :
    ((BitVec.ofBool b).setWidth n <<< k).getLsbD i = true ↔ b = true ∧ k = i.val := by
  have hi := i.isLt
  rw [BitVec.getLsbD_shiftLeft, BitVec.getLsbD_setWidth, BitVec.getLsbD_ofBool]
  simp only [Bool.and_eq_true, decide_eq_true_eq, Bool.not_eq_true', decide_eq_false_iff_not]
  constructor
  · rintro ⟨⟨-, hle⟩, -, hzero, hb⟩
    exact ⟨hb, by omega⟩
  · rintro ⟨hb, hk⟩
    exact ⟨⟨hi, by omega⟩, by omega, by omega, hb⟩

/-- A mask of leading ones rounds down to a multiple of a power of two. -/
theorem toNat_and_allOnes_shiftLeft (v : BitVec n) (k : ℕ) :
    (v &&& BitVec.allOnes n <<< k).toNat = v.toNat / 2 ^ k * 2 ^ k := by
  have hbits : v &&& BitVec.allOnes n <<< k = v >>> k <<< k := by
    apply BitVec.eq_of_getLsbD_eq
    intro i hi
    simp only [BitVec.getLsbD_and, BitVec.getLsbD_shiftLeft, BitVec.getLsbD_allOnes,
      BitVec.getLsbD_ushiftRight, hi, decide_true, Bool.true_and]
    by_cases hk : i < k
    · simp [hk]
    · rw [Nat.add_sub_cancel' (not_lt.mp hk), decide_eq_true (show i - k < n by omega),
        Bool.and_true, Bool.and_comm]
  have hle : v.toNat / 2 ^ k * 2 ^ k ≤ v.toNat := Nat.div_mul_le_self _ _
  have hlt := v.isLt
  rw [hbits, BitVec.toNat_shiftLeft, BitVec.toNat_ushiftRight, Nat.shiftRight_eq_div_pow,
    Nat.shiftLeft_eq, Nat.mod_eq_of_lt (by omega)]

/-- Masking with ones above bit `k` and comparing with an aligned base decides whether an address
lies in the block of `2 ^ k` addresses at the base. -/
theorem and_allOnes_shiftLeft_eq_iff {v base : BitVec n} {k : ℕ} (h : 2 ^ k ∣ base.toNat) :
    v &&& BitVec.allOnes n <<< k = base ↔
      base.toNat ≤ v.toNat ∧ v.toNat < base.toNat + 2 ^ k := by
  obtain ⟨q, hq⟩ := h
  have hpos : 0 < 2 ^ k := Nat.two_pow_pos k
  rw [← BitVec.toNat_inj, toNat_and_allOnes_shiftLeft, hq, Nat.mul_comm (2 ^ k) q,
    Nat.mul_left_inj hpos.ne', Nat.div_eq_iff hpos, Nat.add_comm]
  omega

/-- A bit that is put in at place `c`, with what is below it moved down. -/
theorem getLsbD_shiftIn (v : BitVec n) (x : Bool) {a c : ℕ} (hn : a + (1 + c) = n) (k : ℕ) :
    (v.extractLsb' (c + 1) a ++ (BitVec.ofBool x ++ v.extractLsb' 1 c)).getLsbD k =
      if k = c then x else if k < c then v.getLsbD (k + 1) else v.getLsbD k := by
  rw [BitVec.getLsbD_append, BitVec.getLsbD_append, BitVec.getLsbD_extractLsb',
    BitVec.getLsbD_extractLsb', BitVec.getLsbD_ofBool]
  rcases Nat.lt_trichotomy k c with hlt | rfl | hgt
  · rw [if_pos (by omega), if_pos hlt, if_neg hlt.ne, if_pos hlt, decide_eq_true hlt,
      Bool.true_and, Nat.add_comm 1 k]
  · rw [if_pos (by omega), if_neg (lt_irrefl k), if_pos rfl, Nat.sub_self, decide_eq_true rfl,
      Bool.true_and]
  · have hk : c + 1 + (k - (1 + c)) = k := by omega
    rw [if_neg (by omega), if_neg (by omega), if_neg (by omega), hk]
    by_cases hin : k - (1 + c) < a
    · rw [decide_eq_true hin, Bool.true_and]
    · rw [decide_eq_false hin, Bool.false_and, BitVec.getLsbD_of_ge v k (by omega)]

end Bits

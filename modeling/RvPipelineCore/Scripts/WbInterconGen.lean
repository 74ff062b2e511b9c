import Mathlib.Data.Nat.Bitwise
import RvPipelineCore.Soc.WbMux

/-!
# The generator of the interconnect

`scripts/wb_intercon/wb_intercon_gen2.py` turns the offset and the size of each slave into the
parameters of `wb_mux`. The mask that it computes from a size decodes an interval only if the
configuration keeps to powers of two.

- `WbInterconGen.Slave.decodes_iff`: which entries of a configuration are decoded as they say;
- `WbInterconGen.selects_iff`: the multiplexer that is generated for entries that are.
-/

namespace RvPipelineCore

namespace WbInterconGen

/-- What `Slave.load_dict` takes from an entry of the configuration: `offset`, which is 0 where the
key is missing, and `size` where it is there. -/
structure Slave where
  offset : ℕ
  size : Option ℕ

namespace Slave

/-- `mask`: the complement of the size less one, or zero for a slave without a size. -/
def mask (s : Slave) : BitVec 32 :=
  match s.size with
  | none => 0
  | some size => ~~~(BitVec.ofInt 32 ((size : ℤ) - 1))

/-- The first address behind the region that the entry stands for. -/
def limit (s : Slave) : ℕ := s.offset + s.size.getD 0

/-- The region is not empty and lies in the address space. -/
structure Fits (s : Slave) : Prop where
  nonempty : s.offset < s.limit
  limit_le : s.limit ≤ 2 ^ 32

/-- The parameters match the addresses of the region and no others. -/
def Decodes (s : Slave) : Prop :=
  ∀ adr : BitVec 32, adr &&& s.mask = BitVec.ofNat 32 s.offset ↔
    s.offset ≤ adr.toNat ∧ adr.toNat < s.limit

/-- The size is a power of two and the offset a multiple of it. -/
def Aligned (s : Slave) : Prop := ∃ k, s.size = some (2 ^ k) ∧ 2 ^ k ∣ s.offset

/-- For a slave with a positive size the mask is the complement of the size less one, as a number of
32 bits. -/
theorem mask_of_size {s : Slave} {size : ℕ} (h : s.size = some size) (hpos : 0 < size) :
    s.mask = ~~~(BitVec.ofNat 32 (size - 1)) := by
  have hcast : ((size : ℤ) - 1) = ((size - 1 : ℕ) : ℤ) := by omega
  rw [mask, h]
  change ~~~(BitVec.ofInt 32 ((size : ℤ) - 1)) = _
  rw [hcast, BitVec.ofInt_natCast]

/-- For a slave whose size is a power of two the mask has ones above the bits of the size. -/
theorem mask_of_pow {s : Slave} {k : ℕ} (h : s.size = some (2 ^ k)) :
    s.mask = BitVec.allOnes 32 <<< k := by
  rw [mask_of_size h (Nat.two_pow_pos k)]
  apply BitVec.eq_of_getLsbD_eq
  intro i hi
  rw [BitVec.getLsbD_not, BitVec.getLsbD_ofNat, BitVec.getLsbD_shiftLeft, BitVec.getLsbD_allOnes,
    Nat.testBit_two_pow_sub_one]
  by_cases hik : i < k
  · simp [hi, hik]
  · simp [hi, hik, show i - k < 32 by omega]

/-- A slave that fits into the address space has a positive size, and its region ends there. -/
theorem Fits.exists_size {s : Slave} (h : s.Fits) :
    ∃ size, s.size = some size ∧ 0 < size ∧ s.offset + size ≤ 2 ^ 32 := by
  have hne := h.nonempty
  have hle := h.limit_le
  rw [limit] at hne hle
  cases hs : s.size with
  | none => simp [hs] at hne
  | some size =>
    rw [hs, Option.getD_some] at hne hle
    exact ⟨size, rfl, by omega, hle⟩

end Slave

/-- If the numbers from `o` to `o + d` are those that agree with `o` outside the bits of `d`, then
`d` consists of ones and `o` of as many zeros. -/
theorem exists_pow_of_bits {d o : ℕ} (hd : ∀ i, d.testBit i = true → o.testBit i = false)
    (h : ∀ x ≤ d, ∀ i, d.testBit i = false → (o + x).testBit i = o.testBit i) :
    ∃ k, d + 1 = 2 ^ k ∧ 2 ^ k ∣ o := by
  induction d using Nat.strong_induction_on generalizing o with
  | _ d ih =>
    rcases Nat.eq_zero_or_pos d with rfl | hpos
    · exact ⟨0, rfl, one_dvd o⟩
    · cases hbit : d.testBit 0 with
      | false =>
        -- an even `d` does not let the lowest bit change
        have hodd := h 1 hpos 0 hbit
        simp only [Nat.testBit_zero, decide_eq_decide] at hodd
        omega
      | true =>
        have heven := hd 0 hbit
        simp only [Nat.testBit_zero, decide_eq_true_eq, decide_eq_false_iff_not] at hbit heven
        have hd2 : d = 2 * (d / 2) + 1 := by omega
        have ho2 : o = 2 * (o / 2) := by omega
        have hhalf (m i : ℕ) : (m / 2).testBit i = m.testBit (i + 1) := (Nat.testBit_succ m i).symm
        obtain ⟨k, hk, hdvd⟩ := ih (d / 2) (by omega) (o := o / 2)
          (fun i hi => by
            rw [hhalf] at hi ⊢
            exact hd _ hi)
          (fun x hx i hi => by
            have hx2 := h (2 * x) (by omega) (i + 1) (by rw [← hhalf]; exact hi)
            have hsum : o / 2 + x = (o + 2 * x) / 2 := by omega
            rw [hsum, hhalf, hhalf, hx2])
        refine ⟨k + 1, ?_, ?_⟩
        · rw [pow_succ]
          omega
        · rw [ho2, pow_succ, Nat.mul_comm]
          exact Nat.mul_dvd_mul_left 2 hdvd

namespace Slave

/-- An aligned slave that fits is decoded exactly in its region. -/
theorem Aligned.decodes {s : Slave} (hfits : s.Fits) (h : s.Aligned) : s.Decodes := by
  intro adr
  obtain ⟨k, hsize, hdvd⟩ := h
  have hlt : s.offset < 2 ^ 32 := hfits.nonempty.trans_le hfits.limit_le
  have hoff : (BitVec.ofNat 32 s.offset).toNat = s.offset := by
    rw [BitVec.toNat_ofNat, Nat.mod_eq_of_lt hlt]
  rw [mask_of_pow hsize, Bits.and_allOnes_shiftLeft_eq_iff (by rwa [hoff]), hoff, limit, hsize,
    Option.getD_some]

/-- Where the mask has a one the offset has the bit of the address, and a zero elsewhere. -/
theorem testBit_of_decodes {s : Slave} {d a : ℕ} (hd : s.mask = ~~~(BitVec.ofNat 32 d))
    (hdec : BitVec.ofNat 32 a &&& s.mask = BitVec.ofNat 32 s.offset) (i : ℕ) (hi : i < 32) :
    s.offset.testBit i = (a.testBit i && !d.testBit i) := by
  have hbit := congrArg (fun v => v.getLsbD i) hdec
  simp only [hd, BitVec.getLsbD_and, BitVec.getLsbD_not, BitVec.getLsbD_ofNat, hi, decide_true,
    Bool.true_and] at hbit
  exact hbit.symm

/-- An entry is decoded as it says exactly if it is aligned. -/
theorem decodes_iff {s : Slave} (hfits : s.Fits) : s.Decodes ↔ s.Aligned := by
  constructor
  · intro hdec
    obtain ⟨size, hsize, hpos, hle⟩ := hfits.exists_size
    have ho : s.offset < 2 ^ 32 := by omega
    have hmask := mask_of_size hsize hpos
    -- each address of the region has the bits of the offset where the mask looks at them
    have hbit : ∀ x ≤ size - 1, ∀ i < 32,
        s.offset.testBit i = ((s.offset + x).testBit i && !(size - 1).testBit i) := by
      intro x hx i hi
      have hadr : (BitVec.ofNat 32 (s.offset + x)).toNat = s.offset + x := by
        rw [BitVec.toNat_ofNat, Nat.mod_eq_of_lt (by omega)]
      apply testBit_of_decodes hmask ((hdec _).mpr _) i hi
      rw [hadr, limit, hsize, Option.getD_some]
      omega
    -- above bit 31 there is nothing in either
    have hhigh (m i : ℕ) (hm : m < 2 ^ 32) (hi : ¬ i < 32) : m.testBit i = false :=
      Nat.testBit_lt_two_pow (hm.trans_le (Nat.pow_le_pow_right (by decide) (not_lt.mp hi)))
    -- so the size less one is all ones, and the offset has none of its bits
    obtain ⟨k, hk, hdvd⟩ := exists_pow_of_bits (d := size - 1) (o := s.offset)
      (fun i hi => by
        by_cases h32 : i < 32
        · rw [hbit 0 (Nat.zero_le _) i h32, hi, Bool.not_true, Bool.and_false]
        · exact hhigh _ _ ho h32)
      (fun x hx i hi => by
        by_cases h32 : i < 32
        · rw [hbit x hx i h32, hi, Bool.not_false, Bool.and_true]
        · rw [hhigh _ _ ho h32, hhigh _ _ (by omega) h32])
    refine ⟨k, ?_, hdvd⟩
    rw [hsize, ← hk, Nat.sub_add_cancel hpos]
  · exact Aligned.decodes hfits

/-- The GPIO entry of the system is decoded as it says. -/
theorem decodes_gpio : Decodes ⟨0x80204000, some 0x00000040⟩ :=
  (decodes_iff ⟨by decide, by decide⟩).mpr ⟨6, rfl, by decide⟩

end Slave

/-! ## The multiplexers -/

/-- The parameters that `_gen_mux` gives to `wb_mux`. The first slave is written first, so it comes
to the highest index. -/
def genMux (slaves : List Slave) : WbMux slaves.length where
  matchAddr i := BitVec.ofNat 32 (slaves.get i.rev).offset
  matchMask i := (slaves.get i.rev).mask

/-- A configuration that the generator serves: aligned regions that do not overlap. -/
structure Config (slaves : List Slave) : Prop where
  fits : ∀ s ∈ slaves, s.Fits
  aligned : ∀ s ∈ slaves, s.Aligned
  disjoint : slaves.Pairwise fun s s' => s.limit ≤ s'.offset ∨ s'.limit ≤ s.offset

/-- The multiplexer that is generated selects a slave exactly for the addresses of its region. -/
theorem selects_iff {slaves : List Slave} (h : Config slaves) (adr : BitVec 32)
    (i : Fin slaves.length) :
    (genMux slaves).Selects adr i ↔
      (slaves.get i.rev).offset ≤ adr.toNat ∧ adr.toNat < (slaves.get i.rev).limit := by
  have hdec (j : Fin slaves.length) : adr &&& (genMux slaves).matchMask j =
      (genMux slaves).matchAddr j ↔
        (slaves.get j.rev).offset ≤ adr.toNat ∧ adr.toNat < (slaves.get j.rev).limit :=
    (h.aligned _ (List.get_mem _ _)).decodes (h.fits _ (List.get_mem _ _)) adr
  constructor
  · intro hsel
    exact (hdec i).mp hsel.hit
  · intro hin
    refine ⟨(hdec i).mpr hin, fun j hj hhit => ?_⟩
    have hin' := (hdec j).mp hhit
    have hor := List.pairwise_iff_get.mp h.disjoint i.rev j.rev (by rwa [Fin.rev_lt_rev])
    omega

/-- A request to a generated multiplexer goes to the slave in whose region its address is, and only
to that one, and the answer is the answer of that slave. A request to an address in no region goes
nowhere, and ends in an error. -/
theorem genMux_routes {slaves : List Slave} (h : Config slaves) (m : WbReq) (err : Bool)
    (resp : Fin slaves.length → WbResp) :
    (∀ i, ((genMux slaves).wbs m i).cyc = true ↔ m.cyc = true ∧
        (slaves.get i.rev).offset ≤ m.adr.toNat ∧ m.adr.toNat < (slaves.get i.rev).limit) ∧
      (∀ i, (slaves.get i.rev).offset ≤ m.adr.toNat → m.adr.toNat < (slaves.get i.rev).limit →
        (genMux slaves).wbm err m resp = { resp i with err := (resp i).err || err }) ∧
      ((genMux slaves).errNext m = true ↔ m.cyc = true ∧
        ∀ s ∈ slaves, ¬ (s.offset ≤ m.adr.toNat ∧ m.adr.toNat < s.limit)) := by
  have hdec (s : Slave) (hs : s ∈ slaves) := (h.aligned s hs).decodes (h.fits s hs) m.adr
  refine ⟨fun i => ?_, fun i hle hlt => ?_, ?_⟩
  · rw [WbMux.cyc_wbs_iff, selects_iff h]
  · exact WbMux.wbm_of_selects ((selects_iff h m.adr i).mpr ⟨hle, hlt⟩) err resp
  · rw [WbMux.errNext_iff]
    -- an address that hits no slave is in no region, and the other way round
    refine and_congr_right fun _ => ⟨fun hno s hs hin => ?_, fun hno i hhit => ?_⟩
    · obtain ⟨j, rfl⟩ := List.get_of_mem hs
      have hat := hno j.rev
      simp only [genMux, Fin.rev_rev] at hat
      exact hat ((hdec _ (List.get_mem _ _)).mpr hin)
    · exact hno _ (List.get_mem _ i.rev) ((hdec _ (List.get_mem _ _)).mp hhit)

end WbInterconGen

end RvPipelineCore

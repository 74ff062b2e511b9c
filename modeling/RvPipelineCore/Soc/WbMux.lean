import RvPipelineCore.Soc.WbArbiter

/-!
# One master on several slaves

`wb_mux` of `rtl/soc/wb_intercon`, for any number of slaves: the address selects the slave with the
lowest index among those whose region it is in.

- `WbMux.slaveSel_eq`: which slave that is;
- `WbMux.cyc_wbs_iff`: only that slave is asked;
- `WbMux.wbm_of_selects`, `WbMux.errNext_iff`: the answer is its answer, and an address in no region
  ends in an error.
-/

namespace RvPipelineCore

/-- The parameters of `wb_mux`: an address and a mask for each slave. -/
structure WbMux (n : ℕ) where
  matchAddr : Fin n → BitVec 32
  matchMask : Fin n → BitVec 32

namespace WbMux

variable {n : ℕ} (mux : WbMux n)

/-- `slave_sel_bits`: the number of bits that name one of the `n` slaves, at least one. -/
def slaveSelBits (n : ℕ) : ℕ := Arbiter.selWidth n

/-- `match`: for each slave, whether the address under the mask is that of the slave. -/
def hit (adr : BitVec 32) : BitVec n :=
  Bits.ofFn fun idx => (adr &&& mux.matchMask idx) == mux.matchAddr idx

/-- The rounds of the loop of `ff1` from `i - 1` down to 0; `r` is the result so far. -/
def ff1Loop (inp : BitVec n) : ℕ → BitVec (slaveSelBits n) → BitVec (slaveSelBits n)
  | 0, r => r
  | i + 1, r => ff1Loop inp i (if inp.getLsbD i then BitVec.ofNat _ i else r)

/-- `ff1`: the number of the lowest slave whose address matches. -/
def ff1 (inp : BitVec n) : BitVec (slaveSelBits n) := ff1Loop inp n 0

/-- `slave_sel`: the number of the slave that an address selects. -/
def slaveSel (adr : BitVec 32) : BitVec (slaveSelBits n) := ff1 (mux.hit adr)

/-- `wbs_cyc_o`: the `cyc` of the master, at the place of the selected slave if its address
matches. -/
def wbsCyc (m : WbReq) : BitVec n :=
  mux.hit m.adr &&& (BitVec.ofBool m.cyc).setWidth n <<< (mux.slaveSel m.adr).toNat

/-- The outputs of `wb_mux` towards slave `i`: what the master drives, with `cyc` only for the
selected slave. -/
def wbs (m : WbReq) (i : Fin n) : WbReq := { m with cyc := (mux.wbsCyc m).getLsbD i }

/-- What the register `wbm_err` takes: a request whose address matches no slave. -/
def errNext (m : WbReq) : Bool := m.cyc && !(mux.hit m.adr != 0)

/-- The outputs of `wb_mux` towards the master: the answer of the selected slave, with the error of
the register added. -/
def wbm (wbmErr : Bool) (m : WbReq) (s : Fin n → WbResp) : WbResp :=
  let r := WbArbiter.part s (mux.slaveSel m.adr).toNat
  { r with err := r.err || wbmErr }

/-- Slave `i` has the lowest index of those whose region `adr` is in. -/
structure Selects (adr : BitVec 32) (i : Fin n) : Prop where
  hit : adr &&& mux.matchMask i = mux.matchAddr i
  first : ∀ j < i, adr &&& mux.matchMask j ≠ mux.matchAddr j

/-- Whether an address selects a slave can be decided from the parameters. -/
instance (adr : BitVec 32) (i : Fin n) : Decidable (mux.Selects adr i) :=
  decidable_of_iff (adr &&& mux.matchMask i = mux.matchAddr i ∧
      ∀ j < i, adr &&& mux.matchMask j ≠ mux.matchAddr j)
    ⟨fun h => ⟨h.1, h.2⟩, fun h => ⟨h.hit, h.first⟩⟩

variable {mux}

/-- A slave matches an address if and only if the address under its mask is its own. -/
theorem getLsbD_hit {adr : BitVec 32} {i : Fin n} :
    (mux.hit adr).getLsbD i = true ↔ adr &&& mux.matchMask i = mux.matchAddr i := by
  rw [hit, Bits.getLsbD_ofFn, beq_iff_eq]

/-- A loop over bits that are not set leaves the result as it is. -/
theorem ff1Loop_of_not {inp : BitVec n} {k : ℕ} (h : ∀ j < k, inp.getLsbD j = false)
    (r : BitVec (slaveSelBits n)) : ff1Loop inp k r = r := by
  induction k generalizing r with
  | zero => rfl
  | succ k ih =>
    rw [ff1Loop, h k (Nat.lt_succ_self k), if_neg Bool.false_ne_true]
    exact ih (fun j hj => h j (by omega)) r

/-- The loop ends with the lowest bit that is set. -/
theorem ff1Loop_eq {inp : BitVec n} {i k : ℕ} (hi : inp.getLsbD i = true)
    (hfirst : ∀ j < i, inp.getLsbD j = false) (hk : i < k) (r : BitVec (slaveSelBits n)) :
    ff1Loop inp k r = BitVec.ofNat _ i := by
  induction k generalizing r with
  | zero => exact absurd hk (Nat.not_lt_zero i)
  | succ k ih =>
    rw [ff1Loop]
    rcases Nat.eq_or_lt_of_le (Nat.lt_succ_iff.mp hk) with rfl | hlt
    · rw [if_pos hi, ff1Loop_of_not hfirst]
    · exact ih hlt _

/-- The select lines name the slave that an address selects. -/
theorem slaveSel_eq {adr : BitVec 32} {i : Fin n} (h : mux.Selects adr i) :
    (mux.slaveSel adr).toNat = i.val := by
  have hfirst : ∀ j < i.val, (mux.hit adr).getLsbD j = false := by
    intro j hj
    rw [← Bool.not_eq_true]
    intro hbit
    exact h.first ⟨j, by omega⟩ hj (getLsbD_hit.mp hbit)
  rw [slaveSel, ff1, ff1Loop_eq (getLsbD_hit.mpr h.hit) hfirst i.isLt, BitVec.toNat_ofNat]
  exact Nat.mod_eq_of_lt (Arbiter.lt_two_pow_selWidth i)

/-- An address that matches some slave selects one, which comes no later. -/
theorem exists_selects {adr : BitVec 32} {i : Fin n}
    (hi : adr &&& mux.matchMask i = mux.matchAddr i) : ∃ j ≤ i, mux.Selects adr j := by
  induction i using WellFoundedLT.induction with
  | _ i ih =>
    by_cases hany : ∃ j < i, adr &&& mux.matchMask j = mux.matchAddr j
    · obtain ⟨j, hj, hhit⟩ := hany
      obtain ⟨k, hk, hsel⟩ := ih j hj hhit
      exact ⟨k, hk.trans hj.le, hsel⟩
    · push Not at hany
      exact ⟨i, le_rfl, hi, hany⟩

/-- An address selects one slave at most. -/
theorem Selects.unique {adr : BitVec 32} {i j : Fin n} (hi : mux.Selects adr i)
    (hj : mux.Selects adr j) : i = j := by
  apply Fin.ext
  rw [← slaveSel_eq hi, ← slaveSel_eq hj]

/-- A slave is asked if the master asks and the address selects it, and no other one is. -/
theorem cyc_wbs_iff {m : WbReq} {i : Fin n} :
    (mux.wbs m i).cyc = true ↔ m.cyc = true ∧ mux.Selects m.adr i := by
  simp only [wbs, wbsCyc, BitVec.getLsbD_and, Bool.and_eq_true]
  rw [Bits.getLsbD_ofBool_shiftLeft, getLsbD_hit]
  constructor
  · rintro ⟨hhit, hcyc, hsel⟩
    obtain ⟨j, -, hj⟩ := exists_selects hhit
    rw [slaveSel_eq hj] at hsel
    exact ⟨hcyc, Fin.ext hsel ▸ hj⟩
  · rintro ⟨hcyc, hsel⟩
    exact ⟨hsel.hit, hcyc, slaveSel_eq hsel⟩

/-- The answer that the master gets is that of the selected slave, apart from the error. -/
theorem wbm_of_selects {m : WbReq} {i : Fin n} (h : mux.Selects m.adr i) (wbmErr : Bool)
    (s : Fin n → WbResp) :
    mux.wbm wbmErr m s = { s i with err := (s i).err || wbmErr } := by
  rw [wbm, slaveSel_eq h, WbArbiter.part_val]

/-- The error register takes a one if and only if a request matches no slave. -/
theorem errNext_iff {m : WbReq} : mux.errNext m = true ↔
    m.cyc = true ∧ ∀ i, m.adr &&& mux.matchMask i ≠ mux.matchAddr i := by
  have hzero : mux.hit m.adr = 0 ↔ ∀ i, m.adr &&& mux.matchMask i ≠ mux.matchAddr i := by
    constructor
    · intro h i hhit
      have hbit := getLsbD_hit.mpr hhit
      rw [h] at hbit
      simp at hbit
    · intro h
      apply BitVec.eq_of_getLsbD_eq
      intro i hi
      have hbit := mt getLsbD_hit.mp (h ⟨i, hi⟩)
      simpa using hbit
  rw [errNext, Bool.and_eq_true, Bool.not_eq_true', bne_eq_false_iff_eq, hzero]

end WbMux

end RvPipelineCore

import Mathlib.Data.BitVec
import Mathlib.Data.Nat.Log
import RvPipelineCore.Lib.RoundRobin

/-!
# The bus arbiter

`arbiter` of `rtl/soc/wb_intercon`, for any number of ports. A token goes around; its holder is
granted the resource in the cycle behind its request.

- `Arbiter.exists_next`: an edge hands the token on as `RoundRobin.Next` says;
- `Arbiter.Run.grants`: the outputs after a reset, and when a grant is kept;
- `Arbiter.Run.exists_grant`: a port that keeps requesting is granted within a bound.
-/

namespace RvPipelineCore

open RoundRobin

namespace Arbiter

/-- `SEL_WIDTH`: the number of bits that name one of the `n` ports, at least one. -/
def selWidth (n : ℕ) : ℕ := if n > 1 then Nat.clog 2 n else 1

/-- The number of a port fits into the select lines. -/
theorem lt_two_pow_selWidth {n : ℕ} (a : Fin n) : a.val < 2 ^ selWidth n := by
  have ha := a.isLt
  rw [selWidth]
  split_ifs with h
  · exact ha.trans_le (Nat.le_pow_clog Nat.one_lt_two n)
  · omega

end Arbiter

/-- The registers of `arbiter` with `NUM_PORTS` equal to `n`: the token, the grant lines, the select
lines and the active flag. -/
structure Arbiter (n : ℕ) where
  token : BitVec n
  grant : BitVec n
  select : BitVec (Arbiter.selWidth n)
  active : Bool

namespace Arbiter

variable {n : ℕ}

/-- `set` and the result of `ff1` after `i` rounds of its loop. -/
def ff1Loop (inp : BitVec n) : ℕ → Bool × BitVec (selWidth n)
  | 0 => (false, 0)
  | i + 1 =>
    if inp.getLsbD i && !(ff1Loop inp i).1 then (true, BitVec.ofNat _ i) else ff1Loop inp i

/-- `ff1`: the number of the lowest bit that is set. -/
def ff1 (inp : BitVec n) : BitVec (selWidth n) := (ff1Loop inp n).2

/-- `token_lookahead`: the token rotated by `xx` places. -/
def tokenLookahead (token : BitVec n) (xx : ℕ) : BitVec n := (token ++ token).extractLsb' xx n

/-- `order`: the port that has the token after `xx` rotations requests. -/
def order (token request : BitVec n) (xx : ℕ) : Bool := tokenLookahead token xx &&& request != 0

/-- What the loop over `yy` assigns to `token` in its first rounds; the last assignment counts. -/
def tokenLoop (token request : BitVec n) : ℕ → BitVec n
  | 0 => token
  | yy + 1 => if order token request yy then tokenLookahead token yy else tokenLoop token request yy

/-- One clock edge of `arbiter`: an owner without a request hands the token to the next port that
requests, and the outputs follow the token. -/
def next (s : Arbiter n) (rst : Bool) (request : BitVec n) : Arbiter n where
  token :=
    if rst then 1
    else if s.token &&& request = 0 then tokenLoop s.token request n
    else s.token
  grant := s.token &&& request
  select := ff1 (s.token &&& request)
  active := s.token &&& request != 0

/-- The port is among those that request. -/
def Requests (request : BitVec n) (c : Fin n) : Prop := request.getLsbD c = true

/-- A vector with one bit set is not zero. -/
theorem twoPow_ne_zero (a : Fin n) : BitVec.twoPow n a ≠ 0 := by
  intro h
  have hbit := congrArg (fun v => v.getLsbD a) h
  simp at hbit

/-- Two vectors with one bit set are equal only if the bits are the same. -/
theorem twoPow_inj {a b : Fin n} (h : BitVec.twoPow n a = BitVec.twoPow n b) : a = b := by
  have hbit := congrArg (fun v => v.getLsbD b) h
  have hval : b.val = a.val := by simpa using hbit
  exact (Fin.ext hval).symm

/-- A token and the requests have in common the token itself, if its owner requests, and nothing
otherwise. -/
theorem twoPow_and (a : Fin n) (request : BitVec n) :
    BitVec.twoPow n a &&& request = if request.getLsbD a then BitVec.twoPow n a else 0 := by
  rw [BitVec.and_comm, BitVec.and_twoPow]
  rfl

/-- A token and the requests have nothing in common if and only if the owner does not request. -/
theorem twoPow_and_eq_zero {a : Fin n} {request : BitVec n} :
    BitVec.twoPow n a &&& request = 0 ↔ ¬ Requests request a := by
  rw [twoPow_and, Requests]
  split_ifs with h
  · simpa [h] using twoPow_ne_zero a
  · simpa using h

/-- On a token the loop of `ff1` has found the owner as soon as it has come past its place. -/
theorem ff1Loop_twoPow (a : Fin n) (i : ℕ) :
    ff1Loop (BitVec.twoPow n a) i =
      if a.val < i then (true, BitVec.ofNat _ a.val) else (false, 0) := by
  induction i with
  | zero => simp [ff1Loop]
  | succ i ih =>
    have ha := a.isLt
    rw [ff1Loop, ih, BitVec.getLsbD_twoPow]
    rcases Nat.lt_trichotomy a.val i with hlt | heq | hgt
    · simp [hlt, hlt.ne, Nat.lt_succ_of_lt hlt]
    · simp [← heq]
    · simp [hgt.ne', Nat.not_lt_of_gt hgt, Nat.not_lt_of_ge hgt]

/-- The select lines name the only bit that is set. -/
theorem toNat_ff1_twoPow (a : Fin n) : (ff1 (BitVec.twoPow n a)).toNat = a.val := by
  rw [ff1, ff1Loop_twoPow, if_pos a.isLt, BitVec.toNat_ofNat,
    Nat.mod_eq_of_lt (lt_two_pow_selWidth a)]

/-- Looking ahead by `ahead b a` places moves the token from `a` to `b`. -/
theorem tokenLookahead_twoPow (a b : Fin n) :
    tokenLookahead (BitVec.twoPow n a) (ahead b a) = BitVec.twoPow n b := by
  have ha := a.isLt
  have hb := b.isLt
  apply BitVec.eq_of_getLsbD_eq
  intro i hi
  have hahead := ahead_eq b a
  rw [tokenLookahead, BitVec.getLsbD_extractLsb', BitVec.getLsbD_append, BitVec.getLsbD_twoPow,
    BitVec.getLsbD_twoPow, BitVec.getLsbD_twoPow]
  simp only [Fin.le_def] at hahead
  grind

/-- From every port there is one at each distance below the number of ports. -/
theorem exists_ahead_eq (a : Fin n) {xx : ℕ} (hxx : xx < n) : ∃ b : Fin n, ahead b a = xx := by
  have ha := a.isLt
  by_cases hle : xx ≤ a.val
  · refine ⟨⟨a.val - xx, by omega⟩, ?_⟩
    rw [ahead_eq, if_pos (by rw [Fin.le_def]; simp)]
    simp only
    omega
  · refine ⟨⟨n + a.val - xx, by omega⟩, ?_⟩
    rw [ahead_eq, if_neg (by rw [Fin.le_def]; simp only; omega)]
    simp only
    omega

/-- `order` for the distance of a port is true if and only if the port requests. -/
theorem order_twoPow (a b : Fin n) (request : BitVec n) :
    order (BitVec.twoPow n a) request (ahead b a) = true ↔ Requests request b := by
  rw [order, tokenLookahead_twoPow, bne_iff_ne, ne_eq, twoPow_and_eq_zero, not_not]

/-- After `k` rounds the token is at the requesting port that is the farthest behind, among those
less than `k` places behind; it has not moved if there is none. -/
theorem exists_tokenLoop (a : Fin n) (request : BitVec n) {k : ℕ} (hk : k ≤ n) :
    ∃ b : Fin n, tokenLoop (BitVec.twoPow n a) request k = BitVec.twoPow n b ∧
      (∀ c, Requests request c → ahead c a < k → Requests request b ∧ ahead c a ≤ ahead b a) ∧
      ((∀ c, Requests request c → ¬ ahead c a < k) → b = a) := by
  induction k with
  | zero => exact ⟨a, rfl, fun c _ h => absurd h (Nat.not_lt_zero _), fun _ => rfl⟩
  | succ k ih =>
    obtain ⟨d, hd⟩ := exists_ahead_eq a (show k < n by omega)
    -- port `d` is the one that is looked at in this round
    by_cases hreq : Requests request d
    · refine ⟨d, ?_, ?_, ?_⟩
      · rw [tokenLoop, ← hd, if_pos ((order_twoPow a d request).mpr hreq), tokenLookahead_twoPow]
      · intro c _ hc
        exact ⟨hreq, by omega⟩
      · intro hnone
        exact absurd (by omega) (hnone d hreq)
    · obtain ⟨b, hb, hfar, hidle⟩ := ih (by omega)
      -- no other port is as far behind as `d`
      have hne (c : Fin n) (hc : Requests request c) : ahead c a ≠ k := by
        intro h
        rw [← hd] at h
        have hcd : c = d := by
          apply Fin.ext
          have hc' := c.isLt
          have hd' := d.isLt
          have ha := a.isLt
          rw [ahead_eq, ahead_eq] at h
          simp only [Fin.le_def] at h
          split_ifs at h <;> omega
        exact hreq (hcd ▸ hc)
      refine ⟨b, ?_, ?_, ?_⟩
      · rw [tokenLoop, ← hd, if_neg (by rw [order_twoPow]; exact hreq), hd, hb]
      · intro c hc hlt
        have hk' := hne c hc
        exact hfar c hc (by omega)
      · intro hnone
        exact hidle fun c hc hlt => hnone c hc (by omega)

/-- A reset hands the token to port 0, whatever the arbiter held. -/
theorem token_reset [NeZero n] (s : Arbiter n) (request : BitVec n) :
    (s.next true request).token = BitVec.twoPow n (0 : Fin n).val := by
  rw [next, if_pos rfl]
  exact (BitVec.twoPow_zero).symm

/-- An edge without reset moves the token on as round robin does. -/
theorem exists_next (s : Arbiter n) {a : Fin n} (hs : s.token = BitVec.twoPow n a)
    (request : BitVec n) :
    ∃ b : Fin n, (s.next false request).token = BitVec.twoPow n b ∧
      Next (Requests request) a b := by
  by_cases hreq : Requests request a
  · refine ⟨a, ?_, ?_, fun _ _ => hreq, fun _ => rfl⟩
    · simp only [next, hs, Bool.false_eq_true, if_false]
      rw [if_neg (by rw [twoPow_and_eq_zero]; exact not_not.mpr hreq)]
    · intro c _
      rw [ahead_self]
      exact Nat.zero_le _
  · obtain ⟨b, hb, hfar, hidle⟩ := exists_tokenLoop a request (le_refl n)
    refine ⟨b, ?_, ?_, ?_, ?_⟩
    · simp only [next, hs, Bool.false_eq_true, if_false]
      rw [if_pos (twoPow_and_eq_zero.mpr hreq), hb]
    · -- the farthest behind is the first one ahead
      intro c hc
      obtain ⟨hb', hle⟩ := hfar c hc (ahead_lt c a)
      have hca := ahead_add_comm (a := a) (c := c) fun h => hreq (h ▸ hc)
      have hba := ahead_add_comm (a := a) (c := b) fun h => hreq (h ▸ hb')
      omega
    · intro c hc
      exact (hfar c hc (ahead_lt c a)).1
    · intro hnone
      exact hidle fun c hc => absurd hc (hnone c)

/-- A run of the arbiter from any contents of its registers, so that nothing is assumed of their
initial values. -/
structure Run (n : ℕ) where
  state : ℕ → Arbiter n
  rst : ℕ → Bool
  request : ℕ → BitVec n
  succ : ∀ t, state (t + 1) = (state t).next (rst t) (request t)

namespace Run

/-- The arbiter from the state `s` on, with given inputs. -/
def ofInputs (s : Arbiter n) (rst : ℕ → Bool) (request : ℕ → BitVec n) : Run n where
  state := Nat.rec s fun t s => s.next (rst t) (request t)
  rst := rst
  request := request
  succ _ := rfl

variable (run : Run n) {t₀ t : ℕ}

/-- After a reset there is exactly one token in every cycle. -/
theorem exists_token [NeZero n] (hrst : run.rst t₀ = true) (ht : t₀ < t) :
    ∃ a : Fin n, (run.state t).token = BitVec.twoPow n a := by
  induction t, ht using Nat.le_induction with
  | base => exact ⟨0, by rw [run.succ, hrst, token_reset]⟩
  | succ t ht ih =>
    obtain ⟨a, ha⟩ := ih
    rw [run.succ]
    cases hr : run.rst t with
    | false =>
      obtain ⟨b, hb, -⟩ := exists_next (run.state t) ha (run.request t)
      exact ⟨b, hb⟩
    | true => exact ⟨0, token_reset _ _⟩

/-- The holder of the token is granted what it requests. -/
theorem getLsbD_grant {a : Fin n} (ha : (run.state t).token = BitVec.twoPow n a) (i : Fin n) :
    (run.state (t + 1)).grant.getLsbD i = true ↔ i = a ∧ Requests (run.request t) i := by
  rw [run.succ]
  simp only [next, ha, Requests, BitVec.getLsbD_and, BitVec.getLsbD_twoPow, Bool.and_eq_true,
    decide_eq_true_eq, Fin.ext_iff]
  have hlt := a.isLt
  grind

/-- The outputs in the cycle after a token: `active` is up if and only if its owner requested, and
then `select` names the owner. -/
theorem outputs_of_token {a : Fin n} (ha : (run.state t).token = BitVec.twoPow n a) :
    ((run.state (t + 1)).active = true ↔ Requests (run.request t) a) ∧
      (Requests (run.request t) a → (run.state (t + 1)).select.toNat = a.val) := by
  rw [run.succ]
  simp only [next, ha]
  constructor
  · rw [bne_iff_ne, ne_eq, twoPow_and_eq_zero, not_not]
  · intro hreq
    rw [Requests] at hreq
    rw [twoPow_and, if_pos hreq, toNat_ff1_twoPow]

/-- While `active` is high after a reset, `select` names the owner of the token, which requested in
the cycle before. -/
theorem exists_select [NeZero n] (hrst : run.rst t₀ = true) (ht : t₀ < t)
    (hactive : (run.state (t + 1)).active = true) :
    ∃ a : Fin n, (run.state t).token = BitVec.twoPow n a ∧ Requests (run.request t) a ∧
      (run.state (t + 1)).select.toNat = a.val := by
  obtain ⟨a, ha⟩ := run.exists_token hrst ht
  obtain ⟨hact, hselect⟩ := run.outputs_of_token ha
  have hreq := hact.mp hactive
  exact ⟨a, ha, hreq, hselect hreq⟩

/-- The selected port stays selected as long as it requests and no reset comes. -/
theorem select_succ {a : Fin n} (ha : (run.state t).token = BitVec.twoPow n a)
    (hreq : Requests (run.request t) a) (hquiet : run.rst t = false)
    (hagain : Requests (run.request (t + 1)) a) :
    (run.state (t + 1)).token = BitVec.twoPow n a ∧ (run.state (t + 2)).active = true ∧
      (run.state (t + 2)).select.toNat = a.val := by
  obtain ⟨b, hb, hnext⟩ := exists_next (run.state t) ha (run.request t)
  rw [← hquiet, ← run.succ, hnext.eq_self hreq] at hb
  obtain ⟨hact, hselect⟩ := run.outputs_of_token hb
  exact ⟨hb, hact.mpr hagain, hselect hagain⟩

/-- From the second cycle behind a reset on, at most one port is granted, and only one that has
just requested; `active` and `select` say whether and which; and a port that has the grant keeps it
for as long as it requests and there is no reset. -/
theorem grants [NeZero n] (hrst : run.rst t₀ = true) (ht : t₀ < t) :
    (∀ i j : Fin n, (run.state (t + 1)).grant.getLsbD i = true →
        (run.state (t + 1)).grant.getLsbD j = true → i = j) ∧
      (∀ i : Fin n, (run.state (t + 1)).grant.getLsbD i = true →
        (run.request t).getLsbD i = true ∧ (run.state (t + 1)).select.toNat = i.val) ∧
      ((run.state (t + 1)).active = true ↔
        ∃ i : Fin n, (run.state (t + 1)).grant.getLsbD i = true) ∧
      (∀ i : Fin n, (run.state (t + 1)).grant.getLsbD i = true → run.rst t = false →
        (run.request (t + 1)).getLsbD i = true →
          (run.state (t + 2)).grant.getLsbD i = true) := by
  -- All of it is read off the token: who has it, and whether he asks.
  obtain ⟨a, ha⟩ := run.exists_token hrst ht
  obtain ⟨hactive, hselect⟩ := run.outputs_of_token ha
  have hgrant := run.getLsbD_grant ha
  refine ⟨?_, ?_, ?_, ?_⟩
  · intro i j hi hj
    rw [((hgrant i).mp hi).1, ((hgrant j).mp hj).1]
  · intro i hi
    obtain ⟨rfl, hreq⟩ := (hgrant i).mp hi
    exact ⟨hreq, hselect hreq⟩
  · rw [hactive]
    constructor
    · intro hreq
      exact ⟨a, (hgrant a).mpr ⟨rfl, hreq⟩⟩
    · rintro ⟨i, hi⟩
      obtain ⟨rfl, hreq⟩ := (hgrant i).mp hi
      exact hreq
  · intro i hi hquiet hagain
    obtain ⟨rfl, hreq⟩ := (hgrant i).mp hi
    have hkeep := (run.select_succ ha hreq hquiet hagain).1
    exact (run.getLsbD_grant hkeep i).mpr ⟨rfl, hagain⟩

/-- Two ports that both request all the time: the port that has been granted first keeps the
grant. -/
theorem grants_two_ports :
    let run := ofInputs (⟨0, 0, 0, false⟩ : Arbiter 2) (fun t => t == 0) fun _ => 0b11
    (run.state 2).grant = 0b01 ∧ (run.state 3).grant.getLsbD 0 = true := by
  intro run
  have hrst : run.rst 0 = true := rfl
  obtain ⟨-, -, -, hkeep⟩ := run.grants hrst Nat.zero_lt_one
  exact ⟨by decide, hkeep 0 (by decide) rfl (by decide)⟩

/-- Behind its last reset the arbiter is a round robin run of the token. -/
theorem exists_roundRobin [NeZero n] (hrst : run.rst t₀ = true)
    (hquiet : ∀ t, t₀ < t → run.rst t = false) :
    ∃ r : RoundRobin.Run n, (∀ t, r.request t = Requests (run.request (t₀ + 1 + t))) ∧
      ∀ t, (run.state (t₀ + 1 + t)).token = BitVec.twoPow n (r.owner t) := by
  choose owner howner using fun t => run.exists_token (t := t₀ + 1 + t) hrst (by omega)
  refine ⟨⟨fun t => Requests (run.request (t₀ + 1 + t)), owner, ?_⟩, fun _ => rfl, howner⟩
  intro t
  obtain ⟨b, hb, hnext⟩ := exists_next _ (howner t) (run.request (t₀ + 1 + t))
  rw [← hquiet (t₀ + 1 + t) (by omega), ← run.succ, Nat.add_assoc (t₀ + 1) t 1, howner (t + 1)]
    at hb
  rw [twoPow_inj hb]
  exact hnext

section Owner

variable {run : Run n} {r : RoundRobin.Run n} {c : Fin n}
  (hr : ∀ t, r.request t = Requests (run.request (t₀ + 1 + t)))
  (hown : ∀ t, (run.state (t₀ + 1 + t)).token = BitVec.twoPow n (r.owner t))

include hown

/-- A port that does not own the token is not granted in the next cycle. -/
theorem getLsbD_grant_of_ne {v : ℕ} (hv : r.owner v ≠ c) :
    (run.state (t₀ + 1 + v + 1)).grant.getLsbD c = false := by
  rw [← Bool.not_eq_true, run.getLsbD_grant (hown v)]
  rintro ⟨rfl, -⟩
  exact hv rfl

include hr

/-- The holder of the token is granted one cycle later, so that it lets go one cycle later. -/
theorem exists_free {bound v : ℕ}
    (hrelease : ∀ v, t₀ + 1 < v → ∀ i : Fin n, i ≠ c → (run.state v).grant.getLsbD i = true →
      ∃ u < bound, (run.request (v + u)).getLsbD i = false) (hv : r.owner v ≠ c) :
    ∃ u < bound + 1, ¬ r.request (v + u) (r.owner (v + u)) ∨ r.owner (v + u) = c := by
  by_cases hreq : r.request v (r.owner v)
  · have hgrant : (run.state (t₀ + 1 + v + 1)).grant.getLsbD (r.owner v) = true := by
      rw [hr] at hreq
      exact (run.getLsbD_grant (hown v) _).mpr ⟨rfl, hreq⟩
    obtain ⟨u, hu, hnot⟩ := hrelease _ (by omega) _ hv hgrant
    have hnot' : ¬ r.request (v + (u + 1)) (r.owner v) := by
      have hplace : t₀ + 1 + (v + (u + 1)) = t₀ + 1 + v + 1 + u := by omega
      rw [hr, Requests, hplace, hnot]
      exact Bool.false_ne_true
    obtain ⟨w, hw, hlet⟩ := r.exists_release hnot'
    exact ⟨w, by omega, Or.inl hlet⟩
  · exact ⟨0, by omega, Or.inl hreq⟩

end Owner

/-- If no granted port but `c` requests for more than `bound` cycles on end, then `c`, once it
requests and does not give up, is granted within `(n - 1) * (bound + 1) + 1` cycles. -/
theorem exists_grant [NeZero n] {bound : ℕ} (hrst : run.rst t₀ = true)
    (hquiet : ∀ t, t₀ < t → run.rst t = false) (ht : t₀ < t) (c : Fin n)
    (hrelease : ∀ v, t₀ + 1 < v → ∀ i : Fin n, i ≠ c → (run.state v).grant.getLsbD i = true →
      ∃ u < bound, (run.request (v + u)).getLsbD i = false)
    (hc : ∀ v, t ≤ v → (∀ u, t ≤ u → u < v → (run.state (u + 1)).grant.getLsbD c = false) →
      (run.request v).getLsbD c = true) :
    ∃ k ≤ (n - 1) * (bound + 1), (run.state (t + k + 1)).grant.getLsbD c = true := by
  obtain ⟨r, hr, hown⟩ := run.exists_roundRobin hrst hquiet
  obtain ⟨s, rfl⟩ := Nat.exists_eq_add_of_lt ht
  rw [Nat.add_right_comm] at hc ⊢
  by_contra hnone
  push Not at hnone
  have hasks : ∀ v, s ≤ v → (∀ u, s ≤ u → u ≤ v → r.owner u ≠ c) → r.request v c := by
    intro v hv hne
    rw [hr]
    apply hc _ (by omega)
    intro u hu huv
    obtain ⟨w, rfl⟩ := Nat.exists_eq_add_of_le (show t₀ + 1 ≤ u by omega)
    exact getLsbD_grant_of_ne hown (hne w (by omega) (by omega))
  obtain ⟨k, hk, hc'⟩ := r.exists_owner (fun _ hv => exists_free hr hown hrelease hv) hasks
  -- it still requests when the token arrives, since it has not been granted before
  have hle : k ≤ (n - 1) * (bound + 1) := by
    have hlt := ahead_lt (r.owner s) c
    exact hk.trans (Nat.mul_le_mul_right _ (by omega))
  apply hnone k hle
  have htoken := hown (s + k)
  rw [hc', ← Nat.add_assoc] at htoken
  refine (run.getLsbD_grant htoken c).mpr ⟨rfl, ?_⟩
  apply hc _ (by omega)
  intro u hu huk
  obtain ⟨w, rfl⟩ := Nat.exists_eq_add_of_le hu
  exact Bool.not_eq_true _ ▸ hnone w (by omega)

end Run

end Arbiter

end RvPipelineCore

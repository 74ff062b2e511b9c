import Mathlib.Data.Fin.Basic
import Mathlib.Data.Nat.Count
import Mathlib.Order.Fin.Basic

/-!
# Round robin

A resource that is handed on around a ring of places: the next owner is the first place from the
present one on that requests it.

- `Next`: the next owner, which is unique;
- `Run.ahead_add_handovers_le`: a waiting place comes closer with every hand-over;
- `Run.exists_owner`: if owners let go within a bound, a waiting place becomes the owner.
-/

namespace RoundRobin

variable {n : ℕ} {request : Fin n → Prop} {a b c : Fin n}

/-- The number of places from `a` on to `c`, around the ring. -/
def ahead (a c : Fin n) : ℕ := (c - a).val

/-- The distance from one place to another is less than the number of places. -/
theorem ahead_lt (a c : Fin n) : ahead a c < n := (c - a).isLt

/-- A place is at distance zero from itself. -/
@[simp]
theorem ahead_self (a : Fin n) : ahead a a = 0 := by
  rw [ahead, Fin.coe_sub_iff_le.mpr le_rfl, Nat.sub_self]

/-- The distance from one place to another is their difference, plus the number of places if it
would be negative. -/
theorem ahead_eq (a c : Fin n) :
    ahead a c = if a ≤ c then c.val - a.val else n + c.val - a.val := by
  split_ifs with h
  · exact Fin.coe_sub_iff_le.mpr h
  · exact Fin.coe_sub_iff_lt.mpr (not_le.mp h)

/-- Two places are at distance zero if and only if they are the same. -/
theorem ahead_eq_zero : ahead a c = 0 ↔ a = c := by
  constructor
  · intro h
    have ha := a.isLt
    rw [ahead_eq] at h
    apply Fin.ext
    split_ifs at h with hle
    · rw [Fin.le_def] at hle
      omega
    · omega
  · rintro rfl
    exact ahead_self a

/-- The way to `c` leads through every place that is closer. -/
theorem ahead_add_ahead (h : ahead a b ≤ ahead a c) : ahead a b + ahead b c = ahead a c := by
  have ha := a.isLt
  have hb := b.isLt
  have hc := c.isLt
  simp only [ahead_eq, Fin.le_def] at h ⊢
  split_ifs at h ⊢ <;> omega

/-- The way from one place to another and back again is once around. -/
theorem ahead_add_comm (h : a ≠ c) : ahead a c + ahead c a = n := by
  have ha := a.isLt
  have hc := c.isLt
  have hne : a.val ≠ c.val := fun heq => h (Fin.ext heq)
  simp only [ahead_eq, Fin.le_def]
  split_ifs <;> omega

/-- `b` is the first place from `a` on that requests; `a` itself if there is none. -/
structure Next (request : Fin n → Prop) (a b : Fin n) : Prop where
  first : ∀ c, request c → ahead a b ≤ ahead a c
  requests : ∀ c, request c → request b
  idle : (∀ c, ¬ request c) → b = a

namespace Next

/-- There is only one next owner. -/
theorem unique {b' : Fin n} (h : Next request a b) (h' : Next request a b') : b = b' := by
  by_cases hany : ∃ c, request c
  · obtain ⟨c, hc⟩ := hany
    have hle := h.first b' (h'.requests c hc)
    have hle' := h'.first b (h.requests c hc)
    have hadd := ahead_add_ahead hle
    exact ahead_eq_zero.mp (by omega)
  · rw [h.idle (not_exists.mp hany), h'.idle (not_exists.mp hany)]

/-- An owner that requests is its own next owner. -/
theorem eq_self (h : Next request a b) (ha : request a) : b = a := by
  have hle := h.first a ha
  rw [ahead_self, Nat.le_zero] at hle
  exact (ahead_eq_zero.mp hle).symm

/-- While `c` requests, an owner that does not is followed by another one. -/
theorem ne_self (h : Next request a b) (ha : ¬ request a) (hc : request c) : b ≠ a := by
  rintro rfl
  exact ha (h.requests c hc)

/-- The next owner lies on the way from the owner to every place that requests, so the distances add
up. -/
theorem ahead_add (h : Next request a b) (hc : request c) :
    ahead a b + ahead b c = ahead a c :=
  ahead_add_ahead (h.first c hc)

end Next

/-- A run of owners, each the next one after the owner before it for the requests of the moment. -/
structure Run (n : ℕ) where
  request : ℕ → Fin n → Prop
  owner : ℕ → Fin n
  next : ∀ t, Next (request t) (owner t) (owner (t + 1))

namespace Run

variable (run : Run n) {t k bound : ℕ}

/-- The number of times that the owner changes in the `k` steps from `t` on. -/
def handovers (t k : ℕ) : ℕ := Nat.count (fun v => run.owner (t + v + 1) ≠ run.owner (t + v)) k

/-- A place that keeps requesting comes closer to ownership with every hand-over. -/
theorem ahead_add_handovers_le (hc : ∀ v < k, run.request (t + v) c) :
    ahead (run.owner (t + k)) c + run.handovers t k ≤ ahead (run.owner t) c := by
  induction k with
  | zero => simp [handovers]
  | succ k ih =>
    have hle := ih fun v hv => hc v (by omega)
    have hadd := (run.next (t + k)).ahead_add (hc k (by omega))
    rw [handovers, Nat.count_succ]
    rw [handovers] at hle
    split_ifs with hne
    · have hpos : ahead (run.owner (t + k)) (run.owner (t + k + 1)) ≠ 0 := by
        intro h
        exact hne (ahead_eq_zero.mp h).symm
      rw [← Nat.add_assoc t k 1]
      omega
    · rw [← Nat.add_assoc t k 1]
      omega

/-- Before an owner has let go, it is the owner. -/
theorem exists_release {v : ℕ} (hv : ¬ run.request (t + v) (run.owner t)) :
    ∃ u ≤ v, ¬ run.request (t + u) (run.owner (t + u)) := by
  induction v generalizing t with
  | zero => exact ⟨0, le_rfl, hv⟩
  | succ v ih =>
    by_cases hreq : run.request t (run.owner t)
    · have hsame := (run.next t).eq_self hreq
      rw [← hsame, ← Nat.add_assoc, Nat.add_right_comm] at hv
      obtain ⟨u, hu, hnot⟩ := ih hv
      rw [Nat.add_right_comm, Nat.add_assoc] at hnot
      exact ⟨u + 1, by omega, hnot⟩
    · exact ⟨0, Nat.zero_le _, hreq⟩

/-- If one of the next `bound` owners lets go, the distance to a waiting place goes down. -/
theorem ahead_lt_of_release (hc : ∀ v < bound, run.request (t + v) c)
    (hrel : ∃ v < bound, ¬ run.request (t + v) (run.owner (t + v))) :
    ahead (run.owner (t + bound)) c < ahead (run.owner t) c := by
  obtain ⟨v, hv, hnot⟩ := hrel
  have hle := run.ahead_add_handovers_le hc
  have hne := (run.next (t + v)).ne_self hnot (hc v hv)
  have hpos : run.handovers t bound ≠ 0 := by
    apply Nat.count_ne_iff_exists.mpr
    exact ⟨v, hv, hne⟩
  omega

/-- A place that requests until it owns becomes the owner, provided that every other owner lets go
within `bound` steps. -/
theorem exists_owner (hrel : ∀ t, run.owner t ≠ c →
      ∃ v < bound, ¬ run.request (t + v) (run.owner (t + v)) ∨ run.owner (t + v) = c)
    (hc : ∀ v, t ≤ v → (∀ u, t ≤ u → u ≤ v → run.owner u ≠ c) → run.request v c) :
    ∃ k ≤ ahead (run.owner t) c * bound, run.owner (t + k) = c := by
  by_contra hnone
  push Not at hnone
  -- until then every round of `bound` steps brings the place closer
  have hround : ∀ r ≤ ahead (run.owner t) c,
      ahead (run.owner (t + r * bound)) c + r ≤ ahead (run.owner t) c := by
    intro r hr
    induction r with
    | zero => simp
    | succ r ih =>
      have hih := ih (by omega)
      have hmul : (r + 1) * bound ≤ ahead (run.owner t) c * bound := Nat.mul_le_mul_right bound hr
      have hsucc : (r + 1) * bound = r * bound + bound := Nat.succ_mul r bound
      have hreq : ∀ v < bound, run.request (t + r * bound + v) c := by
        intro v hv
        apply hc _ (by omega)
        intro u hu huv
        have hk := hnone (u - t) (by omega)
        rwa [Nat.add_sub_cancel' hu] at hk
      have hfree : ∃ v < bound,
          ¬ run.request (t + r * bound + v) (run.owner (t + r * bound + v)) := by
        obtain ⟨v, hv, hor⟩ := hrel (t + r * bound) (hnone _ (by omega))
        rcases hor with hnot | heq
        · exact ⟨v, hv, hnot⟩
        · rw [Nat.add_assoc] at heq
          exact absurd heq (hnone _ (by omega))
      have hlt := run.ahead_lt_of_release hreq hfree
      have hplace : t + (r + 1) * bound = t + r * bound + bound := by omega
      rw [hplace]
      omega
  have hlast := hround _ le_rfl
  have hzero : ahead (run.owner (t + ahead (run.owner t) c * bound)) c = 0 := by omega
  exact hnone _ le_rfl (ahead_eq_zero.mp hzero)

end Run

end RoundRobin

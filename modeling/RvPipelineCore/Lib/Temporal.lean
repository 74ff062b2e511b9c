import Mathlib.Data.Nat.Count
import Mathlib.Order.Basic
import Mathlib.Order.Nat

/-!
# Runs indexed by time

Rules for predicates of the time index of a run, whatever the run is of.

- `Temporal.First`: the first time from a given one on at which something holds;
- `Temporal.always_between`, `Temporal.eq_of_stable`: what every step of an interval preserves holds
  throughout it;
- `Temporal.eq_iff_last_write`: what the steps of an interval overwrite is kept exactly if the last
  write puts it back;
- `Temporal.always_iff`: the exact condition on the steps under which something holds throughout.
-/

namespace Temporal

variable {α : Type*} {p q : ℕ → Prop} {a b c : ℕ}

/-- What holds at `a` and is preserved by every step from `a` to `b` holds throughout. -/
theorem always_between (ha : p a) (hstep : ∀ v, a ≤ v → v < b → p v → p (v + 1)) :
    ∀ v, a ≤ v → v ≤ b → p v := by
  intro v hv
  induction v, hv using Nat.le_induction with
  | base => exact fun _ => ha
  | succ v hv ih => exact fun hb => hstep v hv hb (ih (Nat.le_of_succ_le hb))

/-- A quantity that no step from `a` to `b` changes is at `b` what it is at `a`. -/
theorem eq_of_stable {f : ℕ → α} (hab : a ≤ b)
    (hstep : ∀ v, a ≤ v → v < b → f (v + 1) = f v) : f b = f a :=
  always_between (p := fun v => f v = f a) rfl (fun v hv hb ih => (hstep v hv hb).trans ih) b hab
    le_rfl

/-- A quantity that some steps from `a` to `b` overwrite is at `b` what it is at `a` exactly if the
last of these writes that value. -/
theorem eq_iff_last_write {f g : ℕ → α} [DecidablePred p] (hab : a ≤ b)
    (hstep : ∀ v, a ≤ v → v < b → f (v + 1) = if p v then g v else f v) :
    f b = f a ↔
      ∀ v, a ≤ v → v < b → p v → (∀ u, v < u → u < b → ¬ p u) → g v = f a := by
  induction b, hab using Nat.le_induction with
  | base => exact iff_of_true rfl fun v hv hlt => by omega
  | succ b hab ih =>
    rw [hstep b hab b.lt_succ_self]
    by_cases hp : p b
    · rw [if_pos hp]
      refine ⟨fun h v hv hlt hpv hlast => ?_, fun h => h b hab b.lt_succ_self hp fun u h₁ h₂ => ?_⟩
      · -- no step before the last one is the last to write
        rcases Nat.lt_succ_iff_lt_or_eq.mp hlt with hlt' | rfl
        · exact absurd hp (hlast b hlt' b.lt_succ_self)
        · exact h
      · omega
    · rw [if_neg hp, ih fun v hv hlt => hstep v hv (by omega)]
      refine ⟨fun h v hv hlt hpv hlast => ?_, fun h v hv hlt hpv hlast => ?_⟩
      · rcases Nat.lt_succ_iff_lt_or_eq.mp hlt with hlt' | rfl
        · exact h v hv hlt' hpv fun u h₁ h₂ => hlast u h₁ (by omega)
        · exact absurd hpv hp
      · refine h v hv (by omega) hpv fun u h₁ h₂ => ?_
        rcases Nat.lt_succ_iff_lt_or_eq.mp h₂ with h₂' | rfl
        · exact hlast u h₁ h₂'
        · exact hp

/-- If a step from a time at which `p` holds keeps `p` exactly when `q` holds there, then `p` holds
up to a time exactly when `q` holds before it. -/
theorem always_iff (h0 : p 0) (hstep : ∀ t, p t → (p (t + 1) ↔ q t)) (T : ℕ) :
    (∀ t ≤ T, p t) ↔ ∀ v < T, q v := by
  constructor
  · intro h v hv
    exact (hstep v (h v hv.le)).mp (h (v + 1) hv)
  · intro h t ht
    exact always_between h0 (fun v _ hv ih => (hstep v ih).mpr (h v (by omega))) t t.zero_le le_rfl

/-- `b` is the first time from `a` on at which `p` holds. -/
structure First (p : ℕ → Prop) (a b : ℕ) : Prop where
  le : a ≤ b
  holds : p b
  not_before : ∀ v, a ≤ v → v < b → ¬ p v

/-- Whether a time is the first one after `a` at which `p` holds can be decided, by looking at the
times before it. -/
instance [DecidablePred p] (a b : ℕ) : Decidable (First p a b) :=
  decidable_of_iff (a ≤ b ∧ p b ∧ ∀ v < b, a ≤ v → ¬ p v)
    ⟨fun h => ⟨h.1, h.2.1, fun v hv hlt => h.2.2 v hlt hv⟩,
      fun h => ⟨h.le, h.holds, fun v hlt hv => h.not_before v hv hlt⟩⟩

/-- `p` holds at every time after `a` and up to `b`. -/
def After (p : ℕ → Prop) (a b : ℕ) : Prop := ∀ v, a < v → v ≤ b → p v

/-- Whether `p` holds at all times after `a` up to `b` can be decided, by looking at them one after
the other. -/
instance [DecidablePred p] (a b : ℕ) : Decidable (After p a b) :=
  decidable_of_iff (∀ v < b + 1, a < v → p v)
    ⟨fun h v hv hle => h v (Nat.lt_succ_of_le hle) hv, fun h v hlt hv => h v hv (by omega)⟩

namespace First

/-- What ever happens from `a` on happens a first time. -/
theorem of_exists (h : ∃ b, a ≤ b ∧ p b) : ∃ b, First p a b := by
  classical
  obtain ⟨hle, hp⟩ := Nat.find_spec h
  exact ⟨Nat.find h, hle, hp, fun v hv hlt hpv => Nat.find_min h hlt ⟨hv, hpv⟩⟩

/-- There is at most one first time, so two of them are equal. -/
theorem unique (hb : First p a b) (hc : First p a c) : b = c := by
  rcases lt_trichotomy b c with h | h | h
  · exact absurd hb.holds (hc.not_before b hb.le h)
  · exact h
  · exact absurd hc.holds (hb.not_before c hc.le h)

/-- The first time from a later start on that is not past it. -/
theorem of_le (hb : First p a b) (hac : a ≤ c) (hcb : c ≤ b) : First p c b :=
  ⟨hcb, hb.holds, fun v hv hlt => hb.not_before v (hac.trans hv) hlt⟩

/-- If it does not happen at `a`, the first time is the one from `a + 1` on. -/
theorem succ (hb : First p a b) (h : ¬ p a) : First p (a + 1) b := by
  refine hb.of_le a.le_succ ?_
  rcases Nat.lt_or_eq_of_le hb.le with hlt | rfl
  · exact hlt
  · exact absurd hb.holds h

/-- None of the times from `a` up to the first one is counted, since `p` holds at none of them. -/
theorem count_eq [DecidablePred p] (hb : First p a b) : Nat.count p b = Nat.count p a :=
  eq_of_stable hb.le fun v hv hlt => Nat.count_succ_eq_count_iff.mpr (hb.not_before v hv hlt)

end First

end Temporal

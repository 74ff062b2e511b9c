import Mathlib.Order.Monotone.Basic
import Mathlib.Order.Nat

/-!
# The last write before a stamp

A cell that is written by stamped writers, the younger ones with larger stamps. `LastWrite` is what
a reader finds in it after all older writers: a statement about stamps, not about time.

- `LastWrite.unique`: it is one value, if a writer writes one value;
- `LastWrite.of_commits`: a cell that changes in time only when a writer commits, and in the order
  of the stamps, holds it once all older writers have committed.
-/

variable {α : Type*} {writes : ℕ → Prop} {value : ℕ → α → Prop} {init : α} {n : ℕ} {v : α}

/-- The value left by the youngest writer with a stamp below `n`, or `init` without one; `value m v`
says that writer `m` writes `v`. -/
inductive LastWrite (writes : ℕ → Prop) (value : ℕ → α → Prop) (init : α) (n : ℕ) : α → Prop
  | initial (none : ∀ m < n, ¬ writes m) : LastWrite writes value init n init
  | written (m : ℕ) (v : α) (lt : m < n) (writer : writes m) (wrote : value m v)
      (last : ∀ k, m < k → k < n → ¬ writes k) : LastWrite writes value init n v

namespace LastWrite

/-- The value of the last write is unique, provided that every write has one value only. -/
theorem unique (hval : ∀ m v v', value m v → value m v' → v = v') {v' : α}
    (h : LastWrite writes value init n v) (h' : LastWrite writes value init n v') : v = v' := by
  cases h with
  | initial hnone =>
    cases h' with
    | initial => rfl
    | written m' _ hlt' hw' => exact absurd hw' (hnone m' hlt')
  | written m _ hlt hw hv hlast =>
    cases h' with
    | initial hnone => exact absurd hw (hnone m hlt)
    | written m' _ hlt' hw' hv' hlast' =>
      -- neither writer is younger than the other
      rcases lt_trichotomy m m' with hmm | rfl | hmm
      · exact absurd hw' (hlast m' hmm hlt')
      · exact hval m v v' hv hv'
      · exact absurd hw (hlast' m hmm hlt)

variable {g : ℕ → α} {T : ℕ}

/-- A cell holds what the last commit has left, or still what it held at the start. -/
theorem last_commit {commits : ℕ → Prop} (h0 : g 0 = init)
    (hstay : ∀ t < T, ¬ commits t → g (t + 1) = g t) :
    (∃ t < T, commits t ∧ g T = g (t + 1) ∧ ∀ s, t < s → s < T → ¬ commits s) ∨
      (∀ t < T, ¬ commits t) ∧ g T = init := by
  induction T with
  | zero => exact .inr ⟨fun t ht => absurd ht t.not_lt_zero, h0⟩
  | succ T ih =>
    -- The last step writes, or the last write is that of the steps before.
    by_cases hc : commits T
    · exact .inl ⟨T, T.lt_succ_self, hc, rfl, fun s h₁ h₂ => by omega⟩
    · have hT := hstay T T.lt_succ_self hc
      rcases ih fun t ht => hstay t (by omega) with ⟨t, ht, hct, hg, hlast⟩ | ⟨hnone, hg⟩
      · refine .inl ⟨t, by omega, hct, hT.trans hg, fun s h₁ h₂ => ?_⟩
        rcases Nat.lt_succ_iff_lt_or_eq.mp h₂ with h₃ | rfl
        · exact hlast s h₁ h₃
        · exact hc
      · refine .inr ⟨fun t ht => ?_, hT.trans hg⟩
        rcases Nat.lt_succ_iff_lt_or_eq.mp ht with h₃ | rfl
        · exact hnone t h₃
        · exact hc

/-- Once every writer below `n`, and no other, has committed, the cell holds the last write before
`n`. -/
theorem of_commits (commits : ℕ → Prop) (stamp : ℕ → ℕ) (h0 : g 0 = init)
    (hstay : ∀ t < T, ¬ commits t → g (t + 1) = g t)
    (hwrite : ∀ t < T, commits t → writes (stamp t) ∧ value (stamp t) (g (t + 1)) ∧ stamp t < n)
    (hmono : Monotone stamp) (hall : ∀ m < n, writes m → ∃ t < T, commits t ∧ stamp t = m) :
    LastWrite writes value init n (g T) := by
  rcases last_commit h0 hstay with ⟨t, ht, hct, hg, hlast⟩ | ⟨hnone, hg⟩
  · obtain ⟨hw, hv, hlt⟩ := hwrite t ht hct
    rw [hg]
    refine .written (stamp t) _ hlt hw hv fun k hk hkn hwk => ?_
    -- a younger writer would have committed later
    obtain ⟨s, hs, hcs, rfl⟩ := hall k hkn hwk
    refine hlast s ?_ hs hcs
    by_contra hle
    exact absurd (hmono (not_lt.mp hle)) (by omega)
  · rw [hg]
    refine .initial fun m hm hwm => ?_
    obtain ⟨s, hs, hcs, -⟩ := hall m hm hwm
    exact hnone s hs hcs

end LastWrite

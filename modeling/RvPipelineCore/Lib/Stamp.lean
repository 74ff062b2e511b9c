import Mathlib.Order.Monotone.Basic
import Mathlib.Order.Nat

/-!
# Stamps in a chain of registers

Bookkeeping for an in-order pipeline. The first register of a chain is stamped with the time of its
last load, and a later register takes over, when it loads, the stamp of the register before it. What
travels down such a chain keeps its stamp, and a younger item has a larger one.
-/

namespace Stamp

/-- The stamp of the first register: the time after its last load. -/
def first (load : ℕ → Bool) : ℕ → ℕ
  | 0 => 0
  | t + 1 => if load t then t + 1 else first load t

/-- The stamp of a register that loads from one stamped `src`. -/
def next (load : ℕ → Bool) (src : ℕ → ℕ) : ℕ → ℕ
  | 0 => 0
  | t + 1 => if load t then src t else next load src t

variable {load : ℕ → Bool} {src : ℕ → ℕ} {t : ℕ}

/-- A load in cycle `t` puts the stamp `t + 1` on what the first register then holds. -/
theorem first_succ_of_load (h : load t = true) : first load (t + 1) = t + 1 := by
  simp [first, h]

/-- Without a load the first register keeps its stamp. -/
theorem first_succ_of_hold (h : load t = false) : first load (t + 1) = first load t := by
  simp [first, h]

/-- A load of a later register takes over the stamp of the register before it. -/
theorem next_succ_of_load (h : load t = true) : next load src (t + 1) = src t := by
  simp [next, h]

/-- Without a load a later register keeps its stamp. -/
theorem next_succ_of_hold (h : load t = false) : next load src (t + 1) = next load src t := by
  simp [next, h]

/-- The stamp of the first register is never ahead of the time, since a stamp is the time after a
load. -/
theorem first_le (load : ℕ → Bool) (t : ℕ) : first load t ≤ t := by
  induction t with
  | zero => exact le_rfl
  | succ t ih =>
    unfold first
    split_ifs
    · exact le_rfl
    · exact ih.trans t.le_succ

/-- The stamp of the first register never falls. -/
theorem first_mono (load : ℕ → Bool) : Monotone (first load) := by
  refine monotone_nat_of_le_succ fun t => ?_
  rw [first]
  split_ifs
  · exact (first_le load t).trans t.le_succ
  · exact le_rfl

/-- A later register is never ahead of the one it loads from. -/
theorem next_le (hsrc : Monotone src) (load : ℕ → Bool) (t : ℕ) : next load src t ≤ src t := by
  induction t with
  | zero => exact Nat.zero_le _
  | succ t ih =>
    unfold next
    split_ifs
    · exact hsrc t.le_succ
    · exact ih.trans (hsrc t.le_succ)

/-- The stamp of a later register never falls, provided that the stamp of the register before it
does not. -/
theorem next_mono (hsrc : Monotone src) (load : ℕ → Bool) : Monotone (next load src) := by
  refine monotone_nat_of_le_succ fun t => ?_
  rw [next]
  split_ifs
  · exact next_le hsrc load t
  · exact le_rfl

end Stamp

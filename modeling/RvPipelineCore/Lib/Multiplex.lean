import Mathlib.InformationTheory.Hamming

/-!
# Multiplexed displays

A display that selects one digit at a time, and a receiver that takes over a digit when it is newly
selected. Nothing here names a display.

- `Multiplex.latch_of_held`: once each digit has been newly selected, the receiver holds them all;
- `Multiplex.hammingDist_latch`: each sample changes a digit for good or not at all.
-/

namespace Multiplex

open Function

variable {ι α : Type*} [DecidableEq ι]

/-- The digits that some samples newly select, `last` being the digit of the sample before. -/
def newly : Option ι → List ι → List ι
  | _, [] => []
  | last, i :: is => if last = some i then newly (some i) is else i :: newly (some i) is

/-- The digit of the last sample, if there has been one, after further samples. -/
def lastOf : Option ι → List ι → Option ι
  | last, [] => last
  | _, i :: is => lastOf (some i) is

/-- The digits that the receiver holds, once it held `d`, after a sample of the digits `w`. -/
def take (w : ι → α) (last : Option ι) (d : ι → α) (i : ι) : ι → α :=
  if last = some i then d else update d i (w i)

/-- The values that the receiver holds for the digits after some samples of the word `w`, where a
repeated sample is ignored. -/
def latch (w : ι → α) : Option ι → (ι → α) → List ι → ι → α
  | _, d, [] => d
  | last, d, i :: is => latch w (some i) (take w last d i) is

variable {w d : ι → α} {last : Option ι} {i : ι} {is : List ι}

/-- A digit is the new one from the first sample that newly selects it on. -/
theorem latch_apply (j : ι) : latch w last d is j = if j ∈ newly last is then w j else d j := by
  induction is generalizing last d with
  | nil => simp [latch, newly]
  | cons i is ih =>
    rw [latch, ih, newly]
    by_cases hlast : last = some i
    · rw [take, if_pos hlast, if_pos hlast]
    · rw [take, if_neg hlast, if_neg hlast]
      by_cases hmem : j ∈ newly (some i) is
      · rw [if_pos hmem, if_pos (List.mem_cons_of_mem _ hmem)]
      · by_cases hj : j = i
        · subst hj
          rw [if_neg hmem, if_pos List.mem_cons_self, update_self]
        · rw [if_neg hmem, update_of_ne hj, if_neg (by simp [hj, hmem])]

/-- Once each digit has been newly selected, the receiver holds them all. -/
theorem latch_of_held (h : ∀ j, j ∈ newly last is) : latch w last d is = w := by
  funext j
  rw [latch_apply, if_pos (h j)]

/-- If the values are the old ones after all samples, they are so after the first ones: what has
changed does not change back. -/
theorem latch_eq_of_append {js : List ι} (h : latch w last d (is ++ js) = d) :
    latch w last d is = d := by
  induction is generalizing last d with
  | nil => rfl
  | cons i is ih =>
    rw [List.cons_append, latch] at h
    -- The first digit has changed nothing, as nothing after it would put it back.
    have htake : take w last d i = d := by
      by_cases hlast : last = some i
      · rw [take, if_pos hlast]
      · funext j
        rw [take, if_neg hlast, update_apply]
        split_ifs with hj
        · subst hj
          have hi := congrFun h j
          rw [latch_apply, take, if_neg hlast, update_self, ite_self] at hi
          exact hi
        · rfl
    rw [htake] at h
    rw [latch, htake]
    exact ih h

section Count

variable [Fintype ι] [DecidableEq α]

/-- Changing one place brings two families one step closer, unless they agree there. -/
theorem hammingDist_update (x z : ι → α) (i : ι) :
    hammingDist x z = (if x i = z i then 0 else 1) + hammingDist (update x i (z i)) z := by
  have hsplit : ({j | x j ≠ z j} : Finset ι) =
      (if x i = z i then ∅ else {i}) ∪ ({j | update x i (z i) j ≠ z j} : Finset ι) := by
    ext j
    by_cases hj : j = i
    · subst hj
      by_cases h : x j = z j <;> simp [h]
    · by_cases h : x i = z i <;> simp [h, hj]
  have hdisj : Disjoint (if x i = z i then ∅ else {i})
      ({j | update x i (z i) j ≠ z j} : Finset ι) := by
    split_ifs <;> simp
  rw [hammingDist, hsplit, Finset.card_union_of_disjoint hdisj, hammingDist]
  split_ifs <;> simp

/-- The digits that a run of samples changes are the one that the first sample changes, if any, and
those that the others change. -/
theorem hammingDist_latch (w d : ι → α) (last : Option ι) (i : ι) (is : List ι) :
    hammingDist d (latch w last d (i :: is)) =
      (if take w last d i = d then 0 else 1) +
        hammingDist (take w last d i) (latch w (some i) (take w last d i) is) := by
  rw [latch]
  by_cases hlast : last = some i
  · rw [take, if_pos hlast, if_pos rfl, Nat.zero_add]
  · have hi : latch w (some i) (take w last d i) is i = w i := by
      rw [latch_apply, take, if_neg hlast, update_self, ite_self]
    rw [hammingDist_update d _ i, hi]
    simp only [take, if_neg hlast, update_eq_self_iff, eq_comm (a := d i)]

end Count

end Multiplex

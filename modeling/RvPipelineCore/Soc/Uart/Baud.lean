import RvPipelineCore.Lib.SerialFormat
import RvPipelineCore.Soc.Uart.Regs

/-!
# The divisor of the UART

With a divisor `D` that has been written, `enable` is high in every `D`-th cycle.

- `UartRegs.Loaded`: the counter behind a write of the divisor;
- `UartRegs.Divides.enable_iff`: when `enable` is high.
-/

namespace RvPipelineCore

namespace UartRegs

/-- The divisor is `D`, and the counter is about to start from it or runs below it. -/
structure Loaded (D : ℕ) (s : UartRegs) : Prop where
  dl : s.dl.toNat = D
  dlc : s.startDlc = true ∨ s.dlc.toNat < D ∧ (s.enable = true → s.dlc.toNat + 1 = D)

variable {D : ℕ} {s : UartRegs} {i : In}

/-- One cycle keeps the counter below the divisor, provided that the divisor stays the same. -/
theorem Loaded.next (h : s.Loaded D) (hD : 0 < D) (hdl : (s.next i).dl.toNat = D) :
    (s.next i).Loaded D := by
  refine ⟨hdl, .inr ?_⟩
  obtain ⟨hs, hdlc⟩ := h
  have hpred : (s.dl - 1).toNat + 1 = D := by bv_omega
  have hnext : (s.next i).dlc = if s.startDlc || s.dlc == 0 then s.dl - 1 else s.dlc - 1 := rfl
  have henable : (s.next i).enable = (s.dl != 0 && s.dlc == 0) := rfl
  rw [hnext, henable]
  -- The counter is loaded anew, or it counts down and has not been zero.
  by_cases hload : (s.startDlc || s.dlc == 0) = true
  · rw [if_pos hload]
    exact ⟨by omega, fun _ => hpred⟩
  · rw [if_neg hload]
    rw [Bool.or_eq_true, not_or, beq_iff_eq] at hload
    obtain ⟨hstart, hzero⟩ := hload
    have hlt := (hdlc.resolve_left hstart).1
    refine ⟨by bv_omega, fun hen => ?_⟩
    rw [Bool.and_eq_true, beq_iff_eq] at hen
    exact absurd hen.2 hzero

/-- The states of the registers from a cycle on in which the divisor is `D` and the counter runs. -/
structure Divides (D : ℕ) (state : ℕ → UartRegs) : Prop where
  pos : 0 < D
  dl : ∀ t, (state t).dl.toNat = D
  startDlc : ∀ t, (state t).startDlc = false
  loaded : (state 0).Loaded D
  dlc : ∀ t, (state (t + 1)).dlc =
    if (state t).startDlc || (state t).dlc == 0 then (state t).dl - 1 else (state t).dlc - 1
  enable : ∀ t, (state (t + 1)).enable = ((state t).dl != 0 && (state t).dlc == 0)

/-- The number of cycles until `enable` is high. -/
def wait (s : UartRegs) : ℕ := if s.enable then 0 else s.dlc.toNat + 1

namespace Divides

variable {state : ℕ → UartRegs}

/-- With the divisor `D` it takes at most `D` cycles until `enable` is high. -/
theorem wait_le (h : Divides D state) : (state 0).wait ≤ D := by
  have hstart := h.startDlc 0
  obtain ⟨hlt, -⟩ := h.loaded.dlc.resolve_left (by rw [hstart]; exact Bool.false_ne_true)
  rw [wait]
  split_ifs <;> omega

/-- The cycle in which the counter is zero comes before the one in which `enable` is high. -/
theorem enable_iff (h : Divides D state) (t : ℕ) :
    ((state t).enable = true ↔ (state 0).wait ≤ t ∧ D ∣ t - (state 0).wait) ∧
      (state t).dlc.toNat < D ∧ (state 0).wait ≤ t + (state t).dlc.toNat + 1 ∧
      D ∣ t + (state t).dlc.toNat + 1 - (state 0).wait := by
  induction t with
  | zero =>
    have hstart := h.startDlc 0
    obtain ⟨hlt, hen⟩ := h.loaded.dlc.resolve_left (by rw [hstart]; exact Bool.false_ne_true)
    rw [wait]
    cases he : (state 0).enable with
    | true =>
      have hD := hen he
      simp [hlt, hD]
    | false => simp [hlt]
  | succ t ih =>
    obtain ⟨-, hlt, hle, hdvd⟩ := ih
    have hdl := h.dl t
    have hpos := h.pos
    have hne : (state t).dl ≠ 0 := by
      intro hzero
      rw [hzero] at hdl
      exact absurd hdl.symm hpos.ne'
    rw [h.enable, h.dlc, h.startDlc, bne_iff_ne.mpr hne, Bool.true_and, Bool.false_or]
    by_cases hzero : (state t).dlc = 0
    · rw [hzero] at hle hdvd ⊢
      have hpred : ((state t).dl - 1).toNat + 1 = D := by bv_omega
      have hsum : t + 1 + ((state t).dl - 1).toNat + 1 - (state 0).wait =
          (t + 0 + 1 - (state 0).wait) + D := by
        change (state 0).wait ≤ t + 0 + 1 at hle
        omega
      rw [beq_self_eq_true, if_pos rfl, hsum]
      exact ⟨⟨fun _ => ⟨hle, hdvd⟩, fun _ => rfl⟩, by omega, by omega,
        Dvd.dvd.add hdvd dvd_rfl⟩
    · have hdlc : ((state t).dlc - 1).toNat + 1 = (state t).dlc.toNat := by bv_omega
      have hsame : t + 1 + ((state t).dlc - 1).toNat + 1 = t + (state t).dlc.toNat + 1 := by omega
      rw [beq_false_of_ne hzero, if_neg Bool.false_ne_true, hsame]
      refine ⟨⟨fun hfalse => absurd hfalse Bool.false_ne_true, fun ⟨hle', hdvd'⟩ => ?_⟩,
        by omega, hle, hdvd⟩
      -- the next multiple of `D` is further away
      have hsum : t + (state t).dlc.toNat + 1 - (state 0).wait =
          t + 1 - (state 0).wait + (state t).dlc.toNat := by omega
      rw [hsum, Nat.dvd_add_right hdvd'] at hdvd
      have hge := Nat.le_of_dvd (by omega) hdvd
      omega

end Divides

end UartRegs

end RvPipelineCore

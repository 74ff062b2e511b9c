import RvPipelineCore.Faults
import RvPipelineCore.Hazards

/-!
# The interlocks of CSR accesses and illegal instructions

`csr_pending` is to be set by a CSR instruction in execute and to be cleared by one in write-back,
but `core_riscv` reports neither to the hazard unit, and the flag stays low. `pending_exception_f`
is set early, by an illegal word in decode, and cleared late, by the instruction in write-back. A
word that is removed in between leaves its flag behind, and with it the block of the fetch stage.

- `Run.csr_interlock`: `csr_pending` always has its CSR instruction, and stalls nothing;
- `Run.illegal_interlock`: exactly when `pending_exception_f` always has its illegal instruction.
-/

namespace RvPipelineCore

open Temporal

namespace State

variable (s : State)

/-- A CSR instruction is in execute, in the memory stage or in write-back. -/
def csrInFlight : Bool := s.e.csrWrite || s.m.csrWrite || s.w.csrWrite

/-- An instruction flagged illegal is in execute, in the memory stage or in write-back. -/
def illegalInFlight : Bool :=
  s.e.illegalInstruction || s.m.illegalInstruction || s.w.illegalInstruction

variable {s}

/-- No illegal instruction is in flight if and only if none of the three stages behind decode holds
one. -/
theorem illegalInFlight_eq_false : s.illegalInFlight = false ↔
    s.e.illegalInstruction = false ∧ s.m.illegalInstruction = false ∧
      s.w.illegalInstruction = false := by
  simp [illegalInFlight, and_assoc]

end State

namespace Run

variable {x : DontCare} (r : Run x) {rom : BitVec 32 → BitVec 32}

/-! ## CSR accesses -/

/-- In every reachable state `csr_pending` means that a CSR instruction is in execute, in the memory
stage or in write-back, since the flag is never up: `csr_instr_e` and `csr_instr_w` of the hazard
unit have no driver. So it has no part in a stall or a flush: `stall_f`, `stall_d` and `flush_e` are
those of a hazard unit without the flag. -/
theorem csr_interlock (t : ℕ) :
    ((r.state t).hazard.csrPending = true → (r.state t).csrInFlight = true) ∧
      (r.state t).hazard.csrPending = false ∧
      ∀ i : Inputs,
        (r.state t).stallF i = ((r.state t).lwStallD || (r.state t).waitingOnInstruction i ||
          (r.state t).stallD i || (r.state t).hazard.pendingExceptionF ||
            (r.state t).hazard.pendingExceptionM) ∧
        (r.state t).stallD i = ((r.state t).lwStallD || (r.state t).stallE i) ∧
        (r.state t).flushE = ((r.state t).lwStallD || (r.state t).jumpInstr ||
          (r.state t).hazard.pendingExceptionM) := by
  have hc := r.csrPending_eq_false t
  refine ⟨fun h => absurd (h.symm.trans hc) Bool.false_ne_true.symm, hc, fun i => ⟨?_, ?_, ?_⟩⟩
  · rw [State.stallF, hc, Bool.or_false]
  · rw [State.stallD, hc, Bool.or_false]
  · rw [State.flushE, hc, Bool.or_false]

/-! ## Illegal instructions -/

variable {r}

/-- `pending_exception_f` in the next cycle: set by an illegal word in decode without a pending
exception ahead, cleared by an illegal instruction in write-back. -/
theorem succ_pendingExceptionF (t : ℕ) :
    (r.state (t + 1)).hazard.pendingExceptionF =
      if (r.state t).illegalInstructionD x && !(r.state t).hazard.pendingExceptionM then true
      else if (r.state t).w.illegalInstruction then false
      else (r.state t).hazard.pendingExceptionF := by
  rw [r.succ_hazard]
  rfl

/-- Write-back holds an illegal instruction in the next cycle if and only if the memory stage does
now. -/
theorem succ_w_illegalInstruction (t : ℕ) :
    (r.state (t + 1)).w.illegalInstruction = (r.state t).m.illegalInstruction := by
  rw [r.succ_w]
  rfl

/-- An illegal word in decode is a valid one, since a bubble is legal. -/
theorem d_valid_of_illegalInstructionD {t : ℕ} (h : (r.state t).illegalInstructionD x = true) :
    (r.state t).d.isDecodeFlush = true :=
  d_valid_of (f := fun s => s.illegalInstructionD x)
    (State.illegalInstructionD_of_d_eq_zero x) h

/-- An illegal instruction in execute is a valid one, since a bubble is legal. -/
theorem e_valid_of_illegalInstruction {t : ℕ} (h : (r.state t).e.illegalInstruction = true) :
    (r.state t).e.validPc = true :=
  e_valid_of (f := fun s => s.e.illegalInstruction) (fun s he _ => by simp [he]) h

/-- An illegal instruction in write-back is the one the trap is taken on. -/
theorem w_illegalInstruction_of_not_pending {t : ℕ}
    (h : (r.state t).hazard.pendingExceptionM = false) :
    (r.state t).w.illegalInstruction = false := by
  rw [r.pendingExceptionM_eq] at h
  simp only [State.isInstrExceptionW, Bool.or_eq_false_iff] at h
  exact h.1.1.1.1.1.2

/-- A valid instruction that stays in decode, or has come there, saw no trap. -/
theorem pendingExceptionM_of_d_valid {t : ℕ} (h : (r.state (t + 1)).d.isDecodeFlush = true) :
    (r.state t).hazard.pendingExceptionM = false := by
  by_contra hpm
  rw [Bool.not_eq_false, ← r.trapCaughtW_eq_pendingExceptionM] at hpm
  simp [(r.empty_of_trap hpm).1] at h

/-- An illegal word that is in decode while the port is active was there before, and blocks the
fetch stage. -/
theorem pendingExceptionF_of_illegalInstructionD (hi : r.InstrSlave rom) {t : ℕ}
    (h : (r.state t).illegalInstructionD x = true)
    (hact : (r.state t).instrPort.state = .active) :
    (r.state t).hazard.pendingExceptionF = true := by
  cases t with
  | zero => simp at hact
  | succ t =>
    rcases r.d_cases t with ⟨hl, -⟩ | ⟨-, hd⟩ | ⟨-, -, hd⟩
    · simp [idle_of_decodeLoads hi hl] at hact
    · simp [State.illegalInstructionD_of_d_eq_zero x _ hd] at h
    · have hpm := pendingExceptionM_of_d_valid (d_valid_of_illegalInstructionD h)
      have hill : (r.state t).illegalInstructionD x = true := by
        rwa [State.illegalInstructionD, State.mainDec, hd] at h
      simp [succ_pendingExceptionF, hill, hpm]

/-- An illegal instruction in execute has its flag up, so it blocks the fetch stage. -/
theorem pendingExceptionF_of_illegalE (t : ℕ) (h : (r.state t).e.illegalInstruction = true) :
    (r.state t).hazard.pendingExceptionF = true := by
  induction t with
  | zero => simp at h
  | succ t ih =>
    rw [succ_pendingExceptionF]
    -- an instruction that execute has taken or kept saw no trap
    have hpm : (r.state t).flushE = false → (r.state t).hazard.pendingExceptionM = false := by
      intro hf
      simp only [State.flushE, Bool.or_eq_false_iff] at hf
      exact hf.2
    rcases r.e_cases t with ⟨-, he, -⟩ | ⟨hf, -, he, -, -⟩ | ⟨hf, -, he, -, -⟩ <;> rw [he] at h
    · simp at h
    · have hill : (r.state t).illegalInstructionD x = true := h
      simp [hill, hpm hf]
    · simp [ih h, w_illegalInstruction_of_not_pending (hpm hf)]

/-- Nothing is in decode behind an illegal instruction in execute. -/
theorem d_empty_of_illegalE (hi : r.InstrSlave rom) {t : ℕ}
    (h : (r.state t).e.illegalInstruction = true) : (r.state t).d.isDecodeFlush = false := by
  by_contra hd
  rw [Bool.not_eq_false] at hd
  cases t with
  | zero => simp at hd
  | succ t =>
    obtain ⟨hl, hin, -⟩ := loads_of_backToBack hi hd (e_valid_of_illegalInstruction h)
    have hill : (r.state t).illegalInstructionD x = true := by
      simp only [State.entersE, Bool.and_eq_true, Bool.not_eq_true'] at hin
      rw [r.succ_e, hin.1.2, hin.2] at h
      exact h
    have := pendingExceptionF_of_illegalInstructionD hi hill (active_of_decodeLoads hi hl)
    simp [(State.decodeLoads_eq_true hl).2.2.2.2.2.2.1] at this

/-- At most one illegal instruction is ahead of the point where the trap is taken. -/
structure IllegalAlone (r : Run x) (t : ℕ) : Prop where
  decode : (r.state t).illegalInstructionD x = true → (r.state t).illegalInFlight = false
  execute : (r.state t).e.illegalInstruction = true →
    (r.state t).m.illegalInstruction = false ∧ (r.state t).w.illegalInstruction = false
  memory : (r.state t).m.illegalInstruction = true →
    (r.state t).hazard.pendingExceptionM = false → (r.state t).hazard.pendingExceptionF = true

/-- An illegal instruction in the memory stage has come from execute, or has waited there. -/
theorem illegalM_cases {t : ℕ} (h : (r.state (t + 1)).m.illegalInstruction = true) :
    (r.state t).hazard.pendingExceptionM = false ∧
      ((r.state t).e.illegalInstruction = true ∧ (r.state t).stallE (r.inputs t) = false ∨
        (r.state t).m.illegalInstruction = true ∧ (r.state t).stallE (r.inputs t) = true) := by
  rcases r.m_cases t with ⟨-, hm, -⟩ | ⟨hf, -, hs, hm, -⟩ | ⟨hf, hs, hm, -⟩ <;> rw [hm] at h
  · simp at h
  · simp only [State.flushM, Bool.or_eq_false_iff] at hf
    exact ⟨hf.1, .inl ⟨h, hs⟩⟩
  · simp only [State.flushM, Bool.or_eq_false_iff] at hf
    exact ⟨hf.1, .inr ⟨h, by simp [State.stallE, hs]⟩⟩

/-- The memory stage holds no illegal instruction in the next cycle if neither execute nor the
memory stage holds one now. -/
theorem succ_m_not_illegal {t : ℕ} (he : (r.state t).e.illegalInstruction = false)
    (hm : (r.state t).m.illegalInstruction = false) :
    (r.state (t + 1)).m.illegalInstruction = false := by
  by_contra h
  rcases (illegalM_cases (Bool.not_eq_false _ ▸ h)).2 with ⟨he', -⟩ | ⟨hm', -⟩
  · simp [he] at he'
  · simp [hm] at hm'

/-- An illegal instruction that has come to decode finds nothing illegal ahead of it, since the
fetch stage was not blocked. -/
theorem IllegalAlone.succ_decode (hi : r.InstrSlave rom) {t : ℕ} (h : r.IllegalAlone t)
    (hill : (r.state (t + 1)).illegalInstructionD x = true) :
    (r.state (t + 1)).illegalInFlight = false := by
  have hd := d_valid_of_illegalInstructionD hill
  have hpm := pendingExceptionM_of_d_valid hd
  -- a legal word behind an illegal one cannot be in decode, since decode is empty behind that one
  have he : (r.state (t + 1)).e.illegalInstruction = false := by
    by_contra he
    simp [d_empty_of_illegalE hi (Bool.not_eq_false _ ▸ he)] at hd
  rw [State.illegalInFlight_eq_false, succ_w_illegalInstruction]
  -- the word has just been loaded, or was there before, with nothing ahead of it even then
  rcases r.d_cases t with ⟨hl, -⟩ | ⟨-, hd'⟩ | ⟨-, -, hd'⟩
  · obtain ⟨-, -, hse, -, -, -, hpf, -⟩ := State.decodeLoads_eq_true hl
    refine ⟨he, ?_, ?_⟩
    · by_contra hm
      rcases (illegalM_cases (Bool.not_eq_false _ ▸ hm)).2 with ⟨he', -⟩ | ⟨-, hs⟩
      · simp [pendingExceptionF_of_illegalE t he'] at hpf
      · simp [hse] at hs
    · by_contra hm
      simp [h.memory (Bool.not_eq_false _ ▸ hm) hpm] at hpf
  · simp [State.illegalInstructionD_of_d_eq_zero x _ hd'] at hill
  · have hill' : (r.state t).illegalInstructionD x = true := by
      rwa [State.illegalInstructionD, State.mainDec, hd'] at hill
    obtain ⟨he', hm', -⟩ := State.illegalInFlight_eq_false.mp (h.decode hill')
    exact ⟨he, succ_m_not_illegal he' hm', hm'⟩

/-- When an illegal instruction is in execute in the next cycle, none is in the two stages ahead of
it then. -/
theorem IllegalAlone.succ_execute {t : ℕ} (h : r.IllegalAlone t)
    (hill : (r.state (t + 1)).e.illegalInstruction = true) :
    (r.state (t + 1)).m.illegalInstruction = false ∧
      (r.state (t + 1)).w.illegalInstruction = false := by
  rw [succ_w_illegalInstruction]
  rcases r.e_cases t with ⟨-, he, -⟩ | ⟨-, -, he, -⟩ | ⟨-, hs, he, -⟩ <;> rw [he] at hill
  · simp at hill
  · obtain ⟨he', hm', -⟩ := State.illegalInFlight_eq_false.mp (h.decode hill)
    exact ⟨succ_m_not_illegal he' hm', hm'⟩
  · obtain ⟨hm, -⟩ := h.execute hill
    refine ⟨?_, hm⟩
    by_contra hm'
    rcases (illegalM_cases (Bool.not_eq_false _ ▸ hm')).2 with ⟨-, hs'⟩ | ⟨hm'', -⟩
    · simp [hs] at hs'
    · simp [hm] at hm''

/-- In every cycle at most one illegal instruction is ahead of the point where traps are taken. -/
theorem illegalAlone (hi : r.InstrSlave rom) (t : ℕ) : r.IllegalAlone t := by
  induction t with
  | zero =>
    refine ⟨fun h => ?_, fun h => ?_, fun h => ?_⟩
    · simpa using d_valid_of_illegalInstructionD h
    · simp at h
    · simp at h
  | succ t ih =>
    refine ⟨fun h => ih.succ_decode hi h, fun h => ih.succ_execute h, fun h hpm => ?_⟩
    obtain ⟨hpm', ⟨he, -⟩ | ⟨hm', -⟩⟩ := illegalM_cases h
    · simp [succ_pendingExceptionF, pendingExceptionF_of_illegalE t he,
        w_illegalInstruction_of_not_pending hpm']
    · -- it was flagged there in the cycle before
      rw [r.pendingExceptionM_eq, r.succ_isInstrExceptionW] at hpm
      simp [State.isInstrExceptionM, hm'] at hpm

variable (r)

/-- An illegal instruction in execute stays in flight in cycle `v`: no trap removes it, and neither
does a stall of decode while an access ahead of it waits. -/
structure IllegalHeld (v : ℕ) : Prop where
  trap : (r.state v).e.illegalInstruction = true → (r.state v).hazard.pendingExceptionM = false
  wait : (r.state v).e.illegalInstruction = true → (r.state v).stallM (r.inputs v) = true →
    (r.state v).lwStallD = false

/-- Whether an illegal instruction in execute is held over a cycle can be decided from the state and
the inputs of the cycle. -/
instance (v : ℕ) : Decidable (r.IllegalHeld v) :=
  decidable_of_iff (((r.state v).e.illegalInstruction = true →
      (r.state v).hazard.pendingExceptionM = false) ∧
    ((r.state v).e.illegalInstruction = true → (r.state v).stallM (r.inputs v) = true →
      (r.state v).lwStallD = false))
    ⟨fun h => ⟨h.1, h.2⟩, fun h => ⟨h.1, h.2⟩⟩

variable {r} in
/-- A cycle without an illegal instruction in execute holds every illegal instruction there is. -/
theorem IllegalHeld.of_not {v : ℕ} (h : (r.state v).e.illegalInstruction = false) :
    r.IllegalHeld v :=
  ⟨fun h' => by simp [h] at h', fun h' => by simp [h] at h'⟩

/-- An illegal instruction that sets the flag moves to execute in the same cycle `v`, and is held on
to from there. -/
structure IllegalMoves (v : ℕ) : Prop extends r.IllegalHeld v where
  decode : (r.state v).illegalInstructionD x = true →
    (r.state v).hazard.pendingExceptionM = false →
      (r.state v).jumpInstr = false ∧ (r.state v).stallD (r.inputs v) = false

/-- An illegal instruction whose flag is up, or being set, is not removed in cycle `v`: from decode,
neither by a jump nor by a trap. -/
structure IllegalKept (v : ℕ) : Prop extends r.IllegalHeld v where
  jump : (r.state v).illegalInstructionD x = true → (r.state v).jumpInstr = false
  trapD : (r.state v).illegalInstructionD x = true →
    (r.state v).hazard.pendingExceptionF = true → (r.state v).hazard.pendingExceptionM = false

/-- Whether an illegal instruction moves on in a cycle can be decided from the state and the inputs
of the cycle. -/
instance (v : ℕ) : Decidable (r.IllegalMoves v) :=
  decidable_of_iff (r.IllegalHeld v ∧ ((r.state v).illegalInstructionD x = true →
      (r.state v).hazard.pendingExceptionM = false →
        (r.state v).jumpInstr = false ∧ (r.state v).stallD (r.inputs v) = false))
    ⟨fun h => ⟨h.1, h.2⟩, fun h => ⟨h.1, h.2⟩⟩

variable {r}

/-- An illegal instruction in execute is in flight after a cycle exactly when it is held on to. -/
theorem illegalInFlight_of_illegalE (hi : r.InstrSlave rom) {t : ℕ}
    (h : (r.state t).e.illegalInstruction = true) :
    (r.state (t + 1)).illegalInFlight = true ↔ r.IllegalHeld t := by
  obtain ⟨hm, -⟩ := (illegalAlone hi t).execute h
  -- it is no divide, and does not redirect
  have hnp : (r.state t).hazard.divPending = false := by
    by_contra hp
    have hce := divInstr_of_divPending hi t (Bool.not_eq_false _ ▸ hp)
      (e_valid_of_illegalInstruction h)
    simp [(e_of_divInstr hce).2.1] at h
  have hj : (r.state t).jumpInstr = false := by simp [State.jumpInstr, State.isInstrExceptionE, h]
  have hK : r.IllegalHeld t ↔ (r.state t).hazard.pendingExceptionM = false ∧
      ((r.state t).stallM (r.inputs t) = true → (r.state t).lwStallD = false) :=
    ⟨fun hK => ⟨hK.trap h, hK.wait h⟩, fun hK => ⟨fun _ => hK.1, fun _ => hK.2⟩⟩
  rw [hK, State.illegalInFlight, succ_w_illegalInstruction, r.succ_e, r.succ_m]
  simp only [State.flushE, State.flushM, State.stallE, hj, hnp, hm, Bool.or_false]
  cases (r.state t).hazard.pendingExceptionM <;> cases (r.state t).stallM (r.inputs t) <;>
    cases (r.state t).lwStallD <;> simp [State.memoryInput, h, hm]

/-- An illegal instruction in decode is in flight after a cycle exactly when it enters execute. -/
theorem illegalInFlight_of_illegalD (hi : r.InstrSlave rom) {t : ℕ}
    (h : (r.state t).illegalInstructionD x = true) :
    (r.state (t + 1)).illegalInFlight = true ↔
      (r.state t).jumpInstr = false ∧ (r.state t).stallD (r.inputs t) = false ∧
        (r.state t).hazard.pendingExceptionM = false := by
  obtain ⟨he, hm, -⟩ := State.illegalInFlight_eq_false.mp ((illegalAlone hi t).decode h)
  rw [State.illegalInFlight, succ_w_illegalInstruction, succ_m_not_illegal he hm, hm, r.succ_e]
  simp only [State.flushE, State.stallD, Bool.or_false]
  cases (r.state t).lwStallD <;> cases (r.state t).jumpInstr <;>
    cases (r.state t).hazard.pendingExceptionM <;> cases (r.state t).stallE (r.inputs t) <;>
    simp [State.executeInput, h, he]

/-- With nothing illegal in decode or in execute, the flag keeps its instruction. -/
theorem illegalInFlight_succ {t : ℕ}
    (hd : (r.state t).illegalInstructionD x = false ∨
      (r.state t).hazard.pendingExceptionM = true)
    (he : (r.state t).e.illegalInstruction = false)
    (h : (r.state t).hazard.pendingExceptionF = true → (r.state t).illegalInFlight = true)
    (hp : (r.state (t + 1)).hazard.pendingExceptionF = true) :
    (r.state (t + 1)).illegalInFlight = true := by
  have hset : ((r.state t).illegalInstructionD x &&
      !(r.state t).hazard.pendingExceptionM) = false := by
    rcases hd with hd | hd <;> simp [hd]
  rw [succ_pendingExceptionF, hset, if_neg Bool.false_ne_true] at hp
  split_ifs at hp with hw
  -- the instruction is in the memory stage, and goes to write-back
  have hfl := h hp
  simp only [State.illegalInFlight, he, hw, Bool.false_or, Bool.or_false] at hfl
  simp [State.illegalInFlight, succ_w_illegalInstruction, hfl]

/-- As long as the flag has its instruction in flight, it keeps it over a cycle exactly when an
illegal instruction moves on. -/
theorem illegalMoves_step (hi : r.InstrSlave rom) (t : ℕ)
    (h : (r.state t).hazard.pendingExceptionF = true → (r.state t).illegalInFlight = true) :
    ((r.state (t + 1)).hazard.pendingExceptionF = true →
      (r.state (t + 1)).illegalInFlight = true) ↔ r.IllegalMoves t := by
  -- an illegal word is in execute, or on its way there, or neither
  cases he : (r.state t).e.illegalInstruction with
  | true =>
    have hd := State.illegalInstructionD_of_d_eq_zero x _ (r.d_bubble t (d_empty_of_illegalE hi he))
    have hp : (r.state (t + 1)).hazard.pendingExceptionF = true := by
      simp [succ_pendingExceptionF, hd, ((illegalAlone hi t).execute he).2,
        pendingExceptionF_of_illegalE t he]
    rw [illegalInFlight_of_illegalE hi he]
    exact ⟨fun hK => ⟨hK hp, fun hd' => by simp [hd] at hd'⟩, fun hK _ => hK.toIllegalHeld⟩
  | false =>
    have hheld := IllegalHeld.of_not he
    cases hset : (r.state t).illegalInstructionD x && !(r.state t).hazard.pendingExceptionM with
    | true =>
      have hp : (r.state (t + 1)).hazard.pendingExceptionF = true := by
        simp [succ_pendingExceptionF, hset]
      rw [Bool.and_eq_true, Bool.not_eq_true'] at hset
      rw [illegalInFlight_of_illegalD hi hset.1]
      exact ⟨fun hK => ⟨hheld, fun _ _ => ⟨(hK hp).1, (hK hp).2.1⟩⟩,
        fun hK _ => ⟨(hK.decode hset.1 hset.2).1, (hK.decode hset.1 hset.2).2, hset.2⟩⟩
    | false =>
      have hd : (r.state t).illegalInstructionD x = false ∨
          (r.state t).hazard.pendingExceptionM = true := by
        rwa [Bool.and_eq_false_iff, Bool.not_eq_false'] at hset
      refine iff_of_true (illegalInFlight_succ hd he h) ⟨hheld, fun hd' hpm => ?_⟩
      rcases hd with hd | hd
      · simp [hd] at hd'
      · simp [hpm] at hd

/-- With an illegal instruction in decode the flag keeps it over a cycle exactly when it stays there
or moves on, and loses it exactly when a jump or a trap removes it. -/
theorem illegalKept_of_illegalD (hi : r.InstrSlave rom) {t : ℕ}
    (h : (r.state t).illegalInstructionD x = true) :
    ((r.state (t + 1)).hazard.pendingExceptionF = true →
      ((r.state (t + 1)).illegalInstructionD x || (r.state (t + 1)).illegalInFlight) = true) ↔
      r.IllegalKept t := by
  obtain ⟨he, -, hw⟩ := State.illegalInFlight_eq_false.mp ((illegalAlone hi t).decode h)
  have hheld := IllegalHeld.of_not he
  have hp := succ_pendingExceptionF (r := r) t
  rw [h, hw, Bool.true_and, if_neg Bool.false_ne_true] at hp
  rw [hp, Bool.or_eq_true, illegalInFlight_of_illegalD hi h]
  cases hpm : (r.state t).hazard.pendingExceptionM with
  | true =>
    -- the trap empties decode
    have hj : (r.state t).jumpInstr = false := by
      simp [State.jumpInstr, ← r.pendingExceptionM_eq, hpm]
    have hd : (r.state (t + 1)).illegalInstructionD x = false := by
      refine State.illegalInstructionD_of_d_eq_zero x _ (r.empty_of_trap ?_).1
      rw [r.trapCaughtW_eq_pendingExceptionM, hpm]
    simp only [hd, Bool.not_true, Bool.true_eq_false, Bool.false_eq_true, if_false, and_false,
      or_false, imp_false]
    exact ⟨fun hpf => ⟨hheld, fun _ => hj, fun _ hpf' => absurd hpf' hpf⟩,
      fun hK hpf => by simp [hK.trapD h hpf] at hpm⟩
  | false =>
    simp only [Bool.not_false, if_true, and_true, true_imp_iff]
    cases hj : (r.state t).jumpInstr with
    | true =>
      have hd : (r.state (t + 1)).illegalInstructionD x = false := by
        refine State.illegalInstructionD_of_d_eq_zero x _ ?_
        simp [r.succ_d, State.flushD, hj]
      simp only [hd, Bool.false_eq_true, Bool.true_eq_false, false_and, or_false, false_iff]
      exact fun hK => by simp [hK.jump h] at hj
    | false =>
      refine iff_of_true ?_ ⟨hheld, fun _ => hj, fun _ _ => hpm⟩
      cases hs : (r.state t).stallD (r.inputs t) with
      | true =>
        have hd : (r.state (t + 1)).d = (r.state t).d := by
          simp [r.succ_d, State.flushD, hj, hpm, hs]
        exact .inl (by rwa [State.illegalInstructionD, State.mainDec, hd])
      | false => exact .inr ⟨rfl, rfl⟩

/-- As long as the flag has its instruction, in decode or further on, it keeps it over a cycle
exactly when an illegal instruction is not removed. -/
theorem illegalKept_step (hi : r.InstrSlave rom) (t : ℕ)
    (h : (r.state t).hazard.pendingExceptionF = true →
      ((r.state t).illegalInstructionD x || (r.state t).illegalInFlight) = true) :
    ((r.state (t + 1)).hazard.pendingExceptionF = true →
      ((r.state (t + 1)).illegalInstructionD x || (r.state (t + 1)).illegalInFlight) = true) ↔
      r.IllegalKept t := by
  cases hd : (r.state t).illegalInstructionD x with
  | true => exact illegalKept_of_illegalD hi hd
  | false =>
    have hK : r.IllegalKept t ↔ r.IllegalHeld t :=
      ⟨fun hK => hK.toIllegalHeld, fun hK => ⟨hK, fun hd' => by simp [hd] at hd',
        fun hd' => by simp [hd] at hd'⟩⟩
    rw [hd, Bool.false_or] at h
    rw [hK]
    cases he : (r.state t).e.illegalInstruction with
    | true =>
      have hpf := pendingExceptionF_of_illegalE t he
      have hp : (r.state (t + 1)).hazard.pendingExceptionF = true := by
        simp [succ_pendingExceptionF, hd, ((illegalAlone hi t).execute he).2, hpf]
      -- the blocked fetch stage leaves decode empty
      have hd' : (r.state (t + 1)).illegalInstructionD x = false := by
        refine State.illegalInstructionD_of_d_eq_zero x _ (r.d_bubble _ ?_)
        simp [r.succ_d_isDecodeFlush, State.decodeLoads_of_pendingExceptionF hpf,
          d_empty_of_illegalE hi he]
      rw [hp, hd', Bool.false_or, illegalInFlight_of_illegalE hi he]
      exact ⟨fun hin => hin rfl, fun hin _ => hin⟩
    | false =>
      refine iff_of_true (fun hp => ?_) (.of_not he)
      rw [illegalInFlight_succ (.inl hd) he h hp, Bool.or_true]

/-- Without an illegal instruction to clear it, the flag stays, and decode loads nothing. -/
theorem pendingExceptionF_forever {t : ℕ} (hp : (r.state t).hazard.pendingExceptionF = true)
    (hd : (r.state t).illegalInstructionD x = false) (hfl : (r.state t).illegalInFlight = false) :
    ∀ v, t ≤ v → (r.state v).hazard.pendingExceptionF = true ∧
      (r.state v).decodeLoads (r.inputs v) = false := by
  have hstuck : ∀ v, t ≤ v → (r.state v).hazard.pendingExceptionF = true ∧
      (r.state v).illegalInstructionD x = false ∧ (r.state v).illegalInFlight = false := by
    intro v hv
    induction v, hv using Nat.le_induction with
    | base => exact ⟨hp, hd, hfl⟩
    | succ v hv ih =>
      obtain ⟨hp, hd, hfl⟩ := ih
      rw [State.illegalInFlight_eq_false] at hfl ⊢
      obtain ⟨he, hm, hw⟩ := hfl
      -- the flag stays, and no illegal word comes in where there was none
      refine ⟨by simp [succ_pendingExceptionF, hd, hw, hp], ?_, ?_, succ_m_not_illegal he hm, ?_⟩
      -- decode is not loaded as long as the flag is up
      · rcases r.d_cases v with ⟨hl, -⟩ | ⟨-, hd'⟩ | ⟨-, -, hd'⟩
        · simp [State.decodeLoads_of_pendingExceptionF hp] at hl
        · exact State.illegalInstructionD_of_d_eq_zero x _ hd'
        · rwa [State.illegalInstructionD, State.mainDec, hd']
      · rcases r.e_cases v with ⟨-, he', -⟩ | ⟨-, -, he', -⟩ | ⟨-, -, he', -⟩ <;> rw [he']
        · rfl
        · exact hd
        · exact he
      · rw [succ_w_illegalInstruction, hm]
  exact fun v hv =>
    ⟨(hstuck v hv).1, State.decodeLoads_of_pendingExceptionF (hstuck v hv).1⟩

variable (r)

/-- Up to any cycle, `pending_exception_f` means that an illegal instruction is in execute, in the
memory stage or in write-back, if and only if every illegal word that set it has moved to execute in
that very cycle and was held on to from there. If decode counts too, it is enough that the word was
not removed from decode. Where the flag is orphaned, it stays up for good and decode is never loaded
again. -/
theorem illegal_interlock (hi : r.InstrSlave rom) (T : ℕ) :
    ((∀ t ≤ T, (r.state t).hazard.pendingExceptionF = true →
        (r.state t).illegalInFlight = true) ↔ ∀ v < T, r.IllegalMoves v) ∧
      ((∀ t ≤ T, (r.state t).hazard.pendingExceptionF = true →
        ((r.state t).illegalInstructionD x || (r.state t).illegalInFlight) = true) ↔
          ∀ v < T, r.IllegalKept v) ∧
      ((r.state T).hazard.pendingExceptionF = true → (r.state T).illegalInstructionD x = false →
        (r.state T).illegalInFlight = false → ∀ v, T ≤ v →
          (r.state v).hazard.pendingExceptionF = true ∧
            (r.state v).decodeLoads (r.inputs v) = false) := by
  refine ⟨always_iff (fun h => ?_) (illegalMoves_step hi) T,
    always_iff (fun h => ?_) (illegalKept_step hi) T, pendingExceptionF_forever⟩ <;> simp at h

/-- With an illegal word at address 8 and nothing ahead of it the flag is still up in cycle 12, in
which the trap of the word is taken: the word is in write-back. -/
theorem illegal_interlock_quiet :
    ((quietBench [0xffffffff]).run₁.state 12).illegalInFlight = true :=
  (illegal_interlock (quietBench [0xffffffff]).run₁ (TestBench.run₁_instrSlave _) 15).1.mpr
    (by decide +kernel) 12 (by decide) (by decide +kernel)

/-- An illegal word behind an `ecall` is in execute when the trap is taken, in cycle 9: the flag
that it set in decode has nothing to clear it. -/
theorem illegal_orphaned :
    ∃ (r : Run TestBench.zeros) (rom : BitVec 32 → BitVec 32) (t : ℕ),
      r.Exact ∧ r.InstrSlave rom ∧ r.DataSlave ∧
        (r.state t).hazard.pendingExceptionF = true ∧
        (r.state t).illegalInstructionD TestBench.zeros = false ∧
        (r.state t).illegalInFlight = false :=
  ⟨(quietBench [0x00000073, 0xffffffff]).run₀, _, 10, TestBench.run₀_exact _,
    TestBench.run₀_instrSlave _, TestBench.run₀_dataSlave _, by decide +kernel⟩

end Run

end RvPipelineCore

import RvPipelineCore.Faults
import RvPipelineCore.Hazards

/-!
# Lost instructions

Clear has priority over enable in every stage register, so an instruction is lost when its stage is
flushed in a cycle in which the next one does not take it. Of the pairs of a stall and a flush that
are not excluded by which stages can be occupied at the same time, three lose an instruction
(`Run.Keeps`):

- execute waits behind an access and holds a redirect;
- execute waits behind an access and holds a load to `x0`;
- a divide is pending behind an access that waits in the memory stage.

`Run.no_instruction_lost` says that without these pairs nothing is lost, and what becomes of an
instruction then.
-/

namespace RvPipelineCore

namespace State

variable (s : State) (i : Inputs)

/-- A valid instruction in decode neither enters execute nor stays. -/
def dropsD : Bool := s.d.isDecodeFlush && !s.entersE i && (s.flushD i || !s.stallD i)

/-- A valid instruction in execute neither enters the memory stage nor stays. -/
def dropsE : Bool := s.e.validPc && !s.entersM i && s.leavesE i

/-- A valid instruction in the memory stage that is not handed to write-back, either done or with an
exception, does not stay. -/
def dropsM : Bool := s.m.validPc && s.stallM i && !s.isInstrExceptionM && s.flushM

end State

namespace Run

variable {x : DontCare} (r : Run x) {rom : BitVec 32 → BitVec 32}

/-- In cycle `v` an instruction disappears only when an older one redirects control or traps. The
instruction in execute is older than the one in decode, the one in write-back than all. -/
structure NoneLost (v : ℕ) : Prop where
  decode : (r.state v).dropsD (r.inputs v) = true →
    (r.state v).jumpInstr = true ∨ (r.state v).trapCaughtW = true
  execute : (r.state v).dropsE (r.inputs v) = true → (r.state v).trapCaughtW = true
  memory : (r.state v).dropsM (r.inputs v) = true → (r.state v).trapCaughtW = true

/-- None of the pairs of a stall and a flush that lose an instruction is there in cycle `v`. -/
structure Keeps (v : ℕ) : Prop where
  redirect : (r.state v).stallM (r.inputs v) = true → (r.state v).jumpInstr = false
  load : (r.state v).stallM (r.inputs v) = true → (r.state v).trapCaughtW = false →
    (r.state v).ce.loadInstr = true → (r.state v).e.rd ≠ 0
  access : (r.state v).stallM (r.inputs v) = true → (r.state v).trapCaughtW = false →
    (r.state v).hazard.divPending = true → (r.state v).isInstrExceptionM = true

/-- Whether a cycle keeps its instructions can be decided from the state and the inputs of the
cycle. -/
instance (v : ℕ) : Decidable (r.Keeps v) :=
  decidable_of_iff
    (((r.state v).stallM (r.inputs v) = true → (r.state v).jumpInstr = false) ∧
      ((r.state v).stallM (r.inputs v) = true → (r.state v).trapCaughtW = false →
        (r.state v).ce.loadInstr = true → (r.state v).e.rd ≠ 0) ∧
      ((r.state v).stallM (r.inputs v) = true → (r.state v).trapCaughtW = false →
        (r.state v).hazard.divPending = true → (r.state v).isInstrExceptionM = true))
    ⟨fun h => ⟨h.1, h.2.1, h.2.2⟩, fun h => ⟨h.1, h.2, h.3⟩⟩

variable {r}

/-- An instruction in decode is removed only by the one in execute or by a trap. -/
theorem jumpInstr_of_dropsD {t : ℕ} (h : (r.state t).dropsD (r.inputs t) = true) :
    (r.state t).jumpInstr = true ∨ (r.state t).trapCaughtW = true := by
  by_contra hcon
  rw [not_or, Bool.not_eq_true, Bool.not_eq_true, r.trapCaughtW_eq_pendingExceptionM] at hcon
  obtain ⟨hj, hpm⟩ := hcon
  simp only [State.dropsD, State.entersE, State.flushE, State.flushD, State.stallD, hj, hpm] at h
  grind

/-- An instruction in execute that is flushed while the next stage does not take it is lost. -/
theorem dropsE_of_flushE {t : ℕ} (hv : (r.state t).e.validPc = true)
    (hf : (r.state t).flushE = true)
    (hs : (r.state t).stallM (r.inputs t) = true ∨ (r.state t).hazard.divPending = true) :
    (r.state t).dropsE (r.inputs t) = true := by
  rcases hs with hs | hs <;>
    simp [State.dropsE, State.entersM, State.leavesE, State.flushM, hv, hf, hs]

/-- A load in execute behind an instruction in the memory stage stalls decode only if it loads to
`x0`, decode being empty. -/
theorem lwStallD_of_full (hi : r.InstrSlave rom) {t : ℕ} (he : (r.state t).e.validPc = true)
    (hm : (r.state t).m.validPc = true) :
    (r.state t).lwStallD = ((r.state t).ce.loadInstr && (r.state t).e.rd == 0) := by
  rw [State.lwStallD, HazardUnit.lwStallD, r.d_bubble t (d_empty_of_full hi he hm)]
  have h1 : rs1Of (0 : DecodeReg).instr = 0 := rfl
  have h2 : rs2Of (0 : DecodeReg).instr = 0 := rfl
  rw [h1, h2, Bool.or_self]

/-- A cycle that loses no instruction has none of the three pairs of a stall and a flush. -/
theorem Keeps.of_noneLost (hi : r.InstrSlave rom) {t : ℕ} (h : r.NoneLost t) : r.Keeps t := by
  -- each way to go wrong drops an instruction
  refine ⟨fun hs => ?_, fun hs htrap hld hrd => ?_, fun hs htrap hp => ?_⟩
  · by_contra hj
    rw [Bool.not_eq_false] at hj
    have htrap := hj
    simp only [State.jumpInstr, Bool.and_eq_true, Bool.not_eq_true'] at htrap
    have := h.execute (dropsE_of_flushE (e_valid_of_pcSrcE htrap.1.1.1)
      (by simp [State.flushE, hj]) (.inl hs))
    simp [State.trapCaughtW_eq, htrap.2] at this
  · have hv : (r.state t).e.validPc = true :=
      e_valid_of (f := fun s => s.ce.loadInstr) (fun s _ hc => by simp [hc]) hld
    have hlw := lwStallD_of_full hi hv (r.stallM_valid hs)
    have := h.execute (dropsE_of_flushE hv (by simp [State.flushE, hlw, hld, hrd]) (.inl hs))
    simp [htrap] at this
  · by_contra hx
    have := h.memory (by simp [State.dropsM, State.flushM, r.stallM_valid hs, hs, hx, hp])
    simp [htrap] at this

/-- An instruction in execute is lost without a trap only behind an access that waits: by its own
redirect, or by a load into `x0`. -/
theorem dropsE_cases (hi : r.InstrSlave rom) {t : ℕ} (hd : (r.state t).dropsE (r.inputs t) = true)
    (htrap : (r.state t).trapCaughtW = false) :
    (r.state t).stallM (r.inputs t) = true ∧ ((r.state t).jumpInstr = true ∨
      (r.state t).ce.loadInstr = true ∧ (r.state t).e.rd = 0) := by
  rw [r.trapCaughtW_eq_pendingExceptionM] at htrap
  simp only [State.dropsE, Bool.and_eq_true, Bool.not_eq_true'] at hd
  obtain ⟨⟨hv, hin⟩, hle⟩ := hd
  cases hp : (r.state t).hazard.divPending with
  | true =>
    -- nothing but a trap flushes a divide
    have hce := divInstr_of_divPending hi t hp hv
    obtain ⟨-, -, -, -, -, hld, hsrc⟩ := e_of_divInstr hce
    simp [State.leavesE, State.flushE, State.stallE, State.lwStallD, HazardUnit.lwStallD,
      State.jumpInstr, hld, hsrc, hp, htrap] at hle
  | false =>
    -- without a stall the instruction would have moved on
    have hs : (r.state t).stallM (r.inputs t) = true := by
      by_contra hs
      simp [State.entersM, State.flushM, hv, hs, hp, htrap] at hin
    refine ⟨hs, ?_⟩
    simp only [State.leavesE, State.flushE, State.stallE, hs, hp, htrap, r.csrPending_eq_false,
      Bool.or_false, Bool.not_true, Bool.or_eq_true] at hle
    rcases hle with hlw | hj
    · rw [lwStallD_of_full hi hv (r.stallM_valid hs), Bool.and_eq_true, beq_iff_eq] at hlw
      exact .inr hlw
    · exact .inl hj

/-- A cycle that has none of the three pairs of a stall and a flush loses no instruction. -/
theorem Keeps.noneLost (hi : r.InstrSlave rom) {t : ℕ} (h : r.Keeps t) : r.NoneLost t := by
  refine ⟨jumpInstr_of_dropsD, fun hd => ?_, fun hd => ?_⟩
  · by_contra htrap
    rw [Bool.not_eq_true] at htrap
    obtain ⟨hs, hj | ⟨hld, hrd⟩⟩ := dropsE_cases hi hd htrap
    · simp [h.redirect hs] at hj
    · exact h.load hs htrap hld hrd
  · by_contra htrap
    rw [Bool.not_eq_true] at htrap
    simp only [State.dropsM, Bool.and_eq_true, Bool.not_eq_true', State.flushM,
      ← r.trapCaughtW_eq_pendingExceptionM, htrap, Bool.false_or] at hd
    simp [h.access hd.1.1.2 htrap hd.2] at hd

/-- In a cycle without a loss every instruction moves on, stays, or is removed by a trap. -/
theorem NoneLost.lossless {t : ℕ} (h : r.NoneLost t) : r.Lossless t := by
  refine ⟨fun hv hf hpm => ?_, fun hs hp => ?_⟩
  · by_contra hse
    rw [Bool.not_eq_false] at hse
    simp only [State.stallE, Bool.or_eq_true] at hse
    have := h.execute (dropsE_of_flushE hv hf hse)
    simp [r.trapCaughtW_eq_pendingExceptionM, hpm] at this
  · by_contra hcon
    rw [not_or, Bool.not_eq_true, Bool.not_eq_true] at hcon
    have := h.memory (by simp [State.dropsM, State.flushM, r.stallM_valid hs, hs, hcon.1, hp])
    simp [r.trapCaughtW_eq_pendingExceptionM, hcon.2] at this

/-- The instruction with stamp `n` is lost in cycle `v`. -/
structure LostAt (r : Run x) (n v : ℕ) : Prop where
  no_trap : (r.state v).trapCaughtW = false
  drops : (r.state v).dropsE (r.inputs v) = true ∧ r.stampE v = n ∨
    (r.state v).dropsM (r.inputs v) = true ∧ r.stampM v = n

/-- An instruction that has entered execute is there, in the memory stage, done, removed by a trap
or lost. -/
theorem fate_or_lost {u t : ℕ} (hut : u < t) (hin : (r.state u).entersE (r.inputs u) = true) :
    r.Fate (u + 1) t ∨ ∃ v < t, r.LostAt (u + 1) v := by
  -- A cycle that does not lose the instruction moves its fate on by one step.
  induction t, hut using Nat.le_induction with
  | base => exact .inl (fate_succ_of_entersE hin)
  | succ t hle ih =>
    rcases ih with hfate | ⟨v, hv, hlost⟩
    · by_cases hlost : r.LostAt (u + 1) t
      · exact .inr ⟨t, t.lt_succ_self, hlost⟩
      · left
        cases hfate with
        | inE hv hn =>
          refine fate_of_inE hv hn fun hf hpm => ?_
          by_contra hs
          rw [Bool.not_eq_false] at hs
          simp only [State.stallE, Bool.or_eq_true] at hs
          -- Flushed out of execute while the stage would have gone on.
          exact hlost ⟨by rw [r.trapCaughtW_eq_pendingExceptionM, hpm],
            .inl ⟨dropsE_of_flushE hv hf hs, hn⟩⟩
        | inM hv hn =>
          refine fate_of_inM hv hn fun hs hp => ?_
          by_contra hcon
          rw [not_or, Bool.not_eq_true, Bool.not_eq_true] at hcon
          -- Replaced in memory, with the stage behind it standing still.
          exact hlost ⟨by rw [r.trapCaughtW_eq_pendingExceptionM, hcon.2],
            .inr ⟨by simp [State.dropsM, State.flushM, hv, hs, hcon.1, hp], hn⟩⟩
        | committed t' hlt hc => exact .committed t' (by omega) hc
        | removed t' hle' hr => exact .removed t' (by omega) hr
    · exact .inr ⟨v, by omega, hlost⟩

variable (r)

/-- In a cycle an instruction disappears only when an older one redirects control or traps, if and
only if none of the pairs of `Run.Keeps` is there. In a run without these pairs, an instruction that
has entered execute is in execute or in the memory stage, has completed with its effects, or was
removed by a trap that was not taken on a younger one. -/
theorem no_instruction_lost (hi : r.InstrSlave rom) (T : ℕ) :
    (∀ t, r.NoneLost t ↔ r.Keeps t) ∧
      ((∀ t < T, r.Keeps t) → ∀ u < T, (r.state u).entersE (r.inputs u) = true →
        r.Fate (u + 1) T) :=
  ⟨fun _ => ⟨.of_noneLost hi, fun h => h.noneLost hi⟩, fun hK _ hu hin =>
    fate_of_entersE hu (fun v hv => ((hK v hv).noneLost hi).lossless) hin⟩

/-- The `lw` at address 8 leaves decode in cycle 6 and waits for its word in cycle 8, with the next
instruction in decode behind it: in cycle 14 it is accounted for. -/
theorem no_instruction_lost_load : (quietBench [0x00002083]).run₀.Fate 7 14 :=
  (no_instruction_lost (quietBench [0x00002083]).run₀ (TestBench.run₀_instrSlave _) 14).2
    (by decide +kernel) 6 (by decide) (by decide +kernel)

/-- The `jal` at `0x10` waits in execute behind a load: its own redirect flushes it, the jump is
taken, and the link register keeps its old value. -/
theorem waiting_jal_lost :
    ∃ (r : Run TestBench.zeros) (rom : BitVec 32 → BitVec 32) (t : ℕ),
      r.Exact ∧ r.InstrSlave rom ∧ r.DataSlave ∧ r.NoInterrupts ∧
        (r.state t).dropsE (r.inputs t) = true ∧ (r.state t).trapCaughtW = false ∧
        (r.state t).e.pc = 0x10 ∧ rom 0x10 = 0x008002ef ∧
        (r.state (t + 5)).d.pc = 0x18 ∧ (r.state (t + 5)).d.isDecodeFlush = true ∧
        (r.state (t + 5)).regMem 5 = 0 :=
  ⟨(quietBench [0x00002083, 0x00002183, 0x008002ef]).run₀, _, 11, TestBench.run₀_exact _,
    TestBench.run₀_instrSlave _, TestBench.run₀_dataSlave _, fun _ => ⟨rfl, rfl⟩,
    by decide +kernel⟩

end Run

end RvPipelineCore

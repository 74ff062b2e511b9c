import RvPipelineCore.Hazards
import RvPipelineCore.Traps

/-!
# The trap flush

Three flags announce a trap: `pending_exception_m`, a flip-flop of the hazard unit that the memory
stage sets, `is_instr_exception_w`, the flags that write-back holds, and `trap_caught`, which
`csr_exec` computes from its own copy of them. The first flushes the pipeline, the last enters the
trap.

The flush signals have other causes as well: a redirect flushes decode and execute, a pending divide
the memory stage. The two never meet, since a divide that is pending is alone in execute.

- `State.flushesAll`: decode, execute and the memory stage are flushed in the same cycle;
- `Run.trap_indicators_agree`: the three flags are equal, and they are up exactly in these cycles.
-/

namespace RvPipelineCore

namespace State

variable (s : State) (i : Inputs)

/-- Decode, execute and the memory stage are flushed. Write-back never is. -/
def flushesAll : Bool := s.flushD i && s.flushE && s.flushM

/-- Besides an exception, only a redirect while a divide is pending would flush all three. -/
theorem flushesAll_eq :
    s.flushesAll i = (s.hazard.pendingExceptionM || s.jumpInstr && s.hazard.divPending) := by
  simp only [flushesAll, flushD, flushE, flushM, stallD, stallE]
  -- a pending divide stalls decode, which leaves the redirect to flush it
  cases s.hazard.pendingExceptionM <;> cases s.hazard.divPending <;> cases s.jumpInstr <;> simp

end State

namespace Run

variable {x : DontCare} {r : Run x} {rom : BitVec 32 → BitVec 32}

/-- No redirect takes effect while a divide is pending, since the divide itself is in execute or
nothing is. -/
theorem jumpInstr_of_divPending (hi : r.InstrSlave rom) {t : ℕ}
    (hp : (r.state t).hazard.divPending = true) : (r.state t).jumpInstr = false := by
  have hsrc : (r.state t).pcSrcE = false := by
    cases hv : (r.state t).e.validPc with
    | false => exact r.pcSrcE_of_empty t hv
    | true =>
      obtain ⟨-, -, -, -, -, -, hsrc⟩ := e_of_divInstr (divInstr_of_divPending hi t hp hv)
      exact hsrc
  simp [State.jumpInstr, hsrc]

/-- Decode, execute and the memory stage are flushed together for an exception in write-back and for
no other reason. -/
theorem flushesAll_eq (hi : r.InstrSlave rom) (t : ℕ) :
    (r.state t).flushesAll (r.inputs t) = (r.state t).hazard.pendingExceptionM := by
  rw [State.flushesAll_eq]
  cases hp : (r.state t).hazard.divPending with
  | false => rw [Bool.and_false, Bool.or_false]
  | true => rw [jumpInstr_of_divPending hi hp, Bool.false_and, Bool.or_false]

variable (r)

/-- In every cycle the three flags of a trap have the same value. With a slave that keeps to the
protocol, decode, execute and the memory stage are flushed in exactly the cycles in which a trap is
entered. -/
theorem trap_indicators_agree (t : ℕ) :
    (r.state t).hazard.pendingExceptionM = (r.state t).isInstrExceptionW ∧
      (r.state t).isInstrExceptionW = (r.state t).trapCaughtW ∧
      ∀ rom, r.InstrSlave rom →
        ((r.state t).flushesAll (r.inputs t) = true ↔ (r.state t).trapCaughtW = true) := by
  refine ⟨r.pendingExceptionM_eq t, (r.state t).trapCaughtW_eq.symm, ?_⟩
  intro rom hi
  rw [flushesAll_eq hi, r.trapCaughtW_eq_pendingExceptionM]

/-- The trap of the `ecall` flushes the pipeline in cycle 21. -/
theorem trap_indicators_agree_call :
    (callBench.run₁.state 21).flushesAll (callBench.run₁.inputs 21) = true :=
  ((trap_indicators_agree callBench.run₁ 21).2.2 _ (TestBench.run₁_instrSlave _)).2
    (by decide +kernel)

end Run

end RvPipelineCore

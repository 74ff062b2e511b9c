import RvPipelineCore.Access
import RvPipelineCore.Order

/-!
# Decode and execute together

The base instructions from the word in decode to the outputs of execute: what `main_decoder`,
`alu_decoder` and `extend_imm` make of a word, and the multiplexers, `alu` and `branch_check` of its
control signals.

- `State.Implements`: execute has the results that `Rv32` gives an instruction;
- `State.implements_of_decode`: it has them for every word, whatever fills the `-` bits.
-/

namespace RvPipelineCore

namespace State

/-- The outputs of execute are those of instruction `o` with word `w` at address `pc`, with `a` and
`b` in its registers. -/
structure Implements (s : State) (o : Rv32.Op) (w pc a b : BitVec 32) : Prop where
  /-- The value for `rd`; `data` is what comes back from memory. -/
  result : ∀ mem data,
    (∀ wd u, o = .load wd u → data = Rv32.loadValue mem wd u (a + Rv32.immI w)) →
      Rv32.result o w pc a b mem =
        if s.ce.regWrite then
          some (mux4 s.dataOutputFromExecute data (pc + 4) s.pcTargetE s.ce.resultSrc)
        else none
  takeBranch : ∀ c, o = .branch c → s.takeBranchE = c.holds a b
  branchTarget : ∀ c, o = .branch c → s.jumpPcTargetE = pc + Rv32.immB w
  jump : s.ce.jump = true ↔ o = .jal ∨ o = .jalr
  nextPc : Rv32.nextPc o w pc a b =
    if s.ce.jump || s.takeBranchE then s.jumpPcTargetE else pc + 4
  address : ∀ acc ∈ Rv32.access o w a b, s.dataOutputFromExecute = acc.adr

/-- An instruction of the base set in execute does there what its operation says: it hands on the
value, asks for the access and redirects fetch accordingly. -/
theorem Executes.implements {s : State} {x : DontCare} {w pc a b : BitVec 32} {o : Rv32.Op}
    (h : s.Executes x w pc a b) (hd : Rv32.decode w = some o) : s.Implements o w pc a b := by
  have ho := Rv32.encodes_of_decode hd
  -- The four parts are the value, the branch, the next address and the access.
  refine ⟨fun mem data hdata => h.result_eq ho hdata, ?_, ?_, ?_, h.nextPc_eq ho, ?_⟩
  · rintro c rfl
    exact h.takeBranchE ho
  · rintro c rfl
    exact h.branch_target ho ho.opcode
  · have hop : opcodeOf w = o.opcode := ho.opcode
    have hjump : s.ce.jump = isJump w := by
      rw [h.ce]
      exact (controlOf_of_legal x (legal_of_encodes x ho)).jump
    rw [hjump, isJump, isMret, hop]
    -- Only loads and stores access memory.
    cases o <;> simp [Rv32.Op.opcode]
  · intro acc hacc
    cases o with
    | load wd u =>
      obtain rfl := Option.mem_some.mp hacc
      exact (h.access_load ho).2.2
    | store wd =>
      obtain rfl := Option.mem_some.mp hacc
      exact (h.access_store ho).2.2
    | _ => exact absurd hacc (Option.not_mem_none acc)

/-- For an instruction of the base set decode hands to execute the word, its address and the values
of its two source registers. -/
theorem executes_of_decode {s s' : State} {x : DontCare} {o : Rv32.Op}
    (hv : s.d.isDecodeFlush = true) (hpc : s.d.pcPlus4 = s.d.pc + 4)
    (hd : Rv32.decode s.d.instr = some o) (he : s'.e = s.executeInput x)
    (hc : s'.ce = s.controlInputE x) (hA : s'.forwardAE = 0b00) (hB : s'.forwardBE = 0b00) :
    s'.Executes x s.d.instr s.d.pc s.rd1D s.rd2D := by
  have hdec := s.mainDec_of_valid x hv
  have hout : s.outControlD x = controlOf x s.d.instr := by
    obtain ⟨c, hsome, -⟩ := decode_of_legal x (legal_of_encodes x (Rv32.encodes_of_decode hd))
    rw [outControlD, hdec, controlOf, hsome]
    rfl
  refine ⟨?_, ?_, hA, hB⟩
  · rw [he]
    simp only [executeInput, executeWord, immExtD, illegalInstructionD, hdec, hout, hpc, hv]
  · rw [hc]
    simp only [controlInputE, controlWordE, aluControlD, mulInstrD, divInstrD, hout]

/-- A base instruction that goes from decode to execute, with nothing forwarded into it, has the
results of `Rv32` on the register values that decode has read. -/
theorem implements_of_decode {s s' : State} {x : DontCare} {o : Rv32.Op}
    (hv : s.d.isDecodeFlush = true) (hpc : s.d.pcPlus4 = s.d.pc + 4)
    (hd : Rv32.decode s.d.instr = some o) (he : s'.e = s.executeInput x)
    (hc : s'.ce = s.controlInputE x) (hA : s'.forwardAE = 0b00) (hB : s'.forwardBE = 0b00) :
    s'.Implements o s.d.instr s.d.pc s.rd1D s.rd2D :=
  (executes_of_decode hv hpc hd he hc hA hB).implements hd

/-- A `sub x1, x2, x3` at address 4 in an otherwise empty pipeline, with 5 in `x2` and 7 in `x3`. -/
theorem implements_of_decode_sub :
    let s : State := { TestBench.blank with
      d := ⟨0x403100b3, 4, 8, true⟩
      regMem := fun r => if r = 2 then 5 else 7 }
    let s' : State := { TestBench.blank with
      e := s.executeInput TestBench.zeros
      ce := s.controlInputE TestBench.zeros }
    s'.Implements (.op .sub) 0x403100b3 4 5 7 :=
  implements_of_decode (x := TestBench.zeros) (s := { TestBench.blank with
      d := ⟨0x403100b3, 4, 8, true⟩
      regMem := fun r => if r = 2 then 5 else 7 })
    rfl rfl (by decide) rfl rfl (by decide) (by decide)

end State

end RvPipelineCore

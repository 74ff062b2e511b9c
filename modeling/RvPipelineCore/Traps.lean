import RvPipelineCore.Control.Words
import RvPipelineCore.TrapOrder

/-!
# What a trap leaves behind

A trap empties decode, execute and the memory stage, but not write-back: the instruction the memory
stage holds in the trap cycle still passes through it. After that the pipeline is empty until the
first instruction of the handler enters execute.

- `Run.trap_stack`: a trap is taken once, and `mstatus` is a one-level stack across it;
- `Run.interrupt_leaves_no_trace`: exactly when an interrupted instruction has changed no register
  and no CSR.

Both have conditions on the trap cycle (`Run.ProperTrap`, `Run.Traceless`), about the instructions
whose effects the gating of write-back does not stop.
-/

namespace RvPipelineCore

open Temporal

namespace State

variable (s : State) (i : Inputs)

/-- The rising edge of an enabled interrupt is being sampled; it reaches the memory stage in the
next cycle. -/
def interruptSampled : Bool :=
  (s.csr.intrExtAsync i.interruptExternal s.e.pc && !s.csr.interruptExternalEdge.firstReg) ||
    (s.csr.intrTimerAsync i.interruptTimer s.e.pc && !s.csr.interruptTimerEdge.firstReg)

/-- No interrupt is sampled while interrupts are disabled in `mstatus`. -/
theorem interruptSampled_of_mie (h : s.csr.mstatusMie = false) : s.interruptSampled i = false := by
  simp [interruptSampled, CsrExec.intrExtAsync, CsrExec.intrTimerAsync, h]

/-- An `mret` leaves execute at the end of the cycle. -/
def mretLeavesE : Bool := s.ce.mretInstr && s.leavesE i

/-- The memory stage hands an instruction to write-back that will write a register. -/
def handsOn : Bool := s.cm.regWrite && !s.isInstrExceptionM

end State

namespace Run

variable {x : DontCare} {r : Run x}

/-- An interrupt is attached to the memory stage in the cycle after it was sampled. -/
theorem succ_interruptM (t : ℕ) :
    (r.state (t + 1)).interruptM = (r.state t).interruptSampled (r.inputs t) := by
  simp only [State.interruptM, CsrExec.interruptExternalM, CsrExec.interruptTimerM, r.succ_csr,
    CsrExec.next, EdgeDetector.next, EdgeDetector.edgeDetected, State.interruptSampled,
    Bool.false_eq_true, if_false]

/-- The interrupt enable in the next cycle: a trap clears it, an `mret` restores its saved value,
and a CSR write replaces it, in this order of priority. -/
theorem succ_mstatusMie (t : ℕ) :
    (r.state (t + 1)).csr.mstatusMie =
      if (r.state t).trapCaughtW then false
      else if (r.state t).w.mretInstr then (r.state t).csr.mstatusMpie
      else if (r.state t).csrWriteback.writes csrMstatusAddr then
        (r.state t).w.outWriteCsr.getLsbD 3
      else (r.state t).csr.mstatusMie := by
  rw [r.succ_csr]
  rfl

/-- The saved interrupt enable in the next cycle: a trap saves the enable and an `mret` sets it to
one. -/
theorem succ_mstatusMpie (t : ℕ) :
    (r.state (t + 1)).csr.mstatusMpie =
      if (r.state t).trapCaughtW then (r.state t).csr.mstatusMie
      else if (r.state t).w.mretInstr then true
      else (r.state t).csr.mstatusMpie := by
  rw [r.succ_csr]
  rfl

/-! ## The empty pipeline after a trap -/

/-- No instruction enters execute in the cycle of a trap. -/
theorem entersE_of_trap {t : ℕ} (htrap : (r.state t).trapCaughtW = true) :
    (r.state t).entersE (r.inputs t) = false := by
  rw [r.trapCaughtW_eq_pendingExceptionM] at htrap
  simp [State.entersE, State.flushE, htrap]

/-- Decode is empty in the cycle after a trap. -/
theorem d_empty_after_trap {t : ℕ} (htrap : (r.state t).trapCaughtW = true) :
    (r.state (t + 1)).d.isDecodeFlush = false := by
  simp [(r.empty_of_trap htrap).1]

/-- After a trap, execute and the memory stage are empty until an instruction enters execute. -/
theorem empty_after_trap {t₀ t₁ : ℕ} (htrap : (r.state t₀).trapCaughtW = true)
    (hno : ∀ q, t₀ < q → q < t₁ → (r.state q).entersE (r.inputs q) = false) :
    ∀ v, t₀ + 1 ≤ v → v ≤ t₁ → (r.state v).e.validPc = false ∧ (r.state v).m.validPc = false := by
  obtain ⟨-, ⟨he, -⟩, hm, -⟩ := r.empty_of_trap htrap
  refine always_between ⟨?_, ?_⟩ fun v h₁ h₂ ih => ⟨?_, ?_⟩
  · simp [he]
  · simp [hm]
  · simp [r.succ_e_validPc, hno v h₁ h₂, ih.1]
  · simp [r.succ_m_validPc, State.entersM, ih.1, ih.2]

/-- The first entry after a trap leaves the cycles before it without one. -/
theorem no_entry_before {t₀ t₁ : ℕ} (hin : r.FirstEntry t₀ t₁) :
    ∀ q, t₀ < q → q < t₁ → (r.state q).entersE (r.inputs q) = false :=
  fun q h₁ h₂ => Bool.not_eq_true _ ▸ hin.not_before q h₁.le h₂

/-- The first entry after a trap comes in a later cycle than the trap, because none enters in its
own cycle. -/
theorem lt_of_first_entry {t₀ t₁ : ℕ} (htrap : (r.state t₀).trapCaughtW = true)
    (hin : r.FirstEntry t₀ t₁) : t₀ < t₁ :=
  (hin.succ (by simp [entersE_of_trap htrap])).le

/-- Behind an empty memory stage write-back holds no instruction in the next cycle, writes nothing,
and takes a trap only if an interrupt was attached. -/
theorem w_of_m_empty {t : ℕ} (h : (r.state t).m.validPc = false) :
    (r.state (t + 1)).w.validPc = false ∧ (r.state (t + 1)).w.mretInstr = false ∧
      (r.state (t + 1)).w.csrWrite = false ∧ (r.state (t + 1)).cw.regWrite = false ∧
      ((r.state t).interruptM = false → (r.state (t + 1)).trapCaughtW = false) := by
  obtain ⟨hm, hc⟩ := r.m_bubble t h
  refine ⟨?_, ?_, ?_, ?_, fun hint => ?_⟩
  · simp [r.succ_w, State.writebackInput, h]
  · simp [r.succ_w, State.writebackInput, hm]
  · simp [r.succ_w, State.writebackInput, hm]
  · simp [r.succ_cw, hc]
  · rw [r.succ_trapCaughtW, State.isInstrExceptionM_eq, r.syncExceptionM_of_empty h, hint,
      Bool.or_self]

/-! ## The `mstatus` stack -/

variable (r)

/-- If a trap is taken in cycle `v`, what the memory stage holds neither traps nor writes `mstatus`,
and no interrupt is arriving; and an `mret` that leaves execute goes on to the memory stage. -/
structure ProperTrap (v : ℕ) : Prop where
  single : (r.state v).trapCaughtW = true → (r.state v).isInstrExceptionM = false
  no_edge : (r.state v).trapCaughtW = true → (r.state v).interruptSampled (r.inputs v) = false
  no_mret : (r.state v).trapCaughtW = true → (r.state v).m.mretInstr = false
  no_write : (r.state v).trapCaughtW = true → (r.state v).m.csrWrite = true →
    (r.state v).m.csrAddress ≠ csrMstatusAddr
  mret_moves : (r.state v).ce.mretInstr = true → (r.state v).flushE = true →
    (r.state v).stallE (r.inputs v) = false

/-- Whether the trap of a cycle is a proper one can be decided from the state and the inputs of the
cycle. -/
instance (v : ℕ) : Decidable (r.ProperTrap v) :=
  decidable_of_iff
    (((r.state v).trapCaughtW = true → (r.state v).isInstrExceptionM = false) ∧
      ((r.state v).trapCaughtW = true → (r.state v).interruptSampled (r.inputs v) = false) ∧
      ((r.state v).trapCaughtW = true → (r.state v).m.mretInstr = false) ∧
      ((r.state v).trapCaughtW = true → (r.state v).m.csrWrite = true →
        (r.state v).m.csrAddress ≠ csrMstatusAddr) ∧
      ((r.state v).ce.mretInstr = true → (r.state v).flushE = true →
        (r.state v).stallE (r.inputs v) = false))
    ⟨fun h => ⟨h.1, h.2.1, h.2.2.1, h.2.2.2.1, h.2.2.2.2⟩, fun h => ⟨h.1, h.2, h.3, h.4, h.5⟩⟩

variable {r}

/-- The state of the `mstatus` stack from the cycle after a trap to the handler's first
instruction. -/
theorem stack_after_trap {t₀ t₁ : ℕ} (htrap : (r.state t₀).trapCaughtW = true)
    (hK : r.ProperTrap t₀) (hin : r.FirstEntry t₀ t₁) :
    ∀ v, t₀ + 1 ≤ v → v ≤ t₁ → (r.state v).trapCaughtW = false ∧
      (r.state v).csr.mstatusMie = false ∧
      (r.state v).csr.mstatusMpie = (r.state t₀).csr.mstatusMie ∧
      (r.state v).w.mretInstr = false ∧
      (r.state v).csrWriteback.writes csrMstatusAddr = false ∧ (r.state v).interruptM = false := by
  have hempty := empty_after_trap htrap (no_entry_before hin)
  refine always_between ⟨?_, ?_, ?_, ?_, ?_, ?_⟩ ?_
  · rw [r.succ_trapCaughtW, hK.single htrap]
  · rw [succ_mstatusMie, if_pos htrap]
  · rw [succ_mstatusMpie, if_pos htrap]
  · rw [r.succ_w]
    exact hK.no_mret htrap
  · rw [State.csrWriteback, CsrWriteback.writes, r.succ_w]
    have := hK.no_write htrap
    simp only [State.writebackInput]
    cases h : (r.state t₀).m.csrWrite <;> simp_all
  · rw [succ_interruptM, hK.no_edge htrap]
  · -- behind an empty memory stage, with interrupts disabled
    rintro v h₁ h₂ ⟨ht, hmie, hmpie, hmret, hwr, hint⟩
    obtain ⟨-, hmret', hcsr', -, htrap'⟩ := w_of_m_empty (hempty v (by omega) h₂.le).2
    refine ⟨htrap' hint, ?_, ?_, hmret', ?_, ?_⟩
    · rw [succ_mstatusMie, ht, hmret, hwr, hmie]
      simp
    · rw [succ_mstatusMpie, ht, hmret, hmpie]
      simp
    · simp [CsrWriteback.writes, State.csrWriteback, hcsr']
    · rw [succ_interruptM, State.interruptSampled_of_mie _ _ hmie]

/-- After a trap in which the memory stage is not flagged, no later trap is on the same
instruction. -/
theorem stampW_lt_of_trap {t₀ t : ℕ} (htrap₀ : (r.state t₀).trapCaughtW = true)
    (hK : r.ProperTrap t₀) (hlt : t₀ < t) (htrap : (r.state t).trapCaughtW = true)
    (hv : (r.state t).w.validPc = true) : r.stampW t₀ < r.stampW t := by
  obtain ⟨q, rfl, hexc⟩ := exists_exception_of_trap htrap
  have hle := (r.stampW_le_stampM t₀).trans ((r.stampM_le_stampE t₀).trans (r.stampE_le t₀))
  rw [r.stampW_succ]
  rw [r.succ_w] at hv
  rcases Nat.lt_or_eq_of_le (Nat.lt_succ_iff.mp hlt) with h | rfl
  · have := (stamp_after_trap htrap₀ q h).2 hv
    omega
  · simp [hK.single htrap₀] at hexc

/-- An `mret` that leaves execute for the memory stage is in write-back two cycles later. -/
theorem w_mret_of_mretLeavesE {t : ℕ} (hl : (r.state t).mretLeavesE (r.inputs t) = true)
    (hK : r.ProperTrap t) (htrap : (r.state t).trapCaughtW = false) :
    (r.state (t + 2)).w.mretInstr = true := by
  simp only [State.mretLeavesE, State.leavesE, Bool.and_eq_true, Bool.or_eq_true,
    Bool.not_eq_true'] at hl
  obtain ⟨hmret, hl⟩ := hl
  -- it moves on, since a flush does not find it stalled
  have hs : (r.state t).stallE (r.inputs t) = false := hl.elim (hK.mret_moves hmret) id
  rw [r.trapCaughtW_eq_pendingExceptionM] at htrap
  rw [r.succ_w (t + 1)]
  simp only [State.writebackInput]
  simp only [State.stallE, Bool.or_eq_false_iff] at hs
  rcases r.m_cases t with ⟨hf, -⟩ | ⟨-, -, -, hm, -, -⟩ | ⟨-, hs', -⟩
  · simp [State.flushM, htrap, hs.2] at hf
  · rw [hm]
    exact hmret
  · simp [hs.1] at hs'

/-- Until an `mret` leaves execute, none is further down the pipeline. -/
theorem no_mret_until {t₁ t₂ : ℕ} (hm : (r.state t₁).m.validPc = false)
    (hw : (r.state t₁).w.mretInstr = false)
    (hfirst : First (fun v => (r.state v).mretLeavesE (r.inputs v) = true) t₁ t₂) :
    ∀ v, t₁ ≤ v → v ≤ t₂ → (r.state v).m.mretInstr = false ∧ (r.state v).w.mretInstr = false := by
  refine always_between ⟨by simp [(r.m_bubble t₁ hm).1], hw⟩ fun v h₁ h₂ ih => ⟨?_, ?_⟩
  · rcases r.m_cases v with ⟨-, hm, -⟩ | ⟨-, -, hs, hm, -, -⟩ | ⟨-, -, hm, -, -⟩
    · simp [hm]
    · have hno := hfirst.not_before v h₁ h₂
      have hce : (r.state v).ce.mretInstr = false := by
        simpa [State.mretLeavesE, State.leavesE, hs] using hno
      rw [hm]
      exact hce
    · rw [hm, ih.1]
  · rw [r.succ_w]
    exact ih.1

/-- The first `mret` after a cycle without a trap, with nothing further down the pipeline, restores
`MIE` from the `MPIE` of that cycle. -/
theorem mie_restored {t₁ t₂ : ℕ} (hm : (r.state t₁).m.validPc = false)
    (hw : (r.state t₁).w.mretInstr = false) (htrap : (r.state t₁).trapCaughtW = false)
    (hfirst : First (fun v => (r.state v).mretLeavesE (r.inputs v) = true) t₁ t₂)
    (hK : r.ProperTrap t₂) (hno : r.NoTrap t₁ (t₂ + 2)) :
    (r.state (t₂ + 3)).csr.mstatusMie = (r.state t₁).csr.mstatusMpie := by
  have hle := hfirst.le
  have hclear := no_mret_until hm hw hfirst
  have htrap_at : ∀ v, t₁ ≤ v → v ≤ t₂ + 2 → (r.state v).trapCaughtW = false := by
    intro v h₁ h₂
    rcases Nat.lt_or_eq_of_le h₁ with h | rfl
    · exact hno v h h₂
    · exact htrap
  have hw₁ : (r.state (t₂ + 1)).w.mretInstr = false := by
    rw [r.succ_w]
    exact (hclear t₂ hle le_rfl).1
  -- `MPIE` stays until the `mret` is in write-back
  have hmpie : (r.state (t₂ + 2)).csr.mstatusMpie = (r.state t₁).csr.mstatusMpie := by
    refine eq_of_stable (f := fun v => (r.state v).csr.mstatusMpie) (by omega) fun v h₁ h₂ => ?_
    have hmret : (r.state v).w.mretInstr = false := by
      rcases Nat.lt_or_eq_of_le (Nat.lt_succ_iff.mp h₂) with h | h
      · exact (hclear v h₁ (by omega)).2
      · rw [h, hw₁]
    rw [succ_mstatusMpie, htrap_at v h₁ (by omega), hmret]
    simp
  have hmret := w_mret_of_mretLeavesE hfirst.holds hK (htrap_at t₂ hle (by omega))
  rw [succ_mstatusMie, htrap_at (t₂ + 2) (by omega) le_rfl, hmret]
  simpa using hmpie

variable (r)

/-- An `ecall` at `0x14` with interrupts enabled, whose handler at `0x40` is an `mret`. -/
def callBench : TestBench :=
  interruptBench ([0x00000073] ++ List.replicate 10 0x00000013 ++ [0x30200073]) 1000

variable {r}

/-! ## The interrupted instruction -/

/-- The general registers and the CSRs that a trap does not write. -/
structure SameContext (s s' : State) : Prop where
  regs : ∀ a, a ≠ 0 → s'.regMem a = s.regMem a
  mscratch : s'.csr.mscratch = s.csr.mscratch
  mtvec : s'.csr.mtvec = s.csr.mtvec
  mie : s'.csr.mie = s.csr.mie

/-- The addresses of the CSRs that belong to the context a handler has to keep: `mscratch`, `mtvec`
and `mie`. -/
def contextCsrs : List (BitVec 12) := [csrMscratchAddr, csrMtvecAddr, csrMieAddr]

/-- What one of these CSRs reads as once `value` has been written to it. -/
def writtenAs (addr : BitVec 12) (value : BitVec 32) : BitVec 32 :=
  if addr = csrMieAddr then
    CsrExec.interruptBits (value.getLsbD 11) (value.getLsbD 7) (value.getLsbD 3)
  else value

/-- Two states have the same context if and only if they agree in the registers other than `x0` and
in what the three CSRs read as. -/
theorem sameContext_iff {s s' : State} : SameContext s s' ↔
    (∀ a, a ≠ 0 → s'.regMem a = s.regMem a) ∧
      ∀ a ∈ contextCsrs, s'.csr.readCsr a = s.csr.readCsr a := by
  constructor
  · intro h
    refine ⟨h.regs, fun a ha => ?_⟩
    simp only [contextCsrs, List.mem_cons, List.not_mem_nil, or_false] at ha
    rcases ha with rfl | rfl | rfl
    · exact h.mscratch
    · exact h.mtvec
    · exact h.mie
  · rintro ⟨hregs, hcsrs⟩
    exact ⟨hregs, hcsrs csrMscratchAddr (by decide), hcsrs csrMtvecAddr (by decide),
      hcsrs csrMieAddr (by decide)⟩

/-- Every state has the same context as itself. -/
theorem SameContext.refl (s : State) : SameContext s s := ⟨fun _ _ => rfl, rfl, rfl, rfl⟩

/-- The relation of having the same context is transitive. -/
theorem SameContext.trans {s s' s'' : State} (h : SameContext s s') (h' : SameContext s' s'') :
    SameContext s s'' :=
  ⟨fun a ha => (h'.regs a ha).trans (h.regs a ha), h'.mscratch.trans h.mscratch,
    h'.mtvec.trans h.mtvec, h'.mie.trans h.mie⟩

/-- One clock edge leaves such a CSR as it is or writes it; a trap makes no difference. -/
theorem readCsr_next_of_context {a : BitVec 12} (ha : a ∈ contextCsrs) (c : CsrExec)
    (w : CsrWriteback) (e t : Bool) (pc : BitVec 32) :
    (c.next w e t pc).readCsr a = if w.writes a then writtenAs a w.writeValue else c.readCsr a := by
  simp only [contextCsrs, List.mem_cons, List.not_mem_nil, or_false] at ha
  rcases ha with rfl | rfl | rfl
  · rfl
  · change (c.next w e t pc).mtvec = if _ then w.writeValue else c.mtvec
    simp only [CsrExec.mtvec, CsrExec.next]
    split_ifs
    · exact BitVec.extractLsb'_append_extractLsb' (w := 30)
    · rfl
  · change (c.next w e t pc).mie =
      if _ then CsrExec.interruptBits (w.writeValue.getLsbD 11) (w.writeValue.getLsbD 7)
        (w.writeValue.getLsbD 3) else c.mie
    simp only [CsrExec.mie, CsrExec.next]
    split_ifs <;> rfl

/-- A CSR of the context changes only by a CSR write to it in write-back, which also a trap does not
touch. -/
theorem succ_readCsr_of_context {a : BitVec 12} (ha : a ∈ contextCsrs) (t : ℕ) :
    (r.state (t + 1)).csr.readCsr a =
      if (r.state t).w.csrWrite = true ∧ (r.state t).w.csrAddress = a then
        writtenAs a (r.state t).w.outWriteCsr
      else (r.state t).csr.readCsr a := by
  have hwrites : (r.state t).csrWriteback.writes a = true ↔
      (r.state t).w.csrWrite = true ∧ (r.state t).w.csrAddress = a := by
    simp [CsrWriteback.writes, State.csrWriteback, and_comm]
  rw [r.succ_csr, readCsr_next_of_context ha]
  simp only [hwrites]
  rfl

/-- A register changes only when write-back writes it, with the result of the instruction there. -/
theorem succ_regMem_apply (t : ℕ) (a : BitVec 5) :
    (r.state (t + 1)).regMem a =
      if (r.state t).regFileWriteEnable = true ∧ (r.state t).w.rd = a then (r.state t).resultW
      else (r.state t).regMem a := by
  rw [r.succ_regMem, State.regMemNext]
  simp only [eq_comm]

/-- A cycle in which write-back writes no register, and no CSR of the context. -/
theorem sameContext_succ (t : ℕ)
    (hreg : (r.state t).regFileWriteEnable = true → (r.state t).w.rd = 0)
    (hcsr : (r.state t).w.csrWrite = false) : SameContext (r.state t) (r.state (t + 1)) := by
  refine sameContext_iff.mpr ⟨fun a ha => ?_, fun a ha => ?_⟩
  · rw [succ_regMem_apply, if_neg]
    rintro ⟨hen, rfl⟩
    exact ha (hreg hen)
  · rw [succ_readCsr_of_context ha, hcsr, if_neg]
    simp

variable (r)

/-- What the interrupted instruction, which write-back holds from cycle `t` to the trap of cycle
`t₀`, and the one behind it, which the memory stage holds in cycle `t₀`, get through to the
registers and to `mscratch`, `mtvec` and `mie` is what these held in cycle `t`.

Four writes get through: those of a load that waits, which passes what the bus shows to its
destination in every cycle before it is flagged (`load`), that of an instruction behind that is not
flagged itself (`behind`), and the CSR writes of both (`csr`, `csr_behind`). Of two writes to the
same place only the last counts. -/
structure Traceless (t t₀ : ℕ) : Prop where
  load : (r.state t₀).cw.regWrite = true → (r.state t₀).cw.resultSrc = 0b01 →
    (r.state t₀).w.rd ≠ 0 →
    ((r.state t₀).handsOn = true → (r.state t₀).m.rd ≠ (r.state t₀).w.rd) →
      ∀ v, t ≤ v → v < t₀ → (r.state v).regFileWriteEnable = true →
        (∀ u, v < u → u < t₀ → (r.state u).regFileWriteEnable ≠ true) →
          (r.state v).resultW = (r.state t).regMem (r.state t₀).w.rd
  behind : (r.state t₀).handsOn = true → (r.state t₀).m.rd ≠ 0 →
    (r.state (t₀ + 1)).resultW = (r.state t).regMem (r.state t₀).m.rd
  csr : (r.state t₀).w.csrWrite = true → (r.state t₀).w.csrAddress ∈ contextCsrs →
    ((r.state t₀).m.csrWrite = true → (r.state t₀).m.csrAddress ≠ (r.state t₀).w.csrAddress) →
      writtenAs (r.state t₀).w.csrAddress (r.state t₀).w.outWriteCsr =
        (r.state t).csr.readCsr (r.state t₀).w.csrAddress
  csr_behind : (r.state t₀).m.csrWrite = true → (r.state t₀).m.csrAddress ∈ contextCsrs →
    writtenAs (r.state t₀).m.csrAddress (r.state t₀).m.outWriteCsr =
      (r.state t).csr.readCsr (r.state t₀).m.csrAddress

variable {r}

/-- A legal load or store in the memory stage writes no CSR, and a register only as a load. -/
theorem m_loadStore {t : ℕ} (hls : (r.state t).cm.loadStore = true)
    (hill : (r.state t).m.illegalInstruction = false) :
    (r.state t).m.csrWrite = false ∧
      ((r.state t).cm.regWrite = true → (r.state t).cm.resultSrc = 0b01) := by
  obtain ⟨q, -, hvq, -, -, hm, hc⟩ := r.m_origin t (m_valid_of_loadStore hls)
  obtain ⟨u, -, -, he, hce, -, hof⟩ := r.e_origin_legal q hvq (by rw [← hill, hm]; rfl)
  rw [hc] at hls ⊢
  rw [hm]
  simp only [State.controlInputM, State.memoryInput, hce, he, State.controlInputE,
    State.executeInput] at hls ⊢
  obtain ⟨-, -, hcsr, -, hsrc⟩ := hof.loadStore hls
  exact ⟨hcsr, hsrc⟩

/-- While an instruction waits in the memory stage, what reaches write-back of it changes nothing
but the destination of a load. -/
theorem kept_of_waiting {q s t : ℕ} (hqs : q ≤ s) (hst : s < t)
    (hv : (r.state q).m.validPc = true) (hv' : (r.state t).m.validPc = true)
    (hstamp : r.stampM t = r.stampM q) (hill : (r.state t).m.illegalInstruction = false) :
    (∀ a, ¬ ((r.state t).cm.regWrite = true ∧ (r.state t).cm.resultSrc = 0b01 ∧
        (r.state t).m.rd = a) → (r.state (s + 2)).regMem a = (r.state (s + 1)).regMem a) ∧
      ∀ a ∈ contextCsrs, (r.state (s + 2)).csr.readCsr a = (r.state (s + 1)).csr.readCsr a := by
  obtain ⟨hm, hc, hs⟩ := r.m_eq_of_stamp hv hv' hstamp s hqs hst.le
  obtain ⟨hm', hc', -⟩ := r.m_eq_of_stamp hv hv' hstamp t (by omega) le_rfl
  rw [hm', ← hm] at hill ⊢
  rw [hc', ← hc]
  -- only a load or store waits
  have hls : (r.state s).cm.loadStore = true := by
    have := hs hst
    simp only [State.stallM, Bool.and_eq_true] at this
    exact this.1
  obtain ⟨hcsr, hsrc⟩ := m_loadStore hls hill
  have hw := r.succ_w s
  refine ⟨fun a hload => ?_, fun a ha => ?_⟩
  · rw [succ_regMem_apply, if_neg]
    rintro ⟨hen, hrd⟩
    simp only [State.regFileWriteEnable, Bool.and_eq_true, r.succ_cw] at hen
    rw [hw] at hrd
    exact hload ⟨hen.1, hsrc hen.1, hrd⟩
  · rw [succ_readCsr_of_context ha, hw, if_neg]
    simp [State.writebackInput, hcsr]

/-- An interrupted instruction changes nothing while it waits, but the destination of a load. -/
theorem kept_until_trap {t₀ t : ℕ} (htrap : (r.state t₀).trapCaughtW = true)
    (hv : (r.state t₀).w.validPc = true) (hintr : (r.state t₀).csrWriteback.isException = false)
    (hle : t ≤ t₀) (hv' : (r.state t).w.validPc = true) (hst : r.stampW t = r.stampW t₀) :
    (∀ a, ¬ ((r.state t₀).cw.regWrite = true ∧ (r.state t₀).cw.resultSrc = 0b01 ∧
        (r.state t₀).w.rd = a) → (r.state t₀).regMem a = (r.state t).regMem a) ∧
      ∀ a ∈ contextCsrs, (r.state t₀).csr.readCsr a = (r.state t).csr.readCsr a := by
  obtain ⟨q₀, rfl, -⟩ := exists_exception_of_trap htrap
  cases t with
  | zero => simp at hv'
  | succ q =>
    rw [r.stampW_succ, r.stampW_succ] at hst
    have hw := r.succ_w q₀
    have hmv : (r.state q₀).m.validPc = true := by
      rw [hw] at hv
      exact hv
    have hmv' : (r.state q).m.validPc = true := by
      rw [r.succ_w] at hv'
      exact hv'
    have hill : (r.state q₀).m.illegalInstruction = false := by
      simp only [CsrWriteback.isException, State.csrWriteback, hw, State.writebackInput,
        Bool.or_eq_false_iff] at hintr
      exact hintr.1.1.1.2
    rw [r.succ_cw, hw]
    -- every cycle in between is one of waiting
    have hwait : ∀ v, q + 1 ≤ v → v < q₀ + 1 → _ := fun v h₁ h₂ =>
      kept_of_waiting (q := q) (s := v - 1) (t := q₀) (by omega) (by omega) hmv' hmv hst.symm hill
    refine ⟨fun a hload => ?_, fun a ha => ?_⟩
    · refine eq_of_stable (f := fun v => (r.state v).regMem a) hle fun v h₁ h₂ => ?_
      have := (hwait v h₁ h₂).1 a hload
      rwa [show v - 1 + 2 = v + 1 by omega, show v - 1 + 1 = v by omega] at this
    · refine eq_of_stable (f := fun v => (r.state v).csr.readCsr a) hle fun v h₁ h₂ => ?_
      have := (hwait v h₁ h₂).2 a ha
      rwa [show v - 1 + 2 = v + 1 by omega, show v - 1 + 1 = v by omega] at this

/-- The destination of the instruction in write-back stays the same while it waits there. -/
theorem rd_until_trap {t₀ t : ℕ} (htrap : (r.state t₀).trapCaughtW = true)
    (hv : (r.state t₀).w.validPc = true) (hv' : (r.state t).w.validPc = true)
    (hst : r.stampW t = r.stampW t₀) :
    ∀ v, t ≤ v → v < t₀ → (r.state v).w.rd = (r.state t₀).w.rd := by
  intro v h₁ h₂
  obtain ⟨q₀, rfl, -⟩ := exists_exception_of_trap htrap
  obtain ⟨q, rfl⟩ : ∃ q, t = q + 1 := by
    cases t with
    | zero => simp at hv'
    | succ q => exact ⟨q, rfl⟩
  obtain ⟨s, rfl⟩ : ∃ s, v = s + 1 := ⟨v - 1, by omega⟩
  rw [r.stampW_succ, r.stampW_succ] at hst
  rw [r.succ_w] at hv hv'
  obtain ⟨hm, -, -⟩ := r.m_eq_of_stamp hv' hv hst.symm s (by omega) (by omega)
  obtain ⟨hm₀, -, -⟩ := r.m_eq_of_stamp hv' hv hst.symm q₀ (by omega) le_rfl
  rw [r.succ_w, r.succ_w, State.writebackInput, State.writebackInput, hm, hm₀]

/-- The destination of a load that is interrupted while it waits has its old value in the trap cycle
exactly if the last word that the load has passed on to it was that value. -/
theorem load_until_trap {t₀ t : ℕ} (htrap : (r.state t₀).trapCaughtW = true)
    (hv : (r.state t₀).w.validPc = true) (hle : t ≤ t₀) (hv' : (r.state t).w.validPc = true)
    (hst : r.stampW t = r.stampW t₀) :
    (r.state t₀).regMem (r.state t₀).w.rd = (r.state t).regMem (r.state t₀).w.rd ↔
      ∀ v, t ≤ v → v < t₀ → (r.state v).regFileWriteEnable = true →
        (∀ u, v < u → u < t₀ → (r.state u).regFileWriteEnable ≠ true) →
          (r.state v).resultW = (r.state t).regMem (r.state t₀).w.rd := by
  have hrd := rd_until_trap htrap hv hv' hst
  refine eq_iff_last_write (p := fun v => (r.state v).regFileWriteEnable = true)
    (f := fun v => (r.state v).regMem (r.state t₀).w.rd) (g := fun v => (r.state v).resultW) hle
    fun v h₁ h₂ => ?_
  rw [succ_regMem_apply, hrd v h₁ h₂]
  simp only [and_true]

/-- From the second cycle after a trap on nothing changes before the handler. -/
theorem sameContext_after_trap {t₀ t₁ : ℕ} (htrap : (r.state t₀).trapCaughtW = true)
    (hin : r.FirstEntry t₀ t₁) : SameContext (r.state (t₀ + 2)) (r.state t₁) := by
  have hempty := empty_after_trap htrap (no_entry_before hin)
  -- nothing is in decode in the cycle after the trap
  have hlt : t₀ + 2 ≤ t₁ := by
    have hlt := lt_of_first_entry htrap hin
    have hne : t₀ + 1 ≠ t₁ := by
      rintro rfl
      have := hin.holds
      simp [State.entersE, d_empty_after_trap htrap] at this
    omega
  have hkept : ∀ v, t₀ + 2 ≤ v → v ≤ t₁ → SameContext (r.state (t₀ + 2)) (r.state v) := by
    refine always_between (.refl _) fun v h₁ h₂ ih => ih.trans ?_
    -- the pipeline is empty
    obtain ⟨s, rfl⟩ : ∃ s, v = s + 1 := ⟨v - 1, by omega⟩
    obtain ⟨-, -, hcsr, hreg, -⟩ := w_of_m_empty (hempty s (by omega) (by omega)).2
    exact sameContext_succ (s + 1)
      (fun hen => by simp [State.regFileWriteEnable, hreg] at hen) hcsr
  exact hkept t₁ hlt le_rfl

/-- The registers two cycles after the trap: only the instruction behind has written one. -/
theorem regMem_of_trap {t₀ : ℕ} (htrap : (r.state t₀).trapCaughtW = true) (a : BitVec 5) :
    (r.state (t₀ + 2)).regMem a =
      if (r.state t₀).handsOn = true ∧ (r.state t₀).m.rd = a then (r.state (t₀ + 1)).resultW
      else (r.state t₀).regMem a := by
  -- the write of the register file is gated in the trap cycle
  rw [State.trapCaughtW_eq] at htrap
  have hgate : (r.state (t₀ + 1)).regMem a = (r.state t₀).regMem a := by
    rw [succ_regMem_apply, if_neg]
    simp [State.regFileWriteEnable, htrap]
  rw [succ_regMem_apply, hgate, State.regFileWriteEnable, r.succ_cw, r.succ_isInstrExceptionW,
    r.succ_w]
  rfl

/-- The CSRs of the context two cycles after the trap: the interrupted instruction has written its
CSR, and so has the one behind it. -/
theorem readCsr_of_trap {a : BitVec 12} (ha : a ∈ contextCsrs) (t₀ : ℕ) :
    (r.state (t₀ + 2)).csr.readCsr a =
      if (r.state t₀).m.csrWrite = true ∧ (r.state t₀).m.csrAddress = a then
        writtenAs a (r.state t₀).m.outWriteCsr
      else if (r.state t₀).w.csrWrite = true ∧ (r.state t₀).w.csrAddress = a then
        writtenAs a (r.state t₀).w.outWriteCsr
      else (r.state t₀).csr.readCsr a := by
  rw [succ_readCsr_of_context ha, succ_readCsr_of_context ha, r.succ_w]
  rfl

variable (r)

/-- When an interrupt trap is taken on an instruction in cycle `t₀`, the general registers and the
CSRs that a trap does not write have, when the first instruction of the handler enters execute, the
values they had in a cycle `t` in which the instruction was in write-back, if and only if the cycle
is traceless. The first such cycle `t` is the one after the last older instruction. -/
theorem interrupt_leaves_no_trace (t₀ t₁ t : ℕ) (htrap : (r.state t₀).trapCaughtW = true)
    (hintr : (r.state t₀).csrWriteback.isException = false)
    (hv : (r.state t₀).w.validPc = true) (hin : r.FirstEntry t₀ t₁)
    (hle : t ≤ t₀) (hv' : (r.state t).w.validPc = true) (hst : r.stampW t = r.stampW t₀) :
    SameContext (r.state t) (r.state t₁) ↔ r.Traceless t t₀ := by
  have hafter := sameContext_iff.mp (sameContext_after_trap htrap hin)
  obtain ⟨hregs, hcsrs⟩ := kept_until_trap htrap hv hintr hle hv' hst
  have hload := load_until_trap htrap hv hle hv' hst
  rw [sameContext_iff]
  constructor
  · rintro ⟨hr, hc⟩
    -- From equal contexts, at the address of each write that gets through, what it would have
    -- changed.
    refine ⟨fun hw hsrc hrd hm => ?_, fun hon hrd => ?_, fun hw ha hm => ?_, fun hw ha => ?_⟩
    · rw [← hload, ← hr _ hrd, hafter.1 _ hrd, regMem_of_trap htrap, if_neg fun h => hm h.1 h.2]
    · rw [← hr _ hrd, hafter.1 _ hrd, regMem_of_trap htrap, if_pos ⟨hon, rfl⟩]
    · rw [← hc _ ha, hafter.2 _ ha, readCsr_of_trap ha, if_neg fun h => hm h.1 h.2,
        if_pos ⟨hw, rfl⟩]
    · rw [← hc _ ha, hafter.2 _ ha, readCsr_of_trap ha, if_pos ⟨hw, rfl⟩]
  · intro hK
    -- For the other way the writes go address by address, the last one of an address first.
    refine ⟨fun a ha => ?_, fun a ha => ?_⟩
    · rw [hafter.1 a ha, regMem_of_trap htrap]
      split_ifs with hon
      · obtain ⟨hon, rfl⟩ := hon
        exact hK.behind hon ha
      · by_cases hwait : (r.state t₀).cw.regWrite = true ∧ (r.state t₀).cw.resultSrc = 0b01 ∧
          (r.state t₀).w.rd = a
        · obtain ⟨hw, hsrc, rfl⟩ := hwait
          exact hload.mpr (hK.load hw hsrc ha fun h hrd => hon ⟨h, hrd⟩)
        · exact hregs a hwait
    · rw [hafter.2 a ha, readCsr_of_trap ha]
      split_ifs with hm hw
      · obtain ⟨hm, rfl⟩ := hm
        exact hK.csr_behind hm ha
      · obtain ⟨hw, rfl⟩ := hw
        exact hK.csr hw ha fun h hadr => hm ⟨h, hadr⟩
      · exact hcsrs a ha

/-- `addi x3, x0, 5` interrupted: `x3` still has its old value. -/
theorem interrupt_leaves_no_trace_addi :
    SameContext ((interruptBench [0x00500193] 15).run₁.state 21)
      ((interruptBench [0x00500193] 15).run₁.state 27) :=
  (interrupt_leaves_no_trace (interruptBench [0x00500193] 15).run₁ 21 27 21 (by decide +kernel)
    (by decide +kernel) (by decide +kernel) (by decide +kernel) le_rfl (by decide +kernel) rfl).mpr
    ⟨fun _ hsrc => absurd hsrc (by decide +kernel), by decide +kernel, by decide +kernel,
      by decide +kernel⟩

/-- `csrrw x1, mscratch, x1` interrupted: it has written `mscratch`, and will be executed again. -/
theorem interrupted_csrrw_writes :
    ∃ (r : Run TestBench.zeros) (rom : BitVec 32 → BitVec 32) (t₀ t₁ : ℕ),
      r.Exact ∧ r.InstrSlave rom ∧ r.DataSlave ∧ (r.state t₀).trapCaughtW = true ∧
        (r.state t₀).csrWriteback.isException = false ∧ (r.state t₀).w.validPc = true ∧
        (∀ t < t₀, r.stampW t < r.stampW t₀) ∧ (r.state t₀).w.pc = 0x14 ∧
        rom 0x14 = 0x340090f3 ∧ r.FirstEntry t₀ t₁ ∧ (r.state t₀).csr.mscratch = 0 ∧
        (r.state t₁).csr.mscratch = 0xffffffff :=
  ⟨(interruptBench [0x340090f3] 15).run₁, _, 21, 27, TestBench.run₁_exact _,
    TestBench.run₁_instrSlave _, TestBench.run₁_dataSlave _, by decide +kernel⟩

end Run

end RvPipelineCore

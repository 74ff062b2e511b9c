import RvPipelineCore.Divide
import RvPipelineCore.Faults
import RvPipelineCore.Traps

/-!
# Precise exceptions

`Run.precise_exceptions`: with slaves that wait and no interrupts, a synchronous exception is
precise unless a divide is in decode in the trap cycle. From the cycle in which the faulty
instruction reaches the memory stage to the one in which the handler starts, nothing writes a
register or starts a transfer, and the trap CSRs describe the fault.

A divide in decode in the trap cycle is flushed, but has set `div_pending` by then. Nothing clears
the flag any more (`Run.Orphan`), so the handler is never entered.
-/

namespace RvPipelineCore

open Temporal

namespace Run

variable {x : DontCare} {r : Run x} {rom : BitVec 32 → BitVec 32}

/-! ## The faulty instruction -/

/-- The instruction on which the trap of cycle `t₀` is taken leaves execute in cycle `q`, alone in
the pipeline. -/
structure Faulty (r : Run x) (t₀ q : ℕ) : Prop where
  lt : q + 1 < t₀
  valid : (r.state q).e.validPc = true
  moves : (r.state q).stallE (r.inputs q) = false
  stamp : r.stampE q = r.stampW t₀
  m_eq : (r.state (q + 1)).m = (r.state q).memoryInput
  cm_eq : (r.state (q + 1)).cm = (r.state q).controlInputM
  stamp_m : r.stampM (q + 1) = r.stampW t₀
  /-- It stays in the memory stage, if at all, to the cycle before the trap. -/
  held : ∀ v, q < v → v < t₀ →
    (r.state v).m = (r.state (q + 1)).m ∧ (r.state v).cm = (r.state (q + 1)).cm
  fault : (r.state (q + 1)).syncExceptionM = true

/-- In a run with waiting slaves every trap is taken on an instruction that was faulty when it left
execute. -/
theorem Delayed.exists_faulty (h : r.Delayed rom) {t₀ : ℕ}
    (htrap : (r.state t₀).trapCaughtW = true) : ∃ q, Faulty r t₀ q := by
  obtain ⟨s, rfl, hx⟩ := exists_exception_of_trap htrap
  have hv := h.m_valid_of_exception hx
  rw [h.isInstrExceptionM_eq] at hx
  obtain ⟨q, hq, hvq, hse, hst, hm, hc⟩ := r.m_origin s hv
  have hpm := (h.spaced q).pendingExceptionM hvq
  -- the instruction reaches the memory stage one cycle after it leaves execute
  have hse' := hse
  simp only [State.stallE, Bool.or_eq_false_iff] at hse'
  rcases r.m_cases q with ⟨hf, -⟩ | ⟨-, -, -, hm', hc', hst'⟩ | ⟨-, hsm, -⟩
  · simp [State.flushM, hpm, hse'.2] at hf
  · have hv' : (r.state (q + 1)).m.validPc = true := by
      rw [hm']
      exact hvq
    have hheld := r.m_eq_of_stamp hv' hv (hst.trans hst'.symm)
    refine ⟨q, by omega, hvq, hse, by rw [r.stampW_succ, hst], hm', hc', ?_, ?_, ?_⟩
    · rw [r.stampW_succ, hst', hst]
    · intro v h₁ h₂
      have := hheld v h₁ (by omega)
      exact ⟨this.1, this.2.1⟩
    · rw [← State.syncExceptionM_congr _ (hheld s (by omega) le_rfl).1
        (hheld s (by omega) le_rfl).2.1, hx]
  · simp [hse'.1] at hsm

namespace Faulty

variable {t₀ q : ℕ}

/-- The faulty instruction is valid in the memory stage. -/
theorem m_valid (hX : Faulty r t₀ q) : (r.state (q + 1)).m.validPc = true := by
  rw [hX.m_eq]
  exact hX.valid

/-- The faulty instruction is flagged as long as it is in the memory stage. -/
theorem sync (hX : Faulty r t₀ q) {v : ℕ} (h₁ : q < v) (h₂ : v < t₀) :
    (r.state v).syncExceptionM = true := by
  obtain ⟨hm, hc⟩ := hX.held v h₁ h₂
  rw [State.syncExceptionM_congr _ hm hc, hX.fault]

/-- Nothing is in decode while the instruction moves on to the trap. -/
theorem d_empty (hX : Faulty r t₀ q) (h : r.Delayed rom) {v : ℕ} (h₁ : q ≤ v) (h₂ : v < t₀) :
    (r.state v).d.isDecodeFlush = false := by
  by_contra hd
  rw [Bool.not_eq_false] at hd
  obtain ⟨-, he, -, -, hsync⟩ := (h.spaced v).decode hd
  rcases Nat.lt_or_eq_of_le h₁ with hlt | rfl
  · simp [hX.sync hlt h₂] at hsync
  · simp [hX.valid] at he

/-- No instruction enters execute behind the faulty one before the first of the handler does. -/
theorem no_entry (hX : Faulty r t₀ q) (h : r.Delayed rom)
    (htrap : (r.state t₀).trapCaughtW = true) {t₁ : ℕ} (hin : r.FirstEntry t₀ t₁) :
    ∀ v, q ≤ v → v < t₁ → (r.state v).entersE (r.inputs v) = false := by
  intro v h₁ h₂
  rcases lt_trichotomy v t₀ with hlt | rfl | hlt
  · simp [State.entersE, hX.d_empty h h₁ hlt]
  · exact entersE_of_trap htrap
  · exact no_entry_before hin v hlt h₂

end Faulty

/-! ## Behind the faulty instruction -/

/-- While no instruction enters an empty execute, the memory stage keeps what it has or empties. -/
theorem m_kept {a b : ℕ} (he : (r.state a).e.validPc = false)
    (hno : ∀ v, a ≤ v → v < b → (r.state v).entersE (r.inputs v) = false) :
    ∀ v, a ≤ v → v ≤ b → (r.state v).e.validPc = false ∧ ((r.state v).m.validPc = false ∨
      ((r.state v).m = (r.state a).m ∧ (r.state v).cm = (r.state a).cm)) := by
  refine always_between ⟨he, .inr ⟨rfl, rfl⟩⟩ ?_
  rintro v h₁ h₂ ⟨hev, hmv⟩
  refine ⟨r.e_empty_succ v (.inl hev) (hno v h₁ h₂), ?_⟩
  rcases r.m_cases v with ⟨-, hm, -⟩ | ⟨-, -, -, hm, -, -⟩ | ⟨-, -, hm, hc, -⟩
  · exact .inl (by simp [hm])
  · refine .inl ?_
    rw [hm]
    exact hev
  · rw [hm, hc]
    exact hmv

/-- What the CSR unit sees of write-back is determined by the memory stage of the cycle before. -/
theorem csrWriteback_congr (h : r.Delayed rom) {s t : ℕ} (hm : (r.state s).m = (r.state t).m)
    (hc : (r.state s).cm = (r.state t).cm) :
    (r.state (s + 1)).csrWriteback = (r.state (t + 1)).csrWriteback := by
  have hs := h.interruptM s
  have ht := h.interruptM t
  simp only [State.interruptM, Bool.or_eq_false_iff] at hs ht
  simp only [State.csrWriteback, State.addrExceptW, r.succ_w, State.writebackInput,
    State.storeMisalignedM, State.loadMisalignedM, State.readAddressM, hm, hc, hs, ht]

namespace Faulty

variable {t₀ q t₁ : ℕ}

/-- From the cycle in which the faulty instruction reaches the memory stage to the start of the
handler, write-back writes neither a register nor a CSR, and any trap is that of the instruction. -/
theorem writeback (hX : Faulty r t₀ q) (h : r.Delayed rom)
    (htrap : (r.state t₀).trapCaughtW = true) (hin : r.FirstEntry t₀ t₁) {v : ℕ} (h₁ : q < v)
    (h₂ : v ≤ t₁) :
    (r.state v).w.csrWrite = false ∧ (r.state v).regFileWriteEnable = false ∧
      ((r.state v).trapCaughtW = true →
        (r.state v).csrWriteback = (r.state t₀).csrWriteback) := by
  have hkept := m_kept ((h.spaced (q + 1)).e_empty hX.m_valid) fun v h₁ h₂ =>
    hX.no_entry h htrap hin v (by omega) h₂
  obtain ⟨p, rfl⟩ : ∃ p, v = p + 1 := ⟨v - 1, by omega⟩
  -- the memory stage of the cycle before held the instruction or nothing
  have hcase : (r.state p).m.validPc = false ∨ ((r.state p).m = (r.state (q + 1)).m ∧
      (r.state p).cm = (r.state (q + 1)).cm) := by
    rcases Nat.lt_or_eq_of_le (Nat.lt_succ_iff.mp h₁) with hlt | rfl
    · exact (hkept p hlt (by omega)).2
    · exact .inl ((h.spaced _).execute hX.valid).2.1
  rcases hcase with hempty | ⟨hm, hc⟩
  · obtain ⟨-, -, hcsr, hreg, hno⟩ := w_of_m_empty hempty
    refine ⟨hcsr, by simp [State.regFileWriteEnable, hreg], fun ht => ?_⟩
    simp [hno (h.interruptM p)] at ht
  · have hsync : (r.state p).syncExceptionM = true := by
      rw [State.syncExceptionM_congr _ hm hc, hX.fault]
    refine ⟨?_, ?_, fun _ => ?_⟩
    · rw [r.succ_w, State.writebackInput, hm]
      exact (h.singleFault hX.m_valid).csrWrite hX.fault
    · simp [State.regFileWriteEnable, r.succ_isInstrExceptionW, State.isInstrExceptionM_eq, hsync]
    · obtain ⟨s, rfl, -⟩ := exists_exception_of_trap htrap
      have hlt := hX.lt
      obtain ⟨hm', hc'⟩ := hX.held s (by omega) (by omega)
      exact csrWriteback_congr h (hm.trans hm'.symm) (hc.trans hc'.symm)

/-- No transfer starts on the data bus from the cycle in which the faulty instruction leaves execute
up to the start of the handler. -/
theorem not_starts (hX : Faulty r t₀ q) (h : r.Delayed rom)
    (htrap : (r.state t₀).trapCaughtW = true) (hin : r.FirstEntry t₀ t₁) {v : ℕ} (h₁ : q < v)
    (h₂ : v ≤ t₁) : ¬ r.Starts v := by
  intro hs
  obtain ⟨hls, hsync⟩ := hs.owner
  have hkept := m_kept ((h.spaced (q + 1)).e_empty hX.m_valid) fun v h₁ h₂ =>
    hX.no_entry h htrap hin v (by omega) h₂
  rcases (hkept v h₁ h₂).2 with hempty | ⟨hm, hc⟩
  · simp [cm_loadStore_of_empty hempty] at hls
  · simp [State.syncExceptionM_congr _ hm hc, hX.fault] at hsync

/-- No register and none of `mscratch`, `mtvec`, `mie` and `mip` changes. -/
theorem sameContext (hX : Faulty r t₀ q) (h : r.Delayed rom)
    (htrap : (r.state t₀).trapCaughtW = true) (hin : r.FirstEntry t₀ t₁) :
    ∀ v, q + 1 ≤ v → v ≤ t₁ → SameContext (r.state (q + 1)) (r.state v) ∧
      (r.state v).csr.mip = (r.state (q + 1)).csr.mip := by
  refine always_between ⟨.refl _, rfl⟩ ?_
  rintro v h₁ h₂ ⟨hctx, hmip⟩
  obtain ⟨hcsr, hreg, -⟩ := hX.writeback h htrap hin h₁ h₂.le
  -- write-back holds nothing that could write, as the instruction in it is flagged
  refine ⟨hctx.trans ?_, ?_⟩
  · exact sameContext_succ v (by simp [hreg]) hcsr
  -- without interrupts the bits of `mip` are not set either
  · obtain ⟨p, rfl⟩ : ∃ p, v = p + 1 := ⟨v - 1, by omega⟩
    have hint := h.interruptM p
    simp only [State.interruptM, Bool.or_eq_false_iff] at hint
    have hw : (r.state (p + 1)).w.interruptExternal = false ∧
        (r.state (p + 1)).w.interruptTimer = false := by
      rw [r.succ_w]
      exact hint
    rw [← hmip, r.succ_csr]
    simp [CsrExec.mip, CsrExec.next, CsrWriteback.writes, State.csrWriteback, hcsr, hw]

end Faulty

/-! ## The trap CSRs -/

/-- The trap CSRs describe the fault of the instruction in `w`: its PC, the code of its fault, and
the faulting address, which is 0 for an illegal instruction. -/
structure Recorded (rom : BitVec 32 → BitVec 32) (w : WritebackReg) (c : CsrExec) : Prop where
  mepc : c.mepc = w.pc
  transfer : w.instrAddrMisaligned = true → c.mcause = 0 ∧ c.mtval = w.pcTarget
  illegal : w.illegalInstruction = true → c.mcause = 2 ∧ c.mtval = 0
  load : w.loadMisaligned = true → c.mcause = 4 ∧ c.mtval = w.aluResult
  store : w.storeMisaligned = true → c.mcause = 6 ∧ c.mtval = w.aluResult
  /-- `ecall` and `ebreak`. -/
  environment : w.envCallInstr = true → immITypeOf (rom w.pc) = 0 ∧ c.mcause = 11 ∨
    immITypeOf (rom w.pc) = 1 ∧ c.mcause = 3

/-- Whether the trap CSRs record a fault depends on `mepc`, `mcause` and `mtval` only. -/
theorem Recorded.congr {w : WritebackReg} {c c' : CsrExec} (h : Recorded rom w c)
    (hmepc : c'.mepcR = c.mepcR) (hint : c'.interrupt = c.interrupt)
    (hcode : c'.exceptionCode = c.exceptionCode) (hmtval : c'.mtval = c.mtval) :
    Recorded rom w c' := by
  have hm : c'.mepc = c.mepc := by rw [CsrExec.mepc, hmepc, CsrExec.mepc]
  have hc : c'.mcause = c.mcause := by rw [CsrExec.mcause, hint, hcode, CsrExec.mcause]
  obtain ⟨h₁, h₂, h₃, h₄, h₅, h₆⟩ := h
  rw [← hm] at h₁
  rw [← hc] at h₂ h₃ h₄ h₅ h₆
  rw [← hmtval] at h₂ h₃ h₄ h₅
  exact ⟨h₁, h₂, h₃, h₄, h₅, h₆⟩

/-- An exception in write-back puts its code into `mcause`, with the interrupt flag clear. -/
theorem next_mcause (c : CsrExec) (w : CsrWriteback) (e t : Bool) (pc : BitVec 32)
    (hx : w.isException = true) :
    (c.next w e t pc).mcause = 0#28 ++ w.mtrapCause c.mtrapCause := by
  simp only [CsrExec.mcause, CsrExec.next, CsrWriteback.trapCaught, hx, Bool.true_or, if_true]
  rfl

/-- An exception in write-back puts the faulting address into `mtval`, or zero for an illegal
instruction. -/
theorem next_mtval (c : CsrExec) (w : CsrWriteback) (e t : Bool) (pc : BitVec 32)
    (hx : w.isException = true) :
    (c.next w e t pc).mtval = if w.illegalInstruction then 0 else w.addrExcept := by
  simp only [CsrExec.next, CsrWriteback.trapCaught, hx, Bool.true_or, if_true]

/-- The 31 bits that `mepc` keeps are all of an even address. -/
theorem append_extract (pc : BitVec 32) (h : pc.getLsbD 0 = false) :
    pc.extractLsb' 1 31 ++ 0#1 = pc := by
  have h0 : pc.extractLsb' 0 1 = 0#1 := by
    ext i hi
    obtain rfl : i = 0 := by omega
    rw [BitVec.getElem_extractLsb', BitVec.getElem_zero]
    exact h
  rw [← h0]
  exact BitVec.extractLsb'_append_extractLsb' (w := 31)

namespace Faulty

variable {t₀ q t₁ : ℕ}

/-- In the trap cycle write-back holds the faulty instruction, as the memory stage has handed it
on. -/
theorem w_eq (hX : Faulty r t₀ q) :
    ∃ s, t₀ = s + 1 ∧ (r.state t₀).w = (r.state s).writebackInput (r.inputs s) ∧
      (r.state s).m = (r.state q).memoryInput ∧ (r.state s).cm = (r.state q).controlInputM ∧
      (r.state s).syncExceptionM = true := by
  obtain ⟨s, rfl⟩ : ∃ s, t₀ = s + 1 := ⟨t₀ - 1, by have := hX.lt; omega⟩
  have hlt := hX.lt
  obtain ⟨hm, hc⟩ := hX.held s (by omega) (by omega)
  exact ⟨s, rfl, r.succ_w s, hm.trans hX.m_eq, hc.trans hX.cm_eq, hX.sync (by omega) (by omega)⟩

/-- The environment immediate of an `ecall` or `ebreak` is 0 or 1. -/
theorem environment (hX : Faulty r t₀ q) (h : r.Delayed rom)
    (henv : (r.state q).e.envCallInstr = true) :
    (r.state q).e.csrAddress = immITypeOf (rom (r.state q).e.pc) ∧
      ((r.state q).e.csrAddress = 0 ∨ (r.state q).e.csrAddress = 1) := by
  obtain ⟨u, -, -, he, -, -, hinstr, -⟩ := r.e_decoded h.instr q hX.valid
  have hill : (r.state q).e.illegalInstruction = false := by
    by_contra hill
    simp [(h.e_of_illegal hX.valid (Bool.not_eq_false _ ▸ hill)).2.2.2.1] at henv
  obtain ⟨u', -, -, he', -, -, hof⟩ := r.e_origin_legal q hX.valid hill
  refine ⟨?_, ?_⟩
  · rw [← hinstr, he]
    rfl
  · rw [he'] at henv ⊢
    exact (hof.env henv).2.2

/-- In the trap cycle write-back reports a synchronous exception to `csr_exec`. -/
theorem isException (hX : Faulty r t₀ q) : (r.state t₀).csrWriteback.isException = true := by
  obtain ⟨s, rfl, hw, -, -, hsync⟩ := hX.w_eq
  simp only [State.syncExceptionM] at hsync
  simp only [CsrWriteback.isException, State.csrWriteback, hw, State.writebackInput]
  grind

/-- The PC in write-back in the trap cycle is the PC that the faulty instruction had in execute. -/
theorem w_pc (hX : Faulty r t₀ q) : (r.state t₀).w.pc = (r.state q).e.pc := by
  obtain ⟨s, -, hw, hm, -⟩ := hX.w_eq
  rw [hw, State.writebackInput, hm]
  rfl

/-- The trap writes the PC of the instruction to `mepc`. -/
theorem mepc_next (hX : Faulty r t₀ q) (heven : EvenPc (r.state q)) (c : CsrExec) (e t : Bool)
    (pc : BitVec 32) : (c.next (r.state t₀).csrWriteback e t pc).mepc = (r.state t₀).w.pc := by
  have htrap : (r.state t₀).csrWriteback.trapCaught = true := by
    simp [CsrWriteback.trapCaught, hX.isException]
  have hpc : (r.state t₀).w.pc.getLsbD 0 = false := by rw [hX.w_pc, heven.execute]
  simp only [CsrExec.mepc, CsrExec.next, htrap, if_true]
  exact append_extract _ hpc

/-- The trap writes the trap CSRs as the fault demands. -/
theorem recorded_next (hX : Faulty r t₀ q) (h : r.Delayed rom) (heven : EvenPc (r.state q))
    (c : CsrExec) (e t : Bool) (pc : BitVec 32) :
    Recorded rom (r.state t₀).w (c.next (r.state t₀).csrWriteback e t pc) := by
  have hxw := hX.isException
  refine ⟨hX.mepc_next heven c e t pc, fun hf => ?_, fun hf => ?_, fun hf => ?_, fun hf => ?_,
    fun hf => ?_⟩
  all_goals
    -- the flag that is raised excludes the others, so `mtrap_cause` comes to it
    obtain ⟨s, rfl, hw, hm, -, -⟩ := hX.w_eq
    have hone := (h.singleFault (t := s) (by rw [hm]; exact hX.valid)).pairwise
    simp only [List.pairwise_cons, List.mem_cons, List.not_mem_nil, or_false, forall_eq_or_imp,
      forall_eq] at hone
    rw [hw] at hf
    simp only [State.writebackInput] at hf
    simp only [next_mcause _ _ _ _ _ hxw, next_mtval _ _ _ _ _ hxw, CsrWriteback.mtrapCause, hxw,
      if_true]
    simp only [State.csrWriteback, State.addrExceptW, hw, State.writebackInput]
  · simp_all
  · simp_all
  · simp_all
  · simp_all
  · have hno : (r.state s).m.instrAddrMisaligned = false ∧
        (r.state s).m.illegalInstruction = false ∧ (r.state s).loadMisalignedM = false ∧
        (r.state s).storeMisalignedM = false := by grind
    have haddr : (r.state s).m.csrAddress = (r.state q).e.csrAddress := by
      rw [hm]
      rfl
    have hpc : (r.state s).m.pc = (r.state q).e.pc := by
      rw [hm]
      rfl
    have hcall : (r.state q).e.envCallInstr = true := by
      rw [← hf, hm]
      rfl
    obtain ⟨himm, h01⟩ := hX.environment h hcall
    rw [haddr, hpc, ← himm]
    rcases h01 with h0 | h1
    · exact .inl ⟨h0, by simp [hf, hno, h0]⟩
    · exact .inr ⟨h1, by simp [hf, hno, h1]⟩

/-- The trap CSRs keep the record of the fault from the cycle after the trap until the handler
starts. -/
theorem recorded (hX : Faulty r t₀ q) (h : r.Delayed rom) (hx : r.Exact)
    (htrap : (r.state t₀).trapCaughtW = true) (hin : r.FirstEntry t₀ t₁) :
    ∀ v, t₀ + 1 ≤ v → v ≤ t₁ → Recorded rom (r.state t₀).w (r.state v).csr := by
  have hlt := hX.lt
  have hnext := hX.recorded_next h (hx.evenPc h q)
  refine always_between ?_ fun v h₁ h₂ ih => ?_
  · rw [r.succ_csr]
    exact hnext _ _ _ _
  · obtain ⟨hcsr, -, hwb⟩ := hX.writeback h htrap hin (by omega) h₂.le
    cases ht : (r.state v).trapCaughtW with
    | true =>
      -- the same instruction traps again
      rw [r.succ_csr, hwb ht]
      exact hnext _ _ _ _
    | false =>
      rw [State.trapCaughtW] at ht
      have hwr : ∀ a, (r.state v).csrWriteback.writes a = false := fun a => by
        simp [CsrWriteback.writes, State.csrWriteback, hcsr]
      refine ih.congr ?_ ?_ ?_ ?_ <;> rw [r.succ_csr] <;> simp [CsrExec.next, ht, hwr]

/-- A misaligned target that write-back reports is the target to which the faulty instruction
redirected fetch, and its bit 1 is set. -/
theorem target (hX : Faulty r t₀ q) (hmret : (r.state t₀).w.mretInstr = false)
    (hf : (r.state t₀).w.instrAddrMisaligned = true) :
    (r.state t₀).w.pcTarget = (r.state q).jumpPcTargetE ∧
      (r.state t₀).w.pcTarget.getLsbD 1 = true := by
  obtain ⟨s, -, hw, hm, -⟩ := hX.w_eq
  rw [hw] at hmret hf ⊢
  simp only [State.writebackInput, hm, State.memoryInput] at hmret hf ⊢
  have hjump : (r.state q).pcTargetE = (r.state q).jumpPcTargetE := by
    simp [State.jumpPcTargetE, hmret]
  simp only [State.misalignedPcE, Bool.and_eq_true] at hf
  exact ⟨hjump, hjump ▸ hf.2⟩

/-- A misaligned address is the sum of the two operands. -/
theorem address (hX : Faulty r t₀ q) (h : r.Delayed rom)
    (hf : (r.state t₀).w.loadMisaligned = true ∨ (r.state t₀).w.storeMisaligned = true) :
    (r.state t₀).w.aluResult = (r.state q).srcAE + (r.state q).srcBE := by
  obtain ⟨s, -, hw, hm, hc, -⟩ := hX.w_eq
  have hv : (r.state s).m.validPc = true := by
    rw [hm]
    exact hX.valid
  have hls : (r.state q).ce.loadStore = true := by
    have hlsM : (r.state s).cm.loadStore = true := by
      rw [hw] at hf
      exact hf.elim (fun hl => (State.load_of_loadMisalignedM hl).1)
        fun hs => (h.singleFault hv).store (State.memWrite_of_storeMisalignedM hs)
    rwa [hc] at hlsM
  -- a legal load or store adds in the ALU
  have hill : (r.state q).e.illegalInstruction = false := by
    by_contra hill
    simp [(h.e_of_illegal hX.valid (Bool.not_eq_false _ ▸ hill)).2.2.2.2.1] at hls
  obtain ⟨u, -, -, he, hce, -, hof⟩ := r.e_origin_legal q hX.valid hill
  have hls' : ((r.state u).outControlD x).loadStore = true := by
    rw [← hls, hce]
    rfl
  have hcsr : (r.state q).e.csrWrite = false := by
    rw [he]
    exact (hof.loadStore hls').2.2.1
  have halu : (r.state q).ce.aluControl = 0b0000 := by
    rw [hce]
    simp [State.controlInputE, State.aluControlD, hof.address hls', aluDecoder]
  have hmd : (r.state q).ce.mulInstr = false ∧ (r.state q).ce.divInstr = false := by
    have hop : opcodeOf (r.state u).d.instr ≠ 0b0110011#7 := by
      intro hop
      simp [(hof.rType hop).1] at hls'
    rw [hce]
    simp [State.controlInputE, State.mulInstrD, State.divInstrD, mulDivDecoder, hop]
  rw [hw]
  simp only [State.writebackInput, hm, State.memoryInput, State.dataOutputFromExecute,
    State.aluOrMuldivResultE, State.aluE, hcsr, halu, hmd, Bool.or_self, mux2, Bool.false_eq_true,
    if_false, alu_add]

/-- Every older instruction has left the memory stage before this one leaves execute, a load or
store with the acknowledge of its own transfer; or an earlier trap has removed it. -/
theorem older (hX : Faulty r t₀ q) (h : r.Delayed rom) (htrap : (r.state t₀).trapCaughtW = true)
    {u : ℕ} (hin : (r.state u).entersE (r.inputs u) = true) (hlt : u + 1 < r.stampW t₀) :
    (∃ a < q, r.Commits (u + 1) a ∧ ((r.state a).cm.loadStore = true →
      ∃ s < a, r.Starts s ∧ r.stampM s = u + 1 ∧
        First (fun v => (r.inputs v).dWbAck = true) (s + 1) a)) ∨
    ∃ a < t₀, r.Removes (u + 1) a := by
  obtain ⟨-, -, -, hold, -⟩ := r.trap_on_oldest t₀ (fun v _ => h.orderly v) htrap
  -- an older instruction commits before this one is in the memory stage
  obtain ⟨a, ha, hc | hr⟩ := hold u hin hlt
  · refine .inl ⟨a, ?_, hc, fun hls => ?_⟩
    · by_contra hqa
      rcases Nat.lt_or_eq_of_le (not_lt.mp hqa) with hqa | rfl
      · have := r.stampM_mono (Nat.succ_le_of_lt hqa)
        rw [Nat.succ_eq_add_one, hX.stamp_m, hc.stamp] at this
        omega
      · have := ((h.spaced _).execute hX.valid).2.1
        simp [hc.valid] at this
    · exact hc.exists_starts h.data (fun v _ => h.undisturbed v) hls
  · exact .inr ⟨a, ha, hr⟩

end Faulty

/-! ## The way to the handler -/

namespace Faulty

variable {t₀ q : ℕ}

/-- No divide is pending from the cycle in which the faulty instruction leaves execute up to the
trap. -/
theorem not_pending (hX : Faulty r t₀ q) (h : r.Delayed rom) :
    ∀ v, q ≤ v → v ≤ t₀ → (r.state v).hazard.divPending = false := by
  have hse := hX.moves
  simp only [State.stallE, Bool.or_eq_false_iff] at hse
  -- no divide is in decode behind the instruction
  refine always_between hse.2 fun v h₁ h₂ hdiv => ?_
  simp [succ_divPending, divInstrD_of_empty (hX.d_empty h h₁ h₂), hdiv]

/-- The flag of a pending illegal word is down up to the trap, unless the faulty instruction is
itself illegal. -/
theorem illegal_of_pending (hX : Faulty r t₀ q) (h : r.Delayed rom)
    (hill : (r.state q).e.illegalInstruction = false) :
    ∀ v, q ≤ v → v ≤ t₀ → (r.state v).hazard.pendingExceptionF = false := by
  refine always_between ?_ fun v h₁ h₂ => pendingExceptionF_succ (hX.d_empty h h₁ h₂)
  · by_contra hp
    rcases h.pendingExceptionF q (Bool.not_eq_false _ ▸ hp) with he | hm | hw
    · simp [hill] at he
    · have hv := m_valid_of (f := fun s => s.m.illegalInstruction) (fun s hm _ => by simp [hm]) hm
      simp [((h.spaced q).execute hX.valid).2.1] at hv
    · have htrap : (r.state q).trapCaughtW = true := by
        simp [State.trapCaughtW_eq, State.isInstrExceptionW, hw]
      have hv := hX.valid
      simp [(h.spaced q).trap htrap] at hv

/-- After the trap the pipeline is empty, unless a divide was in decode. -/
theorem emptied (hX : Faulty r t₀ q) (h : r.Delayed rom)
    (htrap : (r.state t₀).trapCaughtW = true) (hdiv : (r.state t₀).divInstrD = false) :
    Emptied r (t₀ + 1) := by
  have hpm := htrap
  rw [r.trapCaughtW_eq_pendingExceptionM] at hpm
  have hlt := hX.lt
  have hno : ∀ p, t₀ < p → p < t₀ + 1 → (r.state p).entersE (r.inputs p) = false :=
    fun p h₁ h₂ => by omega
  obtain ⟨he, hm⟩ := empty_after_trap htrap hno (t₀ + 1) le_rfl le_rfl
  refine ⟨⟨d_empty_after_trap htrap, he, ?_, ?_⟩, hm⟩
  · simp [succ_divPending, hdiv, hX.not_pending h t₀ (by omega) le_rfl]
  · rw [r.succ_hazard]
    simp only [State.hazardNext, HazardUnit.pendingExceptionFNext, HazardUnit.setClear, hpm]
    obtain ⟨s, -, hw, hms, -⟩ := hX.w_eq
    have hwill : (r.state t₀).w.illegalInstruction = (r.state q).e.illegalInstruction := by
      rw [hw, State.writebackInput, hms]
      rfl
    rw [hwill]
    -- write-back clears the flag if the instruction is the illegal word
    cases hill : (r.state q).e.illegalInstruction with
    | true => simp
    | false => simp [hX.illegal_of_pending h hill t₀ (by omega) le_rfl]

/-- A trap sends fetch to the base of `mtvec`. -/
theorem pcF_after_trap {t : ℕ} (htrap : (r.state t).trapCaughtW = true) :
    (r.state (t + 1)).pcF = (r.state t).csr.trapJumpAddr := by
  rw [r.succ_pcF, State.pcEnable, htrap, Bool.or_true, flopenr_true, State.pcNextF, if_pos htrap]

/-- After the trap the handler starts at the base of `mtvec`, unless a divide is in decode in the
trap cycle. -/
theorem exists_handler (hX : Faulty r t₀ q) (h : r.Delayed rom) (hf : r.InstrFair)
    (htrap : (r.state t₀).trapCaughtW = true) (hdiv : (r.state t₀).divInstrD = false) :
    ∃ t₁, r.FirstEntry t₀ t₁ ∧ (r.state t₁).d.pc = (r.state t₀).csr.trapJumpAddr := by
  have hempty := hX.emptied h htrap hdiv
  have hno := entersE_of_trap htrap
  cases htrap' : (r.state (t₀ + 1)).trapCaughtW with
  | false =>
    obtain ⟨u, hle, hin, hpc, -⟩ := Drained.exists_firstEntry h hf ⟨hempty, htrap'⟩
    refine ⟨u + 1, ?_, hpc.trans (pcF_after_trap htrap)⟩
    refine ⟨by omega, hin.holds, fun v h₁ h₂ => ?_⟩
    rcases Nat.lt_or_eq_of_le h₁ with hlt | rfl
    · exact hin.not_before v hlt h₂
    · simp [hno]
  | true =>
    -- the instruction is still in the memory stage and traps once more
    have hl : (r.state (t₀ + 1)).decodeLoads (r.inputs (t₀ + 1)) = false := by
      by_contra hl
      obtain ⟨-, -, -, -, -, -, -, hpm⟩ := State.decodeLoads_eq_true (Bool.not_eq_false _ ▸ hl)
      rw [← r.trapCaughtW_eq_pendingExceptionM, htrap'] at hpm
      exact absurd hpm.symm Bool.false_ne_true
    obtain ⟨u, hle, hin, hpc, -⟩ := Drained.exists_firstEntry h hf (hempty.succ h hl)
    have hbase : (r.state (t₀ + 1)).csr.trapJumpAddr = (r.state t₀).csr.trapJumpAddr := by
      obtain ⟨s, -, hw, hm, -, -⟩ := hX.w_eq
      have hcsr : (r.state t₀).w.csrWrite = false := by
        have := (h.singleFault hX.m_valid).csrWrite hX.fault
        rwa [hw, State.writebackInput, hm, ← hX.m_eq]
      rw [r.succ_csr]
      simp [CsrExec.trapJumpAddr, CsrExec.next, CsrWriteback.writes, State.csrWriteback, hcsr]
    refine ⟨u + 1, ?_, (hpc.trans (pcF_after_trap htrap')).trans hbase⟩
    refine ⟨by omega, hin.holds, fun v h₁ h₂ => ?_⟩
    rcases Nat.lt_or_eq_of_le h₁ with hlt | rfl
    · rcases Nat.lt_or_eq_of_le (Nat.succ_le_of_lt hlt) with hlt' | rfl
      · exact hin.not_before v hlt' h₂
      · simp [State.entersE, hempty.d]
    · simp [hno]

end Faulty

/-! ## The orphaned divide -/

/-- `div_pending` waits for a divider that nothing starts any more. -/
structure Orphan (r : Run x) (t : ℕ) : Prop where
  pending : (r.state t).hazard.divPending = true
  d : (r.state t).d.isDecodeFlush = false
  e : (r.state t).e.validPc = false
  idle : (r.state t).div.divBusy = false
  first : (r.state t).div.detectStart.firstReg = false

/-- A divide whose flag is up when it is flushed is orphaned. -/
theorem Orphan.of_flushE {t : ℕ} (hf : (r.state t).flushE = true)
    (hp : (r.state (t + 1)).hazard.divPending = true)
    (hd : (r.state (t + 1)).d.isDecodeFlush = false) : Orphan r (t + 1) := by
  obtain ⟨hbusy, hfirst⟩ := divider_reset hf
  refine ⟨hp, hd, ?_, hbusy, hfirst⟩
  simp [r.succ_e_validPc, State.entersE, State.leavesE, hf]

/-- An orphaned divide is still orphaned in the next cycle. -/
theorem Orphan.succ {t : ℕ} (ho : Orphan r t) : Orphan r (t + 1) := by
  have hdiv : (r.state t).ce.divInstr = false := by simp [(r.e_bubble t ho.e).2]
  have hse : (r.state t).stallE (r.inputs t) = true := by simp [State.stallE, ho.pending]
  have hdone : (r.state t).divCompletedE = false := by
    simp [State.divCompletedE, Divider.divCompleted, ho.idle]
  obtain ⟨hq, hfirst⟩ := divider_quiet_succ (.of_low ho.idle ho.first) hdiv
  refine ⟨?_, ?_, ?_, hq.idle, hfirst⟩
  · simp [succ_divPending, divInstrD_of_empty ho.d, hdone, ho.pending]
  · simp [r.succ_d_isDecodeFlush, State.decodeLoads, State.stallD, hse, ho.d]
  · simp [r.succ_e_validPc, State.entersE, hse, ho.e]

/-- An orphaned divide waits for its divider in every later cycle. -/
theorem Orphan.forever {t : ℕ} (ho : Orphan r t) : ∀ v, t ≤ v → Orphan r v := by
  intro v hv
  induction v, hv using Nat.le_induction with
  | base => exact ho
  | succ v _ ih => exact ih.succ

/-- Behind an orphaned divide no instruction ever enters execute. -/
theorem Orphan.not_entersE {t : ℕ} (ho : Orphan r t) {v : ℕ} (hv : t ≤ v) :
    (r.state v).entersE (r.inputs v) = false := by
  simp [State.entersE, (ho.forever v hv).d]

/-- A trap that finds a divide in decode orphans it. -/
theorem orphan_of_trap {t : ℕ} (htrap : (r.state t).trapCaughtW = true)
    (hdiv : (r.state t).divInstrD = true) : Orphan r (t + 1) := by
  refine .of_flushE ?_ (by simp [succ_divPending, hdiv]) (d_empty_after_trap htrap)
  rw [r.trapCaughtW_eq_pendingExceptionM] at htrap
  simp [State.flushE, htrap]

/-! ## Precision -/

variable (r)

/-- The trap of cycle `t₀`, on an instruction that leaves execute in cycle `q`, is precise, and the
first instruction of the handler enters execute in cycle `t₁`. -/
structure Precise (rom : BitVec 32 → BitVec 32) (t₀ q t₁ : ℕ) : Prop where
  instruction : (r.state q).e.validPc = true ∧ r.stampE q = r.stampW t₀ ∧
    (r.state q).e.pc = (r.state t₀).w.pc ∧ q + 1 < t₀
  /-- Older instructions have left the memory stage before, with the acknowledge of their own
  transfer if they have one, or were removed by an earlier trap. -/
  older : ∀ u, (r.state u).entersE (r.inputs u) = true → u + 1 < r.stampW t₀ →
    (∃ a < q, r.Commits (u + 1) a ∧ ((r.state a).cm.loadStore = true →
      ∃ s < a, r.Starts s ∧ r.stampM s = u + 1 ∧
        First (fun v => (r.inputs v).dWbAck = true) (s + 1) a)) ∨
    ∃ a < t₀, r.Removes (u + 1) a
  /-- From the next cycle to the handler no register and no CSR changes but those of the trap and
  the counters, and no transfer starts. -/
  context : ∀ v, q < v → v ≤ t₁ → SameContext (r.state (q + 1)) (r.state v) ∧
    (r.state v).csr.mip = (r.state (q + 1)).csr.mip ∧ ¬ r.Starts v
  recorded : ∀ v, t₀ < v → v ≤ t₁ → Recorded rom (r.state t₀).w (r.state v).csr
  /-- The recorded addresses are the target of the transfer and the address of the access. -/
  target : (r.state t₀).w.instrAddrMisaligned = true →
    (r.state t₀).w.pcTarget = (r.state q).jumpPcTargetE ∧
      (r.state t₀).w.pcTarget.getLsbD 1 = true
  address : (r.state t₀).w.loadMisaligned = true ∨ (r.state t₀).w.storeMisaligned = true →
    (r.state t₀).w.aluResult = (r.state q).srcAE + (r.state q).srcBE
  handler : r.FirstEntry t₀ t₁ ∧ (r.state t₁).d.pc = (r.state t₀).csr.trapJumpAddr

/-- With slaves that wait at least one cycle and answer in the end, and without interrupts, a trap
on anything but an `mret` is precise if and only if decode holds no divide in the trap cycle. -/
theorem precise_exceptions (h : r.Delayed rom) (hx : r.Exact) (hf : r.InstrFair) (t₀ : ℕ)
    (htrap : (r.state t₀).trapCaughtW = true) (hmret : (r.state t₀).w.mretInstr = false) :
    (∃ q t₁, r.Precise rom t₀ q t₁) ↔ (r.state t₀).divInstrD = false := by
  obtain ⟨q, hX⟩ := h.exists_faulty htrap
  constructor
  · rintro ⟨q', t₁, hP⟩
    -- a divide in decode leaves `div_pending` behind, and execute is never entered again
    by_contra hdiv
    have ho := orphan_of_trap htrap (Bool.not_eq_false _ ▸ hdiv)
    have hin := hP.handler.1
    have hlt := lt_of_first_entry htrap hin
    have := hin.holds
    simp [ho.not_entersE hlt] at this
  · intro hdiv
    -- without one the handler is entered, and each part of `Precise` has its own lemma
    obtain ⟨t₁, hin, hpc⟩ := hX.exists_handler h hf htrap hdiv
    refine ⟨q, t₁, ⟨hX.valid, hX.stamp, hX.w_pc.symm, hX.lt⟩,
      fun u hu hlt => hX.older h htrap hu hlt, fun v h₁ h₂ => ?_,
      fun v h₁ h₂ => hX.recorded h hx htrap hin v h₁ h₂,
      hX.target hmret, hX.address h, hin, hpc⟩
    obtain ⟨hctx, hmip⟩ := hX.sameContext h htrap hin v h₁ h₂
    exact ⟨hctx, hmip, hX.not_starts h htrap hin h₁ h₂⟩

/-- The trap of an `ecall` at address 8, which is taken in cycle 12, is precise. -/
theorem precise_exceptions_ecall :
    ∃ q t₁, (quietBench [0x00000073]).run₁.Precise (quietBench [0x00000073]).rom 12 q t₁ :=
  (precise_exceptions (quietBench [0x00000073]).run₁
    (TestBench.run₁_delayed _ (fun _ => rfl) fun _ => rfl) (TestBench.run₁_exact _)
    (TestBench.run₁_instrFair _ fun _ => rfl) 12 (by decide +kernel) (by decide +kernel)).2
    (by decide +kernel)

/-- With a divide behind the `ecall`, the handler is never entered. -/
theorem handler_never_entered :
    ∃ (r : Run TestBench.zeros) (rom : BitVec 32 → BitVec 32) (t₀ : ℕ),
      r.Exact ∧ r.Delayed rom ∧ r.InstrFair ∧ (r.state t₀).trapCaughtW = true ∧
        (r.state t₀).w.validPc = true ∧ (r.state t₀).w.envCallInstr = true ∧
        (r.state t₀).w.pc = 8 ∧ rom 8 = 0x00000073 ∧ rom 12 = 0x0210c1b3 ∧
        ∀ t₁, t₀ ≤ t₁ → (r.state t₁).entersE (r.inputs t₁) = false := by
  -- the cycles up to the orphaned state are run, the rest is `Orphan`
  have hrun : ∀ t, t < 14 → 12 ≤ t →
      ((quietBench [0x00000073, 0x0210c1b3]).run₁.state t).entersE
        ((quietBench [0x00000073, 0x0210c1b3]).run₁.inputs t) = false := by decide +kernel
  have ho : Orphan (quietBench [0x00000073, 0x0210c1b3]).run₁ 13 :=
    ⟨by decide +kernel, by decide +kernel, by decide +kernel, by decide +kernel,
      by decide +kernel⟩
  refine ⟨_, _, 12, TestBench.run₁_exact _,
    TestBench.run₁_delayed (quietBench [0x00000073, 0x0210c1b3]) (fun _ => rfl) fun _ => rfl,
    TestBench.run₁_instrFair _ fun _ => rfl, by decide +kernel, by decide +kernel,
    by decide +kernel, by decide +kernel, by decide +kernel, by decide +kernel, fun t₁ ht => ?_⟩
  rcases Nat.lt_or_ge t₁ 13 with hlt | hle
  · exact hrun t₁ (by omega) ht
  · exact ho.not_entersE hle

end Run

end RvPipelineCore

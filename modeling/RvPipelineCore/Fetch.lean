import RvPipelineCore.Pipeline

/-!
# The fetch stage

The instruction port latches its address on its own, so the word it returns need not belong to the
current PC. `Run.fetch_adr` is the invariant that `ignore_instr_mem_handshake` maintains: a transfer
whose acknowledge will be accepted is at the current PC, unless a trap is being taken.

- `Run.fetch_coherent`: what decode holds, when it loads, and when the PC moves without it;
- `State.nextPc`: the address of the next instruction on its way to execute, which only a redirect,
  a trap or an entry into execute changes (`Run.nextPc_succ`).
-/

namespace RvPipelineCore

namespace State

variable (s : State) (i : Inputs)

/-- The address of the next instruction on its way to execute: the one in decode, or else the one
being fetched. -/
def nextPc : BitVec 32 := if s.d.isDecodeFlush then s.d.pc else s.pcF

variable {s i}

/-- Decode loads the answer of an accepted handshake, with nothing holding or flushing it. -/
theorem decodeLoads_eq_true (h : s.decodeLoads i = true) :
    i.instrWbAck = true ∧ s.hazard.ignoreInstrMemHandshake = false ∧ s.stallE i = false ∧
      s.hazard.csrPending = false ∧ s.lwStallD = false ∧ s.jumpInstr = false ∧
      s.hazard.pendingExceptionF = false ∧ s.hazard.pendingExceptionM = false := by
  simp only [decodeLoads, flushD, stallD, waitingOnInstruction, instrMemHandshake,
    rawInstrMemHandshake, isInstructionValid] at h
  grind

/-- The block of the fetch stage keeps decode from loading. -/
theorem decodeLoads_of_pendingExceptionF (h : s.hazard.pendingExceptionF = true) :
    s.decodeLoads i = false := by
  by_contra hl
  obtain ⟨-, -, -, -, -, -, hpf, -⟩ := decodeLoads_eq_true (Bool.not_eq_false _ ▸ hl)
  simp [h] at hpf

/-- The PC register loads at every edge at which decode does. -/
theorem pcEnable_of_decodeLoads (h : s.decodeLoads i = true) : s.pcEnable i = true := by
  obtain ⟨hack, hign, hse, hcsr, hlw, -, hpf, hpm⟩ := decodeLoads_eq_true h
  simp [pcEnable, stallF, stallD, waitingOnInstruction, instrMemHandshake, rawInstrMemHandshake,
    isInstructionValid, *]

/-- The PC register loads without decode only on a redirect or a trap. -/
theorem redirect_of_pcEnable (hp : s.pcEnable i = true) (hd : s.decodeLoads i = false) :
    s.pcSrcE = true ∨ s.trapCaughtW = true := by
  by_contra hcon
  rw [not_or, Bool.not_eq_true, Bool.not_eq_true] at hcon
  obtain ⟨hsrc, htrap⟩ := hcon
  -- what is left is the plain enable, under which nothing stalls or flushes decode
  simp only [pcEnable, hsrc, htrap, Bool.false_and, Bool.or_false, Bool.not_eq_true', stallF,
    Bool.or_eq_false_iff] at hp
  obtain ⟨⟨⟨⟨⟨-, hwait⟩, hsd⟩, -⟩, hpf⟩, hpm⟩ := hp
  simp [decodeLoads, flushD, jumpInstr, *] at hd

/-- The redirect of the PC is the one that flushes, unless an exception is on its way. -/
theorem jumpInstr_eq_pcSrcE (he : s.isInstrExceptionE = false) (hm : s.isInstrExceptionM = false)
    (hw : s.isInstrExceptionW = false) : s.jumpInstr = s.pcSrcE := by
  simp [jumpInstr, he, hm, hw]

end State

namespace Run

variable {x : DontCare} (r : Run x) {rom : BitVec 32 → BitVec 32}

/-- While no acknowledge comes and no redirect is recorded, the PC stands still. -/
private theorem pcF_held (t : ℕ) (hack : (r.inputs t).instrWbAck = false)
    (hign : (r.state (t + 1)).hazard.ignoreInstrMemHandshake = false)
    (hm : (r.state t).isInstrExceptionM = false) :
    (r.state t).hazard.ignoreInstrMemHandshake = false ∧ (r.state t).trapCaughtW = false ∧
      (r.state (t + 1)).pcF = (r.state t).pcF := by
  rw [r.succ_hazard] at hign
  simp only [State.hazardNext, HazardUnit.ignoreNext, State.rawInstrMemHandshake, hack,
    Bool.false_and, Bool.false_eq_true, if_false] at hign
  split_ifs at hign with h₁ h₂
  · exact absurd hign (by simp [h₁])
  · rw [Bool.or_eq_true, not_or, Bool.not_eq_true, Bool.not_eq_true] at h₂
    obtain ⟨hj, htrap⟩ := h₂
    refine ⟨hign, htrap, ?_⟩
    -- without an acknowledge the fetch stage is stalled
    have hen : (r.state t).pcEnable (r.inputs t) = false := by
      have hw := htrap
      rw [State.trapCaughtW_eq] at hw
      simp only [State.jumpInstr, hm, hw, Bool.not_false, Bool.and_true] at hj
      simp only [State.pcEnable, State.stallF, State.waitingOnInstruction,
        State.instrMemHandshake, State.rawInstrMemHandshake, State.isInstructionValid, hack, htrap]
      grind
    rw [r.succ_pcF, hen, flopenr_false]

/-- A transfer whose acknowledge will be accepted is at the current PC, unless a trap is taken. -/
theorem fetch_adr (t : ℕ) (hact : (r.state t).instrPort.state = .active)
    (hign : (r.state t).hazard.ignoreInstrMemHandshake = false)
    (htrap : (r.state t).trapCaughtW = false) (hi : r.InstrSlave rom) :
    (r.state t).instrPort.adr = (r.state t).pcF := by
  induction t with
  | zero => simp at hact
  | succ t ih =>
    rw [r.succ_trapCaughtW] at htrap
    rw [r.succ_instrPort] at hact ⊢
    unfold InstrPort.next at hact ⊢
    cases hp : (r.state t).instrPort.state with
    | idle =>
      simp only [hp, if_true] at hact ⊢
      -- an idle port sees no acknowledge
      have hack : (r.inputs t).instrWbAck = false := by
        by_contra h
        have := (hi.active (Bool.not_eq_false _ ▸ h)).1
        simp [hp] at this
      exact (r.pcF_held t hack hign htrap).2.2.symm
    | active =>
      simp only [hp] at hact ⊢
      split_ifs at hact ⊢ with hack
      · rw [Bool.not_eq_true] at hack
        obtain ⟨hign', htrap', hpc⟩ := r.pcF_held t hack hign htrap
        rw [hpc]
        exact ih hp hign' htrap'

/-- What decode loads is the word at the current PC. -/
theorem decodeLoads_instr (hi : r.InstrSlave rom) (t : ℕ)
    (h : (r.state t).decodeLoads (r.inputs t) = true) :
    (r.inputs t).instrWbData = rom (r.state t).pcF := by
  obtain ⟨hack, hign, -, -, -, -, -, hpm⟩ := State.decodeLoads_eq_true h
  obtain ⟨hact, hdata⟩ := hi.active hack
  rw [hdata, r.fetch_adr t hact hign _ hi]
  rw [r.trapCaughtW_eq_pendingExceptionM, hpm]

/-- Decode takes no word in a cycle without an acknowledge. -/
theorem decodeLoads_of_no_ack {t : ℕ} (h : (r.inputs t).instrWbAck = false) :
    (r.state t).decodeLoads (r.inputs t) = false := by
  by_contra hl
  simp [(State.decodeLoads_eq_true (Bool.not_eq_false _ ▸ hl)).1] at h

/-- When decode takes a word, it holds in the next cycle the word on the bus with the PC of
fetch. -/
theorem succ_d_of_decodeLoads {t : ℕ} (h : (r.state t).decodeLoads (r.inputs t) = true) :
    (r.state (t + 1)).d = (r.state t).decodeInput (r.inputs t) := by
  simp only [State.decodeLoads, Bool.and_eq_true, Bool.not_eq_true'] at h
  rw [r.succ_d, h.1, h.2]
  rfl

/-- The three things that can happen to decode in a cycle. -/
theorem d_cases (t : ℕ) :
    ((r.state t).decodeLoads (r.inputs t) = true ∧
        (r.state (t + 1)).d = (r.state t).decodeInput (r.inputs t)) ∨
      ((r.state t).flushD (r.inputs t) = true ∧ (r.state (t + 1)).d = 0) ∨
      ((r.state t).flushD (r.inputs t) = false ∧ (r.state t).stallD (r.inputs t) = true ∧
        (r.state (t + 1)).d = (r.state t).d) := by
  rw [r.succ_d]
  cases hf : (r.state t).flushD (r.inputs t) <;> cases hs : (r.state t).stallD (r.inputs t) <;>
    simp [State.decodeLoads, hf, hs]

/-- A valid instruction in decode is the word at its PC, and its `pc_plus4_d` follows it. -/
theorem d_coherent (hi : r.InstrSlave rom) (t : ℕ) (h : (r.state t).d.isDecodeFlush = true) :
    (r.state t).d.instr = rom (r.state t).d.pc ∧
      (r.state t).d.pcPlus4 = (r.state t).d.pc + 4 := by
  induction t with
  | zero => simp at h
  | succ t ih =>
    rcases r.d_cases t with ⟨hl, hd⟩ | ⟨-, hd⟩ | ⟨-, -, hd⟩ <;> rw [hd] at h ⊢
    · exact ⟨r.decodeLoads_instr hi t hl, rfl⟩
    · exact absurd h Bool.false_ne_true
    · exact ih h

/-- Fetch coherence: a valid instruction in decode is the word of the ROM at its PC, decode loads
only together with the PC register, and the PC register loads without decode only on a redirect or
a trap. -/
theorem fetch_coherent (hi : r.InstrSlave rom) (t : ℕ) :
    ((r.state t).d.isDecodeFlush = true → (r.state t).d.instr = rom (r.state t).d.pc) ∧
      ((r.state t).decodeLoads (r.inputs t) = true →
        (r.state t).pcEnable (r.inputs t) = true ∧
          (r.state (t + 1)).pcF = (r.state t).pcNextF) ∧
      ((r.state t).pcEnable (r.inputs t) = true → (r.state t).decodeLoads (r.inputs t) = false →
        (r.state t).pcSrcE = true ∨ (r.state t).trapCaughtW = true) := by
  refine ⟨fun h => (r.d_coherent hi t h).1, fun h => ?_, State.redirect_of_pcEnable⟩
  have hen := State.pcEnable_of_decodeLoads h
  exact ⟨hen, by rw [r.succ_pcF, hen, flopenr_true]⟩

/-- The first word that decode holds in the loop program is the word of the ROM at its address. -/
theorem fetch_coherent_loop :
    (loopBench.run₀.state 2).d.instr = loopBench.rom (loopBench.run₀.state 2).d.pc :=
  (fetch_coherent loopBench.run₀ loopBench.run₀_instrSlave 2).1 (by decide +kernel)

/-! ## The next instruction on its way to execute -/

/-- Without a redirect or a trap, the PC moves only when decode loads. -/
theorem succ_pcF_of_not_decodeLoads (t : ℕ) (hsrc : (r.state t).pcSrcE = false)
    (htrap : (r.state t).trapCaughtW = false)
    (hd : (r.state t).decodeLoads (r.inputs t) = false) :
    (r.state (t + 1)).pcF = (r.state t).pcF := by
  have hen : (r.state t).pcEnable (r.inputs t) = false := by
    by_contra h
    have := State.redirect_of_pcEnable (Bool.not_eq_false _ ▸ h) hd
    simp [hsrc, htrap] at this
  rw [r.succ_pcF, hen, flopenr_false]

/-- While nothing redirects and no instruction enters execute, the next one stays the same. -/
theorem nextPc_succ (t : ℕ) (hsrc : (r.state t).pcSrcE = false)
    (htrap : (r.state t).trapCaughtW = false)
    (hin : (r.state t).entersE (r.inputs t) = false) :
    (r.state (t + 1)).nextPc = (r.state t).nextPc := by
  have hpm : (r.state t).hazard.pendingExceptionM = false := by
    rw [← r.trapCaughtW_eq_pendingExceptionM, htrap]
  have hj : (r.state t).jumpInstr = false := by simp [State.jumpInstr, hsrc]
  cases hv : (r.state t).d.isDecodeFlush with
  | true =>
    -- the instruction in decode cannot enter execute, so decode is stalled and holds it
    have hsd : (r.state t).stallD (r.inputs t) = true := by
      simp only [State.entersE, State.flushE, hv, hj, hpm] at hin
      simp only [State.stallD]
      grind
    rcases r.d_cases t with ⟨hl, -⟩ | ⟨hf, -⟩ | ⟨-, -, hd⟩
    · simp [State.decodeLoads, hsd] at hl
    · simp [State.flushD, hsd, hj, hpm] at hf
    · simp [State.nextPc, hd, hv]
  | false =>
    cases hl : (r.state t).decodeLoads (r.inputs t) with
    | true => simp [State.nextPc, r.succ_d_of_decodeLoads hl, hv, State.decodeInput]
    | false =>
      have hpc := r.succ_pcF_of_not_decodeLoads t hsrc htrap hl
      have hd : (r.state (t + 1)).d.isDecodeFlush = false := by
        simp [r.succ_d_isDecodeFlush, hl, hv]
      simp [State.nextPc, hd, hv, hpc]

/-- When the instruction in decode enters execute, decode does not keep it. -/
theorem stallD_of_entersE (t : ℕ) (hin : (r.state t).entersE (r.inputs t) = true) :
    (r.state t).stallD (r.inputs t) = false := by
  simp only [State.entersE, State.flushE] at hin
  simp only [State.stallD]
  grind

/-- When an instruction enters execute without a redirect or a trap, the next one is at the current
PC. -/
theorem nextPc_succ_of_entersE (t : ℕ) (hsrc : (r.state t).pcSrcE = false)
    (htrap : (r.state t).trapCaughtW = false)
    (hin : (r.state t).entersE (r.inputs t) = true) :
    (r.state (t + 1)).nextPc = (r.state t).pcF := by
  have hs := r.stallD_of_entersE t hin
  rcases r.d_cases t with ⟨-, hd⟩ | ⟨hf, hd⟩ | ⟨-, hs', -⟩
  · simp [State.nextPc, hd, State.decodeInput]
  · have hl : (r.state t).decodeLoads (r.inputs t) = false := by simp [State.decodeLoads, hf]
    have hpc := r.succ_pcF_of_not_decodeLoads t hsrc htrap hl
    simp [State.nextPc, hd, hpc]
  · exact absurd hs' (by simp [hs])

/-- After a redirect that flushes, the next instruction is the one at its target. -/
theorem nextPc_succ_of_jumpInstr (t : ℕ) (hj : (r.state t).jumpInstr = true) :
    (r.state (t + 1)).nextPc = (r.state t).jumpTargetE := by
  simp only [State.jumpInstr, Bool.and_eq_true, Bool.not_eq_true'] at hj
  obtain ⟨⟨⟨hsrc, he⟩, hm⟩, hw⟩ := hj
  -- nothing gates a redirect that flushes
  have hmis : ((r.state t).loadMisalignedM || (r.state t).storeMisalignedM) = false := by
    simp only [State.isInstrExceptionM] at hm
    grind
  have hen : (r.state t).pcEnable (r.inputs t) = true := by
    simp [State.pcEnable, hsrc, he, hmis]
  have htrap : (r.state t).trapCaughtW = false := by rw [State.trapCaughtW_eq, hw]
  have hd : (r.state (t + 1)).d = 0 := by
    rw [r.succ_d]
    simp [State.flushD, State.jumpInstr, hsrc, he, hm, hw]
  have hpc : (r.state (t + 1)).pcF = (r.state t).jumpTargetE := by
    rw [r.succ_pcF, hen, flopenr_true]
    simp [State.pcNextF, htrap, hsrc]
  simp [State.nextPc, hd, hpc]

end Run

end RvPipelineCore

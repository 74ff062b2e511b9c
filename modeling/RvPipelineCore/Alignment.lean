import RvPipelineCore.Faults
import RvPipelineCore.Interlocks
import RvPipelineCore.Precise

/-!
# Misaligned transfers

The exception of a misaligned transfer hangs on `pc_src_e`, which a correctly predicted branch does
not raise. `Run.misaligned_traps` says that nothing else escapes it: as long as every prediction
that the front end follows is aligned and `mepc` is written with aligned values, no misaligned
instruction enters execute, and each misaligned transfer that leaves it is flagged.

The invariant is `Run.AlignedPc`. The PC itself may be misaligned for the two cycles between a
misaligned transfer and its trap; decode takes nothing in them.
-/

namespace RvPipelineCore

/-- The address is the address of a word: its lower two bits are zero. -/
def Aligned (a : BitVec 32) : Prop := a.extractLsb' 0 2 = 0

/-- Whether an address is aligned can be decided from its lower two bits. -/
instance (a : BitVec 32) : Decidable (Aligned a) := inferInstanceAs (Decidable (_ = _))

/-- The address at which fetch starts is aligned. -/
theorem aligned_zero : Aligned 0 := rfl

/-- An address is aligned if and only if each of its lower two bits is clear. -/
theorem aligned_iff {a : BitVec 32} :
    Aligned a ↔ a.getLsbD 0 = false ∧ a.getLsbD 1 = false := by
  constructor
  · intro h
    have hbit (i : ℕ) (hi : i < 2) : a.getLsbD i = false := by
      have := congrArg (fun v => v.getLsbD i) h
      simpa [BitVec.getLsbD_extractLsb', hi] using this
    exact ⟨hbit 0 (by decide), hbit 1 (by decide)⟩
  · rintro ⟨h0, h1⟩
    apply BitVec.eq_of_getLsbD_eq
    intro i hi
    obtain rfl | rfl : i = 0 ∨ i = 1 := by omega
    · simpa [BitVec.getLsbD_extractLsb'] using h0
    · simpa [BitVec.getLsbD_extractLsb'] using h1

/-- The sum of two aligned addresses is aligned. -/
theorem Aligned.add {a b : BitVec 32} (ha : Aligned a) (hb : Aligned b) : Aligned (a + b) := by
  unfold Aligned at ha hb ⊢
  rw [← BitVec.setWidth_eq_extractLsb' (by decide)] at ha hb ⊢
  rw [BitVec.setWidth_add _ _ (by decide), ha, hb]
  rfl

/-- The two zeros at the end of an address that is put together. -/
theorem aligned_append (v : BitVec 30) : Aligned (v ++ 0#2) := by
  rw [aligned_iff, BitVec.getLsbD_append, BitVec.getLsbD_append]
  exact ⟨rfl, rfl⟩

namespace Run

variable {x : DontCare} (r : Run x) {rom : BitVec 32 → BitVec 32}

/-- A prediction that the front end follows in cycle `v` leads to an aligned address. -/
def PredictsAligned (v : ℕ) : Prop :=
  (r.state v).decodeLoads (r.inputs v) = true → (r.state v).pcSrcE = false →
    (r.state v).predictor.branchPredicted (r.state v).pcF = true →
    Aligned ((r.state v).predictor.predictedPc (r.state v).pcF)

/-- Whether the prediction that fetch follows in a cycle is aligned can be decided from the state
and the inputs of the cycle. -/
instance (v : ℕ) : Decidable (r.PredictsAligned v) := by
  unfold PredictsAligned
  infer_instance

/-- What a CSR instruction writes to `mepc` in cycle `v` is aligned; bit 0 is not stored. -/
def WritesMepcAligned (v : ℕ) : Prop :=
  (r.state v).csrWriteback.writes csrMepcAddr = true → (r.state v).w.outWriteCsr.getLsbD 1 = false

/-- Whether a write of `mepc` in a cycle is aligned can be decided from the state. -/
instance (v : ℕ) : Decidable (r.WritesMepcAligned v) := by
  unfold WritesMepcAligned
  infer_instance

/-- The addresses in the pipeline are aligned, those on the way to `mepc` included. The PC is,
unless the trap of a misaligned transfer is on its way. -/
structure AlignedPc (t : ℕ) : Prop where
  decode : Aligned (r.state t).d.pc
  execute : Aligned (r.state t).e.pc
  memory : Aligned (r.state t).m.pc
  writeback : Aligned (r.state t).w.pc
  mepc : Aligned (r.state t).csr.mepc
  fetch : Aligned (r.state t).pcF ∨
    ((r.state t).isInstrExceptionM = true ∧ (r.state t).instrPort.state = .idle ∧
      (r.state t).d.isDecodeFlush = true) ∨ (r.state t).trapCaughtW = true

variable {r}

/-- With the addresses of the pipeline aligned, a word taken into decode comes from an aligned
address. -/
theorem AlignedPc.pcF_of_decodeLoads (hi : r.InstrSlave rom) {t : ℕ} (h : r.AlignedPc t)
    (hl : (r.state t).decodeLoads (r.inputs t) = true) : Aligned (r.state t).pcF := by
  rcases h.fetch with ha | ⟨-, hidle, -⟩ | htrap
  · exact ha
  · simp [active_of_decodeLoads hi hl] at hidle
  · rw [r.trapCaughtW_eq_pendingExceptionM] at htrap
    have := (State.decodeLoads_eq_true hl).2.2.2.2.2.2.2
    simp [htrap] at this

/-- A redirect that the PC follows goes to an aligned address, or it raises an exception. -/
theorem AlignedPc.jumpTargetE (hi : r.InstrSlave rom) {t : ℕ} (h : r.AlignedPc t)
    (hsrc : (r.state t).pcSrcE = true) (hill : (r.state t).e.illegalInstruction = false) :
    Aligned (r.state t).jumpTargetE ∨ (r.state t).isInstrExceptionE = true := by
  rw [State.jumpTargetE]
  split_ifs with hnt
  · left
    rw [r.e_pcPlus4 hi t (e_valid_of_pcSrcE hsrc)]
    exact h.execute.add rfl
  · have heven := jumpPcTargetE_even (State.branch_or_jump_of_pcSrcE hsrc) hill
      (aligned_iff.mp h.execute).1
    cases hbit : (r.state t).jumpPcTargetE.getLsbD 1 with
    | false => exact .inl (aligned_iff.mpr ⟨heven, hbit⟩)
    | true => exact .inr (by simp [State.isInstrExceptionE, State.misalignedPcE, hsrc, hbit])

/-- A misaligned redirect reaches the PC only together with the word that decode takes, and with the
exception in the memory stage. -/
theorem AlignedPc.succ_fetch_of_pcSrcE (hi : r.InstrSlave rom) {t : ℕ} (h : r.AlignedPc t)
    (htrap : (r.state t).trapCaughtW = false) (hsrc : (r.state t).pcSrcE = true)
    (hen : (r.state t).pcEnable (r.inputs t) = true) :
    Aligned (r.state t).jumpTargetE ∨
      ((r.state (t + 1)).isInstrExceptionM = true ∧ (r.state (t + 1)).instrPort.state = .idle ∧
        (r.state (t + 1)).d.isDecodeFlush = true) := by
  cases hx : (r.state t).isInstrExceptionE with
  | false =>
    left
    have hill : (r.state t).e.illegalInstruction = false := by
      simp only [State.isInstrExceptionE, Bool.or_eq_false_iff] at hx
      exact hx.1.1
    exact (h.jumpTargetE hi hsrc hill).resolve_right (by simp [hx])
  | true =>
    right
    -- the exception holds the redirect back, so the PC moves because fetch does
    have hsf : (r.state t).stallF (r.inputs t) = false := by
      simpa [State.pcEnable, hx, htrap] using hen
    have hl : (r.state t).decodeLoads (r.inputs t) = true := by
      simp only [State.stallF, Bool.or_eq_false_iff] at hsf
      simp [State.decodeLoads, State.flushD, State.jumpInstr, hx, hsf]
    obtain ⟨-, -, hse, -, -, -, -, hpm⟩ := State.decodeLoads_eq_true hl
    refine ⟨r.succ_isInstrExceptionM t hx hse hpm, idle_of_decodeLoads hi hl, ?_⟩
    rw [succ_d_of_decodeLoads r hl]
    rfl

/-- The PC in the next cycle is aligned, or the trap of a misaligned transfer is on its way. -/
theorem AlignedPc.succ_fetch (hi : r.InstrSlave rom) {t : ℕ} (hK : r.PredictsAligned t)
    (h : r.AlignedPc t) : Aligned (r.state (t + 1)).pcF ∨
      ((r.state (t + 1)).isInstrExceptionM = true ∧ (r.state (t + 1)).instrPort.state = .idle ∧
        (r.state (t + 1)).d.isDecodeFlush = true) ∨ (r.state (t + 1)).trapCaughtW = true := by
  rw [r.succ_pcF]
  cases htrap : (r.state t).trapCaughtW with
  | true =>
    left
    simp only [State.pcEnable, State.pcNextF, htrap, Bool.or_true, flopenr, if_true]
    exact aligned_append _
  | false =>
    cases hen : (r.state t).pcEnable (r.inputs t) with
    | false =>
      rw [flopenr_false]
      rcases h.fetch with ha | ⟨hx, -⟩ | htrap'
      · exact .inl ha
      · exact .inr (.inr (by rw [r.succ_trapCaughtW, hx]))
      · simp [htrap] at htrap'
    | true =>
      simp only [flopenr, if_true, State.pcNextF, htrap, Bool.false_eq_true, if_false]
      cases hsrc : (r.state t).pcSrcE with
      | true =>
        rw [if_pos rfl]
        exact (h.succ_fetch_of_pcSrcE hi htrap hsrc hen).imp_right .inl
      | false =>
        -- without a redirect decode takes the word at the PC
        have hl : (r.state t).decodeLoads (r.inputs t) = true := by
          by_contra hl
          rcases State.redirect_of_pcEnable hen (Bool.not_eq_true _ ▸ hl) with h' | h'
          · simp [hsrc] at h'
          · simp [htrap] at h'
        left
        rw [if_neg Bool.false_ne_true]
        split_ifs with hp
        · exact hK hl hsrc hp
        · exact (h.pcF_of_decodeLoads hi hl).add rfl

/-- A trap puts the address of the instruction in write-back into `mepc`, a CSR instruction what it
writes. -/
theorem AlignedPc.succ_mepc {t : ℕ} (hW : r.WritesMepcAligned t) (h : r.AlignedPc t) :
    Aligned (r.state (t + 1)).csr.mepc := by
  have hcut (v : BitVec 32) (hv : v.getLsbD 1 = false) : Aligned (v.extractLsb' 1 31 ++ 0#1) := by
    rw [aligned_iff, Bits.getLsbD_append_zero, BitVec.getLsbD_append]
    simpa [BitVec.getLsbD_extractLsb'] using hv
  rw [r.succ_csr, CsrExec.mepc]
  simp only [CsrExec.next]
  split_ifs with htrap hw
  · exact hcut _ (aligned_iff.mp h.writeback).2
  · exact hcut _ (hW hw)
  · exact h.mepc

/-- One cycle keeps the addresses of the pipeline aligned, if the prediction followed and the write
of `mepc` in it are. -/
theorem AlignedPc.succ (hi : r.InstrSlave rom) {t : ℕ} (hK : r.PredictsAligned t)
    (hW : r.WritesMepcAligned t) (h : r.AlignedPc t) : r.AlignedPc (t + 1) := by
  refine ⟨?_, ?_, ?_, ?_, h.succ_mepc hW, h.succ_fetch hi hK⟩
  · rcases r.d_cases t with ⟨hl, hd⟩ | ⟨-, hd⟩ | ⟨-, -, hd⟩ <;> rw [hd]
    · exact h.pcF_of_decodeLoads hi hl
    · exact aligned_zero
    · exact h.decode
  · rcases r.e_cases t with ⟨-, he, -⟩ | ⟨-, -, he, -⟩ | ⟨-, -, he, -⟩ <;> rw [he]
    · exact aligned_zero
    · exact h.decode
    · exact h.execute
  · rcases r.m_cases t with ⟨-, hm, -⟩ | ⟨-, -, -, hm, -⟩ | ⟨-, -, hm, -⟩ <;> rw [hm]
    · exact aligned_zero
    · exact h.execute
    · exact h.memory
  · rw [r.succ_w]
    exact h.memory

/-- The addresses of the pipeline are aligned as long as the predictions followed and the writes of
`mepc` are. -/
theorem alignedPc (hi : r.InstrSlave rom) (t : ℕ) (hK : ∀ v < t, r.PredictsAligned v)
    (hW : ∀ v < t, r.WritesMepcAligned v) : r.AlignedPc t := by
  induction t with
  | zero =>
    have hpc : (r.state 0).pcF = 0 := r.zero_eq State.pcF fun _ => rfl
    have hmepc : (r.state 0).csr.mepc = 0 := by
      have hreg : (r.state 0).csr.mepcR = 0 := r.zero_eq (fun s => s.csr.mepcR) fun _ => rfl
      rw [CsrExec.mepc, hreg]
      rfl
    refine ⟨?_, ?_, ?_, ?_, ?_, .inl ?_⟩ <;> simp only [zero_d, zero_e, zero_m, zero_w, hpc, hmepc]
      <;> exact aligned_zero
  | succ t ih =>
    exact (ih (fun v hv => hK v (by omega)) fun v hv => hW v (by omega)).succ hi (hK t (by omega))
      (hW t (by omega))

/-! ## The exception -/

/-- A taken branch to a misaligned address is mispredicted, since fetch is at an aligned address or
a trap is taken. -/
theorem AlignedPc.isMispredictTbranchE {t : ℕ} (h : r.AlignedPc t)
    (htrap : (r.state t).trapCaughtW = false) (hk : (r.state t).takeBranchE = true)
    (hbit : (r.state t).jumpPcTargetE.getLsbD 1 = true) :
    (r.state t).isMispredictTbranchE = true := by
  have hb := State.takeBranchE_branch _ hk
  -- the front end is at an aligned address
  have hne (a : BitVec 32) (ha : Aligned a) : (r.state t).jumpPcTargetE ≠ a := by
    rintro rfl
    rw [(aligned_iff.mp ha).2] at hbit
    exact Bool.false_ne_true hbit
  have hpc : (r.state t).d.isDecodeFlush = true ∨ Aligned (r.state t).pcF := by
    rcases h.fetch with ha | ⟨-, -, hd⟩ | htrap'
    · exact .inr ha
    · exact .inl hd
    · simp [htrap] at htrap'
  simp only [State.isMispredictTbranchE, State.branchMispredict, branchMisprediction,
    e_valid_of_branch hb, hb, hk, Bool.and_self, if_true]
  split_ifs with hd
  · simpa using hne _ h.decode
  · simpa using hne _ (hpc.resolve_left hd)

/-- A transfer to a misaligned address is flagged when it leaves execute. -/
theorem AlignedPc.misalignedPcE {t : ℕ} (h : r.AlignedPc t)
    (hin : (r.state t).entersM (r.inputs t) = true)
    (hk : (r.state t).takeBranchE = true ∨ (r.state t).ce.jump = true)
    (hbit : (r.state t).jumpPcTargetE.getLsbD 1 = true) : (r.state t).misalignedPcE = true := by
  have htrap : (r.state t).trapCaughtW = false := by
    rw [r.trapCaughtW_eq_pendingExceptionM]
    by_contra hpm
    simp [State.entersM, State.flushM, hpm] at hin
  rw [State.misalignedPcE, hbit, Bool.and_true, State.pcSrcE]
  rcases hk with hk | hj
  · simp [hk, h.isMispredictTbranchE htrap hk hbit]
  · simp [hj]

/-- An instruction that moves on from execute with a misaligned target takes its trap two cycles
later, with the cause of a misaligned instruction address. -/
theorem trap_of_misalignedPcE {t : ℕ} (hin : (r.state t).entersM (r.inputs t) = true)
    (hx : (r.state t).misalignedPcE = true) :
    (r.state (t + 2)).trapCaughtW = true ∧ (r.state (t + 2)).w.pc = (r.state t).e.pc ∧
      (r.state (t + 3)).csr.mcause = 0 := by
  simp only [State.entersM, Bool.and_eq_true, Bool.not_eq_true'] at hin
  -- what leaves execute with the flag is in write-back two cycles later
  have hm : (r.state (t + 1)).m = (r.state t).memoryInput := by
    rw [r.succ_m, hin.1.2, hin.2]
    rfl
  have hflag : (r.state (t + 2)).w.instrAddrMisaligned = true := by
    rw [r.succ_w, State.writebackInput, hm]
    exact hx
  have hex : (r.state (t + 2)).csrWriteback.isException = true := by
    simp [CsrWriteback.isException, State.csrWriteback, hflag]
  -- the trap, the address of the instruction, and the cause
  refine ⟨?_, ?_, ?_⟩
  · simp [State.trapCaughtW, CsrWriteback.trapCaught, hex]
  · rw [r.succ_w, State.writebackInput, hm]
    rfl
  · rw [r.succ_csr, next_mcause _ _ _ _ _ hex]
    have hcause : (r.state (t + 2)).csrWriteback.instrAddrMisaligned = true := hflag
    rw [CsrWriteback.mtrapCause, if_pos hex, if_pos hcause]
    rfl

/-- In a run of a program that names `mepc` in no word, no CSR instruction writes `mepc`. -/
theorem not_writes_mepc (hi : r.InstrSlave rom)
    (hrom : ∀ adr, immITypeOf (rom adr) ≠ csrMepcAddr) (t : ℕ) :
    (r.state t).csrWriteback.writes csrMepcAddr = false := by
  by_contra hw
  simp only [CsrWriteback.writes, State.csrWriteback, Bool.not_eq_false, Bool.and_eq_true,
    beq_iff_eq] at hw
  cases t with
  | zero =>
    rw [r.zero_w] at hw
    exact Bool.false_ne_true hw.2
  | succ t =>
    rw [r.succ_w] at hw
    obtain ⟨haddr, hcsr⟩ := hw
    -- what is in write-back has come from the ROM, and names the CSR of its word
    have hv : (r.state t).m.validPc = true :=
      m_valid_of (f := fun s => s.m.csrWrite) (fun s hm _ => by simp [hm]) hcsr
    obtain ⟨q, -, hvq, -, -, hm, -⟩ := r.m_origin t hv
    obtain ⟨u, -, -, he, -, -, hinstr, -⟩ := r.e_decoded hi q hvq
    have haddr' : (r.state t).m.csrAddress = immITypeOf (rom (r.state q).e.pc) := by
      rw [hm, ← hinstr]
      show (r.state q).e.csrAddress = _
      rw [he]
      rfl
    exact hrom _ (haddr'.symm.trans haddr)

variable (r)

/-- As long as the front end follows aligned predictions only and `mepc` is written with aligned
values, no misaligned instruction enters execute, and every taken branch or jump to a misaligned
address that leaves execute takes the trap of a misaligned instruction address. -/
theorem misaligned_traps (hi : r.InstrSlave rom) (t : ℕ) (hK : ∀ v < t, r.PredictsAligned v)
    (hW : ∀ v < t, r.WritesMepcAligned v) :
    ((r.state t).e.validPc = true → (r.state t).e.pc.extractLsb' 0 2 = 0) ∧
      ((r.state t).entersM (r.inputs t) = true →
        (r.state t).takeBranchE = true ∨ (r.state t).ce.jump = true →
        (r.state t).jumpPcTargetE.getLsbD 1 = true →
        (r.state (t + 2)).trapCaughtW = true ∧ (r.state (t + 2)).w.pc = (r.state t).e.pc ∧
          (r.state (t + 3)).csr.mcause = 0) := by
  have h := alignedPc hi t hK hW
  exact ⟨fun _ => h.execute,
    fun hin hk hbit => trap_of_misalignedPcE hin (h.misalignedPcE hin hk hbit)⟩

/-- A branch to `0xe` at address 8, taken for the first time: it leaves execute in cycle 10. -/
theorem misaligned_traps_branch :
    ((quietBench [0x00000363]).run₁.state 12).trapCaughtW = true ∧
      ((quietBench [0x00000363]).run₁.state 12).w.pc = 8 ∧
      ((quietBench [0x00000363]).run₁.state 13).csr.mcause = 0 :=
  (misaligned_traps (quietBench [0x00000363]).run₁ (TestBench.run₁_instrSlave _) 10
    (by decide +kernel) (by decide +kernel)).2 (by decide +kernel) (by decide +kernel)
    (by decide +kernel)

/-- A branch to 6 at address 0, which is also the address of the handler, and a `nop` elsewhere. -/
def retriedBranch : TestBench where
  rom adr := [0x00000363#32].getD (adr.toNat / 4) 0x00000013
  external _ := false
  timer _ := false
  instrReady _ := true
  dataReady _ := true
  readData := 0

/-- The branch traps to itself, and trains the predictor each time. When it is executed for the
third time it is predicted, leaves execute in cycle 22 unflagged, and the word at 6 follows it. -/
theorem predicted_misaligned :
    ∃ (r : Run TestBench.zeros) (rom : BitVec 32 → BitVec 32) (t : ℕ),
      r.Exact ∧ r.InstrSlave rom ∧ r.DataSlave ∧ r.NoInterrupts ∧
        (∀ v, r.WritesMepcAligned v) ∧
        (r.state t).entersM (r.inputs t) = true ∧ (r.state t).takeBranchE = true ∧
        (r.state t).jumpPcTargetE = 6 ∧ (r.state (t + 2)).trapCaughtW = false ∧
        (r.state (t + 3)).e.validPc = true ∧ (r.state (t + 3)).e.pc.extractLsb' 0 2 = 0b10 := by
  -- neither of the two words of the program names `mepc`
  have hrom : ∀ adr, immITypeOf (retriedBranch.rom adr) ≠ csrMepcAddr := by
    intro adr
    show immITypeOf ([0x00000363#32].getD (adr.toNat / 4) 0x00000013) ≠ csrMepcAddr
    cases adr.toNat / 4 with
    | zero => decide
    | succ n =>
      show immITypeOf 0x00000013 ≠ csrMepcAddr
      decide
  refine ⟨retriedBranch.run₁, _, 22, TestBench.run₁_exact _, TestBench.run₁_instrSlave _,
    TestBench.run₁_dataSlave _, fun _ => ⟨rfl, rfl⟩, fun v hw => ?_, by decide +kernel⟩
  simp [not_writes_mepc (TestBench.run₁_instrSlave _) hrom v] at hw

end Run

end RvPipelineCore

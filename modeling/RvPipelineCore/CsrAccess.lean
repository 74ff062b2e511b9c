import RvPipelineCore.CsrOrder
import RvPipelineCore.Lib.System
import RvPipelineCore.Privileged

/-!
# CSR accesses that only read

A CSR instruction takes its CSR from `csr_exec` in execute, and writes it two cycles later. The
decoder raises `csr_write` for all of them, also for those that only read: these write back the
value of two cycles before.

- `CsrExec.next_withoutWrite`, `Run.next_csr_of_readKept`: where that changes nothing;
- `Run.csr_read_pure`: over whole runs, and what becomes of `mcycle`.
-/

namespace RvPipelineCore

open Rv32 Temporal

/-- The addresses of the halves of the two counters, which also change without a write. -/
def counterCsrs : List (BitVec 12) :=
  [csrMcycleAddr, csrMcyclehAddr, csrMinstretAddr, csrMinstrethAddr]

/-- `csrrs` or `csrrc` with `x0`, or `csrrsi` or `csrrci` with zero. -/
def isCsrRead (w : BitVec 32) : Bool :=
  opcodeOf w == 0b1110011 && (funct3Of w).getLsbD 1 && rs1Of w == 0

namespace CsrWriteback

variable (w : CsrWriteback)

/-- The same instruction in write-back without its CSR write. -/
def withoutWrite : CsrWriteback := { w with writeEnable := false }

/-- Without its CSR write an instruction writes no CSR. -/
@[simp]
theorem withoutWrite_writes (a : BitVec 12) : w.withoutWrite.writes a = false :=
  Bool.and_false _

end CsrWriteback

/-- To write back what is there changes nothing, if the CSR is not a counter and no interrupt sets a
bit of `mip` at the same edge. -/
theorem CsrExec.next_withoutWrite (c : CsrExec) {w : CsrWriteback}
    (hcount : w.csrAddressWrite ∉ counterCsrs) (hv : w.writeValue = c.readCsr w.csrAddressWrite)
    (hmip : w.csrAddressWrite = csrMipAddr →
      (w.interruptExternalW = true → c.meip = true) ∧ (w.interruptTimerW = true → c.mtip = true))
    (ext timer : Bool) (pc : BitVec 32) :
    c.next w ext timer pc = c.next w.withoutWrite ext timer pc := by
  have haddr : ∀ a, w.writes a = true → w.csrAddressWrite = a := by
    intro a ha
    rw [CsrWriteback.writes, Bool.and_eq_true, beq_iff_eq] at ha
    exact ha.1
  have hno : ∀ a ∈ counterCsrs, w.writes a = false := by
    intro a ha
    by_contra hw
    rw [haddr a (Bool.not_eq_false _ ▸ hw)] at hcount
    exact hcount ha
  -- a register that a field of the read value is taken back into
  have hsame : ∀ {α : Type} (a : BitVec 12) (f : BitVec 32 → α) (q : α),
      (w.csrAddressWrite = a → f (c.readCsr a) = q) →
        (if w.writes a = true then f w.writeValue else q) = q := by
    intro α a f q hf
    refine ite_eq_right_iff.mpr fun ha => ?_
    rw [hv, haddr a ha]
    exact hf (haddr a ha)
  obtain ⟨hbase, hmode⟩ := c.mtvec_parts
  obtain ⟨hmeie, hmtie, hmsie⟩ := interruptBits_bits c.meie c.mtie c.msie
  obtain ⟨hmeip, hmtip, hmsip⟩ := interruptBits_bits c.meip c.mtip c.msip
  have hset : ∀ {a b : Bool}, (a = true → b = true) → b = if a = true then true else b := by
    decide
  have heip := hsame csrMipAddr (·.getLsbD 11) (if w.interruptExternalW then true else c.meip)
    fun ha => hmeip.trans (hset (hmip ha).1)
  have htip := hsame csrMipAddr (·.getLsbD 7) (if w.interruptTimerW then true else c.mtip)
    fun ha => hmtip.trans (hset (hmip ha).2)
  simp only [next, CsrWriteback.withoutWrite_writes, hno csrMcycleAddr (by decide),
    hno csrMcyclehAddr (by decide), hno csrMinstretAddr (by decide),
    hno csrMinstrethAddr (by decide), Bool.false_eq_true, if_false, heip, htip,
    hsame csrMscratchAddr (fun v => v) c.mscratch fun _ => rfl,
    hsame csrMtvecAddr (·.extractLsb' 2 30) c.mtvecBase fun _ => hbase,
    hsame csrMtvecAddr (·.extractLsb' 0 2) c.mtvecMode fun _ => hmode,
    hsame csrMstatusAddr (·.getLsbD 3) c.mstatusMie fun _ => c.mstatus_bits.1,
    hsame csrMieAddr (·.getLsbD 11) c.meie fun _ => hmeie,
    hsame csrMieAddr (·.getLsbD 7) c.mtie fun _ => hmtie,
    hsame csrMieAddr (·.getLsbD 3) c.msie fun _ => hmsie,
    hsame csrMipAddr (·.getLsbD 3) c.msip fun _ => hmsip,
    hsame csrMepcAddr (·.extractLsb' 1 31) c.mepcR fun _ => c.mepc_part,
    hsame csrMtvalAddr (fun v => v) c.mtval fun _ => rfl]
  rfl

/-- What a CSR instruction computes, for the pair of register and immediate form. -/
theorem CsrExec.outWriteCsr_eq (c : CsrExec) {f : BitVec 3} {o : CsrOp} (h : decodeCsr f = some o)
    (a : BitVec 12) (rd1 immExt : BitVec 32) :
    c.outWriteCsr f a rd1 immExt =
      o.eval (c.readCsr a) (if f.getLsbD 2 then immExt else rd1) := by
  have hcases : f = 0b001 ∧ o = .write ∨ f = 0b101 ∧ o = .write ∨ f = 0b010 ∧ o = .set ∨
      f = 0b110 ∧ o = .set ∨ f = 0b011 ∧ o = .clear ∨ f = 0b111 ∧ o = .clear := by
    revert h
    cases o <;> decide +revert
  rcases hcases with ⟨rfl, rfl⟩ | ⟨rfl, rfl⟩ | ⟨rfl, rfl⟩ | ⟨rfl, rfl⟩ | ⟨rfl, rfl⟩ | ⟨rfl, rfl⟩ <;>
    rfl

/-- With a zero source the set and clear instructions compute the value they read. -/
theorem CsrExec.outWriteCsr_read (c : CsrExec) {f : BitVec 3} (hf : f.getLsbD 1 = true)
    (a : BitVec 12) : c.outWriteCsr f a 0 0 = c.readCsr a := by
  have hop : decodeCsr f = some .set ∨ decodeCsr f = some .clear := by
    decide +revert
  rcases hop with hop | hop <;> rw [outWriteCsr_eq c hop, ite_self]
  · exact BitVec.or_zero
  · exact BitVec.and_allOnes

namespace Run

variable {x : DontCare} (r : Run x)

/-- The word of the instruction in write-back, which decode held in the cycle of its entry into
execute. -/
def wordW (t : ℕ) : BitVec 32 := (r.state (r.stampW t - 1)).d.instr

/-- Write-back holds a CSR access that only reads: a set or clear with a zero source. -/
def readsCsrW (t : ℕ) : Bool := (r.state t).w.validPc && isCsrRead (r.wordW t)

/-- The CSRs as they would be if the accesses that only read were other instructions with the same
timing. -/
def pureCsr : ℕ → CsrExec
  | 0 => (r.state 0).csr
  | t + 1 => (pureCsr t).next
      (if r.readsCsrW t then (r.state t).csrWriteback.withoutWrite else (r.state t).csrWriteback)
      (r.inputs t).interruptExternal (r.inputs t).interruptTimer (r.state t).e.pc

/-- An access that only reads, in write-back in cycle `v`, finds its CSR as it was two cycles
before: it is no counter, no older instruction has written it since, and no interrupt is about to
set a bit of `mip`. -/
structure ReadKept (v : ℕ) : Prop where
  counter : r.readsCsrW v = true → (r.state v).w.csrAddress ∉ counterCsrs
  same : r.readsCsrW v = true → (r.state v).csr.readCsr (r.state v).w.csrAddress =
    (r.state (v - 2)).csr.readCsr (r.state v).w.csrAddress
  mip : r.readsCsrW v = true → (r.state v).w.csrAddress = csrMipAddr →
    ((r.state v).w.interruptExternal = true → (r.state v).csr.meip = true) ∧
      ((r.state v).w.interruptTimer = true → (r.state v).csr.mtip = true)

/-- Whether the read-only access in write-back finds its CSR kept can be decided from the run up to
the cycle. -/
instance (v : ℕ) : Decidable (r.ReadKept v) :=
  decidable_of_iff ((r.readsCsrW v = true → (r.state v).w.csrAddress ∉ counterCsrs) ∧
    (r.readsCsrW v = true → (r.state v).csr.readCsr (r.state v).w.csrAddress =
      (r.state (v - 2)).csr.readCsr (r.state v).w.csrAddress) ∧
    (r.readsCsrW v = true → (r.state v).w.csrAddress = csrMipAddr →
      ((r.state v).w.interruptExternal = true → (r.state v).csr.meip = true) ∧
        ((r.state v).w.interruptTimer = true → (r.state v).csr.mtip = true)))
    ⟨fun h => ⟨h.1, h.2.1, h.2.2⟩, fun h => ⟨h.1, h.2, h.3⟩⟩

variable {r}

/-- What a CSR instruction writes back has been computed two cycles before. -/
theorem csrWriteW_origin {s : ℕ} (h : (r.state (s + 2)).w.csrWrite = true) :
    (r.state (s + 1)).m.csrWrite = true ∧
      (r.state (s + 2)).w.csrAddress = (r.state s).e.csrAddress ∧
      (r.state (s + 2)).w.outWriteCsr = (r.state s).outWriteCsrE := by
  rw [r.succ_w] at h ⊢
  obtain ⟨-, hm, -⟩ := csrM_origin h
  exact ⟨h, congrArg MemoryReg.csrAddress hm, congrArg MemoryReg.outWriteCsr hm⟩

/-- The value that an access writes back is the one it has read two cycles before. -/
theorem readsCsrW_origin {t : ℕ} (h : r.readsCsrW t = true) :
    ∃ s, t = s + 2 ∧ (r.state t).w.csrWrite = true ∧
      (r.state t).w.outWriteCsr = (r.state s).csr.readCsr (r.state t).w.csrAddress := by
  rw [readsCsrW, Bool.and_eq_true] at h
  obtain ⟨hv, hread⟩ := h
  obtain _ | t := t
  · simp [r.zero_w] at hv
  rw [succ_w_validPc] at hv
  obtain ⟨q, -, hve, -, hst, hm, -⟩ := r.m_origin t hv
  obtain ⟨u, hu, hin, he, -⟩ := r.e_origin q hve
  rw [wordW, stampW_succ, hst, hu, Nat.add_sub_cancel] at hread
  simp only [isCsrRead, Bool.and_eq_true, beq_iff_eq] at hread
  obtain ⟨⟨hop, hf⟩, hrs⟩ := hread
  have hf0 : funct3Of (r.state u).d.instr ≠ 0#3 := by
    intro h0
    simp [h0] at hf
  have hd := State.d_valid_of_entersE hin
  have hout := decode_csr x hop hf0
  rw [← (r.state u).mainDec_of_valid x hd] at hout
  -- the access has been in execute in cycle `s`
  have hcsr : (r.state t).m.csrWrite = true := by
    rw [hm, State.memoryInput, he, State.executeInput, State.outControlD, hout]
    rfl
  obtain _ | s := t
  · simp at hcsr
  obtain ⟨hvs, -, -, hsts⟩ := csrM_origin hcsr
  obtain ⟨u', hu', -, hes, -⟩ := r.e_origin s hvs
  obtain rfl : u' = u := by omega
  have hcsrW : (r.state (s + 2)).w.csrWrite = true := by
    rw [r.succ_w]
    exact hcsr
  obtain ⟨-, haddr, hwrite⟩ := csrWriteW_origin hcsrW
  refine ⟨s, rfl, hcsrW, ?_⟩
  rw [hwrite, haddr, State.outWriteCsrE, hes]
  have h0 : (r.state u').rd1D = 0 := by simp [State.rd1D, State.readReg, hrs]
  have himm : (r.state u').immExtD x = 0 := by
    rw [State.immExtD, State.outControlD, hout]
    change 0#27 ++ rs1Of (r.state u').d.instr = 0
    rw [hrs]
    rfl
  simp only [State.executeInput, h0, himm]
  exact CsrExec.outWriteCsr_read _ hf _

/-- Where it reads back what it has read, an access in write-back changes nothing. -/
theorem next_csr_of_readKept {t : ℕ} (h : r.ReadKept t) :
    (r.state (t + 1)).csr = (r.state t).csr.next
      (if r.readsCsrW t then (r.state t).csrWriteback.withoutWrite else (r.state t).csrWriteback)
      (r.inputs t).interruptExternal (r.inputs t).interruptTimer (r.state t).e.pc := by
  rw [r.succ_csr]
  split_ifs with hread
  · obtain ⟨s, rfl, -, hv⟩ := readsCsrW_origin hread
    exact CsrExec.next_withoutWrite _ (h.counter hread) (hv.trans (h.same hread).symm) (h.mip hread)
      _ _ _
  · rfl

/-! ### The cycle counter -/

/-- The next value of the cycle counter: a half is replaced by a CSR write to it, and otherwise the
counter goes on by one. -/
theorem succ_cycle (t : ℕ) :
    (r.state (t + 1)).csr.cycle =
      if (r.state t).csrWriteback.writes csrMcycleAddr then
        (r.state t).csr.cycle.extractLsb' 32 32 ++ (r.state t).w.outWriteCsr
      else if (r.state t).csrWriteback.writes csrMcyclehAddr then
        (r.state t).w.outWriteCsr ++ (r.state t).csr.cycle.extractLsb' 0 32
      else (r.state t).csr.cycle + 1 := by
  rw [r.succ_csr]
  rfl

/-- The counter that has counted up to cycle `t` counts this cycle, too, exactly when no access
reads it in write-back. -/
theorem cycle_step {t : ℕ} (hc : ∀ v ≤ t, (r.state v).csr.cycle = BitVec.ofNat 64 v)
    (hread : (r.state t).w.csrWrite = true →
      (r.state t).w.csrAddress = csrMcycleAddr ∨ (r.state t).w.csrAddress = csrMcyclehAddr →
        r.readsCsrW t = true) :
    (r.state (t + 1)).csr.cycle = BitVec.ofNat 64 (t + 1) ↔
      ((r.state t).w.csrWrite = true → (r.state t).w.csrAddress ≠ csrMcycleAddr ∧
        (r.state t).w.csrAddress ≠ csrMcyclehAddr) := by
  have hwrites : ∀ a, (r.state t).csrWriteback.writes a =
      ((r.state t).w.csrAddress == a && (r.state t).w.csrWrite) := fun _ => rfl
  have hlow : ∀ v, (BitVec.ofNat 64 v).extractLsb' 0 32 = BitVec.ofNat 32 v := by
    intro v
    apply BitVec.eq_of_toNat_eq
    simp
  rw [succ_cycle, hwrites, hwrites]
  cases hcsr : (r.state t).w.csrWrite with
  | false =>
    simp only [Bool.and_false, Bool.false_eq_true, if_false, false_imp_iff, iff_true,
      hc t le_rfl]
    exact (BitVec.ofNat_add ..).symm
  | true =>
    simp only [Bool.and_true, beq_iff_eq, true_imp_iff]
    -- a read leaves the low half as it was two cycles before, or as it was in this one
    split_ifs with hlo hhi
    · obtain ⟨s, rfl, -, hv⟩ := readsCsrW_origin (hread hcsr (.inl hlo))
      refine iff_of_false (fun h => ?_) fun h => h.1 hlo
      have hval := congrArg (BitVec.extractLsb' 0 32) h
      rw [BitVec.extractLsb'_append_eq_of_add_le le_rfl, BitVec.extractLsb'_eq_self, hv, hlo,
        CsrExec.readCsr, if_pos rfl, hc s (by omega), hlow, hlow] at hval
      have := congrArg BitVec.toNat hval
      simp only [BitVec.toNat_ofNat] at this
      omega
    · refine iff_of_false (fun h => ?_) fun h => h.2 hhi
      have hval := congrArg (BitVec.extractLsb' 0 32) h
      rw [BitVec.extractLsb'_append_eq_of_add_le le_rfl, BitVec.extractLsb'_eq_self,
        hc t le_rfl, hlow, hlow] at hval
      have := congrArg BitVec.toNat hval
      simp only [BitVec.toNat_ofNat] at this
      omega
    · rw [hc t le_rfl]
      exact iff_of_true (BitVec.ofNat_add ..).symm ⟨hlo, hhi⟩

variable (r)

/-- As long as the CSR accesses that only read find their CSR as they have read it, all CSRs are as
if they were other instructions. If `mcycle` and `mcycleh` are only read, `mcycle` is the number of
cycles exactly as long as they are not read either. -/
theorem csr_read_pure (T : ℕ) :
    ((∀ v < T, r.ReadKept v) → ∀ t ≤ T, (r.state t).csr = r.pureCsr t) ∧
      ((∀ v < T, (r.state v).w.csrWrite = true →
          (r.state v).w.csrAddress = csrMcycleAddr ∨ (r.state v).w.csrAddress = csrMcyclehAddr →
            r.readsCsrW v = true) →
        ((∀ t ≤ T, (r.state t).csr.cycle = BitVec.ofNat 64 t) ↔
          ∀ v < T, (r.state v).w.csrWrite = true → (r.state v).w.csrAddress ≠ csrMcycleAddr ∧
            (r.state v).w.csrAddress ≠ csrMcyclehAddr)) := by
  constructor
  -- The registers follow the pure ones as long as every read is kept.
  · intro h t ht
    refine always_between (p := fun t => (r.state t).csr = r.pureCsr t) rfl (fun v _ hv ih => ?_) t
      t.zero_le ht
    rw [next_csr_of_readKept (h v hv), ih]
    rfl
  -- The counter is right up to a cycle exactly when no write before it has hit it.
  · intro hread
    have hstep : ∀ v < T, (∀ u ≤ v, (r.state u).csr.cycle = BitVec.ofNat 64 u) → _ :=
      fun v hv hc => cycle_step hc (hread v hv)
    constructor
    · intro h v hv
      exact (hstep v hv fun u hu => h u (by omega)).mp (h (v + 1) hv)
    · intro h t ht
      refine always_between (p := fun t => ∀ u ≤ t, (r.state u).csr.cycle = BitVec.ofNat 64 u)
        ?_ (fun v _ hv ih u hu => ?_) t t.zero_le ht t le_rfl
      · intro u hu
        obtain rfl : u = 0 := by omega
        exact r.zero_eq (fun s => s.csr.cycle) fun _ => rfl
      · rcases Nat.le_succ_iff.mp hu with hle | rfl
        · exact ih u hle
        · exact (hstep v (by omega) ih).mpr (h v (by omega))

/-- A `csrrs x6, mscratch, x0`, which is in write-back in cycle 9, changes nothing. -/
theorem csr_read_pure_mscratch :
    (quietBench [0x34002373]).run₀.readsCsrW 9 = true ∧
      ((quietBench [0x34002373]).run₀.state 12).csr = (quietBench [0x34002373]).run₀.pureCsr 12 ∧
      ((quietBench [0x34002373]).run₀.state 12).csr.cycle = 12 :=
  ⟨by decide +kernel,
    (csr_read_pure (quietBench [0x34002373]).run₀ 12).1 (by decide +kernel) 12 le_rfl,
    ((csr_read_pure (quietBench [0x34002373]).run₀ 12).2 (by decide +kernel)).mpr
      (by decide +kernel) 12 le_rfl⟩

/-- A `csrrs x1, mcycle, x0` puts the counter back: in cycle 12 it shows 9. -/
theorem cycle_put_back :
    ∃ (r : Run TestBench.zeros) (rom : BitVec 32 → BitVec 32) (t : ℕ),
      r.Exact ∧ r.InstrSlave rom ∧ r.DataSlave ∧ r.NoInterrupts ∧
        (∀ v < t, (r.state v).w.csrWrite = true →
          (r.state v).w.csrAddress = csrMcycleAddr ∨ (r.state v).w.csrAddress = csrMcyclehAddr →
            r.readsCsrW v = true) ∧
        (r.state t).csr.cycle = 9 ∧ (r.pureCsr t).cycle = 12 ∧ t = 12 :=
  ⟨(quietBench [0xb00020f3]).run₀, _, 12, TestBench.run₀_exact _, TestBench.run₀_instrSlave _,
    TestBench.run₀_dataSlave _, fun _ => ⟨rfl, rfl⟩, by decide +kernel⟩

end Run

end RvPipelineCore

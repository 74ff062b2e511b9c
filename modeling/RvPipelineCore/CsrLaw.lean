import RvPipelineCore.CsrAccess

/-!
# Writes to CSRs

Each register of `csr_exec` has a process of its own behind the one write port. Those of `mcause`
and of `MPIE` have no branch for a write.

- `CsrExec.readCsr_next_of_writes`, `CsrExec.readCsr_next_of_not_writes`: one clock edge, by masks;
- `Run.csr_write_law`: what a CSR instruction returns and writes, and what it leaves alone.
-/

namespace RvPipelineCore

open Rv32 Temporal

/-! ## Masks -/

/-- The bits of a CSR that its read path takes from registers. -/
def csrBits (a : BitVec 12) : BitVec 32 :=
  if a = csrMscratchAddr ∨ a = csrMtvecAddr ∨ a = csrMtvalAddr then BitVec.allOnes 32
  else if a = csrMepcAddr then 0xfffffffe
  else if a = csrMcauseAddr then 0x8000000f
  else if a = csrMstatusAddr then 0x88
  else if a = csrMieAddr ∨ a = csrMipAddr then 0x888
  else 0

/-- The bits of a CSR with a register that no process of `csr_exec` takes from `csr_write_value`, so
that a CSR write leaves them as they are. -/
def csrUnwritten (a : BitVec 12) : BitVec 32 :=
  if a = csrMcauseAddr then 0x8000000f
  else if a = csrMstatusAddr then 0x80
  else 0

/-- What the bits of a CSR without a register read as: the constants of its source, and zero
elsewhere. -/
def csrFixed (a : BitVec 12) : BitVec 32 :=
  if a = csrMvendorIdAddr then vendorId
  else if a = csrMarchitectureIdAddr then architectureId
  else if a = csrMimplementationIdAddr then implementationId
  else if a = csrMhartIdAddr then hartId
  else if a = csrMisaAddr then CsrExec.misa
  else if a = csrMstatusAddr then 0x1800
  else 0

/-- A write shows what was asked for exactly when it asks for nothing new in the bits that cannot be
written. -/
theorem masked_write_iff (a : BitVec 12) (v old : BitVec 32) :
    v &&& (csrBits a &&& ~~~csrUnwritten a) ||| old &&& csrUnwritten a ||| csrFixed a =
        v &&& csrBits a ||| csrFixed a ↔
      v &&& csrUnwritten a = old &&& csrUnwritten a := by
  -- what has no software write is state, and not fixed
  have hmasks : csrUnwritten a &&& csrBits a = csrUnwritten a ∧
      csrUnwritten a &&& csrFixed a = 0#32 := by
    unfold csrUnwritten
    split_ifs with hcause hstatus
    · exact ⟨hcause ▸ rfl, hcause ▸ rfl⟩
    · exact ⟨hstatus ▸ rfl, hstatus ▸ rfl⟩
    · exact ⟨BitVec.zero_and, BitVec.zero_and⟩
  -- bit by bit: `b` is state, `u` has no software write, `f` is fixed, `w` is written, `q` is old
  have hbit : ∀ b u f w q : Bool, (u && b) = u → (u && f) = false →
      (((w && (b && !u) || q && u) || f) = (w && b || f) ↔ (w && u) = (q && u)) := by
    decide
  have hiff : ∀ (i : ℕ) (hi : i < 32), _ := fun i hi =>
    hbit (csrBits a)[i] (csrUnwritten a)[i] (csrFixed a)[i] v[i] old[i]
      (by rw [← BitVec.getElem_and, hmasks.1]) (by rw [← BitVec.getElem_and, hmasks.2]; simp)
  simp only [← BitVec.getElem_and, ← BitVec.getElem_not, ← BitVec.getElem_or] at hiff
  constructor
  · intro h
    ext i hi
    exact (hiff i hi).mp (by rw [h])
  · intro h
    ext i hi
    exact (hiff i hi).mpr (by rw [h])

namespace CsrExec

variable (c : CsrExec)

/-! ## One clock edge -/

/-- A CSR other than the counters is one of those with registers, or reads as a constant. -/
theorem readCsr_cases {a : BitVec 12} (ha : a ∉ counterCsrs) :
    a ∈ settledCsrs ∨
      csrBits a = 0 ∧ csrUnwritten a = 0 ∧ ∀ c : CsrExec, c.readCsr a = csrFixed a := by
  by_cases hs : a ∈ settledCsrs
  · exact .inl hs
  refine .inr ?_
  simp only [counterCsrs, settledCsrs, List.mem_cons, List.not_mem_nil, or_false, not_or] at ha hs
  obtain ⟨h1, h2, h3, h4⟩ := ha
  obtain ⟨h5, h6, h7, h8, h9, h10, h11, h12⟩ := hs
  refine ⟨by simp [csrBits, *], by simp [csrUnwritten, *], fun c => ?_⟩
  simp only [readCsr, csrFixed, h1, h2, h3, h4, h5, h6, h7, h8, h9, h10, h11, h12, if_false]

/-- Without a trap, an `mret` and a write, a CSR keeps its value, counters apart. -/
theorem readCsr_next_of_not_writes {a : BitVec 12} (ha : a ∉ counterCsrs) {w : CsrWriteback}
    (htrap : w.trapCaught = false) (hmret : w.mretInstr = false) (hw : w.writes a = false)
    (ext timer : Bool) (pc : BitVec 32) : (c.next w ext timer pc).readCsr a = c.readCsr a := by
  rcases readCsr_cases ha with hs | ⟨-, -, hfix⟩
  · exact readCsr_next hs c htrap hw (fun _ => hmret) ext timer pc
  · rw [hfix, hfix]

/-- The three interrupt bits of a word, put back to their places, are the word under a mask. -/
theorem interruptBits_getLsbD (v : BitVec 32) :
    interruptBits (v.getLsbD 11) (v.getLsbD 7) (v.getLsbD 3) = v &&& 0x888 := by
  have hmask : (0x888 : BitVec 32) =
      BitVec.twoPow 32 11 ||| BitVec.twoPow 32 7 ||| BitVec.twoPow 32 3 := by decide
  rw [hmask, BitVec.and_or_distrib_left, BitVec.and_or_distrib_left, BitVec.and_twoPow,
    BitVec.and_twoPow, BitVec.and_twoPow]
  cases v.getLsbD 11 <;> cases v.getLsbD 7 <;> cases v.getLsbD 3 <;> decide

/-- The upper 31 bits of a word with a zero below them are the word under a mask. -/
theorem extract_append_zero (v : BitVec 32) : v.extractLsb' 1 31 ++ 0#1 = v &&& 0xfffffffe := by
  ext i hi
  have hmask : (0xfffffffe : BitVec 32) = ~~~BitVec.twoPow 32 0 := by decide
  rw [hmask, BitVec.getElem_append, BitVec.getElem_and, BitVec.getElem_not, BitVec.getElem_twoPow]
  split_ifs with h
  · obtain rfl : i = 0 := by omega
    simp
  · rw [BitVec.getElem_extractLsb', show 1 + (i - 1) = i by omega, decide_eq_false (by omega)]
    simp [BitVec.getLsbD_eq_getElem hi]

/-- What a CSR reads as is made of its registers, under their mask, and of its constant bits. -/
theorem readCsr_shape {a : BitVec 12} (ha : a ∉ counterCsrs) :
    c.readCsr a = c.readCsr a &&& csrBits a ||| csrFixed a := by
  rcases readCsr_cases ha with hs | ⟨hbits, hun, hfix⟩
  · simp only [settledCsrs, List.mem_cons, List.not_mem_nil, or_false] at hs
    -- `mscratch`, `mtvec`, `mepc`, `mcause`, `mtval`, `mie`, `mip` and `mstatus`, in this order
    rcases hs with rfl | rfl | rfl | rfl | rfl | rfl | rfl | rfl
    · exact (BitVec.or_zero.trans BitVec.and_allOnes).symm
    · exact (BitVec.or_zero.trans BitVec.and_allOnes).symm
    · have h := extract_append_zero c.mepc
      rw [mepc_part] at h
      exact h.trans BitVec.or_zero.symm
    · change c.mcause = c.mcause &&& 0x8000000f ||| 0
      simp only [mcause]
      generalize c.interrupt = i, c.exceptionCode = e
      decide +revert
    · exact (BitVec.or_zero.trans BitVec.and_allOnes).symm
    · change c.mie = c.mie &&& 0x888 ||| 0
      simp only [mie]
      generalize c.meie = e, c.mtie = t, c.msie = s
      decide +revert
    · change c.mip = c.mip &&& 0x888 ||| 0
      simp only [mip]
      generalize c.meip = e, c.mtip = t, c.msip = s
      decide +revert
    · change c.mstatus = c.mstatus &&& 0x88 ||| 0x1800
      simp only [mstatus]
      generalize c.mstatusMpie = p, c.mstatusMie = i
      decide +revert
  · simp [hfix, hbits]

/-- A write changes the bits that a process takes from `csr_write_value`. -/
theorem readCsr_next_of_writes {a : BitVec 12} (ha : a ∉ counterCsrs) {w : CsrWriteback}
    (htrap : w.trapCaught = false) (hmret : w.mretInstr = false) (hw : w.writes a = true)
    (ext timer : Bool) (pc : BitVec 32) :
    (c.next w ext timer pc).readCsr a =
      w.writeValue &&& (csrBits a &&& ~~~csrUnwritten a) ||| c.readCsr a &&& csrUnwritten a |||
        csrFixed a := by
  rcases readCsr_cases ha with hs | ⟨hbits, hun, hfix⟩
  · simp only [settledCsrs, List.mem_cons, List.not_mem_nil, or_false] at hs
    have hmask : ∀ m v q : BitVec 32, v &&& m = v &&& m ||| q &&& 0#32 ||| 0#32 := by
      intro m v q
      rw [BitVec.and_zero, BitVec.or_zero, BitVec.or_zero]
    have hall : ∀ v q : BitVec 32, v = v &&& BitVec.allOnes 32 ||| q &&& 0#32 ||| 0#32 :=
      fun v q => BitVec.and_allOnes.symm.trans (hmask _ v q)
    -- register by register, in the order of `settledCsrs`
    rcases hs with rfl | rfl | rfl | rfl | rfl | rfl | rfl | rfl
    · simp only [readCsr_mscratch, next, hw, if_true]
      exact hall _ _
    · simp only [readCsr_mtvec, mtvec, next, hw, if_true, BitVec.extractLsb'_append_extractLsb']
      exact hall _ _
    · simp only [readCsr_mepc, mepc, next, hw, htrap, if_true, Bool.false_eq_true, if_false,
        extract_append_zero]
      exact hmask _ _ _
    · -- a write leaves `mcause`
      have hkeep : (c.next w ext timer pc).readCsr csrMcauseAddr = c.readCsr csrMcauseAddr := by
        simp [mcause, next, htrap]
      rw [hkeep]
      change _ = w.writeValue &&& 0#32 ||| _ ||| 0#32
      rw [BitVec.and_zero, BitVec.zero_or]
      exact c.readCsr_shape ha
    · simp only [readCsr_mtval, next, hw, htrap, if_true, Bool.false_eq_true, if_false]
      exact hall _ _
    · simp only [readCsr_mie, mie, next, hw, if_true, interruptBits_getLsbD]
      exact hmask _ _ _
    · simp only [readCsr_mip, mip, next, hw, if_true, interruptBits_getLsbD]
      exact hmask _ _ _
    · change _ = w.writeValue &&& BitVec.twoPow 32 3 ||| c.mstatus &&& 0x80 ||| 0x1800
      simp only [readCsr_mstatus, mstatus, next, hw, htrap, hmret, if_true, Bool.false_eq_true,
        if_false, BitVec.and_twoPow]
      generalize c.mstatusMpie = p, c.mstatusMie = i, w.writeValue.getLsbD 3 = v
      decide +revert
  · simp [hfix, hbits, hun]

end CsrExec

/-! ## A single write -/

/-- The operand of the CSR instruction in execute: the immediate or the first source register, as
bit 2 of `funct3` says. -/
def State.csrOperandE (s : State) : BitVec 32 :=
  if s.e.funct3.getLsbD 2 then s.e.immExt else s.e.rd1

/-- The value that the CSR instruction in execute writes: what it reads, replaced or with bits set
or cleared by its operand. -/
def State.csrValueE (s : State) (o : CsrOp) : BitVec 32 :=
  o.eval (s.csr.readCsr s.e.csrAddress) s.csrOperandE

/-- A counter with halves `lo` and `hi` after a write of `v` to CSR `a`: `before` counts before the
write, none with it, and `after` counts after it. A write of another CSR does not stop it for the
`total` counts. -/
def counterAfter (lo hi a : BitVec 12) (v : BitVec 32) (c : BitVec 64) (before after total : ℕ) :
    BitVec 64 :=
  if a = lo then (c + BitVec.ofNat 64 before).extractLsb' 32 32 ++ v + BitVec.ofNat 64 after
  else if a = hi then v ++ (c + BitVec.ofNat 64 before).extractLsb' 0 32 + BitVec.ofNat 64 after
  else c + BitVec.ofNat 64 total

namespace Run

variable {x : DontCare} (r : Run x)

/-- The instructions that write-back holds in `k` cycles from cycle `s` on. -/
def retired (s k : ℕ) : ℕ := Nat.count (fun j => (r.state (s + j)).w.validPc = true) k

/-- The instruction that is in execute in cycle `s` is in write-back two cycles later, as the only
one that writes a CSR before cycle `T`. There is no trap and no `mret`. -/
structure LoneWrite (s T : ℕ) : Prop where
  write : (r.state (s + 2)).w.csrWrite = true
  other : ∀ v, s ≤ v → v < T → v ≠ s + 2 → (r.state v).w.csrWrite = false
  trap : ∀ v, s ≤ v → v < T → (r.state v).trapCaughtW = false
  mret : ∀ v, s ≤ v → v < T → (r.state v).w.mretInstr = false

/-- The instruction that is in execute in cycle `s` returns the old value of CSR `a`. In cycle `T`
the CSR reads as `v` where it has registers, and all others are as they were, counters counted. -/
structure CsrLaw (s T : ℕ) (a : BitVec 12) (v : BitVec 32) : Prop where
  returns : (r.state (s + 2)).resultW = (r.state s).csr.readCsr a
  reads : a ∉ counterCsrs → (r.state T).csr.readCsr a = v &&& csrBits a ||| csrFixed a
  frame : ∀ b ∉ counterCsrs, b ≠ a → (r.state T).csr.readCsr b = (r.state s).csr.readCsr b
  cycle : (r.state T).csr.cycle = counterAfter csrMcycleAddr csrMcyclehAddr a v
    (r.state s).csr.cycle 2 (T - (s + 3)) (T - s)
  minstret : (r.state T).csr.minstret = counterAfter csrMinstretAddr csrMinstrethAddr a v
    (r.state s).csr.minstret (r.retired s 2) (r.retired (s + 3) (T - (s + 3))) (r.retired s (T - s))

variable {r}

/-- A CSR other than the counters that no write, no trap and no `mret` touches keeps its value. -/
theorem readCsr_quiet {a : BitVec 12} (ha : a ∉ counterCsrs) {s t : ℕ} (hst : s ≤ t)
    (hquiet : ∀ v, s ≤ v → v < t → (r.state v).trapCaughtW = false ∧
      (r.state v).w.mretInstr = false ∧ (r.state v).csrWriteback.writes a = false) :
    (r.state t).csr.readCsr a = (r.state s).csr.readCsr a := by
  refine always_between (p := fun t => (r.state t).csr.readCsr a = (r.state s).csr.readCsr a) rfl
    (fun v hv hvt ih => ?_) t hst le_rfl
  obtain ⟨htrap, hmret, hw⟩ := hquiet v hv hvt
  rw [r.succ_csr, CsrExec.readCsr_next_of_not_writes _ ha htrap hmret hw]
  exact ih

/-- A counter that nothing writes goes on by the number of cycles in which it counts. -/
theorem counter_quiet {q : ℕ → BitVec 64} {p : ℕ → Prop} [DecidablePred p] {s k : ℕ}
    (h : ∀ v, s ≤ v → v < s + k → q (v + 1) = if p v then q v + 1 else q v) :
    q (s + k) = q s + BitVec.ofNat 64 (Nat.count (fun j => p (s + j)) k) := by
  induction k with
  | zero => simp
  | succ k ih =>
    rw [← Nat.add_assoc, h (s + k) (by omega) (by omega), ih fun v hv hvk => h v hv (by omega),
      Nat.count_succ]
    split_ifs
    · rw [BitVec.ofNat_add, ← BitVec.add_assoc]
      rfl
    · rfl

/-- A counter with one write to it or to something else. -/
theorem counter_law (lo hi a : BitVec 12) (v : BitVec 32) {q : ℕ → BitVec 64} {p : ℕ → Prop}
    [DecidablePred p] {s T : ℕ} (hT : s + 3 ≤ T)
    (h : ∀ u, s ≤ u → u < T → q (u + 1) =
      if u = s + 2 ∧ a = lo then (q u).extractLsb' 32 32 ++ v
      else if u = s + 2 ∧ a = hi then v ++ (q u).extractLsb' 0 32
      else if p u then q u + 1 else q u) :
    q T = counterAfter lo hi a v (q s) (Nat.count (fun j => p (s + j)) 2)
      (Nat.count (fun j => p (s + 3 + j)) (T - (s + 3)))
      (Nat.count (fun j => p (s + j)) (T - s)) := by
  -- the write comes in cycle `s + 2`, and all other cycles only count
  have hother : ∀ u, s ≤ u → u < T → u ≠ s + 2 → q (u + 1) = if p u then q u + 1 else q u := by
    intro u hu huT hne
    rw [h u hu huT, if_neg fun hc => hne hc.1, if_neg fun hc => hne hc.1]
  have hbefore := counter_quiet (q := q) (p := p) (s := s) (k := 2) fun u hu hu2 =>
    hother u hu (by omega) (by omega)
  have hafter := counter_quiet (q := q) (p := p) (s := s + 3) (k := T - (s + 3)) fun u hu huT =>
    hother u (by omega) (by omega) (by omega)
  have hwrite := h (s + 2) (by omega) (by omega)
  rw [show s + 3 + (T - (s + 3)) = T by omega] at hafter
  rw [counterAfter]
  -- the write goes to the low half, to the high half, or to another CSR
  split_ifs with hlo hhi
  · rw [if_pos ⟨rfl, hlo⟩, hbefore] at hwrite
    rw [hafter, hwrite]
  · rw [if_neg fun hc => hlo hc.2, if_pos ⟨rfl, hhi⟩, hbefore] at hwrite
    rw [hafter, hwrite]
  · have htotal := counter_quiet (q := q) (p := p) (s := s) (k := T - s) fun u hu huT => by
      rw [h u hu (by omega), if_neg fun hc => hlo hc.2, if_neg fun hc => hhi hc.2]
    rwa [show s + (T - s) = T by omega] at htotal

/-- The next value of the counter of instructions: a half is replaced by a CSR write to it, and
otherwise the counter goes on if write-back is valid. -/
theorem succ_minstret (t : ℕ) :
    (r.state (t + 1)).csr.minstret =
      if (r.state t).csrWriteback.writes csrMinstretAddr then
        (r.state t).csr.minstret.extractLsb' 32 32 ++ (r.state t).w.outWriteCsr
      else if (r.state t).csrWriteback.writes csrMinstrethAddr then
        (r.state t).w.outWriteCsr ++ (r.state t).csr.minstret.extractLsb' 0 32
      else if (r.state t).w.validPc = true then (r.state t).csr.minstret + 1
      else (r.state t).csr.minstret := by
  rw [r.succ_csr]
  rfl

section LoneWrite

variable {s T : ℕ}

/-- With a single CSR write the port writes in one cycle only, and then the CSR that the instruction
names. -/
theorem LoneWrite.writes_iff (h : r.LoneWrite s T) {v : ℕ} (hv : s ≤ v) (hvT : v < T)
    (a : BitVec 12) :
    (r.state v).csrWriteback.writes a = true ↔ v = s + 2 ∧ (r.state s).e.csrAddress = a := by
  have hw : (r.state v).csrWriteback.writes a =
      ((r.state v).w.csrAddress == a && (r.state v).w.csrWrite) := rfl
  rw [hw, Bool.and_eq_true, beq_iff_eq]
  by_cases hs : v = s + 2
  · rw [hs, (csrWriteW_origin h.write).2.1]
    simp [h.write]
  · simp [h.other v hv hvT hs, hs]

/-- A single CSR write leaves the other CSRs as they are, and its own one before and after the cycle
in which it is written. -/
theorem LoneWrite.readCsr_eq (h : r.LoneWrite s T) {a : BitVec 12} (ha : a ∉ counterCsrs)
    {u t : ℕ} (hu : s ≤ u) (hut : u ≤ t) (ht : t ≤ T)
    (hno : ∀ v, u ≤ v → v < t → ¬ (v = s + 2 ∧ (r.state s).e.csrAddress = a)) :
    (r.state t).csr.readCsr a = (r.state u).csr.readCsr a := by
  refine readCsr_quiet ha hut fun v hv hvt => ⟨h.trap v (by omega) (by omega),
    h.mret v (by omega) (by omega), Bool.eq_false_iff.mpr fun hw => hno v hv hvt ?_⟩
  exact (h.writes_iff (by omega) (by omega) a).mp hw

/-- After a single CSR write its CSR shows the value, in the bits that a process takes from it, and
its old bits elsewhere. -/
theorem LoneWrite.readCsr_written (h : r.LoneWrite s T) (hT : s + 3 ≤ T)
    (ha : (r.state s).e.csrAddress ∉ counterCsrs) :
    (r.state T).csr.readCsr (r.state s).e.csrAddress =
      (r.state s).outWriteCsrE &&&
          (csrBits (r.state s).e.csrAddress &&& ~~~csrUnwritten (r.state s).e.csrAddress) |||
        (r.state s).csr.readCsr (r.state s).e.csrAddress &&&
          csrUnwritten (r.state s).e.csrAddress ||| csrFixed (r.state s).e.csrAddress := by
  have hbefore : (r.state (s + 2)).csr.readCsr (r.state s).e.csrAddress = _ :=
    h.readCsr_eq ha le_rfl (by omega) (by omega) fun v _ hv => by omega
  have hafter : (r.state T).csr.readCsr (r.state s).e.csrAddress = _ :=
    h.readCsr_eq ha (by omega : s ≤ s + 3) hT le_rfl fun v hv _ => by omega
  rw [hafter, r.succ_csr (s + 2), CsrExec.readCsr_next_of_writes _ ha
    (h.trap (s + 2) (by omega) (by omega)) (h.mret (s + 2) (by omega) (by omega))
    ((h.writes_iff (by omega) (by omega) _).mpr ⟨rfl, rfl⟩), hbefore]
  change (r.state (s + 2)).w.outWriteCsr &&& _ ||| _ ||| _ = _
  rw [(csrWriteW_origin h.write).2.2]

/-- A single CSR write stops a counter for one cycle if it writes one of its halves, and otherwise
lets both go on. -/
theorem LoneWrite.counters (h : r.LoneWrite s T) (hT : s + 3 ≤ T) :
    (r.state T).csr.cycle = counterAfter csrMcycleAddr csrMcyclehAddr (r.state s).e.csrAddress
        (r.state s).outWriteCsrE (r.state s).csr.cycle 2 (T - (s + 3)) (T - s) ∧
      (r.state T).csr.minstret = counterAfter csrMinstretAddr csrMinstrethAddr
        (r.state s).e.csrAddress (r.state s).outWriteCsrE (r.state s).csr.minstret (r.retired s 2)
        (r.retired (s + 3) (T - (s + 3))) (r.retired s (T - s)) := by
  -- the value is carried from execute to write-back unchanged
  have hval : ∀ u, u = s + 2 → (r.state u).w.outWriteCsr = (r.state s).outWriteCsrE := by
    rintro u rfl
    exact (csrWriteW_origin h.write).2.2
  constructor
  · have hcycle := counter_law csrMcycleAddr csrMcyclehAddr (r.state s).e.csrAddress
      (r.state s).outWriteCsrE (q := fun t => (r.state t).csr.cycle) (p := fun _ => True) hT
      -- `mcycle` counts every cycle
      fun u hu huT => by
        simp only [succ_cycle, h.writes_iff hu huT, if_true]
        split_ifs with hlo hhi
        · rw [hval u hlo.1]
        · rw [hval u hhi.1]
        · rfl
    simpa only [Nat.count_true] using hcycle
  · refine counter_law _ _ _ _ (q := fun t => (r.state t).csr.minstret)
      (p := fun v => (r.state v).w.validPc = true) hT fun u hu huT => ?_
    -- `minstret` counts the cycles with a valid instruction in write-back
    simp only [succ_minstret, h.writes_iff hu huT]
    split_ifs with hlo hhi
    · rw [hval u hlo.1]
    · rw [hval u hhi.1]
    · rfl
    · rfl

end LoneWrite

variable (r)

/-- A CSR instruction that is the only one to write a CSR, without a trap and an `mret`, returns the
old value, writes the new one and changes nothing else, exactly when it leaves `mcause` and `MPIE`
as they were. -/
theorem csr_write_law {s T : ℕ} {o : CsrOp} (ho : decodeCsr (r.state s).e.funct3 = some o)
    (hlone : r.LoneWrite s T) (hT : s + 3 ≤ T) :
    r.CsrLaw s T (r.state s).e.csrAddress ((r.state s).csrValueE o) ↔
      (r.state s).csrValueE o &&& csrUnwritten (r.state s).e.csrAddress =
        (r.state s).csr.readCsr (r.state s).e.csrAddress &&&
          csrUnwritten (r.state s).e.csrAddress := by
  have hval : (r.state s).csrValueE o = (r.state s).outWriteCsrE :=
    (CsrExec.outWriteCsr_eq _ ho _ _ _).symm
  rw [hval]
  constructor
  · intro h
    -- for the halves of the counters there is no such bit, so that both sides are zero
    by_cases ha : (r.state s).e.csrAddress ∈ counterCsrs
    · simp only [counterCsrs, List.mem_cons, List.not_mem_nil, or_false] at ha
      rcases ha with ha | ha | ha | ha <;> rw [ha] <;>
        exact BitVec.and_zero.trans BitVec.and_zero.symm
    · exact (masked_write_iff _ _ _).mp ((hlone.readCsr_written hT ha).symm.trans (h.reads ha))
  · intro h
    obtain ⟨hcycle, hminstret⟩ := hlone.counters hT
    refine ⟨?_, fun ha => ?_, fun b hb hne => ?_, hcycle, hminstret⟩
    -- the old value is what the instruction returns, since no trap keeps it from write-back
    · refine resultW_of_csrWrite (csrWriteW_origin hlone.write).1 ?_
      rw [← r.succ_trapCaughtW]
      exact hlone.trap (s + 2) (by omega) (by omega)
    · exact (hlone.readCsr_written hT ha).trans ((masked_write_iff _ _ _).mpr h)
    · exact hlone.readCsr_eq hb le_rfl (by omega) le_rfl fun v _ _ hv => hne hv.2.symm

/-- A `csrrwi x0, mscratch, 5` behind a `nop` writes `mscratch` and nothing else. -/
theorem csr_write_law_mscratch :
    (quietBench [0x00000013, 0x3402d073]).run₀.CsrLaw 9 15
        ((quietBench [0x00000013, 0x3402d073]).run₀.state 9).e.csrAddress
        (((quietBench [0x00000013, 0x3402d073]).run₀.state 9).csrValueE .write) ∧
      ((quietBench [0x00000013, 0x3402d073]).run₀.state 15).csr.mscratch = 5 :=
  ⟨(csr_write_law (quietBench [0x00000013, 0x3402d073]).run₀ (by decide +kernel)
    ⟨by decide +kernel, by decide +kernel, by decide +kernel, by decide +kernel⟩
    (by decide)).mpr (by decide +kernel), by decide +kernel⟩

/-- A `csrrwi x0, mcause, 5` behind a `nop` does not write `mcause`. -/
theorem mcause_not_written :
    ∃ (r : Run TestBench.zeros) (rom : BitVec 32 → BitVec 32) (s T : ℕ) (o : CsrOp),
      r.Exact ∧ r.InstrSlave rom ∧ r.DataSlave ∧ r.NoInterrupts ∧
        decodeCsr (r.state s).e.funct3 = some o ∧ r.LoneWrite s T ∧ s + 3 ≤ T ∧
        (r.state s).e.csrAddress = csrMcauseAddr ∧ (r.state s).csrValueE o = 5 ∧
        ¬ r.CsrLaw s T (r.state s).e.csrAddress ((r.state s).csrValueE o) := by
  refine ⟨(quietBench [0x00000013, 0x3422d073]).run₀, _, 9, 15, .write, TestBench.run₀_exact _,
    TestBench.run₀_instrSlave _, TestBench.run₀_dataSlave _, fun _ => ⟨rfl, rfl⟩,
    by decide +kernel,
    ⟨by decide +kernel, by decide +kernel, by decide +kernel, by decide +kernel⟩, by decide,
    by decide +kernel, by decide +kernel, fun h => ?_⟩
  exact absurd (h.reads (by decide +kernel)) (by decide +kernel)

end Run

end RvPipelineCore

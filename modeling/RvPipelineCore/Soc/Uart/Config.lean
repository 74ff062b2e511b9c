import RvPipelineCore.Soc.Uart.Regs

/-!
# The register file of the UART

What the bus reads and writes in the registers that only writes change, over whole runs.

- `UartConfig`: these registers, and what a write does to them;
- `UartRegs.Run.config_eq`: they are what the writes have made of them;
- `UartRegs.Run.pushed_eq`: the bytes that the transmitter is given are those that are written.
-/

namespace RvPipelineCore

/-- An access to a register, with what is read or written. -/
inductive UartAccess
  | read (addr : BitVec 3) (dat : BitVec 8)
  | write (addr : BitVec 3) (dat : BitVec 8)
  deriving DecidableEq

/-- The registers of the UART that only writes change, which make up its configuration. -/
structure UartConfig where
  ier : BitVec 4
  fcr : BitVec 2
  mcr : BitVec 5
  lcr : BitVec 8
  dl : BitVec 16
  scratch : BitVec 8
  deriving DecidableEq

namespace UartConfig

/-- The configuration after `wb_rst_i`. -/
def initial : UartConfig := ⟨0, 0b11, 0, 0b00000011, 0, 0⟩

variable (c : UartConfig)

/-- `dlab`: bit 7 of the line control register of the configuration. -/
def dlab : Bool := c.lcr.getLsbD 7

/-- A write. With `dlab` the divisor is at the first two addresses. -/
def write (addr : BitVec 3) (dat : BitVec 8) : UartConfig :=
  match addr, c.dlab with
  | 0, true => { c with dl := c.dl.extractLsb' 8 8 ++ dat }
  | 1, true => { c with dl := dat ++ c.dl.extractLsb' 0 8 }
  | 1, false => { c with ier := dat.extractLsb' 0 4 }
  | 2, _ => { c with fcr := dat.extractLsb' 6 2 }
  | 3, _ => { c with lcr := dat }
  | 4, _ => { c with mcr := dat.extractLsb' 0 5 }
  | 7, _ => { c with scratch := dat }
  | _, _ => c

/-- The configuration after an access, which a read leaves as it is. -/
def access : UartAccess → UartConfig
  | .read _ _ => c
  | .write addr dat => c.write addr dat

/-- The byte that a write gives to the transmitter, if it is a write to address 0 and the divisor is
not there. -/
def byte : UartAccess → List (BitVec 8)
  | .read _ _ => []
  | .write addr dat => if addr = 0 ∧ c.dlab = false then [dat] else []

/-- The configuration after some accesses, in order. -/
def after (accesses : List UartAccess) : UartConfig := accesses.foldl access c

/-- The bytes that some accesses give to the transmitter, in order, starting from the given
configuration. -/
def text (c : UartConfig) : List UartAccess → List (BitVec 8)
  | [] => []
  | a :: accesses => c.byte a ++ (c.access a).text accesses

/-- What a read of an address returns, where the configuration decides it. -/
def value (addr : BitVec 3) : Option (BitVec 8) :=
  match addr, c.dlab with
  | 0, true => some (c.dl.extractLsb' 0 8)
  | 1, true => some (c.dl.extractLsb' 8 8)
  | 1, false => some (c.ier.setWidth 8)
  | 3, _ => some c.lcr
  | 7, _ => some c.scratch
  | _, _ => none

variable {c}

/-- The configuration after two lists of accesses is that after the second one, starting from that
after the first. -/
theorem after_append (past rest : List UartAccess) :
    c.after (past ++ rest) = (c.after past).after rest := List.foldl_append ..

/-- The bytes of two lists of accesses are those of the first, followed by those of the second in
the configuration that the first one leaves. -/
theorem text_append (past rest : List UartAccess) :
    c.text (past ++ rest) = c.text past ++ (c.after past).text rest := by
  induction past generalizing c with
  | nil => rfl
  | cons a past ih => rw [List.cons_append, text, text, ih, List.append_assoc]; rfl

end UartConfig

namespace UartRegs

variable (s : UartRegs) (i : In)

/-- The configuration of the registers, as the part of them that only writes change. -/
def config : UartConfig := ⟨s.ier, s.fcr, s.mcr, s.lcr, s.dl, s.scratch⟩

/-- The access that the bus makes in a cycle, with the value that a read returns. A write wins over
a read. -/
def accesses : List UartAccess :=
  if i.wbWeI then [.write i.wbAddrI i.wbDatI]
  else if i.wbReI then [.read i.wbAddrI (s.wbDatO i)]
  else []

variable {s i}

/-- An address of a register is one of eight. -/
theorem addr_cases (addr : BitVec 3) : addr = 0 ∨ addr = 1 ∨ addr = 2 ∨ addr = 3 ∨ addr = 4 ∨
    addr = 5 ∨ addr = 6 ∨ addr = 7 := by
  revert addr
  decide

/-- The two bytes of the divisor together are the divisor. -/
theorem append_extractLsb' (v : BitVec 16) : v.extractLsb' 8 8 ++ v.extractLsb' 0 8 = v :=
  BitVec.extractLsb'_append_extractLsb'

/-- A cycle does to these registers what its access does. -/
theorem config_next : (s.next i).config = s.config.after (s.accesses i) := by
  rw [accesses, config]
  cases hwe : i.wbWeI with
  | false =>
    -- A read writes no register; the divisor latch is put together again from its halves.
    have hno (addr : BitVec 3) : i.writes addr = false := by rw [In.writes, hwe, Bool.false_and]
    have hsame : (s.next i).config = s.config := by
      simp [config, next, dlNext, hno, append_extractLsb']
    rw [if_neg Bool.false_ne_true]
    split_ifs <;> exact hsame
  | true =>
    have hwrites (addr : BitVec 3) : i.writes addr = (i.wbAddrI == addr) := by
      rw [In.writes, hwe, Bool.true_and]
    rw [if_pos rfl]
    -- The register written, as a table, to be gone through address by address.
    have hdlab (addr : BitVec 3) (dat : BitVec 8) : s.config.write addr dat =
        match addr, s.dlab with
        | 0, true => { s.config with dl := s.dl.extractLsb' 8 8 ++ dat }
        | 1, true => { s.config with dl := dat ++ s.dl.extractLsb' 0 8 }
        | 1, false => { s.config with ier := dat.extractLsb' 0 4 }
        | 2, _ => { s.config with fcr := dat.extractLsb' 6 2 }
        | 3, _ => { s.config with lcr := dat }
        | 4, _ => { s.config with mcr := dat.extractLsb' 0 5 }
        | 7, _ => { s.config with scratch := dat }
        | _, _ => s.config := rfl
    change _ = s.config.write i.wbAddrI i.wbDatI
    rw [hdlab]
    rcases addr_cases i.wbAddrI with h | h | h | h | h | h | h | h <;> cases hd : s.dlab <;>
      simp [config, next, dlNext, hwrites, h, hd, append_extractLsb']

/-- A read whose value the configuration decides returns this value. -/
theorem wbDatO_of_value {v : BitVec 8} (h : v ∈ s.config.value i.wbAddrI) : s.wbDatO i = v := by
  have hdlab : s.config.dlab = s.dlab := rfl
  unfold UartConfig.value at h
  rw [hdlab] at h
  rcases addr_cases i.wbAddrI with ha | ha | ha | ha | ha | ha | ha | ha <;>
    cases hd : s.dlab <;> simp [ha, hd, config] at h <;> simp [wbDatO, ha, hd, h]

/-- A read in the list of accesses has the value that the configuration decides. -/
theorem dat_of_accesses {addr : BitVec 3} {dat v : BitVec 8} {rest : List UartAccess}
    (h : s.accesses i = .read addr dat :: rest) (hv : v ∈ s.config.value addr) : dat = v := by
  rw [accesses] at h
  split_ifs at h with hwe hre
  · exact absurd h (by simp)
  · simp only [List.cons.injEq, UartAccess.read.injEq] at h
    obtain ⟨⟨rfl, rfl⟩, -⟩ := h
    exact wbDatO_of_value hv

/-- The bus makes one access at most in a cycle. -/
theorem length_accesses : (s.accesses i).length ≤ 1 := by
  rw [accesses]
  split_ifs <;> simp

/-- A run of the registers after a reset, with any accesses and any levels of the lines. -/
structure Run where
  state : ℕ → UartRegs
  inp : ℕ → In
  start : ∃ s : UartRegs, state 0 = s.reset
  succ : ∀ t, state (t + 1) = (state t).next (inp t)

namespace Run

variable (run : Run) {t : ℕ}

/-- The accesses that the bus has made before cycle `t`, in order. -/
def made : ℕ → List UartAccess
  | 0 => []
  | t + 1 => made t ++ (run.state t).accesses (run.inp t)

/-- The bytes that have been handed to the FIFO of the transmitter before cycle `t`. -/
def pushed : ℕ → List (BitVec 8)
  | 0 => []
  | t + 1 => pushed t ++ if (run.state t).tfPush then [(run.inp t).wbDatI] else []

/-- The data of a write stays for one cycle more. -/
def Holds : Prop := ∀ t, (run.inp t).wbWeI = true → (run.inp (t + 1)).wbDatI = (run.inp t).wbDatI

/-- The accesses made up to a cycle are the first ones of those made up to a later cycle. -/
theorem made_prefix {u : ℕ} (h : u ≤ t) : run.made u <+: run.made t := by
  induction t, h using Nat.le_induction with
  | base => exact List.prefix_rfl
  | succ t _ ih => exact ih.trans (List.prefix_append _ _)

/-- The bytes pushed up to a cycle are the first ones of those pushed up to a later cycle. -/
theorem pushed_prefix {u : ℕ} (h : u ≤ t) : run.pushed u <+: run.pushed t := by
  induction t, h using Nat.le_induction with
  | base => exact List.prefix_rfl
  | succ t _ ih => exact ih.trans (List.prefix_append _ _)

variable {run}

/-- The registers are what the writes have made of them. -/
theorem config_eq (run : Run) (t : ℕ) :
    (run.state t).config = UartConfig.initial.after (run.made t) := by
  induction t with
  | zero =>
    obtain ⟨s, hs⟩ := run.start
    rw [hs]
    rfl
  | succ t ih => rw [run.succ, config_next, made, UartConfig.after_append, ih]

/-- The push of a cycle is the write of the cycle before. -/
theorem push_eq (h : run.Holds) (t : ℕ) :
    (if (run.state (t + 1)).tfPush then [(run.inp (t + 1)).wbDatI] else []) =
      (run.state t).config.text ((run.state t).accesses (run.inp t)) := by
  have hpush : (run.state (t + 1)).tfPush = ((run.inp t).writes 0 && !(run.state t).dlab) := by
    rw [run.succ, next]
  rw [hpush, accesses, In.writes]
  cases hwe : (run.inp t).wbWeI with
  | false =>
    rw [Bool.false_and, Bool.false_and, if_neg Bool.false_ne_true, if_neg Bool.false_ne_true]
    split_ifs <;> rfl
  | true =>
    have hdlab : (run.state t).config.dlab = (run.state t).dlab := rfl
    rw [if_pos rfl, h t hwe, UartConfig.text, UartConfig.text, UartConfig.byte, hdlab,
      List.append_nil]
    simp

/-- The bytes that the transmitter is given are those that are written. -/
theorem pushed_eq (h : run.Holds) (t : ℕ) :
    run.pushed (t + 1) = UartConfig.initial.text (run.made t) := by
  induction t with
  | zero =>
    obtain ⟨s, hs⟩ := run.start
    rw [pushed, hs]
    rfl
  | succ t ih => rw [pushed, ih, push_eq h, made, UartConfig.text_append, config_eq]

/-- Of the registers that only writes change, a read returns what the writes before it have made of
them, and the FIFO of the transmitter is given, in order, the bytes that are written for it. -/
theorem register_file (h : run.Holds) (t : ℕ) :
    (∀ past rest addr dat, run.made t = past ++ .read addr dat :: rest →
        ∀ v ∈ (UartConfig.initial.after past).value addr, dat = v) ∧
      run.pushed (t + 1) = UartConfig.initial.text (run.made t) := by
  refine ⟨?_, pushed_eq h t⟩
  induction t with
  | zero =>
    intro past rest addr dat hmade
    exact absurd hmade (by simp [made])
  | succ t ih =>
    intro past rest addr dat hmade v hv
    rw [made] at hmade
    rcases List.append_eq_append_iff.mp hmade with ⟨mid, hpast, haccess⟩ | ⟨mid, hpast, hrest⟩
    · -- it is the read of this cycle
      have hlen := length_accesses (s := run.state t) (i := run.inp t)
      rw [haccess, List.length_append, List.length_cons] at hlen
      obtain rfl : mid = [] := List.length_eq_zero_iff.mp (by omega)
      rw [hpast, List.append_nil, ← config_eq] at hv
      exact dat_of_accesses haccess hv
    · cases mid with
      | nil =>
        rw [List.append_nil] at hpast
        rw [← hpast, ← config_eq] at hv
        exact dat_of_accesses hrest.symm hv
      | cons a mid =>
        rw [List.cons_append, List.cons.injEq] at hrest
        obtain ⟨rfl, -⟩ := hrest
        exact ih past mid addr dat hpast v hv

end Run

end UartRegs

end RvPipelineCore

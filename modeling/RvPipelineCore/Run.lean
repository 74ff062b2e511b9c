import RvPipelineCore.Step

/-!
# Runs

A `Run` is an infinite execution of `processor` from its reset. The branch predictor is left free
in it: before every cycle its tables may change to anything, so a result about a `Run` holds
whatever the predictor says. `Run.Exact` is the execution of the source, in which the tables start
with their initial values and change as `branch_predictor` changes them.

- `Run.InstrSlave`, `Run.DataSlave`: what the core expects of the two Wishbone slaves;
- `Run.succ_e` and its siblings: what each register holds after a cycle;
- `Run.ofInputs`: the exact execution in a given environment.
-/

namespace RvPipelineCore

/-- An execution of `processor` after its reset, with the branch predictor left free. -/
structure Run (x : DontCare) where
  state : ℕ → State
  inputs : ℕ → Inputs
  start : ∃ s : State, state 0 = s.reset
  next : ∀ t, ∃ p, state (t + 1) = { (state t).step x (inputs t) with predictor := p }

namespace Run

variable {x : DontCare} (r : Run x)

/-- The tables of the branch predictor start and change as in the source. -/
structure Exact : Prop where
  start : (r.state 0).PowerOn
  next : ∀ t, r.state (t + 1) = (r.state t).step x (r.inputs t)

/-! ## The slaves -/

/-- An instruction slave: it acknowledges only while `cyc` and `stb` are high, and the data at the
acknowledge is the word of `rom` at `instr_wb_adr`. -/
def InstrSlave (rom : BitVec 32 → BitVec 32) : Prop :=
  ∀ t, (r.inputs t).instrWbAck = true →
    (r.state t).instrPort.cyc = true ∧ (r.state t).instrPort.stb = true ∧
      (r.inputs t).instrWbData = rom (r.state t).instrPort.adr

/-- A data slave: it acknowledges only while `cyc` and `stb` are high. -/
def DataSlave : Prop :=
  ∀ t, (r.inputs t).dWbAck = true →
    (r.state t).dPort.cyc = true ∧ (r.state t).dPort.stb = true

/-- The instruction slave acknowledges at least one cycle after `cyc` and `stb` rise. -/
def InstrDelayed : Prop :=
  ∀ t, (r.inputs t).instrWbAck = true →
    ∃ u, t = u + 1 ∧ (r.state u).instrPort.cyc = true ∧ (r.state u).instrPort.stb = true

/-- The data slave acknowledges at least one cycle after `cyc` and `stb` rise. -/
def DataDelayed : Prop :=
  ∀ t, (r.inputs t).dWbAck = true →
    ∃ u, t = u + 1 ∧ (r.state u).dPort.cyc = true ∧ (r.state u).dPort.stb = true

/-- The instruction slave is fair: in every cycle in which the port requests a transfer, an
acknowledge is given then or later. -/
def InstrFair : Prop :=
  ∀ t, (r.state t).instrPort.cyc = true → ∃ u, t ≤ u ∧ (r.inputs u).instrWbAck = true

/-- The data slave is fair: in every cycle in which the port requests a transfer, an acknowledge is
given then or later. -/
def DataFair : Prop :=
  ∀ t, (r.state t).dPort.cyc = true → ∃ u, t ≤ u ∧ (r.inputs u).dWbAck = true

/-- Both interrupt lines stay low in every cycle of the run, so no interrupt is ever sampled. -/
def NoInterrupts : Prop :=
  ∀ t, (r.inputs t).interruptExternal = false ∧ (r.inputs t).interruptTimer = false

/-! ## The registers after the reset -/

/-- What every reset leaves is what a run starts with. -/
theorem zero_eq {α : Type*} {a : α} (f : State → α) (hf : ∀ s : State, f s.reset = a) :
    f (r.state 0) = a := by
  obtain ⟨s, hs⟩ := r.start
  rw [hs, hf]

/-- A run starts with an idle instruction port that requests nothing. -/
@[simp]
theorem zero_instrPort : (r.state 0).instrPort = ⟨.idle, 0, false, false⟩ :=
  r.zero_eq State.instrPort fun _ => rfl

/-- A run starts with an idle data port that requests nothing. -/
@[simp]
theorem zero_dPort : (r.state 0).dPort = ⟨.idle, 0, 0, false, false, false, 0⟩ :=
  r.zero_eq State.dPort fun _ => rfl

/-- A run starts with all five flags of the hazard unit low. -/
@[simp]
theorem zero_hazard : (r.state 0).hazard = 0 := r.zero_eq State.hazard fun _ => rfl

/-- A reset leaves the data registers of the divider as they are. -/
theorem zero_div :
    (r.state 0).div.divBusy = false ∧ (r.state 0).div.detectStart = EdgeDetector.cleared :=
  ⟨r.zero_eq (fun s => s.div.divBusy) fun _ => rfl,
    r.zero_eq (fun s => s.div.detectStart) fun _ => rfl⟩

/-- A run starts with an empty decode stage. -/
@[simp]
theorem zero_d : (r.state 0).d = 0 := r.zero_eq State.d fun _ => rfl

/-- A run starts with an empty execute stage. -/
@[simp]
theorem zero_e : (r.state 0).e = 0 := r.zero_eq State.e fun _ => rfl

/-- A run starts with all control signals of execute low. -/
@[simp]
theorem zero_ce : (r.state 0).ce = 0 := r.zero_eq State.ce fun _ => rfl

/-- A run starts with an empty memory stage. -/
@[simp]
theorem zero_m : (r.state 0).m = 0 := r.zero_eq State.m fun _ => rfl

/-- A run starts with all control signals of the memory stage low. -/
@[simp]
theorem zero_cm : (r.state 0).cm = 0 := r.zero_eq State.cm fun _ => rfl

/-- A run starts with an empty write-back stage. -/
@[simp]
theorem zero_w : (r.state 0).w = 0 := r.zero_eq State.w fun _ => rfl

/-! ## The registers after a cycle -/

section Succ

variable (t : ℕ)

/-- A part of the state that does not include the predictor changes as `State.step` says. -/
theorem succ_eq {α : Type*} (f : State → α)
    (hf : ∀ (s : State) (p : BranchPredictor), f { s with predictor := p } = f s) :
    f (r.state (t + 1)) = f ((r.state t).step x (r.inputs t)) := by
  obtain ⟨p, hp⟩ := r.next t
  rw [hp, hf]

/-- The next instruction port, from the PC and the acknowledge of the cycle. -/
theorem succ_instrPort :
    (r.state (t + 1)).instrPort =
      (r.state t).instrPort.next true (r.state t).pcF (r.inputs t).instrWbAck :=
  r.succ_eq t State.instrPort fun _ _ => rfl

/-- The next data port, from the request of the memory stage and the acknowledge of the cycle. -/
theorem succ_dPort :
    (r.state (t + 1)).dPort =
      (r.state t).dPort.next (r.state t).dValid (r.state t).dWe (r.state t).m.aluResult
        (r.state t).writeDataM ((r.state t).dSel x) (r.inputs t).dWbAck :=
  r.succ_eq t State.dPort fun _ _ => rfl

/-- The next registers of the hazard unit. -/
theorem succ_hazard :
    (r.state (t + 1)).hazard = (r.state t).hazardNext x (r.inputs t) :=
  r.succ_eq t State.hazard fun _ _ => rfl

/-- The next PC, which keeps its value unless its register is enabled. -/
theorem succ_pcF :
    (r.state (t + 1)).pcF =
      flopenr ((r.state t).pcEnable (r.inputs t)) (r.state t).pcNextF (r.state t).pcF :=
  r.succ_eq t State.pcF fun _ _ => rfl

/-- The next decode stage: cleared by a flush, kept by a stall, and the fetched word otherwise. -/
theorem succ_d :
    (r.state (t + 1)).d =
      flopenrc ((r.state t).flushD (r.inputs t)) (!(r.state t).stallD (r.inputs t))
        ((r.state t).decodeInput (r.inputs t)) (r.state t).d :=
  r.succ_eq t State.d fun _ _ => rfl

/-- The next execute stage: cleared by a flush, kept by a stall, and the word from decode
otherwise. -/
theorem succ_e :
    (r.state (t + 1)).e =
      flopenrc (r.state t).flushE (!(r.state t).stallE (r.inputs t))
        ((r.state t).executeInput x) (r.state t).e :=
  r.succ_eq t State.e fun _ _ => rfl

/-- The next control signals of execute, which are cleared and kept together with its register. -/
theorem succ_ce :
    (r.state (t + 1)).ce =
      flopenrc (r.state t).flushE (!(r.state t).stallE (r.inputs t))
        ((r.state t).controlInputE x) (r.state t).ce :=
  r.succ_eq t State.ce fun _ _ => rfl

/-- The next memory stage: cleared by a flush, kept by a stall, and the instruction from execute
otherwise. -/
theorem succ_m :
    (r.state (t + 1)).m =
      flopenrc (r.state t).flushM (!(r.state t).stallM (r.inputs t)) (r.state t).memoryInput
        (r.state t).m :=
  r.succ_eq t State.m fun _ _ => rfl

/-- The next control signals of the memory stage, which are cleared and kept together with its
register. -/
theorem succ_cm :
    (r.state (t + 1)).cm =
      flopenrc (r.state t).flushM (!(r.state t).stallM (r.inputs t)) (r.state t).controlInputM
        (r.state t).cm :=
  r.succ_eq t State.cm fun _ _ => rfl

/-- The next write-back stage, which takes what the memory stage holds in every cycle, stalled or
not. -/
theorem succ_w : (r.state (t + 1)).w = (r.state t).writebackInput (r.inputs t) :=
  r.succ_eq t State.w fun _ _ => rfl

/-- The next control signals of write-back, which are those of the memory stage in every cycle. -/
theorem succ_cw :
    (r.state (t + 1)).cw = ⟨(r.state t).cm.regWrite, (r.state t).cm.resultSrc⟩ :=
  r.succ_eq t State.cw fun _ _ => rfl

/-- The next register file, after the write of the instruction in write-back. -/
theorem succ_regMem : (r.state (t + 1)).regMem = (r.state t).regMemNext :=
  r.succ_eq t State.regMem fun _ _ => rfl

/-- The next CSR unit, from the instruction in write-back, the two interrupt lines and the PC in
execute. -/
theorem succ_csr :
    (r.state (t + 1)).csr =
      (r.state t).csr.next (r.state t).csrWriteback (r.inputs t).interruptExternal
        (r.inputs t).interruptTimer (r.state t).e.pc :=
  r.succ_eq t State.csr fun _ _ => rfl

/-- The next divider, from the operands in execute and the flush of the stage. -/
theorem succ_div :
    (r.state (t + 1)).div =
      (r.state t).div.next (r.state t).flushE (r.state t).srcAE (r.state t).srcBE
        (r.state t).ce.divInstr (r.state t).e.funct3 :=
  r.succ_eq t State.div fun _ _ => rfl

/-- The next value of the decoder latch: the control signals that decode has put out in this
cycle. -/
theorem succ_outControl : (r.state (t + 1)).outControl = (r.state t).outControlD x :=
  r.succ_eq t State.outControl fun _ _ => rfl

/-- `csr_pending` is never set: no CSR instruction is reported to the hazard unit. -/
@[simp]
theorem csrPending_eq_false (t : ℕ) : (r.state t).hazard.csrPending = false := by
  induction t with
  | zero => rw [zero_hazard]; rfl
  | succ t ih => rw [succ_hazard]; exact ih

/-- In an exact run the predictor is trained by the branch in execute, as its source says. -/
theorem Exact.succ_predictor {r : Run x} (h : r.Exact) :
    (r.state (t + 1)).predictor =
      (r.state t).predictor.next (r.state t).e.pc (r.state t).ce.branch (r.state t).takeBranchE
        (r.state t).jumpPcTargetE := by
  rw [h.next t]
  rfl

end Succ

/-! ## Executions in a given environment -/

section OfInputs

variable (x) (s₀ : State) (env : ℕ → State → State → Inputs)

/-- The states of two consecutive cycles. The environment gives the inputs of a cycle from its
number, the state before it and the state in it. -/
def trace : ℕ → State × State
  | 0 => (s₀.reset, s₀.reset)
  | t + 1 =>
    let q := trace t
    (q.2, q.2.step x (env t q.1 q.2))

/-- The exact execution from the state `s₀`, with the inputs of each cycle as the environment `env`
gives them. -/
def ofInputs : Run x where
  state t := (trace x s₀ env t).2
  inputs t := env t (trace x s₀ env t).1 (trace x s₀ env t).2
  start := ⟨s₀, rfl⟩
  next t := ⟨(trace x s₀ env (t + 1)).2.predictor, rfl⟩

/-- The execution computed from an environment is exact when its predictor starts with the initial
values of the source. -/
theorem ofInputs_exact (h : s₀.predictor = BranchPredictor.initial) :
    (ofInputs x s₀ env).Exact :=
  ⟨⟨s₀, h, rfl⟩, fun _ => rfl⟩

end OfInputs

end Run

/-! ## A test bench -/

/-- The ROM of a program that starts at address 0; past its end, `jal x0, 0`. -/
def programRom (program : List (BitVec 32)) (adr : BitVec 32) : BitVec 32 :=
  program.getD (adr.toNat / 4) 0x0000006f

/-- Every word of the ROM is one of the program, or the last one. -/
theorem programRom_forall {p : BitVec 32 → Prop} {program : List (BitVec 32)}
    (h : ∀ w ∈ program, p w) (h0 : p 0x0000006f) (adr : BitVec 32) :
    p (programRom program adr) := by
  rw [programRom, List.getD_eq_getElem?_getD]
  cases hw : program[adr.toNat / 4]? with
  | none => exact h0
  | some w => exact h w (List.mem_of_getElem? hw)

/-- An environment for examples: the ROM, the cycles in which each interrupt line is high, those in
which each slave is ready to answer, and the word every load reads. -/
structure TestBench where
  rom : BitVec 32 → BitVec 32
  external : ℕ → Bool
  timer : ℕ → Bool
  instrReady : ℕ → Bool
  dataReady : ℕ → Bool
  readData : BitVec 32

namespace TestBench

variable (b : TestBench)

/-- The slaves answer, when they are ready, in the cycle the strobe rises. -/
def zeroWait (t : ℕ) (_ s : State) : Inputs where
  interruptExternal := b.external t
  interruptTimer := b.timer t
  instrWbData := b.rom s.instrPort.adr
  instrWbAck := b.instrReady t && s.instrPort.cyc && s.instrPort.stb
  dWbDataR := b.readData
  dWbAck := b.dataReady t && s.dPort.cyc && s.dPort.stb

/-- The slaves answer, when they are ready, from the cycle after the strobe rises on. -/
def oneWait (t : ℕ) (s' s : State) : Inputs :=
  let i := b.zeroWait t s' s
  { i with
    instrWbAck := i.instrWbAck && s'.instrPort.cyc && s'.instrPort.stb
    dWbAck := i.dWbAck && s'.dPort.cyc && s'.dPort.stb }

/-- A state with every register zero, from which the benches are reset. -/
def blank : State where
  instrPort := ⟨.idle, 0, false, false⟩
  dPort := ⟨.idle, 0, 0, false, false, false, 0⟩
  hazard := 0
  pcF := 0
  d := 0
  e := 0
  ce := 0
  m := 0
  cm := 0
  w := 0
  cw := 0
  regMem := fun _ => 0
  csr := ⟨0, 0, false, false, 0, 0, false, false, false, false, false, false, 0, false, 0, 0, 0, 0,
    .cleared, .cleared⟩
  div := ⟨.cleared, false, false, 0, 0, 0, 0, 0⟩
  predictor := .initial
  outControl := 0
  writeDataOutput := 0

/-- The don't-care bits of the source all filled by zeros, which the benches use. -/
def zeros : DontCare := ⟨fun _ => 0, 0⟩

/-- The run of the bench whose slaves acknowledge in the cycle of the strobe. -/
def run₀ : Run zeros := Run.ofInputs zeros blank b.zeroWait

/-- The run of the bench with slaves that wait one cycle. -/
def run₁ : Run zeros := Run.ofInputs zeros blank b.oneWait

/-- The run of the bench with zero-wait slaves is exact. -/
theorem run₀_exact : b.run₀.Exact := Run.ofInputs_exact _ _ _ rfl

/-- The run of the bench with one-wait slaves is exact. -/
theorem run₁_exact : b.run₁.Exact := Run.ofInputs_exact _ _ _ rfl

/-- The instruction bus of the bench gives the word of its program, with zero-wait slaves. -/
theorem run₀_instrSlave : b.run₀.InstrSlave b.rom := by
  intro t h
  simp only [run₀, Run.ofInputs, zeroWait, Bool.and_eq_true] at h ⊢
  exact ⟨h.1.2, h.2, trivial⟩

/-- The data bus of the bench acknowledges transfers only, with zero-wait slaves. -/
theorem run₀_dataSlave : b.run₀.DataSlave := by
  intro t h
  simp only [run₀, Run.ofInputs, zeroWait, Bool.and_eq_true] at h ⊢
  exact ⟨h.1.2, h.2⟩

/-- The instruction bus of the bench gives the word of its program, with one-wait slaves. -/
theorem run₁_instrSlave : b.run₁.InstrSlave b.rom := by
  intro t h
  simp only [run₁, Run.ofInputs, oneWait, zeroWait, Bool.and_eq_true] at h ⊢
  exact ⟨h.1.1.1.2, h.1.1.2, trivial⟩

/-- The data bus of the bench acknowledges transfers only, with one-wait slaves. -/
theorem run₁_dataSlave : b.run₁.DataSlave := by
  intro t h
  simp only [run₁, Run.ofInputs, oneWait, zeroWait, Bool.and_eq_true] at h ⊢
  exact ⟨h.1.1.1.2, h.1.1.2⟩

/-- The instruction slave of the bench with one-wait slaves never answers in the first cycle of a
transfer. -/
theorem run₁_instrDelayed : b.run₁.InstrDelayed := by
  intro t h
  simp only [run₁, Run.ofInputs, oneWait, zeroWait, Bool.and_eq_true] at h
  cases t with
  | zero => exact absurd h.1.1.1.2 Bool.false_ne_true
  | succ u => exact ⟨u, rfl, h.1.2, h.2⟩

/-- The data slave of the bench with one-wait slaves never answers in the first cycle of a
transfer. -/
theorem run₁_dataDelayed : b.run₁.DataDelayed := by
  intro t h
  simp only [run₁, Run.ofInputs, oneWait, zeroWait, Bool.and_eq_true] at h
  cases t with
  | zero => exact absurd h.1.1.1.2 Bool.false_ne_true
  | succ u => exact ⟨u, rfl, h.1.2, h.2⟩

end TestBench

/-- A program that runs the loop `addi x1, x1, 1; bne x1, x2, -4` at addresses 4 and 8, then goes to
`0x8008`, where it finds a `nop`, as everywhere past its end. -/
def loopBench : TestBench where
  rom adr := [0x00400113#32, 0x00108093#32, 0xfe209ee3#32, 0x00008337#32, 0x00000013#32,
    0x00830067#32].getD (adr.toNat / 4) 0x00000013
  external _ := false
  timer _ := false
  instrReady _ := true
  dataReady _ := true
  readData := 0

/-- A program behind the two instructions that set `mtvec` to `0x40`, without interrupts. -/
def quietBench (program : List (BitVec 32)) : TestBench where
  rom := programRom ([0x04000113, 0x30511073] ++ program)
  external _ := false
  timer _ := false
  instrReady _ := true
  dataReady _ := true
  readData := 0

/-- A program behind the five instructions that set `mtvec` to `0x40` and enable all interrupts; the
external line is high from cycle `arrival` on. -/
def interruptBench (program : List (BitVec 32)) (arrival : ℕ) : TestBench where
  rom := programRom
    ([0xfff00093, 0x04000113, 0x30511073, 0x30409073, 0x30009073] ++ program)
  external t := decide (arrival ≤ t)
  timer _ := false
  instrReady _ := true
  dataReady _ := true
  readData := 0

end RvPipelineCore

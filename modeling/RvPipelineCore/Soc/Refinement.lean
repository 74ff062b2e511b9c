import RvPipelineCore.AddressRange
import RvPipelineCore.Soc.DataBus

/-!
# The system refines the sequential machine

A program whose accesses stay within the two memories does on the system what it does on the
sequential machine of `Rv32`, whatever the peripherals drive.

- `RvSoc.Run.Strays`: the processor asks for something else than the memories;
- `RvSoc.Run.guarded`: a run that is the same until then, and in which well-behaved slaves step in
  afterwards, so that the refinement applies to it;
- `RvSoc.Run.not_strays`: the program does not let it come to that;
- `RvSoc.Run.refines`: the refinement.
-/

namespace RvPipelineCore

namespace RvSoc

namespace Run

variable {n k : ℕ} {x : DontCare} {rom : BitVec k → BitVec 32} (run : Run x rom n) {t : ℕ}

/-- The processor asks for something else than the memories: it fetches from outside the ROM, or
its data port is not `Plain`. -/
def Strays (n : ℕ) (q : State) : Prop :=
  q.instrPort.cyc = true ∧ ¬ InRom q.instrPort.adr ∨ ¬ Plain n q.dPort

/-- Whether the ports of the core stray outside the memories can be decided from its state. -/
instance (n : ℕ) (q : State) : Decidable (Strays n q) := inferInstanceAs (Decidable (_ ∨ _))

/-- The processor in this cycle and the one before, the words of the memory, and whether it has
strayed. -/
structure Guarded where
  prev : State
  core : State
  mem : BitVec 30 → BitVec 32
  strayed : Bool

namespace Guarded

/-- The answers of two memory slaves that wait one cycle, which the guarded processor gets after it
has strayed. -/
def fallback (rom : BitVec k → BitVec 32) (g : Guarded) : Inputs where
  interruptExternal := false
  interruptTimer := false
  instrWbData := romWord rom g.core.instrPort.adr
  instrWbAck := g.core.instrPort.cyc && g.core.instrPort.stb && g.prev.instrPort.cyc &&
    g.prev.instrPort.stb
  dWbDataR := g.mem (g.core.dPort.adr.extractLsb' 2 30)
  dWbAck := g.core.dPort.cyc && g.core.dPort.stb && g.prev.dPort.cyc && g.prev.dPort.stb

/-- The inputs of the processor, which are those of the system, `i`, until it strays. -/
def inputs (rom : BitVec k → BitVec 32) (g : Guarded) (i : Inputs) : Inputs :=
  if g.strayed then g.fallback rom else i

/-- One clock edge of the guarded processor with the inputs `i`, which also notes whether a port
strays. -/
def next (x : DontCare) (n : ℕ) (g : Guarded) (i : Inputs) : Guarded where
  prev := g.core
  core := g.core.step x i
  mem :=
    if i.dWbAck && g.core.dPort.we then
      writeWord g.mem g.core.dPort.adr g.core.dPort.dataW g.core.dPort.sel
    else g.mem
  strayed := g.strayed || decide (Strays n (g.core.step x i))

end Guarded

/-- The states of the guarded processor, which sees the inputs of the system until it strays, and
those of two memories from then on. -/
def guard : ℕ → Guarded
  | 0 => ⟨(run.state 0).core, (run.state 0).core, run.init, false⟩
  | t + 1 => (guard t).next x n ((guard t).inputs rom (run.toRun.inputs t))

/-- The guarded processor as a run of the core, for which the sequential refinement can be
stated. -/
def guarded : RvPipelineCore.Run x where
  state t := (run.guard t).core
  inputs t := (run.guard t).inputs rom (run.toRun.inputs t)
  start := run.toRun.start
  next t := ⟨(run.guard (t + 1)).core.predictor, rfl⟩

/-- The guarded processor is exact, since its predictor starts with the initial values of the
source. -/
theorem guarded_exact : run.guarded.Exact := ⟨run.toRun_exact.start, fun _ => rfl⟩

variable {run}

/-- The memory of the guarded processor is that of its completed writes. -/
theorem guard_mem (t : ℕ) : (run.guard t).mem = run.guarded.ram run.init t := by
  induction t with
  | zero => rfl
  | succ t ih =>
    rw [RvPipelineCore.Run.ram, ← ih]
    rfl

/-- A guarded processor that has strayed remains strayed in the next cycle. -/
theorem strayed_succ_of_strayed (h : (run.guard t).strayed = true) :
    (run.guard (t + 1)).strayed = true := by
  rw [guard, Guarded.next, h, Bool.true_or]

/-- A guarded processor that has strayed remains strayed in every later cycle. -/
theorem strayed_of_le {u : ℕ} (h : (run.guard t).strayed = true) (hu : t ≤ u) :
    (run.guard u).strayed = true := by
  induction u, hu using Nat.le_induction with
  | base => exact h
  | succ u _ ih => exact strayed_succ_of_strayed ih

/-- In the first cycle no port strays, since both are idle. -/
theorem zero_not_strays : ¬ Strays n (run.state 0).core := by
  have hi : (run.state 0).core.instrPort = _ := run.toRun.zero_instrPort
  have hd : (run.state 0).core.dPort = _ := run.toRun.zero_dPort
  rintro (⟨hcyc, -⟩ | hplain)
  · rw [hi] at hcyc
    exact absurd hcyc Bool.false_ne_true
  · rw [hd] at hplain
    exact hplain (.inr ⟨by decide, rfl⟩)

/-- Until it strays, the guarded processor is in the state of the processor of the system and sees
the same inputs. -/
theorem guard_eq (h : (run.guard t).strayed = false) (v : ℕ) (hv : v ≤ t) :
    (run.guard v).core = (run.state v).core ∧
      (run.guard v).inputs rom (run.toRun.inputs v) = run.toRun.inputs v ∧
      ¬ Strays n (run.state v).core := by
  -- a run that has strayed once has strayed ever since
  have hfalse : ∀ u ≤ t, (run.guard u).strayed = false := by
    intro u hu
    by_contra hs
    rw [strayed_of_le (Bool.not_eq_false _ ▸ hs) hu] at h
    exact absurd h.symm Bool.false_ne_true
  -- so the guarded core has had the inputs of the system until now
  have hinputs : ∀ u ≤ t,
      (run.guard u).inputs rom (run.toRun.inputs u) = run.toRun.inputs u := by
    intro u hu
    rw [Guarded.inputs, hfalse u hu]
    rfl
  induction v with
  | zero => exact ⟨rfl, hinputs 0 hv, zero_not_strays⟩
  | succ v ih =>
    obtain ⟨hcore, -, -⟩ := ih (by omega)
    have hsame : (run.guard (v + 1)).core = (run.state (v + 1)).core := by
      rw [guard, Guarded.next, hinputs v (by omega), hcore, run.next]
      rfl
    refine ⟨hsame, hinputs _ hv, ?_⟩
    -- that it has not strayed in the next cycle either is what the flag says
    have hstray := hfalse (v + 1) hv
    rw [guard, Guarded.next, Bool.or_eq_false_iff, decide_eq_false_iff_not] at hstray
    rw [← hsame]
    exact hstray.2

/-- Until it strays, the run of the guarded processor agrees with that of the system. -/
theorem guarded_eq (h : (run.guard t).strayed = false) (v : ℕ) (hv : v ≤ t) :
    run.guarded.state v = run.toRun.state v ∧ run.guarded.inputs v = run.toRun.inputs v :=
  ⟨(guard_eq h v hv).1, (guard_eq h v hv).2.1⟩

/-- Until the guarded processor strays, its memory is that of the data bus of the system. -/
theorem ram_eq (h : (run.guard t).strayed = false) :
    run.guarded.ram run.init t = run.words t := by
  have hle : ∀ v ≤ t, run.guarded.ram run.init v = run.words v := by
    intro v hv
    induction v with
    | zero => rfl
    | succ v ih =>
      obtain ⟨hstate, hinputs⟩ := guarded_eq h v (by omega)
      have hold := ih (by omega)
      rw [words, RvPipelineCore.Run.ram, RvPipelineCore.Run.ram, hstate, hinputs, hold, words]
  exact hle t le_rfl

/-- Until the guarded processor strays, the data port of the system keeps to the two memories. -/
theorem plain_of_not_strayed (h : (run.guard t).strayed = false) (v : ℕ) (hv : v ≤ t) :
    Plain n (run.state v).core.dPort := by
  by_contra hplain
  exact (guard_eq h v hv).2.2 (.inr hplain)

/-- Once strayed, the guarded processor sees the answers of the two memory slaves. -/
theorem inputs_of_strayed (h : (run.guard t).strayed = true) :
    run.guarded.inputs t = (run.guard t).fallback rom := by
  change (run.guard t).inputs rom _ = _
  rw [Guarded.inputs, h, if_pos rfl]

/-- A processor that has strayed does so after the first cycle, so there is a cycle before. -/
theorem exists_prev (h : (run.guard t).strayed = true) :
    ∃ u, t = u + 1 ∧ (run.guard t).prev = run.guarded.state u := by
  cases t with
  | zero => exact absurd h Bool.false_ne_true
  | succ u => exact ⟨u, rfl, rfl⟩

/-! ## The assumptions of the refinement -/

/-- An acknowledge to the instruction port of the guarded processor answers a request that has been
up for a cycle, with the word of the ROM. -/
theorem guarded_instr (hack : (run.guarded.inputs t).instrWbAck = true) :
    (run.guarded.state t).instrPort.cyc = true ∧ (run.guarded.state t).instrPort.stb = true ∧
      (run.guarded.inputs t).instrWbData = romWord rom (run.guarded.state t).instrPort.adr ∧
      ∃ u, t = u + 1 ∧ (run.guarded.state u).instrPort.cyc = true ∧
        (run.guarded.state u).instrPort.stb = true := by
  -- in place of the system the fallback answers, with the word of the ROM
  cases hs : (run.guard t).strayed with
  | true =>
    obtain ⟨u, hu, hprev⟩ := exists_prev hs
    rw [inputs_of_strayed hs] at hack ⊢
    simp only [Guarded.fallback, Bool.and_eq_true, hprev] at hack
    exact ⟨hack.1.1.1, hack.1.1.2, rfl, u, hu, hack.1.2, hack.2⟩
  | false =>
    obtain ⟨hstate, hinputs⟩ := guarded_eq hs t le_rfl
    rw [hinputs] at hack ⊢
    rw [hstate]
    obtain ⟨hcyc, hstb, hdata⟩ := run.instrSlave t hack
    -- in the system an acknowledge comes behind a cycle in which it was asked for
    obtain ⟨u, rfl, hcyc', hstb'⟩ := run.instrDelayed t hack
    obtain ⟨hstate', -⟩ := guarded_eq hs u (by omega)
    exact ⟨hcyc, hstb, hdata, u, rfl, by rw [hstate']; exact hcyc', by rw [hstate']; exact hstb'⟩

/-- An acknowledge to the data port of the guarded processor answers a request that has been up for
a cycle, with the word of its memory. -/
theorem guarded_data (hack : (run.guarded.inputs t).dWbAck = true) :
    (run.guarded.state t).dPort.cyc = true ∧ (run.guarded.state t).dPort.stb = true ∧
      ((run.guarded.state t).dPort.we = false → (run.guarded.inputs t).dWbDataR =
        run.guarded.ram run.init t ((run.guarded.state t).dPort.adr.extractLsb' 2 30)) ∧
      ∃ u, t = u + 1 ∧ (run.guarded.state u).dPort.cyc = true ∧
        (run.guarded.state u).dPort.stb = true := by
  cases hs : (run.guard t).strayed with
  | true =>
    -- the fallback answers as the word memory does
    obtain ⟨u, hu, hprev⟩ := exists_prev hs
    rw [inputs_of_strayed hs] at hack ⊢
    simp only [Guarded.fallback, Bool.and_eq_true, hprev] at hack
    refine ⟨hack.1.1.1, hack.1.1.2, fun _ => ?_, u, hu, hack.1.2, hack.2⟩
    rw [← guard_mem]
    rfl
  | false =>
    obtain ⟨hstate, hinputs⟩ := guarded_eq hs t le_rfl
    rw [hinputs] at hack ⊢
    rw [hstate, ram_eq hs]
    -- the system answers as the word memory does, as long as the port keeps to the memories
    obtain ⟨u, rfl, hheld, hcyc, hstb, hdata⟩ := data_ack (plain_of_not_strayed hs) hack
    obtain ⟨hstate', -⟩ := guarded_eq hs u (by omega)
    have hcyc' : (run.state (u + 1)).core.dPort.cyc = true := hheld ▸ hcyc
    have hstb' : (run.state (u + 1)).core.dPort.stb = true := hheld ▸ hstb
    exact ⟨hcyc', hstb', hdata, u, rfl, by rw [hstate']; exact hcyc, by rw [hstate']; exact hstb⟩

/-- Both interrupt lines of the peripherals stay low in every cycle of the run. -/
def Quiet (run : Run x rom n) : Prop :=
  ∀ t, (run.inp t).extInt = false ∧ (run.inp t).timeInt = false

/-- With quiet peripherals the guarded processor has slaves that wait and no interrupts. -/
theorem guarded_delayed (hq : run.Quiet) : run.guarded.Delayed (romWord rom) where
  instr t hack := by
    obtain ⟨hcyc, hstb, hdata, -⟩ := guarded_instr hack
    exact ⟨hcyc, hstb, hdata⟩
  data t hack := by
    obtain ⟨hcyc, hstb, -⟩ := guarded_data hack
    exact ⟨hcyc, hstb⟩
  instrWait t hack := (guarded_instr hack).2.2.2
  dataWait t hack := (guarded_data hack).2.2.2
  quiet t := by
    cases hs : (run.guard t).strayed with
    | true =>
      rw [inputs_of_strayed hs]
      exact ⟨rfl, rfl⟩
    | false =>
      rw [(guarded_eq hs t le_rfl).2]
      exact hq t

/-- The data slave of the guarded processor is a word memory that starts with the words of the
system. -/
theorem guarded_dataMemory : run.guarded.DataMemory run.init :=
  fun _ hack => (guarded_data hack).2.2.1

variable (run) in
/-- A port that keeps its request is answered in the end: by the slaves of the system if the guarded
processor never strays, and otherwise by those that step in for them, which answer a request in its
second cycle. -/
theorem exists_ack_of_kept {cyc ack : ℕ → Bool}
    (hkept : ∀ v, cyc v = true → ack v = false → cyc (v + 1) = true)
    (hstrayed : ∀ v, (run.guard (v + 1)).strayed = true → cyc v = true → cyc (v + 1) = true →
      ack (v + 1) = true)
    (hsystem : (∀ v, (run.guard v).strayed = false) → ∀ t, cyc t = true → ∃ w, ack (t + w) = true)
    (t : ℕ) (hcyc : cyc t = true) : ∃ u, t ≤ u ∧ ack u = true := by
  by_contra hnever
  simp only [not_exists, not_and, Bool.not_eq_true] at hnever
  -- a request without an acknowledge stays up for ever
  have hup : ∀ v, t ≤ v → cyc v = true := by
    intro v hv
    induction v, hv using Nat.le_induction with
    | base => exact hcyc
    | succ v hv ih => exact hkept v ih (hnever v hv)
  -- once the run has strayed the fallback acknowledges, and without that the system does
  by_cases hs : ∃ u, (run.guard u).strayed = true
  · obtain ⟨u, hu⟩ := hs
    have hack := hstrayed _ (strayed_of_le hu (show u ≤ max t u + 1 by omega))
      (hup _ (le_max_left t u)) (hup _ (by omega))
    exact absurd ((hnever (max t u + 1) (by omega)).symm.trans hack) Bool.false_ne_true
  · have hno (v : ℕ) : (run.guard v).strayed = false := by
      rw [← Bool.not_eq_true]
      exact fun h => hs ⟨v, h⟩
    obtain ⟨w, hack⟩ := hsystem hno t hcyc
    exact absurd ((hnever (t + w) (Nat.le_add_right t w)).symm.trans hack) Bool.false_ne_true

/-- Where `stb` follows `cyc`, a request that is up in two cycles passes the test of the slaves that
step in. -/
theorem asked_twice {cyc stb cyc' stb' : Bool} (hstb : stb = cyc) (hstb' : stb' = cyc')
    (hcyc : cyc = true) (hcyc' : cyc' = true) : (cyc' && stb' && cyc && stb) = true := by
  rw [hstb, hstb', hcyc, hcyc']
  rfl

/-- The instruction slave of the guarded processor answers every request in the end, whether it has
strayed or not. -/
theorem guarded_instrFair : run.guarded.InstrFair := by
  have hport := run.guarded.instrPort_cyc
  refine run.exists_ack_of_kept (fun v hcyc hack => ?_) (fun v hs hcyc hcyc' => ?_)
    fun hno t hcyc => ?_
  · have hactive := of_decide_eq_true ((hport v).1.symm.trans hcyc)
    rw [run.guarded.succ_instrPort, InstrPort.next, hactive, hack]
    exact hcyc
  · rw [inputs_of_strayed hs]
    exact asked_twice ((hport v).2.trans (hport v).1.symm)
      ((hport (v + 1)).2.trans (hport (v + 1)).1.symm) hcyc hcyc'
  · obtain ⟨hstate, -⟩ := guarded_eq (hno t) t le_rfl
    rw [hstate] at hcyc
    have hrom : InRom (run.state t).core.instrPort.adr := by
      by_contra hadr
      exact (guard_eq (hno t) t le_rfl).2.2 (.inl ⟨hcyc, hadr⟩)
    obtain ⟨w, -, hack⟩ := exists_instr_ack hcyc hrom
    exact ⟨w, by rw [(guarded_eq (hno (t + w)) _ le_rfl).2]; exact hack⟩

/-- The data slave of the guarded processor answers every request in the end, whether it has strayed
or not. -/
theorem guarded_dataFair : run.guarded.DataFair := by
  have hport := run.guarded.dPort_cyc
  refine run.exists_ack_of_kept (fun v hcyc hack => ?_) (fun v hs hcyc hcyc' => ?_)
    fun hno t hcyc => ?_
  · have hactive := of_decide_eq_true ((hport v).1.symm.trans hcyc)
    rw [run.guarded.succ_dPort, DataPort.next, hactive, hack]
    exact hcyc
  · rw [inputs_of_strayed hs]
    exact asked_twice ((hport v).2.trans (hport v).1.symm)
      ((hport (v + 1)).2.trans (hport (v + 1)).1.symm) hcyc hcyc'
  · obtain ⟨hstate, -⟩ := guarded_eq (hno t) t le_rfl
    rw [hstate] at hcyc
    obtain ⟨w, -, hack⟩ := exists_data_ack (plain_of_not_strayed (hno t)) hcyc
    exact ⟨w, by rw [(guarded_eq (hno (t + w)) _ le_rfl).2]; exact hack⟩

/-! ## The program keeps to the memories -/

variable (run) in
/-- The sequential machine that starts with the registers and the memories of the run. -/
def machine : Rv32.Machine := run.toRun.machine run.init

variable (run) in
/-- The accesses of the program stay within the memories, of which only the RAM is written. -/
def Contained : Prop :=
  ∀ k, ∀ acc ∈ (run.machine.after (romWord rom) k).access (romWord rom),
    InRam n acc.adr ∨ InRom acc.adr ∧ ∃ wd adr, acc = .load wd adr

section

variable (hq : run.Quiet) (hs : Supported (romWord rom) run.machine) (hc : run.Contained)

include hq hs hc

/-- The ports of the guarded processor never stray, since it follows the machine and the machine
keeps to the memories. -/
theorem guarded_not_strays (t : ℕ) : ¬ Strays n (run.guarded.state t) := by
  rintro (⟨-, hadr⟩ | hplain)
  · obtain ⟨k, hk⟩ := RvPipelineCore.Run.instrPort_adr (guarded_delayed hq)
      run.guarded_exact guarded_instrFair guarded_dataFair guarded_dataMemory hs t
    -- the first instruction of the program is at address 0
    have hblock := hs.block k 0
    have hzero : (run.machine.after (romWord rom) 0).pc.toNat = 0 := rfl
    have hlt : (run.machine.after (romWord rom) k).pc.toNat < 2 ^ 15 := by omega
    apply hadr
    rw [InRom]
    rcases hk with hk | hk
    · have hk' : (run.guarded.state t).instrPort.adr.toNat < 2 ^ 15 := by
        rw [hk]
        exact hlt
      omega
    · have hk' : (run.guarded.state t).instrPort.adr.toNat < 2 ^ 15 + 4 := by
        rw [hk, BitVec.toNat_add_of_lt]
        · exact Nat.add_lt_add_right hlt 4
        · exact lt_of_lt_of_le (Nat.add_lt_add_right hlt 4) (by decide)
      omega
  · apply hplain
    rcases RvPipelineCore.Run.dPort_adr (guarded_delayed hq) run.guarded_exact
      guarded_instrFair guarded_dataFair guarded_dataMemory hs t with
      ⟨hadr, hwe⟩ | ⟨k, acc, hacc, hadr, hwe⟩
    · rw [Plain, hadr]
      exact .inr ⟨by decide, hwe⟩
    · rw [Plain, hadr]
      rcases hc k acc hacc with hram | ⟨hrom, wd, adr, rfl⟩
      · left
        cases acc <;> exact hram
      · refine .inr ⟨hrom, ?_⟩
        rw [← Bool.not_eq_true]
        exact fun hw => absurd (hwe hw) Bool.false_ne_true

/-- In no cycle has the guarded processor strayed. -/
theorem not_strayed (t : ℕ) : (run.guard t).strayed = false := by
  induction t with
  | zero => rfl
  | succ t ih =>
    rw [guard, Guarded.next, ih, Bool.false_or, decide_eq_false_iff_not]
    exact guarded_not_strays hq hs hc (t + 1)

/-- The guarded processor is the processor of the system, in every cycle. -/
theorem guarded_eq_toRun : run.guarded = run.toRun := by
  have hstate : run.guarded.state = run.toRun.state :=
    funext fun t => (guarded_eq (not_strayed hq hs hc t) t le_rfl).1
  have hinputs : run.guarded.inputs = run.toRun.inputs :=
    funext fun t => (guarded_eq (not_strayed hq hs hc t) t le_rfl).2
  cases hg : run.guarded
  cases hr : run.toRun
  rw [hg, hr] at hstate hinputs
  subst hstate hinputs
  rfl

/-- The processor of the system asks for nothing else than the two memories. -/
theorem not_strays (t : ℕ) : ¬ Strays n (run.state t).core :=
  (guard_eq (not_strayed hq hs hc t) t le_rfl).2.2

/-- The processor of the system comes to the boundary of every instruction of the machine. -/
theorem exists_boundary (k : ℕ) : ∃ t, run.toRun.Boundary (romWord rom) run.init k t := by
  have hb := RvPipelineCore.Run.exists_boundary (guarded_delayed hq) run.guarded_exact
    guarded_instrFair guarded_dataFair guarded_dataMemory hs k
  rwa [guarded_eq_toRun hq hs hc] at hb

/-- At a boundary the RAM holds the memory of the machine. -/
theorem ram_bytes {j : ℕ} (hb : run.toRun.Boundary (romWord rom) run.init j t) {p : BitVec 32}
    (hp : InRam n p) :
    (run.state t).ram.bytes p = (run.machine.after (romWord rom) j).mem p := by
  have hphase := run.phase (t := t) fun v _ =>
    plain_of_not_strayed (not_strayed hq hs hc v) v le_rfl
  have hidle : (run.state t).core.dPort.cyc = false := by
    have hcyc := (run.toRun.dPort_cyc t).1
    rw [hb.idle] at hcyc
    exact hcyc
  have hmem : bytesOf (run.words t) = (run.machine.after (romWord rom) j).mem := hb.mem
  cases hphase with
  | idle _ _ _ holds => rw [← hmem, RamWb.bytes, bytesOf, bytesOf, holds.ram p hp]
  | asked cyc => exact absurd (hidle.symm.trans cyc) Bool.false_ne_true
  | answered cyc => exact absurd (hidle.symm.trans cyc) Bool.false_ne_true

end

/-- The system refines the sequential machine: for every `k`, whatever the peripherals answer, the
instruction with number `k` enters execute in some cycle. It has the PC of step `k` of the machine;
the register file and the RAM hold what they hold in the machine, and the transfers on the data port
until then are the accesses of the machine. -/
theorem refines (hq : run.Quiet) (hs : Supported (romWord rom) run.machine) (hc : run.Contained)
    (j : ℕ) : ∃ t, run.toRun.Enters j t ∧
      (run.state t).core.d.pc = (run.machine.after (romWord rom) j).pc ∧
      (∀ i ≠ 0, (run.state t).core.regMemNext i = (run.machine.after (romWord rom) j).regs i) ∧
      (∀ p, InRam n p →
        (run.state t).ram.bytes p = (run.machine.after (romWord rom) j).mem p) ∧
      run.toRun.transfers t =
        (run.machine.accesses (romWord rom) j).map Transfer.ofAccess := by
  obtain ⟨t, hb⟩ := exists_boundary hq hs hc j
  exact ⟨t, hb.enters, hb.pc, hb.regs, fun p hp => ram_bytes hq hs hc hb hp, hb.transfers⟩

end Run

/-! ## A program with a store -/

namespace storeRun

open RvSoc.Run

/-- From its third instruction on the machine of the store program stays at address 8. -/
theorem pc_add_two (k : ℕ) : (storeRun.machine.after (romWord storeRom) (k + 2)).pc = 8 := by
  induction k with
  | zero => rfl
  | succ k ih =>
    have hi : (storeRun.machine.after (romWord storeRom) (k + 2)).instr (romWord storeRom) =
        0x0000006f := by
      rw [Rv32.Machine.instr, ih]
      rfl
    rw [Rv32.Machine.after, Rv32.Machine.step, hi, ih]
    rfl

/-- From its third instruction on the machine of the store program executes the endless jump. -/
theorem instr_add_two (k : ℕ) :
    (storeRun.machine.after (romWord storeRom) (k + 2)).instr (romWord storeRom) =
      0x0000006f := by
  rw [Rv32.Machine.instr, pc_add_two]
  rfl

/-- The machine of the store program makes one access, the store of its second instruction. -/
theorem access_eq (k : ℕ) :
    (storeRun.machine.after (romWord storeRom) k).access (romWord storeRom) =
      if k = 1 then some (.store .word 0x80000000 0x80000000) else none := by
  obtain rfl | rfl | ⟨j, rfl⟩ : k = 0 ∨ k = 1 ∨ ∃ j, k = j + 2 := by
    rcases k with - | - | j
    · exact .inl rfl
    · exact .inr (.inl rfl)
    · exact .inr (.inr ⟨j, rfl⟩)
  · rfl
  · rfl
  · rw [if_neg (by omega), Rv32.Machine.access, instr_add_two]
    rfl

/-- The machine of the store program is at address 0, 4 or 8, and finds the `lui`, the store or the
jump there. -/
theorem pc_cases (k : ℕ) :
    ((storeRun.machine.after (romWord storeRom) k).pc = 0 ∧
        (storeRun.machine.after (romWord storeRom) k).instr (romWord storeRom) = 0x800000b7) ∨
      ((storeRun.machine.after (romWord storeRom) k).pc = 4 ∧
        (storeRun.machine.after (romWord storeRom) k).instr (romWord storeRom) = 0x0010a023) ∨
      ((storeRun.machine.after (romWord storeRom) k).pc = 8 ∧
        (storeRun.machine.after (romWord storeRom) k).instr (romWord storeRom) = 0x0000006f) := by
  rcases k with - | - | k
  · exact .inl ⟨rfl, rfl⟩
  · exact .inr (.inl ⟨rfl, rfl⟩)
  · exact .inr (.inr ⟨pc_add_two k, instr_add_two k⟩)

/-- The machine of the store program stays within what the core supports. -/
theorem supported : Supported (romWord storeRom) storeRun.machine := by
  refine ⟨fun k => ?_, fun k => ?_, fun k acc hacc => ?_, fun j k => ?_⟩
  · rcases pc_cases k with ⟨-, hi⟩ | ⟨-, hi⟩ | ⟨-, hi⟩ <;> rw [hi] <;> rfl
  · rcases pc_cases k with ⟨hpc, -⟩ | ⟨hpc, -⟩ | ⟨hpc, -⟩ <;> rw [hpc] <;> rfl
  · rw [access_eq, Option.mem_def] at hacc
    split_ifs at hacc
    obtain rfl := Option.some.inj hacc
    rfl
  · have hlt (k : ℕ) :
        (storeRun.machine.after (romWord storeRom) k).pc.toNat / 2 ^ 15 = 0 := by
      rcases pc_cases k with ⟨hpc, -⟩ | ⟨hpc, -⟩ | ⟨hpc, -⟩ <;> rw [hpc] <;> rfl
    rw [hlt, hlt]

/-- The machine of the store program keeps to the two memories. -/
theorem contained : storeRun.Contained := by
  intro k acc hacc
  rw [access_eq, Option.mem_def] at hacc
  split_ifs at hacc
  obtain rfl := Option.some.inj hacc
  exact .inl (by decide)

end storeRun

/-- When the `jal` enters execute, the store is in the RAM. -/
theorem Run.refines_store : ∃ t, storeRun.toRun.Enters 2 t ∧
    (storeRun.state t).ram.bytes 0x80000003 = 0x80 := by
  have hquiet : storeRun.Quiet := fun _ => ⟨rfl, rfl⟩
  obtain ⟨t, ht, -, -, hram, -⟩ :=
    Run.refines hquiet storeRun.supported storeRun.contained 2
  exact ⟨t, ht, (hram 0x80000003 (by decide)).trans (by decide +kernel)⟩

end RvSoc

end RvPipelineCore

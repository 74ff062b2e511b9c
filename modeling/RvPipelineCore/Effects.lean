import RvPipelineCore.Access
import RvPipelineCore.Progress

/-!
# The effects of an instruction

What the memory stage does to the register file, to the data port and to the memory behind it, when
it holds the only instruction of the pipeline.

- `Run.ram`, `Run.DataMemory`: a data slave that is a word memory with byte enables;
- `Run.transfers`: the transfers that have started on the data port;
- `Run.quiet_succ`: an empty memory stage has no effect;
- `Run.Alone.exists_committed`: the instruction in the memory stage leaves it with its effects done.
-/

namespace RvPipelineCore

open Temporal

namespace Run

variable {x : DontCare} (r : Run x) (init : BitVec 30 → BitVec 32) {rom : BitVec 32 → BitVec 32}

/-- The words of the data memory at the start of cycle `t`, with those of `init` before the run. A
write is done when it is acknowledged. -/
def ram : ℕ → BitVec 30 → BitVec 32
  | 0 => init
  | t + 1 =>
    if (r.inputs t).dWbAck && (r.state t).dPort.we then
      writeWord (ram t) (r.state t).dPort.adr (r.state t).dPort.dataW (r.state t).dPort.sel
    else ram t

/-- The data slave is a word memory: a read is answered with the word at `d_wb_adr`. -/
def DataMemory : Prop :=
  ∀ t, (r.inputs t).dWbAck = true → (r.state t).dPort.we = false →
    (r.inputs t).dWbDataR = r.ram init t ((r.state t).dPort.adr.extractLsb' 2 30)

/-- The transfers that have started before cycle `t`, in order. -/
def transfers : ℕ → List Transfer
  | 0 => []
  | t + 1 => transfers t ++ if r.Starts t then [(r.state (t + 1)).dPort.transfer] else []

variable {r init}

/-! ## The register file -/

/-- Write-back puts into the register file what left the memory stage in the cycle before. -/
theorem regMemNext_succ (t : ℕ) :
    (r.state (t + 1)).regMemNext = fun a =>
      if (r.state t).cm.regWrite = true ∧ (r.state t).isInstrExceptionM = false ∧
          a = (r.state t).m.rd then
        mux4 (r.state t).m.aluResult ((r.state t).readDataExtM (r.inputs t)) (r.state t).m.pcPlus4
          (r.state t).m.pcTarget (r.state t).cm.resultSrc
      else (r.state t).regMemNext a := by
  funext a
  rw [State.regMemNext, State.regFileWriteEnable, State.resultW, r.succ_isInstrExceptionW,
    r.succ_w, r.succ_cw, r.succ_regMem]
  simp only [State.writebackInput, Bool.and_eq_true, Bool.not_eq_true', and_assoc]

/-! ## An empty memory stage -/

/-- A run with an idle data port sees no acknowledge there. -/
theorem Delayed.no_dWbAck (h : r.Delayed rom) {t : ℕ} (hidle : (r.state t).dPort.state = .idle) :
    (r.inputs t).dWbAck = false := by
  by_contra hack
  have := h.data.active (Bool.not_eq_false _ ▸ hack)
  simp [hidle] at this

/-- Registers, memory and transfers as they are in a cycle. -/
def effects (r : Run x) (init : BitVec 30 → BitVec 32) (t : ℕ) :
    (BitVec 5 → BitVec 32) × (BitVec 30 → BitVec 32) × List Transfer :=
  ((r.state t).regMemNext, r.ram init t, r.transfers t)

/-- An idle port starts nothing for an instruction that is no load or store. -/
theorem not_starts_of_loadStore {t : ℕ} (hls : (r.state t).cm.loadStore = false) : ¬ r.Starts t :=
  fun hs => by simp [hs.owner.1] at hls

/-- An idle data port stays idle as long as the memory stage makes no access. -/
theorem idle_succ {t : ℕ} (hidle : (r.state t).dPort.state = .idle)
    (hls : (r.state t).cm.loadStore = false) : (r.state (t + 1)).dPort.state = .idle := by
  cases hp : (r.state (t + 1)).dPort.state with
  | idle => rfl
  | active =>
    rcases dPort_active_succ hp with hs | ⟨hact, -⟩
    · exact absurd hs (not_starts_of_loadStore hls)
    · simp [hidle] at hact

/-- With an idle port, an instruction that is no load or store leaves the memory alone. -/
theorem ram_succ_of_idle (h : r.Delayed rom) {t : ℕ} (hidle : (r.state t).dPort.state = .idle) :
    r.ram init (t + 1) = r.ram init t := by
  rw [ram, h.no_dWbAck hidle]
  rfl

/-- The list of transfers does not grow in a cycle in which none starts. -/
theorem transfers_succ_of_not_starts {t : ℕ} (hs : ¬ r.Starts t) :
    r.transfers (t + 1) = r.transfers t := by
  rw [transfers, if_neg hs, List.append_nil]

variable (init) in
/-- An empty memory stage over an idle port has no effect. -/
theorem quiet_succ (h : r.Delayed rom) {t : ℕ} (hm : (r.state t).m.validPc = false)
    (hidle : (r.state t).dPort.state = .idle) :
    (r.state (t + 1)).dPort.state = .idle ∧ r.effects init (t + 1) = r.effects init t := by
  have hc := (r.m_bubble t hm).2
  have hls := cm_loadStore_of_empty hm
  -- a bubble has every enable low
  refine ⟨idle_succ hidle hls, ?_⟩
  rw [effects, effects, ram_succ_of_idle h hidle,
    transfers_succ_of_not_starts (not_starts_of_loadStore hls), regMemNext_succ, hc]
  simp only [Prod.mk.injEq, and_true]
  funext a
  exact if_neg fun hcon => absurd hcon.1 Bool.false_ne_true

variable (init) in
/-- While the memory stage is empty over an idle port, nothing has an effect. -/
theorem quiet_until (h : r.Delayed rom) {a b : ℕ} (hidle : (r.state a).dPort.state = .idle)
    (hm : ∀ v, a ≤ v → v < b → (r.state v).m.validPc = false) (hab : a ≤ b) :
    (r.state b).dPort.state = .idle ∧ r.effects init b = r.effects init a := by
  refine always_between (p := fun v => (r.state v).dPort.state = .idle ∧
    r.effects init v = r.effects init a) ⟨hidle, rfl⟩ (fun v h₁ h₂ ih => ?_) b hab le_rfl
  obtain ⟨hidle', heff⟩ := quiet_succ init h (hm v h₁ h₂) ih.1
  exact ⟨hidle', heff.trans ih.2⟩

/-! ## The instruction in the memory stage -/

/-- The instruction that the memory stage holds alone in cycle `b` leaves it at the end of cycle
`a`, with its effects done. -/
structure Committed (r : Run x) (init : BitVec 30 → BitVec 32) (b a : ℕ) : Prop where
  le : b ≤ a
  alone : ∀ v, b ≤ v → v ≤ a → Alone r v
  done : (r.state a).stallM (r.inputs a) = false
  clean : ∀ v, b ≤ v → v ≤ a → (r.state v).isInstrExceptionM = false
  idle : (r.state (a + 1)).dPort.state = .idle
  ram : r.ram init (a + 1) =
    if (r.state b).cm.loadStore && (r.state b).cm.memWrite then
      writeWord (r.ram init b) (r.state b).m.aluResult (r.state b).writeDataM ((r.state b).dSel x)
    else r.ram init b
  transfers : r.transfers (a + 1) =
    r.transfers b ++ if (r.state b).cm.loadStore then [((r.state b).startedPort x).transfer] else []
  regs : (r.state (a + 1)).regMemNext = fun i =>
    if (r.state b).cm.regWrite = true ∧ i = (r.state b).m.rd then
      mux4 (r.state b).m.aluResult ((r.state a).readDataExtM (r.inputs a)) (r.state b).m.pcPlus4
        (r.state b).m.pcTarget (r.state b).cm.resultSrc
    else (r.state b).regMemNext i
  read : (r.state b).cm.loadStore = true → (r.state b).cm.memWrite = false →
    (r.state a).readDataExtM (r.inputs a) =
      maskExtend (r.ram init b ((r.state b).m.aluResult.extractLsb' 2 30)) (r.state b).readAddressM
        (r.state b).m.funct3

/-- An instruction that is no load or store leaves at once. -/
theorem Alone.committed_of_not_loadStore (h : r.Delayed rom) {b : ℕ} (ha : Alone r b)
    (hidle : (r.state b).dPort.state = .idle) (hx : (r.state b).isInstrExceptionM = false)
    (hls : (r.state b).cm.loadStore = false) : Committed r init b b := by
  refine ⟨le_rfl, fun v h₁ h₂ => ?_, ?_, fun v h₁ h₂ => ?_, idle_succ hidle hls, ?_, ?_, ?_, ?_⟩
  · rwa [le_antisymm h₂ h₁]
  · simp [State.stallM, hls]
  · rwa [le_antisymm h₂ h₁]
  · rw [ram_succ_of_idle h hidle, hls]
    rfl
  · rw [transfers_succ_of_not_starts (not_starts_of_loadStore hls), hls]
    simp
  · rw [regMemNext_succ]
    simp only [hx, true_and]
  · intro hls'
    simp [hls] at hls'

/-- A load or store that started its transfer in cycle `b` waits for the acknowledge in cycle `v`.
What it writes back until then is not what it loads. -/
structure Waiting (r : Run x) (init : BitVec 30 → BitVec 32) (b v : ℕ) : Prop where
  alone : Alone r v
  m : (r.state v).m = (r.state b).m
  cm : (r.state v).cm = (r.state b).cm
  port : (r.state v).dPort = (r.state b).startedPort x
  ram : r.ram init v = r.ram init b
  transfers : r.transfers v = r.transfers b ++ [((r.state b).startedPort x).transfer]
  regs : ∀ i, ¬ ((r.state b).cm.regWrite = true ∧ i = (r.state b).m.rd) →
    (r.state v).regMemNext i = (r.state b).regMemNext i

namespace Waiting

variable {b v : ℕ}

/-- A load or store alone in the memory stage is waiting from the cycle after the start of its
transfer on. -/
theorem of_starts (h : r.Delayed rom) (ha : Alone r b) (hs : r.Starts b) :
    Waiting r init b (b + 1) := by
  obtain ⟨hls, hsync⟩ := hs.owner
  have hack := h.no_dWbAck hs.idle
  have hx : (r.state b).isInstrExceptionM = false := by rw [h.isInstrExceptionM_eq, hsync]
  obtain ⟨hm, hc, -⟩ := m_held (h.undisturbed b) hls hsync hack
  -- the access stalls decode, so nothing arrives behind it
  have hl : (r.state b).decodeLoads (r.inputs b) = false := by
    simp [State.decodeLoads, State.stallD, State.stallE, State.stallM, hls, hack]
  have hport : (r.state (b + 1)).dPort = (r.state b).startedPort x := by
    rw [r.succ_dPort]
    simp [DataPort.next, hs.idle, hs.valid, State.startedPort, State.dWe, hx]
  refine ⟨ha.succ hl, hm, hc, hport, ram_succ_of_idle h hs.idle, ?_, fun i hi => ?_⟩
  · rw [Run.transfers, if_pos hs, hport]
  · rw [regMemNext_succ]
    exact if_neg fun hcon => hi ⟨hcon.1, hcon.2.2⟩

/-- A load or store that waits is in the memory stage as it was, without a fault, and its transfer
is under way. -/
theorem owner (hw : Waiting r init b v) (hs : r.Starts b) :
    (r.state v).cm.loadStore = true ∧ (r.state v).syncExceptionM = false ∧
      (r.state v).dPort.state = .active := by
  obtain ⟨hls, hsync⟩ := hs.owner
  refine ⟨by rw [hw.cm, hls], ?_, by rw [hw.port]; rfl⟩
  rw [State.syncExceptionM_congr _ hw.m hw.cm, hsync]

/-- A load or store that is not acknowledged waits on in the next cycle. -/
theorem succ (h : r.Delayed rom) (hs : r.Starts b) (hw : Waiting r init b v)
    (hack : (r.inputs v).dWbAck = false) : Waiting r init b (v + 1) := by
  obtain ⟨hls, hsync, hact⟩ := hw.owner hs
  obtain ⟨hm, hc, -⟩ := m_held (h.undisturbed v) hls hsync hack
  have hl : (r.state v).decodeLoads (r.inputs v) = false := by
    simp [State.decodeLoads, State.stallD, State.stallE, State.stallM, hls, hack]
  refine ⟨hw.alone.succ hl, hm.trans hw.m, hc.trans hw.cm,
    (dPort_of_wait hact hack).trans hw.port, ?_, ?_, fun i hi => ?_⟩
  · rw [Run.ram, hack]
    exact hw.ram
  · rw [transfers_succ_of_not_starts fun hs' => by simp [hs'.idle] at hact]
    exact hw.transfers
  · rw [regMemNext_succ, hw.m, hw.cm]
    exact (if_neg fun hcon => hi ⟨hcon.1, hcon.2.2⟩).trans (hw.regs i hi)

/-- With the acknowledge of its transfer a load or store has committed, with its effects on the
memory, the transfers and the registers done. -/
theorem committed (h : r.Delayed rom) (hmem : r.DataMemory init) (ha : Alone r b)
    (hs : r.Starts b) {a : ℕ} (hlt : b < a) (hw : ∀ v, b < v → v ≤ a → Waiting r init b v)
    (hack : (r.inputs a).dWbAck = true) : Committed r init b a := by
  obtain ⟨hls, hsync⟩ := hs.owner
  have hwa := hw a hlt le_rfl
  obtain ⟨-, -, hact⟩ := hwa.owner hs
  have hclean : ∀ v, b ≤ v → v ≤ a → (r.state v).isInstrExceptionM = false := by
    intro v h₁ h₂
    rw [h.isInstrExceptionM_eq]
    rcases Nat.eq_or_lt_of_le h₁ with rfl | hlt'
    · exact hsync
    · exact ((hw v hlt' h₂).owner hs).2.1
  -- the acknowledge finds the port as the start left it
  have hwe : (r.state a).dPort.we = (r.state b).cm.memWrite := by
    rw [hwa.port]
    rfl
  refine ⟨hlt.le, fun v h₁ h₂ => ?_, by simp [State.stallM, hack], hclean, ?_, ?_, ?_, ?_, ?_⟩
  · rcases Nat.eq_or_lt_of_le h₁ with rfl | hlt'
    · exact ha
    · exact (hw v hlt' h₂).alone
  · rw [r.succ_dPort]
    simp [DataPort.next, hact, hack]
  · rw [Run.ram, hack, hwe, hls, hwa.port, hwa.ram]
    rfl
  · rw [transfers_succ_of_not_starts fun hs' => by simp [hs'.idle] at hact, hwa.transfers,
      if_pos hls]
  · rw [regMemNext_succ, hwa.m, hwa.cm]
    funext i
    -- the last write-back is the one that counts
    by_cases hi : (r.state b).cm.regWrite = true ∧ i = (r.state b).m.rd
    · rw [if_pos hi, if_pos ⟨hi.1, hclean a hlt.le le_rfl, hi.2⟩]
    · rw [if_neg hi, if_neg fun hcon => hi ⟨hcon.1, hcon.2.2⟩]
      exact hwa.regs i hi
  · intro _ hmw
    rw [State.readDataExtM, hmem a hack (by rw [hwe, hmw]), State.readAddressM, hwa.m, hwa.ram,
      hwa.port]
    rfl

end Waiting

/-- The instruction in the memory stage leaves it in the end. -/
theorem Alone.exists_committed (h : r.Delayed rom) (hf : r.DataFair) (hmem : r.DataMemory init)
    {b : ℕ} (ha : Alone r b) (hidle : (r.state b).dPort.state = .idle)
    (hx : (r.state b).isInstrExceptionM = false) : ∃ a, Committed r init b a := by
  cases hls : (r.state b).cm.loadStore with
  | false => exact ⟨b, ha.committed_of_not_loadStore h hidle hx hls⟩
  | true =>
    have hs : r.Starts b := ⟨hidle, by simp [State.dValid, hls, hx]⟩
    have hfirst : Waiting r init b (b + 1) := .of_starts h ha hs
    have hcyc : (r.state (b + 1)).dPort.cyc = true := by
      rw [hfirst.port]
      rfl
    obtain ⟨a, hack⟩ := First.of_exists (hf (b + 1) hcyc)
    refine ⟨a, Waiting.committed h hmem ha hs hack.le ?_ hack.holds⟩
    exact always_between hfirst fun v h₁ h₂ ih =>
      ih.succ h hs (Bool.not_eq_true _ ▸ hack.not_before v h₁ h₂)

end Run

end RvPipelineCore

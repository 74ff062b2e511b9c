import RvPipelineCore.TrapOrder

/-!
# The data port

Which instruction a transfer belongs to. A transfer starts in a cycle in which the port is idle and
`d_valid` is high; its owner is then in the memory stage.

`Run.data_port_exact` says that owners, transfers and acknowledges match one to one and in program
order, as long as nothing disturbs a load or store in the memory stage (`Run.Undisturbed`): neither
an interrupt, nor the trap of the instruction ahead of it, nor a division behind it.
-/

namespace RvPipelineCore

open Temporal

namespace Run

variable {x : DontCare} (r : Run x)

/-- A transfer on the data bus starts at the end of cycle `t`: the port is idle and the memory stage
asks for one. -/
structure Starts (t : ℕ) : Prop where
  idle : (r.state t).dPort.state = .idle
  valid : (r.state t).dValid = true

/-- Whether a transfer starts in a cycle can be decided from the state. -/
instance (t : ℕ) : Decidable (r.Starts t) :=
  decidable_of_iff ((r.state t).dPort.state = .idle ∧ (r.state t).dValid = true)
    ⟨fun h => ⟨h.1, h.2⟩, fun h => ⟨h.1, h.2⟩⟩

/-- A load or store that is not itself faulty is left alone in cycle `t`. -/
def Undisturbed (t : ℕ) : Prop :=
  (r.state t).cm.loadStore = true → (r.state t).syncExceptionM = false →
    (r.state t).interruptM = false ∧ (r.state t).hazard.pendingExceptionM = false ∧
      ((r.state t).hazard.divPending = true → (r.inputs t).dWbAck = true)

/-- Whether a cycle leaves the access in the memory stage undisturbed can be decided from its state
and inputs. -/
instance (t : ℕ) : Decidable (r.Undisturbed t) := by
  unfold Undisturbed
  infer_instance

variable {r}

/-- The owner of a starting transfer is a load or store without a fault of its own. -/
theorem Starts.owner {t : ℕ} (h : r.Starts t) :
    (r.state t).cm.loadStore = true ∧ (r.state t).syncExceptionM = false := by
  have hv := h.valid
  simp only [State.dValid, Bool.and_eq_true, Bool.not_eq_true', State.isInstrExceptionM_eq,
    Bool.or_eq_false_iff] at hv
  exact ⟨hv.1, hv.2.1⟩

/-- A starting transfer puts the address and the direction of the access in the memory stage on the
bus. -/
theorem dPort_of_starts {t : ℕ} (h : r.Starts t) :
    (r.state (t + 1)).dPort.state = .active ∧
      (r.state (t + 1)).dPort.adr = (r.state t).m.aluResult ∧
      (r.state (t + 1)).dPort.we = (r.state t).cm.memWrite := by
  have hx : (r.state t).isInstrExceptionM = false := by
    have hv := h.valid
    simp only [State.dValid, Bool.and_eq_true, Bool.not_eq_true'] at hv
    exact hv.2
  rw [r.succ_dPort]
  simp [DataPort.next, h.idle, h.valid, State.dWe, hx]

/-- The data port keeps its request until the acknowledge. -/
theorem dPort_of_wait {t : ℕ} (hact : (r.state t).dPort.state = .active)
    (hack : (r.inputs t).dWbAck = false) : (r.state (t + 1)).dPort = (r.state t).dPort := by
  rw [r.succ_dPort]
  simp [DataPort.next, hact, hack]

/-- The port becomes active by a start, or stays so without an acknowledge. -/
theorem dPort_active_succ {t : ℕ} (h : (r.state (t + 1)).dPort.state = .active) :
    r.Starts t ∨ ((r.state t).dPort.state = .active ∧ (r.inputs t).dWbAck = false) := by
  rw [r.succ_dPort] at h
  unfold DataPort.next at h
  cases hp : (r.state t).dPort.state <;> simp only [hp] at h <;> split_ifs at h with hc
  · exact .inl ⟨hp, hc⟩
  · exact .inr ⟨rfl, Bool.not_eq_true _ ▸ hc⟩

/-- An undisturbed load or store stays in the memory stage until its acknowledge. -/
theorem m_held {t : ℕ} (hK : r.Undisturbed t) (hls : (r.state t).cm.loadStore = true)
    (hsync : (r.state t).syncExceptionM = false) (hack : (r.inputs t).dWbAck = false) :
    (r.state (t + 1)).m = (r.state t).m ∧ (r.state (t + 1)).cm = (r.state t).cm ∧
      r.stampM (t + 1) = r.stampM t := by
  obtain ⟨-, hpm, hdiv⟩ := hK hls hsync
  have hs : (r.state t).stallM (r.inputs t) = true := by simp [State.stallM, hls, hack]
  rcases r.m_cases t with ⟨hf, -⟩ | ⟨-, hs', -⟩ | ⟨-, -, hm, hc, hst⟩
  · simp [State.flushM, hpm] at hf
    simp [hdiv hf] at hack
  · simp [hs] at hs'
  · exact ⟨hm, hc, hst⟩

/-- While the port is active the memory stage holds the owner of the transfer. -/
structure Owned (r : Run x) (s t : ℕ) : Prop where
  starts : r.Starts s
  active : (r.state t).dPort.state = .active
  adr : (r.state t).dPort.adr = (r.state s).m.aluResult
  we : (r.state t).dPort.we = (r.state s).cm.memWrite
  stamp : r.stampM t = r.stampM s
  loadStore : (r.state t).cm.loadStore = true
  sync : (r.state t).syncExceptionM = false

/-- A transfer that starts in an undisturbed cycle is owned, in the next one, by the instruction
that asked for it. -/
theorem Owned.of_starts {t : ℕ} (hd : r.DataSlave) (hK : r.Undisturbed t) (h : r.Starts t) :
    Owned r t (t + 1) := by
  have hack : (r.inputs t).dWbAck = false := by
    by_contra hack
    have := hd.active (Bool.not_eq_false _ ▸ hack)
    simp [h.idle] at this
  obtain ⟨hls, hsync⟩ := h.owner
  obtain ⟨hm, hc, hst⟩ := m_held hK hls hsync hack
  obtain ⟨hact, hadr, hwe⟩ := dPort_of_starts h
  exact ⟨h, hact, hadr, hwe, hst, by rw [hc, hls],
    by rw [State.syncExceptionM_congr _ hm hc, hsync]⟩

/-- In an undisturbed cycle without an acknowledge a transfer keeps its owner. -/
theorem Owned.succ {s t : ℕ} (hK : r.Undisturbed t) (h : Owned r s t)
    (hack : (r.inputs t).dWbAck = false) : Owned r s (t + 1) := by
  obtain ⟨hm, hc, hst⟩ := m_held hK h.loadStore h.sync hack
  have hp := dPort_of_wait h.active hack
  exact ⟨h.starts, by rw [hp, h.active], by rw [hp, h.adr], by rw [hp, h.we], hst.trans h.stamp,
    by rw [hc, h.loadStore], by rw [State.syncExceptionM_congr _ hm hc, h.sync]⟩

/-- The owner of an active transfer is in the memory stage since its start, and the slave has not
answered yet. -/
theorem exists_owned (hd : r.DataSlave) {t : ℕ} (hK : ∀ v < t, r.Undisturbed v)
    (hact : (r.state t).dPort.state = .active) :
    ∃ s < t, Owned r s t ∧ ∀ v, s < v → v < t → (r.inputs v).dWbAck = false := by
  induction t with
  | zero => simp at hact
  | succ t ih =>
    rcases dPort_active_succ hact with hs | ⟨hact', hack⟩
    · exact ⟨t, t.lt_succ_self, .of_starts hd (hK t t.lt_succ_self) hs, fun v h₁ h₂ => by omega⟩
    · obtain ⟨s, hlt, ho, hno⟩ := ih (fun v hv => hK v (by omega)) hact'
      refine ⟨s, by omega, ho.succ (hK t t.lt_succ_self) hack, fun v h₁ h₂ => ?_⟩
      rcases Nat.lt_succ_iff_lt_or_eq.mp h₂ with h₃ | rfl
      · exact hno v h₁ h₃
      · exact hack

/-- When the port is idle, every earlier transfer belongs to an instruction that has left. -/
theorem stampM_lt_of_idle (hd : r.DataSlave) {t : ℕ} (hK : ∀ v < t, r.Undisturbed v)
    (hidle : (r.state t).dPort.state = .idle) :
    ∀ s < t, r.Starts s → r.stampM s < r.stampM t := by
  induction t with
  | zero => exact fun s hs => absurd hs s.not_lt_zero
  | succ t ih =>
    intro s hlt hs
    have hK' : ∀ v < t, r.Undisturbed v := fun v hv => hK v (by omega)
    cases hp : (r.state t).dPort.state with
    | idle =>
      rcases Nat.lt_succ_iff_lt_or_eq.mp hlt with hlt' | rfl
      · exact (ih hK' hp s hlt' hs).trans_le (r.stampM_mono t.le_succ)
      · simp [(dPort_of_starts hs).1] at hidle
    | active =>
      -- the acknowledge lets the owner go, and what follows is younger
      obtain ⟨q, -, ho, -⟩ := exists_owned hd hK' hp
      have hack : (r.inputs t).dWbAck = true := by
        by_contra hack
        rw [dPort_of_wait hp (Bool.not_eq_true _ ▸ hack), hp] at hidle
        exact absurd hidle (by decide)
      have hload := r.stampM_succ_of_load (t := t) (by simp [State.stallM, hack])
      rw [hload]
      exact (r.stampM_mono (Nat.lt_succ_iff.mp hlt)).trans_lt
        (r.stampM_lt_stampE t (m_valid_of_loadStore ho.loadStore))

/-- The owner of a transfer takes no trap, provided that no cycle disturbs an access: the trap of a
later cycle is on another instruction. -/
theorem Starts.no_trap {s t : ℕ} (hs : r.Starts s) (hK : ∀ v < t, r.Undisturbed v)
    (htrap : (r.state t).trapCaughtW = true) (hv : (r.state t).w.validPc = true) :
    r.stampW t ≠ r.stampM s := by
  intro heq
  obtain ⟨q, rfl, hexc⟩ := exists_exception_of_trap htrap
  rw [r.stampW_succ] at heq
  rw [r.succ_w] at hv
  obtain ⟨hls, hsync⟩ := hs.owner
  have hv' := m_valid_of_loadStore hls
  -- the stamp identifies the contents of the memory stage
  have hsame : (r.state q).m = (r.state s).m ∧ (r.state q).cm = (r.state s).cm := by
    rcases Nat.le_total s q with hle | hle
    · have := r.m_eq_of_stamp hv' hv heq q hle le_rfl
      exact ⟨this.1, this.2.1⟩
    · have := r.m_eq_of_stamp hv hv' heq.symm s hle le_rfl
      exact ⟨this.1.symm, this.2.1.symm⟩
  have hsync' : (r.state q).syncExceptionM = false := by
    rw [State.syncExceptionM_congr _ hsame.1 hsame.2, hsync]
  obtain ⟨hint, -⟩ := hK q q.lt_succ_self (by rw [hsame.2, hls]) hsync'
  simp [State.isInstrExceptionM_eq, hsync', hint] at hexc

/-- The first acknowledge after the start of a transfer completes its owner. -/
theorem Starts.commits (hd : r.DataSlave) {s a : ℕ} (hs : r.Starts s)
    (hK : ∀ v ≤ a, r.Undisturbed v)
    (ha : First (fun v => (r.inputs v).dWbAck = true) (s + 1) a) :
    r.Commits (r.stampM s) a ∧ ∀ v, s < v → v ≤ a → Owned r s v := by
  have howned : ∀ v, s + 1 ≤ v → v ≤ a → Owned r s v :=
    always_between (.of_starts hd (hK s (by have := ha.le; omega)) hs) fun v h₁ h₂ ih =>
      ih.succ (hK v h₂.le) (Bool.not_eq_true _ ▸ ha.not_before v h₁ h₂)
  have ho := howned a ha.le le_rfl
  refine ⟨⟨m_valid_of_loadStore ho.loadStore, ho.stamp, ?_, ?_⟩, howned⟩
  · have hack : (r.inputs a).dWbAck = true := ha.holds
    simp [State.stallM, hack]
  · rw [State.isInstrExceptionM_eq, ho.sync, (hK a le_rfl ho.loadStore ho.sync).1]
    rfl

/-- A load or store completes with the acknowledge of a transfer of its own. -/
theorem Commits.exists_starts (hd : r.DataSlave) {n t : ℕ} (hK : ∀ v < t, r.Undisturbed v)
    (hc : r.Commits n t) (hls : (r.state t).cm.loadStore = true) :
    ∃ s < t, r.Starts s ∧ r.stampM s = n ∧
      First (fun v => (r.inputs v).dWbAck = true) (s + 1) t := by
  have hack : (r.inputs t).dWbAck = true := by
    have := hc.done
    simpa [State.stallM, hls] using this
  obtain ⟨s, hlt, ho, hno⟩ := exists_owned hd hK (hd.active hack)
  exact ⟨s, hlt, ho.starts, ho.stamp.symm.trans hc.stamp, hlt, hack, fun v h₁ h₂ => by
    simp [hno v h₁ h₂]⟩

variable (r)

/-- Up to cycle `T`, as long as loads and stores are undisturbed in the memory stage: the owner of a
transfer takes no trap and completes with the first acknowledge after the start, while the port
holds its address; a load or store that completes has started exactly one transfer, whose
acknowledge completes it; and transfers start in program order. -/
theorem data_port_exact (hd : r.DataSlave) (T : ℕ) (hK : ∀ v < T, r.Undisturbed v) :
    (∀ s < T, r.Starts s →
      (∀ t ≤ T, (r.state t).trapCaughtW = true → (r.state t).w.validPc = true →
        r.stampW t ≠ r.stampM s) ∧
      ∀ a < T, First (fun v => (r.inputs v).dWbAck = true) (s + 1) a →
        r.Commits (r.stampM s) a ∧ ∀ v, s < v → v ≤ a → Owned r s v) ∧
    (∀ n, ∀ t < T, r.Commits n t → (r.state t).cm.loadStore = true →
      ∃ s < t, (r.Starts s ∧ r.stampM s = n ∧
          First (fun v => (r.inputs v).dWbAck = true) (s + 1) t) ∧
        ∀ s' < t, r.Starts s' → r.stampM s' = n → s' = s) ∧
    ∀ s s', s < s' → s' < T → r.Starts s → r.Starts s' → r.stampM s < r.stampM s' := by
  -- The order is used twice: for two starts of one access, and as the last part.
  have horder : ∀ s s', s < s' → s' < T → r.Starts s → r.Starts s' →
      r.stampM s < r.stampM s' := fun s s' hlt hT hs hs' =>
    stampM_lt_of_idle hd (fun v hv => hK v (by omega)) hs'.idle s hlt hs
  refine ⟨fun s _ hs => ⟨fun t ht htrap hv => hs.no_trap (fun v hv => hK v (by omega)) htrap hv,
    fun a ha hfirst => hs.commits hd (fun v hv => hK v (by omega)) hfirst⟩, ?_, horder⟩
  intro n t ht hc hls
  obtain ⟨s, hlt, hs, hst, hfirst⟩ := hc.exists_starts hd (fun v hv => hK v (by omega)) hls
  refine ⟨s, hlt, ⟨hs, hst, hfirst⟩, fun s' hlt' hs' hst' => ?_⟩
  -- Two starts of one access would have two places in program order.
  rcases lt_trichotomy s s' with h | h | h
  · have := horder s s' h (by omega) hs hs'
    omega
  · exact h.symm
  · have := horder s' s h (by omega) hs' hs
    omega

/-- `sw x1, 0(x0)` without an interrupt: its transfer starts in cycle 20, and the acknowledge in
cycle 22 completes it. -/
theorem data_port_exact_store :
    (interruptBench [0x00102023] 100).run₁.Commits
      ((interruptBench [0x00102023] 100).run₁.stampM 20) 22 :=
  (((data_port_exact _ (TestBench.run₁_dataSlave (interruptBench [0x00102023] 100)) 40
    (by decide +kernel)).1 20 (by decide) (by decide +kernel)).2 22 (by decide)
      (by decide +kernel)).1

/-- A store that is interrupted in its first cycle in the memory stage is not gated in the second:
the transfer starts in the cycle in which the trap of its owner is taken. -/
theorem interrupted_store_starts :
    ∃ (r : Run TestBench.zeros) (rom : BitVec 32 → BitVec 32) (t : ℕ),
      r.Exact ∧ r.InstrSlave rom ∧ r.DataSlave ∧ (r.state t).trapCaughtW = true ∧
        (r.state t).w.validPc = true ∧ (r.state t).w.pc = 0x14 ∧ rom 0x14 = 0x00102023 ∧
        r.Starts t ∧ (r.state t).dWe = true ∧ r.stampM t = r.stampW t :=
  ⟨(interruptBench [0x00102023] 15).run₁, _, 21, TestBench.run₁_exact _,
    TestBench.run₁_instrSlave _, TestBench.run₁_dataSlave _, by decide +kernel⟩

end Run

end RvPipelineCore

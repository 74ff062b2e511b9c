import RvPipelineCore.Lib.Bits
import RvPipelineCore.Soc.Arbiter

/-!
# Several masters on one slave

`wb_arbiter` of `rtl/soc/wb_intercon`: the arbiter with the multiplexers around it, for any number
of masters.

- `WbArbiter.Run.Registered`: a slave that answers in a later cycle than it is asked;
- `WbArbiter.Run.ack_owner`: an answer goes to the master whose request the slave has seen;
- `WbArbiter.Run.exists_ack`: every transfer is acknowledged within a bound.
-/

namespace RvPipelineCore

open RoundRobin

/-- What a Wishbone master drives: the address, the data, the lanes and the direction of a transfer,
and the lines that request it. -/
structure WbReq where
  adr : BitVec 32
  dat : BitVec 32
  sel : BitVec 4
  we : Bool
  cyc : Bool
  stb : Bool
  cti : BitVec 3
  bte : BitVec 2
  deriving DecidableEq

/-- The request of a master that drives zeros, so that nothing is requested. -/
instance : Zero WbReq := ⟨⟨0, 0, 0, false, false, false, 0, 0⟩⟩

/-- What a Wishbone slave drives: the data and the three lines that end a transfer. -/
structure WbResp where
  dat : BitVec 32
  ack : Bool
  err : Bool
  rty : Bool
  deriving DecidableEq

/-- The answer of a slave that drives zeros, so that nothing is answered. -/
instance : Zero WbResp := ⟨⟨0, false, false, false⟩⟩

namespace WbArbiter

variable {n : ℕ}

/-- `wbm_cyc_i`: the `cyc` lines of the masters, one bit for each. -/
def wbmCyc (wbm : Fin n → WbReq) : BitVec n := Bits.ofFn fun i => (wbm i).cyc

/-- The part of a flattened vector that belongs to `sel`. -/
def part {α : Type*} [Zero α] (v : Fin n → α) (sel : ℕ) : α :=
  if h : sel < n then v ⟨sel, h⟩ else 0

/-- The outputs of `wb_arbiter` towards the slave: what the selected master drives, with `cyc` only
while one is active. -/
def wbs (s : Arbiter n) (wbm : Fin n → WbReq) : WbReq :=
  let r := part wbm s.select.toNat
  { r with cyc := r.cyc && s.active }

/-- A line of the slave, gated with `active` and shifted to the selected master. -/
def demux (s : Arbiter n) (line : Bool) : BitVec n :=
  (BitVec.ofBool (line && s.active)).setWidth n <<< s.select.toNat

/-- The outputs of `wb_arbiter` towards master `i`: the data of the slave, and its other lines only
if the master is selected. -/
def wbm (s : Arbiter n) (wbs : WbResp) (i : Fin n) : WbResp where
  dat := wbs.dat
  ack := (demux s wbs.ack).getLsbD i
  err := (demux s wbs.err).getLsbD i
  rty := (demux s wbs.rty).getLsbD i

/-- The part of a vector at the place of a master is what this master drives. -/
theorem part_val {α : Type*} [Zero α] (v : Fin n → α) (i : Fin n) : part v i.val = v i := by
  rw [part, dif_pos i.isLt]

/-- A master requests if and only if its `cyc` is high. -/
@[simp]
theorem requests_wbmCyc {m : Fin n → WbReq} {i : Fin n} :
    Arbiter.Requests (wbmCyc m) i ↔ (m i).cyc = true := by
  rw [Arbiter.Requests, wbmCyc, Bits.getLsbD_ofFn]

/-- A line of the slave reaches master `i` if and only if it is high and the master is the selected
one. -/
theorem demux_getLsbD (s : Arbiter n) (line : Bool) (i : Fin n) :
    (demux s line).getLsbD i = true ↔
      line = true ∧ s.active = true ∧ s.select.toNat = i.val := by
  rw [demux, Bits.getLsbD_ofBool_shiftLeft, Bool.and_eq_true, and_assoc]

/-- A run: what the masters and the slave drive in every cycle, with the arbiter between them. -/
structure Run (n : ℕ) where
  arbiter : ℕ → Arbiter n
  rst : ℕ → Bool
  masters : ℕ → Fin n → WbReq
  slave : ℕ → WbResp
  succ : ∀ t, arbiter (t + 1) = (arbiter t).next (rst t) (wbmCyc (masters t))

namespace Run

variable (run : Run n) {t₀ t : ℕ}

/-- The arbiter inside `wb_arbiter`, as a run of its own whose requests are the `cyc` lines of the
masters. -/
def toArbiter : Arbiter.Run n where
  state := run.arbiter
  rst := run.rst
  request t := wbmCyc (run.masters t)
  succ := run.succ

/-- What the slave behind `wb_arbiter` sees in a cycle. -/
def toSlave (t : ℕ) : WbReq := wbs (run.arbiter t) (run.masters t)

/-- What master `i` in front of `wb_arbiter` sees in a cycle. -/
def toMaster (t : ℕ) (i : Fin n) : WbResp := wbm (run.arbiter t) (run.slave t) i

/-- The slave answers in the cycle behind one in which it is asked, and not twice in a row. -/
def Registered : Prop :=
  ∀ t, (run.slave (t + 1)).ack = true →
    (run.slave t).ack = false ∧ (run.toSlave t).cyc = true ∧ (run.toSlave t).stb = true

/-- The slave acknowledges every request that it sees after cycle `t₀` within `wait` cycles. -/
def Answers (t₀ wait : ℕ) : Prop :=
  ∀ t, t₀ < t → (run.toSlave t).cyc = true → (run.toSlave t).stb = true →
    ∃ w ≤ wait, (run.slave (t + w)).ack = true

/-- The masters keep a request as it is until it is acknowledged. -/
def Holds (t₀ : ℕ) : Prop :=
  ∀ t, t₀ < t → ∀ i, (run.masters t i).cyc = true → (run.toMaster t i).ack = false →
    run.masters (t + 1) i = run.masters t i

/-- The masters keep a request until it is acknowledged, and then let go. -/
structure Masters (t₀ : ℕ) : Prop where
  stb : ∀ t, t₀ < t → ∀ i, (run.masters t i).cyc = true → (run.masters t i).stb = true
  holds : run.Holds t₀
  releases : ∀ t, t₀ < t → ∀ i, (run.toMaster t i).ack = true →
    (run.masters (t + 1) i).cyc = false

variable {run}

/-- A master is acknowledged if and only if the slave acknowledges and the master is the selected
one. -/
theorem toMaster_ack {i : Fin n} : (run.toMaster t i).ack = true ↔
    (run.slave t).ack = true ∧ (run.arbiter t).active = true ∧
      (run.arbiter t).select.toNat = i.val :=
  demux_getLsbD _ _ _

/-- The slave sees what the selected master drives. -/
theorem toSlave_of_select {i : Fin n} (hactive : (run.arbiter t).active = true)
    (hselect : (run.arbiter t).select.toNat = i.val) : run.toSlave t = run.masters t i := by
  rw [toSlave, wbs, hselect, part_val, hactive, Bool.and_true]

/-- A port of the arbiter requests if and only if the `cyc` of its master is high. -/
theorem getLsbD_request (t : ℕ) (i : Fin n) :
    (run.toArbiter.request t).getLsbD i = (run.masters t i).cyc :=
  Bits.getLsbD_ofFn _ i

/-- Only a granted master is acknowledged after a reset. -/
theorem grant_of_ack [NeZero n] (hrst : run.rst t₀ = true) (ht : t₀ < t) {i : Fin n}
    (hack : (run.toMaster (t + 1) i).ack = true) :
    (run.arbiter (t + 1)).grant.getLsbD i = true := by
  obtain ⟨-, hactive, hselect⟩ := toMaster_ack.mp hack
  obtain ⟨a, htoken, hreq, hselect'⟩ := run.toArbiter.exists_select hrst ht hactive
  have hsame : i = a := Fin.ext (hselect.symm.trans hselect')
  exact (run.toArbiter.getLsbD_grant htoken i).mpr ⟨hsame, hsame ▸ hreq⟩

/-- A request that the slave sees is still selected in the next cycle. -/
theorem exists_owner [NeZero n] (hrst : run.rst t₀ = true)
    (hquiet : ∀ t, t₀ < t → run.rst t = false) (ht : t₀ + 1 < t)
    (hcyc : (run.toSlave t).cyc = true) :
    ∃ i : Fin n, (run.masters t i).cyc = true ∧ run.toSlave t = run.masters t i ∧
      (run.arbiter (t + 1)).active = true ∧ (run.arbiter (t + 1)).select.toNat = i.val := by
  obtain ⟨u, rfl⟩ := Nat.exists_eq_add_of_lt ht
  have hactive : (run.arbiter (t₀ + 1 + u + 1)).active = true := by
    simp only [toSlave, wbs, Bool.and_eq_true] at hcyc
    exact hcyc.2
  obtain ⟨i, htoken, hreq, hselect⟩ :=
    run.toArbiter.exists_select (t := t₀ + 1 + u) hrst (by omega) hactive
  have hsame := toSlave_of_select hactive hselect
  rw [hsame] at hcyc
  obtain ⟨-, hactive', hselect'⟩ := run.toArbiter.select_succ htoken hreq
    (hquiet _ (by omega)) (requests_wbmCyc.mpr hcyc)
  exact ⟨i, hcyc, hsame, hactive', hselect'⟩

/-- An acknowledge goes to one master. The slave has seen the request of that master in the cycle
before, and the master still stands by it. -/
theorem ack_owner [NeZero n] (hrst : run.rst t₀ = true)
    (hquiet : ∀ t, t₀ < t → run.rst t = false) (hslave : run.Registered)
    (hholds : run.Holds t₀) (ht : t₀ + 1 < t) {i : Fin n}
    (hack : (run.toMaster (t + 1) i).ack = true) :
    run.toSlave t = run.masters t i ∧ run.toSlave (t + 1) = run.masters t i ∧
      run.masters (t + 1) i = run.masters t i ∧
      (run.masters t i).cyc = true ∧ (run.masters t i).stb = true ∧
      ∀ j, (run.toMaster (t + 1) j).ack = true → j = i := by
  obtain ⟨hline, hactive, hselect⟩ := toMaster_ack.mp hack
  obtain ⟨hfirst, hcyc, hstb⟩ := hslave t hline
  obtain ⟨j, hcyc', hsame, -, hselect'⟩ := exists_owner hrst hquiet ht hcyc
  obtain rfl : j = i := Fin.ext (hselect'.symm.trans hselect)
  -- An ack is a first one: the slave had none on the line in the cycle before.
  have hnone : (run.toMaster t j).ack = false := by
    rw [← Bool.not_eq_true, toMaster_ack, hfirst]
    exact fun h => absurd h.1 Bool.false_ne_true
  have hheld := hholds t (by omega) j hcyc' hnone
  refine ⟨hsame, ?_, hheld, hcyc', hsame ▸ hstb, ?_⟩
  · rw [toSlave_of_select hactive hselect, hheld]
  · intro k hk
    exact Fin.ext ((toMaster_ack.mp hk).2.2.symm.trans hselect)

/-- A granted master is acknowledged within `wait` cycles, or gives up. -/
theorem exists_ack_of_grant [NeZero n] {wait : ℕ} (hrst : run.rst t₀ = true)
    (hquiet : ∀ t, t₀ < t → run.rst t = false) (hstb : run.Masters t₀)
    (hanswers : run.Answers t₀ wait) {i : Fin n} (ht : t₀ + 1 < t)
    (hgrant : (run.arbiter t).grant.getLsbD i = true) :
    ∃ w ≤ wait, (run.toMaster (t + w) i).ack = true ∨ (run.masters (t + w) i).cyc = false := by
  obtain ⟨s, rfl⟩ := Nat.exists_eq_add_of_lt ht
  obtain ⟨a, ha⟩ := run.toArbiter.exists_token (t := t₀ + 1 + s) hrst (by omega)
  obtain ⟨rfl, hreq⟩ := (run.toArbiter.getLsbD_grant ha i).mp hgrant
  by_contra hnone
  push Not at hnone
  -- the master stays selected while it requests
  have hsel : ∀ w ≤ wait,
      (run.arbiter (t₀ + 1 + s + w)).token = BitVec.twoPow n i ∧
        Arbiter.Requests (run.toArbiter.request (t₀ + 1 + s + w)) i ∧
        (run.arbiter (t₀ + 1 + s + w + 1)).active = true ∧
        (run.arbiter (t₀ + 1 + s + w + 1)).select.toNat = i.val := by
    intro w hw
    induction w with
    | zero =>
      obtain ⟨hact, hselect⟩ := run.toArbiter.outputs_of_token ha
      exact ⟨ha, hreq, hact.mpr hreq, hselect hreq⟩
    | succ w ih =>
      obtain ⟨htok, hreq', -, -⟩ := ih (by omega)
      have hcyc := Bool.of_not_eq_false (hnone w (by omega)).2
      rw [Nat.add_right_comm] at hcyc
      have hagain : Arbiter.Requests (run.toArbiter.request (t₀ + 1 + s + w + 1)) i :=
        requests_wbmCyc.mpr hcyc
      obtain ⟨htok', hact, hselect⟩ := run.toArbiter.select_succ htok hreq'
        (hquiet _ (by omega)) hagain
      exact ⟨htok', hagain, hact, hselect⟩
  obtain ⟨-, -, hactive, hselect⟩ := hsel 0 (Nat.zero_le _)
  have hcyc := Bool.of_not_eq_false (hnone 0 (Nat.zero_le _)).2
  have hseen := toSlave_of_select hactive hselect
  obtain ⟨w, hw, hack⟩ := hanswers (t₀ + 1 + s + 1) (by omega) (by rw [hseen]; exact hcyc)
    (by rw [hseen]; exact hstb.stb _ (by omega) _ hcyc)
  obtain ⟨-, -, hactive', hselect'⟩ := hsel w hw
  rw [Nat.add_right_comm] at hactive' hselect'
  exact (hnone w hw).1 (toMaster_ack.mpr ⟨hack, hactive', hselect'⟩)

/-- A master keeps asking for the same until it is acknowledged. -/
theorem Masters.kept (h : run.Masters t₀) (ht : t₀ < t) {i : Fin n}
    (hcyc : (run.masters t i).cyc = true) {v : ℕ} (hv : t ≤ v)
    (hno : ∀ u, t ≤ u → u < v → (run.toMaster u i).ack = false) :
    run.masters v i = run.masters t i := by
  induction v, hv using Nat.le_induction with
  | base => rfl
  | succ v hv ih =>
    have hsame := ih fun u htu huv => hno u htu (by omega)
    have hcyc' : (run.masters v i).cyc = true := by
      rw [hsame]
      exact hcyc
    rw [h.holds v (by omega) i hcyc' (hno v hv v.lt_succ_self), hsame]

/-- With a slave that answers within `wait` cycles, every request of every master is acknowledged
within `(n - 1) * (wait + 3) + 1 + wait` cycles, whatever the other masters ask for. -/
theorem exists_ack [NeZero n] {wait : ℕ} (hrst : run.rst t₀ = true)
    (hquiet : ∀ t, t₀ < t → run.rst t = false) (hmasters : run.Masters t₀)
    (hanswers : run.Answers t₀ wait) (ht : t₀ < t) {i : Fin n}
    (hcyc : (run.masters t i).cyc = true) :
    ∃ k ≤ (n - 1) * (wait + 3) + 1 + wait, (run.toMaster (t + k) i).ack = true := by
  by_contra hnone
  push Not at hnone
  -- a master that is acknowledged lets go, which bounds every grant
  have hrelease : ∀ v, t₀ + 1 < v → ∀ j : Fin n, j ≠ i →
      (run.arbiter v).grant.getLsbD j = true →
      ∃ u < wait + 2, (run.toArbiter.request (v + u)).getLsbD j = false := by
    intro v hv j _ hgrant
    obtain ⟨w, hw, hor⟩ := exists_ack_of_grant hrst hquiet hmasters hanswers hv hgrant
    rcases hor with hack | hgone
    · have hgone := hmasters.releases _ (by omega) j hack
      exact ⟨w + 1, by omega, (getLsbD_request _ j).trans hgone⟩
    · exact ⟨w, by omega, (getLsbD_request _ j).trans hgone⟩
  -- none is acknowledged before it is granted
  have hasks : ∀ v, t ≤ v → (∀ u, t ≤ u → u < v → (run.arbiter (u + 1)).grant.getLsbD i = false) →
      (run.toArbiter.request v).getLsbD i = true := by
    intro v hv hno
    rw [getLsbD_request, hmasters.kept ht hcyc hv ?_, hcyc]
    intro u hu huv
    rw [← Bool.not_eq_true]
    intro hack
    rcases Nat.eq_or_lt_of_le hu with rfl | hlt
    · exact hnone 0 (Nat.zero_le _) hack
    · obtain ⟨s, rfl⟩ := Nat.exists_eq_add_of_lt hlt
      have hgrant := grant_of_ack hrst (by omega) hack
      exact absurd hgrant (by rw [hno _ (by omega) (by omega)]; exact Bool.false_ne_true)
  obtain ⟨k, hk, hgrant⟩ := run.toArbiter.exists_grant hrst hquiet ht i hrelease hasks
  obtain ⟨w, hw, hor⟩ :=
    exists_ack_of_grant hrst hquiet hmasters hanswers (t := t + k + 1) (by omega) hgrant
  have hk' : k ≤ (n - 1) * (wait + 3) := hk
  have hle : k + 1 + w ≤ (n - 1) * (wait + 3) + 1 + wait := by omega
  have hplace : t + k + 1 + w = t + (k + 1 + w) := by omega
  rw [hplace] at hor
  -- it cannot have given up without an acknowledge
  rcases hor with hack | hgone
  · exact hnone _ hle hack
  · rw [hmasters.kept ht hcyc (by omega) ?_, hcyc] at hgone
    · exact absurd hgone (by decide)
    · intro u hu huv
      obtain ⟨s, rfl⟩ := Nat.exists_eq_add_of_le hu
      exact Bool.eq_false_of_not_eq_true (hnone s (by omega))

/-- A slave behind the arbiter serves every master: an acknowledge goes to one master only, for a
request that the slave has seen and that the master stands by, and every request gets one in a
bounded time. -/
theorem serves [NeZero n] {wait : ℕ} (hrst : run.rst t₀ = true)
    (hquiet : ∀ t, t₀ < t → run.rst t = false) (hslave : run.Registered)
    (hanswers : run.Answers t₀ wait) (hmasters : run.Masters t₀) (i : Fin n) :
    (∀ t, t₀ + 1 < t → (run.toMaster (t + 1) i).ack = true →
        (run.masters t i).cyc = true ∧ run.toSlave t = run.masters t i ∧
        run.masters (t + 1) i = run.masters t i ∧
        ∀ j, (run.toMaster (t + 1) j).ack = true → j = i) ∧
      ∀ t, t₀ < t → (run.masters t i).cyc = true →
        ∃ k ≤ (n - 1) * (wait + 3) + 1 + wait, (run.toMaster (t + k) i).ack = true := by
  constructor
  · intro t ht hack
    obtain ⟨hseen, -, hheld, hcyc, -, honly⟩ :=
      ack_owner hrst hquiet hslave hmasters.holds ht hack
    exact ⟨hcyc, hseen, hheld, honly⟩
  · intro t ht hcyc
    exact exists_ack hrst hquiet hmasters hanswers ht hcyc

end Run

end WbArbiter

end RvPipelineCore

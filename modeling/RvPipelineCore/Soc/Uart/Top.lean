import RvPipelineCore.Lib.Temporal
import RvPipelineCore.Soc.Uart.Config

/-!
# The UART on its bus

`uart_wb` and `uart_top` of `rtl/soc/uart`. The bus interface samples the requests and answers by a
state machine of four states; the registers see each request in one cycle only.

- `UartTop.Run.served_eq`: what the master sees is what is done to the registers, once and in order;
- `UartTop.Run.exists_ack`: every request is acknowledged;
- `UartTop.Run.script_holds`: a master that makes one access after the other, each for as long as it
  takes, keeps its requests.
-/

namespace RvPipelineCore

/-- The registers of `uart_wb`: the acknowledge, the state of its machine, the sampled request and
the value read. -/
structure UartWb where
  wbAckO : Bool
  wbstate : BitVec 2
  wre : Bool
  wbAdrIs : BitVec 3
  wbWeIs : Bool
  wbCycIs : Bool
  wbStbIs : Bool
  wbDatIs : BitVec 8
  wbDatO : BitVec 8
  deriving Inhabited

namespace UartWb

/-- A request of a Wishbone master to the UART, by the register address. -/
structure Req where
  adr : BitVec 3
  dat : BitVec 8
  we : Bool
  cyc : Bool
  stb : Bool
  deriving DecidableEq

variable (s : UartWb)

/-- `wb_rst_i`, which resets the interface: it waits, and has sampled no request. -/
def reset : UartWb := ⟨false, 0, true, 0, false, false, false, 0, 0⟩

/-- `we_o`: the registers are written in this cycle, by the sampled request. -/
def weO : Bool := s.wbWeIs && s.wbStbIs && s.wbCycIs && s.wre

/-- `re_o`: the registers are read in this cycle, by the sampled request. -/
def reO : Bool := !s.wbWeIs && s.wbStbIs && s.wbCycIs && s.wre

/-- `wb_ack_o`, `wbstate` and `wre` after a clock edge: a sampled request is acknowledged, and the
machine then takes three cycles to be ready again. -/
def fsm : Bool × BitVec 2 × Bool :=
  match s.wbstate with
  | 0 => if s.wbStbIs && s.wbCycIs then (true, 1, false) else (false, s.wbstate, true)
  | 1 => (false, 2, false)
  | 2 => (false, 3, false)
  | _ => (false, 0, true)

/-- One clock edge of `uart_wb`: the machine goes on, and the request and the value read are
sampled. -/
def next (r : Req) (wbDat8O : BitVec 8) : UartWb where
  wbAckO := s.fsm.1
  wbstate := s.fsm.2.1
  wre := s.fsm.2.2
  wbAdrIs := r.adr
  wbWeIs := r.we
  wbCycIs := r.cyc
  wbStbIs := r.stb
  wbDatIs := r.dat
  wbDatO := wbDat8O

variable {s}

/-- The machine is in one of four states. -/
theorem state_cases (v : BitVec 2) : v = 0 ∨ v = 1 ∨ v = 2 ∨ v = 3 := by
  revert v
  decide

/-- In its first state the machine acknowledges a sampled request, and waits otherwise. -/
theorem fsm_zero (h : s.wbstate = 0) :
    s.fsm = if s.wbStbIs && s.wbCycIs then (true, 1, false) else (false, 0, true) := by
  simp only [fsm, h]
  rfl

/-- In the other states the sampled request does not matter. -/
theorem fsm_of_ne (h : s.wbstate ≠ 0) :
    s.fsm = (false, s.wbstate + 1, decide (s.wbstate + 1 = 0)) := by
  rcases state_cases s.wbstate with hs | hs | hs | hs
  · exact absurd hs h
  all_goals simp only [fsm, hs]; rfl

end UartWb

/-- The registers of `uart_top`: those of the bus interface and those of the UART itself. -/
structure UartTop where
  wb : UartWb
  regs : UartRegs
  deriving Inhabited

namespace UartTop

/-- The inputs of `uart_top` in one cycle: the request of the bus, the modem lines and the level of
the receiving line. -/
structure In where
  req : UartWb.Req
  modemInputs : BitVec 4
  srxPadI : Bool

variable (s : UartTop) (i : In)

/-- `wb_rst_i`, which resets the bus interface and the registers. -/
def reset : UartTop := ⟨UartWb.reset, s.regs.reset⟩

/-- What `uart_regs` gets from the bus interface and the lines. -/
def regsIn : UartRegs.In :=
  ⟨s.wb.wbAdrIs, s.wb.wbDatIs, s.wb.weO, s.wb.reO, i.modemInputs, i.srxPadI⟩

/-- One clock edge of `uart_top`, in which the interface samples what the registers put out. -/
def next : UartTop where
  wb := s.wb.next i.req (s.regs.wbDatO (s.regsIn i))
  regs := s.regs.next (s.regsIn i)

/-- The states of the UART after a reset, for given inputs. -/
def states (s : UartTop) (inp : ℕ → In) : ℕ → UartTop
  | 0 => s.reset
  | t + 1 => (states s inp t).next (inp t)

/-- Inputs that agree up to a cycle lead to the same state in it. -/
theorem states_congr (s : UartTop) {inp inp' : ℕ → In} {t : ℕ} (h : ∀ u < t, inp u = inp' u) :
    states s inp t = states s inp' t := by
  induction t with
  | zero => rfl
  | succ t ih => rw [states, states, ih fun u hu => h u (by omega), h t (by omega)]

/-- A run of the UART after a reset, with any requests and any levels of the lines. -/
structure Run where
  state : ℕ → UartTop
  inp : ℕ → In
  start : ∃ s : UartTop, state 0 = s.reset
  succ : ∀ t, state (t + 1) = (state t).next (inp t)

namespace Run

/-- The run of the UART after a reset, with given inputs. -/
def ofInputs (s : UartTop) (inp : ℕ → In) : Run := ⟨states s inp, inp, ⟨s, rfl⟩, fun _ => rfl⟩

variable (run : Run) {t : ℕ}

/-- The registers in a run of the UART, as a run of their own. -/
def regs : UartRegs.Run where
  state t := (run.state t).regs
  inp t := (run.state t).regsIn (run.inp t)
  start := by
    obtain ⟨s, hs⟩ := run.start
    exact ⟨s.regs, by rw [hs]; rfl⟩
  succ t := by
    rw [run.succ]
    rfl

/-- The master asks for a transfer in this cycle, with `cyc` and the strobe. -/
def Asks (t : ℕ) : Prop := (run.inp t).req.cyc = true ∧ (run.inp t).req.stb = true

/-- The master keeps a request as it is until it is acknowledged. -/
def Holds : Prop :=
  ∀ t, run.Asks t → (run.state t).wb.wbAckO = false → (run.inp (t + 1)).req = (run.inp t).req

/-- The access that is acknowledged in a cycle, as the master sees it. -/
def answered (t : ℕ) : List UartAccess :=
  if (run.state t).wb.wbAckO then
    if (run.inp t).req.we then [.write (run.inp t).req.adr (run.inp t).req.dat]
    else [.read (run.inp t).req.adr (run.state t).wb.wbDatO]
  else []

/-- The accesses that have been acknowledged before cycle `t`, in order. -/
def served : ℕ → List UartAccess
  | 0 => []
  | t + 1 => served t ++ run.answered t

/-- The state of the bus interface between two cycles, as an invariant: its outputs follow its
state, and what it has sampled has been asked for. -/
structure Phase (t : ℕ) : Prop where
  wre : (run.state t).wb.wre = decide ((run.state t).wb.wbstate = 0)
  ack : (run.state t).wb.wbAckO = decide ((run.state t).wb.wbstate = 1)
  /-- In its first state, what is sampled has been asked for and waits. -/
  sampled : (run.state t).wb.wbstate = 0 → (run.state t).wb.wbCycIs = true →
    (run.state t).wb.wbStbIs = true → run.Asks t ∧
      (run.inp t).req.adr = (run.state t).wb.wbAdrIs ∧
      (run.inp t).req.dat = (run.state t).wb.wbDatIs ∧ (run.inp t).req.we = (run.state t).wb.wbWeIs

variable {run}

/-- The next bus interface of a run, from the request of the cycle and the value that the registers
put out. -/
theorem wb_succ (t : ℕ) : (run.state (t + 1)).wb = (run.state t).wb.next (run.inp t).req
    ((run.state t).regs.wbDatO ((run.state t).regsIn (run.inp t))) := by
  rw [run.succ]
  rfl

/-- A request that is sampled while nothing is acknowledged still waits. -/
theorem sampled_succ (h : run.Holds) (hphase : run.Phase t) (hne : (run.state t).wb.wbstate ≠ 1)
    (hcyc : (run.state (t + 1)).wb.wbCycIs = true) (hstb : (run.state (t + 1)).wb.wbStbIs = true) :
    run.Asks (t + 1) ∧ (run.inp (t + 1)).req.adr = (run.state (t + 1)).wb.wbAdrIs ∧
      (run.inp (t + 1)).req.dat = (run.state (t + 1)).wb.wbDatIs ∧
      (run.inp (t + 1)).req.we = (run.state (t + 1)).wb.wbWeIs := by
  rw [wb_succ] at hcyc hstb ⊢
  have hack : (run.state t).wb.wbAckO = false := by
    rw [hphase.ack]
    exact decide_eq_false hne
  have hsame := h t ⟨hcyc, hstb⟩ hack
  rw [Asks, hsame]
  exact ⟨⟨hcyc, hstb⟩, rfl, rfl, rfl⟩

/-- In every cycle of a run with a master that holds its requests, the invariant of the interface is
true. -/
theorem phase (h : run.Holds) (t : ℕ) : run.Phase t := by
  induction t with
  | zero =>
    obtain ⟨s, hs⟩ := run.start
    refine ⟨by rw [hs]; rfl, by rw [hs]; rfl, fun _ hcyc => ?_⟩
    rw [hs] at hcyc
    exact absurd hcyc Bool.false_ne_true
  | succ t ih =>
    have hstate : (run.state (t + 1)).wb.wbstate = (run.state t).wb.fsm.2.1 := by rw [wb_succ]; rfl
    have hack : (run.state (t + 1)).wb.wbAckO = (run.state t).wb.fsm.1 := by rw [wb_succ]; rfl
    have hwre : (run.state (t + 1)).wb.wre = (run.state t).wb.fsm.2.2 := by rw [wb_succ]; rfl
    -- the first state takes a request, and the others count on to it
    by_cases hzero : (run.state t).wb.wbstate = 0
    · rw [UartWb.fsm_zero hzero] at hstate hack hwre
      refine ⟨?_, ?_, fun hnext hcyc hstb => ?_⟩
      · rw [hstate, hwre]
        split_ifs <;> rfl
      · rw [hstate, hack]
        split_ifs <;> rfl
      · exact sampled_succ h ih (by rw [hzero]; decide) hcyc hstb
    · rw [UartWb.fsm_of_ne hzero] at hstate hack hwre
      refine ⟨by rw [hstate, hwre], ?_, fun hnext hcyc hstb => ?_⟩
      · rw [hstate, hack, eq_comm, decide_eq_false_iff_not]
        exact fun hone => hzero (by simpa using hone)
      · refine sampled_succ h ih (fun hone => ?_) hcyc hstb
        rw [hstate, hone] at hnext
        exact absurd hnext (by decide)

/-- An access is acknowledged one cycle after it is made. -/
theorem answered_succ (h : run.Holds) (t : ℕ) :
    run.answered (t + 1) = (run.regs.state t).accesses (run.regs.inp t) := by
  have hphase := phase h t
  have hack : (run.state (t + 1)).wb.wbAckO = (run.state t).wb.fsm.1 := by rw [wb_succ]; rfl
  have hwe : (run.regs.inp t).wbWeI = (run.state t).wb.weO := rfl
  have hre : (run.regs.inp t).wbReI = (run.state t).wb.reO := rfl
  rw [answered, hack, UartRegs.accesses, hwe, hre, UartWb.weO, UartWb.reO, hphase.wre]
  -- only the first state makes an access
  by_cases hzero : (run.state t).wb.wbstate = 0
  · rw [UartWb.fsm_zero hzero, decide_eq_true hzero]
    cases hstb : (run.state t).wb.wbStbIs with
    | false => simp
    | true =>
      cases hcyc : (run.state t).wb.wbCycIs with
      | false => simp
      | true =>
        obtain ⟨hasks, hadr, hdat, hreq⟩ := hphase.sampled hzero hcyc hstb
        have hnone : (run.state t).wb.wbAckO = false := by
          rw [hphase.ack, hzero]
          rfl
        have hread : (run.state (t + 1)).wb.wbDatO =
            (run.regs.state t).wbDatO (run.regs.inp t) := by
          rw [wb_succ]
          rfl
        rw [h t hasks hnone, hadr, hdat, hreq, hread]
        cases (run.state t).wb.wbWeIs <;> rfl
  · rw [UartWb.fsm_of_ne hzero, decide_eq_false hzero]
    simp

/-- An acknowledge finds the request that it is for still up. -/
theorem asks_of_ack (h : run.Holds) (hack : (run.state t).wb.wbAckO = true) : run.Asks t := by
  cases t with
  | zero =>
    obtain ⟨s, hs⟩ := run.start
    rw [hs] at hack
    exact absurd hack Bool.false_ne_true
  | succ t =>
    have hphase := phase h t
    have hfsm : (run.state (t + 1)).wb.wbAckO = (run.state t).wb.fsm.1 := by rw [wb_succ]; rfl
    rw [hfsm] at hack
    by_cases hzero : (run.state t).wb.wbstate = 0
    · -- what is acknowledged has been sampled in the first state
      have hsampled : ((run.state t).wb.wbStbIs && (run.state t).wb.wbCycIs) = true := by
        rw [UartWb.fsm_zero hzero] at hack
        by_contra hno
        rw [if_neg hno] at hack
        exact absurd hack Bool.false_ne_true
      rw [Bool.and_eq_true] at hsampled
      obtain ⟨hasks, -⟩ := hphase.sampled hzero hsampled.2 hsampled.1
      have hnone : (run.state t).wb.wbAckO = false := by
        rw [hphase.ack, hzero]
        rfl
      rw [Asks, h t hasks hnone]
      exact hasks
    · rw [UartWb.fsm_of_ne hzero] at hack
      exact absurd hack Bool.false_ne_true

/-- What the master sees is what is done to the registers. -/
theorem served_eq (h : run.Holds) (t : ℕ) : run.served (t + 1) = run.regs.made t := by
  induction t with
  | zero =>
    obtain ⟨s, hs⟩ := run.start
    rw [served, served, answered, hs]
    rfl
  | succ t ih => rw [served, ih, answered_succ h, UartRegs.Run.made]

/-- The data of a write are there for another cycle. -/
theorem regs_holds (h : run.Holds) : run.regs.Holds := by
  intro t hwe
  have hphase := phase h t
  have hweO : (run.state t).wb.weO = true := hwe
  rw [UartWb.weO, Bool.and_eq_true, Bool.and_eq_true, Bool.and_eq_true, hphase.wre,
    decide_eq_true_iff] at hweO
  obtain ⟨⟨⟨-, hstb⟩, hcyc⟩, hzero⟩ := hweO
  have hnext : (run.regs.inp (t + 1)).wbDatI = (run.inp t).req.dat := by
    change (run.state (t + 1)).wb.wbDatIs = _
    rw [wb_succ]
    rfl
  rw [hnext]
  exact (hphase.sampled hzero hcyc hstb).2.2.1

/-- Outside its first state the machine goes on to the next state in every cycle. -/
theorem wbstate_succ (hne : (run.state t).wb.wbstate ≠ 0) :
    (run.state (t + 1)).wb.wbstate = (run.state t).wb.wbstate + 1 := by
  have hstate : (run.state (t + 1)).wb.wbstate = (run.state t).wb.fsm.2.1 := by rw [wb_succ]; rfl
  rw [hstate, UartWb.fsm_of_ne hne]

/-- What is not acknowledged is asked for again, and sampled. -/
theorem asks_succ (h : run.Holds) (hasks : run.Asks t) (hne : (run.state t).wb.wbstate ≠ 1) :
    run.Asks (t + 1) ∧ (run.state (t + 1)).wb.wbCycIs = true ∧
      (run.state (t + 1)).wb.wbStbIs = true := by
  have hcyc : (run.state (t + 1)).wb.wbCycIs = true := by rw [wb_succ]; exact hasks.1
  have hstb : (run.state (t + 1)).wb.wbStbIs = true := by rw [wb_succ]; exact hasks.2
  exact ⟨(sampled_succ h (phase h t) hne hcyc hstb).1, hcyc, hstb⟩

/-- A sampled request is acknowledged in the next cycle, if the machine is in its first state. -/
theorem ack_of_sampled (hzero : (run.state t).wb.wbstate = 0)
    (hsampled : (run.state t).wb.wbCycIs = true ∧ (run.state t).wb.wbStbIs = true) :
    (run.state (t + 1)).wb.wbAckO = true := by
  have hack : (run.state (t + 1)).wb.wbAckO = (run.state t).wb.fsm.1 := by rw [wb_succ]; rfl
  rw [hack, UartWb.fsm_zero hzero, hsampled.1, hsampled.2]
  rfl

/-- In its first state the interface answers within two cycles. -/
theorem ack_of_zero (h : run.Holds) (hasks : run.Asks t) (hzero : (run.state t).wb.wbstate = 0) :
    ∃ k ≤ 2, (run.state (t + k)).wb.wbAckO = true := by
  by_cases hsampled : (run.state t).wb.wbCycIs = true ∧ (run.state t).wb.wbStbIs = true
  · exact ⟨1, by decide, ack_of_sampled hzero hsampled⟩
  · have hstate : (run.state (t + 1)).wb.wbstate = (run.state t).wb.fsm.2.1 := by
      rw [wb_succ]
      rfl
    have hidle : ((run.state t).wb.wbStbIs && (run.state t).wb.wbCycIs) = false := by
      rw [← Bool.not_eq_true, Bool.and_eq_true]
      exact fun hboth => hsampled hboth.symm
    rw [UartWb.fsm_zero hzero, hidle] at hstate
    have hnext := asks_succ h hasks (by rw [hzero]; decide)
    exact ⟨2, le_rfl, ack_of_sampled hstate hnext.2⟩

/-- A request is acknowledged at once or within three cycles. -/
theorem exists_ack (h : run.Holds) (hasks : run.Asks t) :
    ∃ k ≤ 3, (run.state (t + k)).wb.wbAckO = true := by
  -- by the state of the machine: ready, acknowledging, or one or two cycles before it is ready
  -- again
  rcases UartWb.state_cases (run.state t).wb.wbstate with hs | hs | hs | hs
  · obtain ⟨k, hk, hack⟩ := ack_of_zero h hasks hs
    exact ⟨k, by omega, hack⟩
  · exact ⟨0, by decide, (phase h t).ack.trans (decide_eq_true hs)⟩
  · have hne : (run.state t).wb.wbstate ≠ 1 := by rw [hs]; decide
    have hthree : (run.state (t + 1)).wb.wbstate = 3 := by
      rw [wbstate_succ (by rw [hs]; decide), hs]
      rfl
    have hzero : (run.state (t + 2)).wb.wbstate = 0 := by
      rw [wbstate_succ (by rw [hthree]; decide), hthree]
      rfl
    have hasks' := asks_succ h hasks hne
    exact ⟨3, le_rfl, ack_of_sampled hzero (asks_succ h hasks'.1 (by rw [hthree]; decide)).2⟩
  · have hne : (run.state t).wb.wbstate ≠ 1 := by rw [hs]; decide
    have hzero : (run.state (t + 1)).wb.wbstate = 0 := by
      rw [wbstate_succ (by rw [hs]; decide), hs]
      rfl
    exact ⟨2, by decide, ack_of_sampled hzero (asks_succ h hasks hne).2⟩

/-! ## Masters that make given accesses -/

/-- What a master drives on the bus for an access. -/
def request : UartAccess → UartWb.Req
  | .read addr _ => ⟨addr, 0, false, true, true⟩
  | .write addr dat => ⟨addr, dat, true, true, true⟩

/-- The request of a master that makes the access `slots k`, if any, in cycles `6 * k` to
`6 * k + 5`. The request is up for the first three of them. -/
def slotReq (slots : ℕ → Option UartAccess) (t : ℕ) : UartWb.Req :=
  ((if t % 6 < 3 then (slots (t / 6)).map request else none)).getD ⟨0, 0, false, false, false⟩

/-- The run with these requests, on a line that stays. -/
def script (srx : Bool) (slots : ℕ → Option UartAccess) : Run :=
  .ofInputs default fun t => ⟨slotReq slots t, 0, srx⟩

/-- The registers of the bus interface that its next acknowledge and state depend on: the
acknowledge, the state, `wre`, and whether a request has been sampled. -/
def wbPhase (w : UartWb) : Bool × BitVec 2 × Bool × Bool :=
  (w.wbAckO, w.wbstate, w.wre, w.wbStbIs && w.wbCycIs)

/-- These registers after a clock edge, in whose cycle a request is up or not. -/
def phaseNext (p : Bool × BitVec 2 × Bool × Bool) (asks : Bool) : Bool × BitVec 2 × Bool × Bool :=
  match p.2.1 with
  | 0 => (p.2.2.2, if p.2.2.2 then 1 else 0, !p.2.2.2, asks)
  | 1 => (false, 2, false, asks)
  | 2 => (false, 3, false, asks)
  | _ => (false, 0, true, asks)

/-- These registers in cycle `j` of a slot in which an access is made. In cycle 0 they are as in a
slot without an access. -/
def slotPhase : ℕ → Bool × BitVec 2 × Bool × Bool
  | 1 => (false, 0, true, true)
  | 2 => (true, 1, false, true)
  | 3 => (false, 2, false, true)
  | 4 => (false, 3, false, false)
  | _ => (false, 0, true, false)

/-- The access as it is made, if the registers put out `dat`. -/
def answer (dat : BitVec 8) : UartAccess → UartAccess
  | .read addr _ => .read addr dat
  | .write addr dat' => .write addr dat'

section Script

variable {srx : Bool} {slots slots' : ℕ → Option UartAccess} {a : UartAccess} {k m : ℕ}

/-- In a slot without an access, and in the last three cycles of any slot, no request is up. -/
theorem slotReq_eq_idle (h : t % 6 < 3 → slots (t / 6) = none) :
    slotReq slots t = ⟨0, 0, false, false, false⟩ := by
  rw [slotReq]
  split_ifs with hlt
  · rw [h hlt]
    rfl
  · rfl

/-- In the first three cycles of a slot the request for its access is up. -/
theorem slotReq_eq_request (hlt : t % 6 < 3) (h : slots (t / 6) = some a) :
    slotReq slots t = request a := by
  rw [slotReq, if_pos hlt, h]
  rfl

/-- The request for an access is up with `cyc` and the strobe. -/
theorem request_strobes (a : UartAccess) : (request a).stb = true ∧ (request a).cyc = true := by
  cases a <;> exact ⟨rfl, rfl⟩

/-- The strobes of the master are up in the first three cycles of the slots with an access. -/
theorem slotReq_strobes (t : ℕ) : ((slotReq slots t).stb && (slotReq slots t).cyc) =
    (decide (t % 6 < 3) && (slots (t / 6)).isSome) := by
  cases hslot : slots (t / 6) with
  | none =>
    rw [slotReq_eq_idle fun _ => hslot, Option.isSome_none, Bool.and_false, Bool.and_false]
  | some a =>
    by_cases hlt : t % 6 < 3
    · rw [slotReq_eq_request hlt hslot, (request_strobes a).1, (request_strobes a).2,
        decide_eq_true hlt]
      rfl
    · rw [slotReq_eq_idle fun h => absurd h hlt, decide_eq_false hlt]
      rfl

/-- The acknowledge and the state of the interface go on as `phaseNext` says. -/
theorem wbPhase_next (w : UartWb) (r : UartWb.Req) (dat : BitVec 8) :
    wbPhase (w.next r dat) = phaseNext (wbPhase w) (r.stb && r.cyc) := by
  by_cases hzero : w.wbstate = 0
  · rw [wbPhase, UartWb.next, UartWb.fsm_zero hzero, phaseNext, wbPhase, hzero]
    cases w.wbStbIs && w.wbCycIs <;> rfl
  · rw [wbPhase, UartWb.next, UartWb.fsm_of_ne hzero, phaseNext, wbPhase]
    rcases UartWb.state_cases w.wbstate with hs | hs | hs | hs
    · exact absurd hs hzero
    all_goals rw [hs]; rfl

/-- Within a slot the interface goes from each phase to the next one. -/
theorem phaseNext_slotPhase (some : Bool) : ∀ j < 5,
    phaseNext (slotPhase (if some then j else 0)) (decide (j < 3) && some) =
      slotPhase (if some then j + 1 else 0) := by
  cases some <;> decide

/-- After the last phase of a slot the interface is ready for the next one. -/
theorem phaseNext_last (some : Bool) :
    phaseNext (slotPhase (if some then 5 else 0)) false = slotPhase 0 := by
  cases some <;> rfl

/-- In every cycle of a script the interface is in the phase of its slot. -/
theorem script_phase (t : ℕ) : wbPhase ((script srx slots).state t).wb =
    slotPhase (if (slots (t / 6)).isSome then t % 6 else 0) := by
  induction t with
  | zero =>
    rw [Nat.zero_mod, ite_self]
    rfl
  | succ t ih =>
    rw [wb_succ, wbPhase_next, ih]
    -- whether the master asks depends on the slot and on the cycle within it
    change phaseNext _ ((slotReq slots t).stb && (slotReq slots t).cyc) = _
    rw [slotReq_strobes]
    rcases Nat.lt_or_ge (t % 6) 5 with hlt | hge
    · have hmod : (t + 1) % 6 = t % 6 + 1 := by omega
      have hdiv : (t + 1) / 6 = t / 6 := by omega
      rw [hmod, hdiv]
      exact phaseNext_slotPhase _ _ hlt
    · have hfive : t % 6 = 5 := by omega
      have hmod : (t + 1) % 6 = 0 := by omega
      rw [hfive, hmod, ite_self]
      exact phaseNext_last _

/-- The master of a script holds its requests until they are acknowledged. -/
theorem script_holds : (script srx slots).Holds := by
  intro t hasks hack
  change slotReq slots (t + 1) = slotReq slots t
  have hasks' : ((slotReq slots t).stb && (slotReq slots t).cyc) = true := by
    rw [Bool.and_eq_true]
    exact hasks.symm
  rw [slotReq_strobes, Bool.and_eq_true, decide_eq_true_iff, Option.isSome_iff_exists] at hasks'
  obtain ⟨hlt, a, ha⟩ := hasks'
  -- the acknowledge comes in the last cycle of the request
  have hne : t % 6 ≠ 2 := by
    intro htwo
    have hphase : wbPhase ((script srx slots).state t).wb = slotPhase 2 := by
      rw [script_phase, ha, htwo]
      rfl
    exact absurd (hack.symm.trans (congrArg Prod.fst hphase)) Bool.false_ne_true
  have hdiv : (t + 1) / 6 = t / 6 := by omega
  rw [slotReq_eq_request hlt ha, slotReq_eq_request (by omega) (hdiv ▸ ha)]

/-- The registers are accessed in the second cycle of a slot only. -/
theorem slotPhase_idle : ∀ {j : ℕ}, j ≠ 1 →
    ((slotPhase j).2.2.2 && (slotPhase j).2.2.1) = false
  | 0, _ | 2, _ | 3, _ | 4, _ | _ + 5, _ => rfl

/-- Scripts that agree up to a slot are in the same state when it begins. -/
theorem script_congr (h : ∀ j < k, slots j = slots' j) (ht : t ≤ 6 * k) :
    (script srx slots).state t = (script srx slots').state t := by
  refine states_congr _ fun u hu => ?_
  have hslot := h (u / 6) (by omega)
  rw [slotReq, slotReq, hslot]

/-- Up to the cycle in which it begins the registers get the same inputs. -/
theorem script_regsIn_congr (h : ∀ j < k, slots j = slots' j) (ht : t ≤ 6 * k) :
    (script srx slots).regs.inp t = (script srx slots').regs.inp t := by
  change UartTop.regsIn _ _ = UartTop.regsIn _ _
  rw [script_congr h ht]
  rfl

/-- Up to the cycle after it the registers are the same. -/
theorem script_regs_congr (h : ∀ j < k, slots j = slots' j) (ht : t ≤ 6 * k + 1) :
    (script srx slots).regs.state t = (script srx slots').regs.state t := by
  cases t with
  | zero => rfl
  | succ t =>
    have hreg : (script srx slots).regs.state t = (script srx slots').regs.state t :=
      congrArg UartTop.regs (script_congr h (by omega))
    rw [UartRegs.Run.succ, UartRegs.Run.succ, script_regsIn_congr h (by omega), hreg]

/-- Up to the cycle in which it begins the same accesses are made. -/
theorem script_made_congr (h : ∀ j < k, slots j = slots' j) (ht : t ≤ 6 * k) :
    (script srx slots).regs.made t = (script srx slots').regs.made t := by
  induction t with
  | zero => rfl
  | succ t ih =>
    rw [UartRegs.Run.made, UartRegs.Run.made, ih (by omega), script_regs_congr h (by omega),
      script_regsIn_congr h (by omega)]

/-- In a slot without an access, and in all cycles of a slot but the second one, the registers are
not accessed. -/
theorem script_accesses_eq_nil (h : t % 6 = 1 → slots (t / 6) = none) :
    ((script srx slots).regs.state t).accesses ((script srx slots).regs.inp t) = [] := by
  set w := ((script srx slots).state t).wb
  have hphase : wbPhase w = slotPhase (if (slots (t / 6)).isSome then t % 6 else 0) :=
    script_phase t
  -- without an access the phase is that of cycle 0, and the others do not take a request
  have hne : (if (slots (t / 6)).isSome then t % 6 else 0) ≠ 1 := by
    split_ifs with hsome
    · intro hone
      rw [h hone] at hsome
      exact absurd hsome Bool.false_ne_true
    · decide
  have hidle : (w.wbStbIs && w.wbCycIs && w.wre) = false := by
    have hpair := slotPhase_idle hne
    rw [← hphase] at hpair
    exact hpair
  have hwe : ((script srx slots).regs.inp t).wbWeI = false := by
    change (w.wbWeIs && w.wbStbIs && w.wbCycIs && w.wre) = false
    rw [Bool.and_assoc w.wbWeIs, Bool.and_assoc w.wbWeIs, hidle, Bool.and_false]
  have hre : ((script srx slots).regs.inp t).wbReI = false := by
    change (!w.wbWeIs && w.wbStbIs && w.wbCycIs && w.wre) = false
    rw [Bool.and_assoc (!w.wbWeIs), Bool.and_assoc (!w.wbWeIs), hidle, Bool.and_false]
  rw [UartRegs.accesses, hwe, hre]
  rfl

/-- In the second cycle of a slot its access is made. -/
theorem script_accesses_slot (h : slots k = some a) :
    ((script srx slots).regs.state (6 * k + 1)).accesses
        ((script srx slots).regs.inp (6 * k + 1)) =
      [answer (((script srx slots).regs.state (6 * k + 1)).wbDatO
        ((script srx slots).regs.inp (6 * k + 1))) a] := by
  have hdiv : (6 * k + 1) / 6 = k := by omega
  have hmod : (6 * k + 1) % 6 = 1 := by omega
  have hphase : wbPhase ((script srx slots).state (6 * k + 1)).wb = slotPhase 1 := by
    rw [script_phase, hdiv, hmod, h]
    rfl
  have hwre : ((script srx slots).state (6 * k + 1)).wb.wre = true :=
    congrArg (fun p => p.2.2.1) hphase
  -- the request of the first cycle has been sampled
  have hreq : ((script srx slots).inp (6 * k)).req = request a := by
    refine slotReq_eq_request (by omega) ?_
    rw [Nat.mul_div_cancel_left k (by decide)]
    exact h
  have hwe : ((script srx slots).regs.inp (6 * k + 1)).wbWeI = (request a).we := by
    change ((script srx slots).state (6 * k + 1)).wb.weO = _
    rw [UartWb.weO, hwre, wb_succ, hreq]
    cases a <;> rfl
  have hre : ((script srx slots).regs.inp (6 * k + 1)).wbReI = !(request a).we := by
    change ((script srx slots).state (6 * k + 1)).wb.reO = _
    rw [UartWb.reO, hwre, wb_succ, hreq]
    cases a <;> rfl
  have hadr : ((script srx slots).regs.inp (6 * k + 1)).wbAddrI = (request a).adr := by
    change ((script srx slots).state (6 * k + 1)).wb.wbAdrIs = _
    rw [wb_succ, hreq]
    rfl
  have hdat : ((script srx slots).regs.inp (6 * k + 1)).wbDatI = (request a).dat := by
    change ((script srx slots).state (6 * k + 1)).wb.wbDatIs = _
    rw [wb_succ, hreq]
    rfl
  rw [UartRegs.accesses, hwe, hre, hadr, hdat]
  cases a <;> rfl

/-- A slot adds its access to those that have been made. -/
theorem script_made_succ (k : ℕ) : (script srx slots).regs.made (6 * (k + 1)) =
    (script srx slots).regs.made (6 * k) ++
      ((slots k).map (answer (((script srx slots).regs.state (6 * k + 1)).wbDatO
        ((script srx slots).regs.inp (6 * k + 1))))).toList := by
  have hfirst : (script srx slots).regs.made (6 * k + 1) =
      (script srx slots).regs.made (6 * k) := by
    rw [UartRegs.Run.made, script_accesses_eq_nil (by omega), List.append_nil]
  have hrest : (script srx slots).regs.made (6 * (k + 1)) =
      (script srx slots).regs.made (6 * k + 2) :=
    Temporal.eq_of_stable (by omega) fun u hu hlt => by
      rw [UartRegs.Run.made, script_accesses_eq_nil (by omega), List.append_nil]
  -- of the six cycles of a slot only the second one makes an access
  rw [hrest, UartRegs.Run.made, hfirst]
  cases hslot : slots k with
  | none =>
    have hdiv : (6 * k + 1) / 6 = k := by omega
    rw [script_accesses_eq_nil fun _ => hdiv.symm ▸ hslot]
    rfl
  | some a =>
    rw [script_accesses_slot hslot]
    rfl

/-- Behind the last slot with an access the list of the accesses made does not grow. -/
theorem script_made_of_le (h : ∀ k, m ≤ k → slots k = none) (ht : 6 * m ≤ t) :
    (script srx slots).regs.made t = (script srx slots).regs.made (6 * m) :=
  Temporal.eq_of_stable ht fun u hu _ => by
    rw [UartRegs.Run.made, script_accesses_eq_nil fun _ => h _ (by omega), List.append_nil]

/-- Behind the last slot with an access the master has seen what was made before. -/
theorem script_served (h : ∀ k, m ≤ k → slots k = none) (ht : 6 * m < t) :
    (script srx slots).served t = (script srx slots).regs.made (6 * m) := by
  obtain ⟨u, rfl⟩ := Nat.exists_eq_add_of_le' (show 1 ≤ t by omega)
  rw [served_eq script_holds]
  exact script_made_of_le h (by omega)

end Script

/-! ## What the master sees -/

/-- With a master that keeps its requests, every request is acknowledged in a bounded time, and the
accesses that the master sees acknowledged are those of the registers: of the registers that only
writes change, a read returns what the writes acknowledged before it have made of them, and the
transmitter is given, in order, the bytes that are written for it. -/
theorem transacts (h : run.Holds) (t : ℕ) :
    (run.Asks t → ∃ k ≤ 3, (run.state (t + k)).wb.wbAckO = true) ∧
      run.served (t + 1) = run.regs.made t ∧
      (∀ past rest addr dat, run.served t = past ++ .read addr dat :: rest →
        ∀ v ∈ (UartConfig.initial.after past).value addr, dat = v) ∧
      run.regs.pushed t = UartConfig.initial.text (run.served t) := by
  refine ⟨exists_ack h, served_eq h t, ?_⟩
  cases t with
  | zero => exact ⟨fun past rest addr dat hserved => absurd hserved (by simp [served]), rfl⟩
  | succ t =>
    rw [served_eq h]
    exact UartRegs.Run.register_file (regs_holds h) t

/-- The accesses of software that sets the divisor and reads it back. -/
def divisorScript : List UartAccess :=
  [.write 3 0x80, .write 0 27, .read 0 27, .write 3 0x03]

/-- The run in which these accesses are made, with the line high. -/
def divisorRun : Run := script true (divisorScript[·]?)

/-- In the run of this script: the request of cycle 18 is acknowledged, and what is seen is what has
been made. -/
theorem transacts_divisor :
    (divisorRun.Asks 18 → ∃ k ≤ 3, (divisorRun.state (18 + k)).wb.wbAckO = true) ∧
      divisorRun.served 19 = divisorRun.regs.made 18 ∧
      (∀ past rest addr dat, divisorRun.served 18 = past ++ .read addr dat :: rest →
        ∀ v ∈ (UartConfig.initial.after past).value addr, dat = v) ∧
      divisorRun.regs.pushed 18 = UartConfig.initial.text (divisorRun.served 18) :=
  transacts script_holds 18

end Run

end UartTop

end RvPipelineCore

import RvPipelineCore.Lib.Temporal
import RvPipelineCore.Soc.Uart.Baud
import RvPipelineCore.Soc.Uart.Polling

/-!
# A session of the UART

Software that calls `uart_init` and then writes bytes, each after it has read `THRE`: what the line
carries, cycle by cycle.

- `UartRegs.Run.Driven`: the runs under such software, which need not come to an end;
- `UartRegs.Run.Driven.exists_ready`: the cycle from which on bytes can be sent;
- `UartRegs.Run.Driven.thre_returns`: whoever polls `THRE` finds it set;
- `UartRegs.Run.Session`: the runs in which the software stops after some accesses;
- `UartRegs.Run.Session.carries`: the line carries the bytes that are written.
-/

namespace RvPipelineCore

open Serial

/-- The accesses of `uart_init`: the divisor 27 behind `dlab`, eight data bits without parity,
cleared FIFOs, and no interrupts. -/
def UartLib.uartInit : List UartAccess :=
  [.write 3 0x80, .write 0 27, .write 3 0x03, .write 2 0x86, .write 1 0x00]

/-- An access that leaves the format, the divisor and the FIFOs alone, if `dlab` is clear. -/
def UartAccess.Keeps : UartAccess → Prop
  | .read _ _ => True
  | .write addr _ => addr ≠ 2 ∧ addr ≠ 3 ∧ addr ≠ 4

/-- Whether an access keeps the format and the divisor can be decided from its address and its
data. -/
instance : DecidablePred UartAccess.Keeps
  | .read _ _ => isTrue trivial
  | .write _ _ => inferInstanceAs (Decidable (_ ∧ _ ∧ _))

namespace UartConfig

variable {c : UartConfig} {rest : List UartAccess}

/-- With the divisor not in its place, a write that keeps the format and the divisor changes neither
of them, nor the modem control. -/
theorem write_keeps (hdlab : c.dlab = false) {addr : BitVec 3} {dat : BitVec 8}
    (h : (UartAccess.write addr dat).Keeps) :
    (c.write addr dat).lcr = c.lcr ∧ (c.write addr dat).mcr = c.mcr ∧
      (c.write addr dat).dl = c.dl := by
  obtain ⟨h₂, h₃, h₄⟩ := h
  rcases UartRegs.addr_cases addr with rfl | rfl | rfl | rfl | rfl | rfl | rfl | rfl <;>
    simp_all [write]

/-- With the divisor not in its place, accesses that keep the format and the divisor change neither
of them, nor the modem control. -/
theorem after_keeps (hdlab : c.dlab = false) (h : ∀ a ∈ rest, a.Keeps) :
    (c.after rest).lcr = c.lcr ∧ (c.after rest).mcr = c.mcr ∧ (c.after rest).dl = c.dl := by
  induction rest generalizing c with
  | nil => exact ⟨rfl, rfl, rfl⟩
  | cons a rest ih =>
    have hrest : ∀ a ∈ rest, a.Keeps := fun b hb => h b (List.mem_cons_of_mem _ hb)
    cases a with
    | read addr dat => exact ih hdlab hrest
    | write addr dat =>
      obtain ⟨hlcr, hmcr, hdl⟩ := write_keeps hdlab (h _ List.mem_cons_self)
      have hdlab' : (c.write addr dat).dlab = false := by rw [dlab, hlcr]; exact hdlab
      obtain ⟨hlcr', hmcr', hdl'⟩ := ih hdlab' hrest
      exact ⟨hlcr'.trans hlcr, hmcr'.trans hmcr, hdl'.trans hdl⟩

end UartConfig

namespace UartRegs

open UartAccess UartLib

namespace Run

variable (run : Run)

/-- The software begins with the accesses of `uart_init`. None of those that it makes after them
changes the format or clears a FIFO, and it writes each byte only after it has read `THRE`. -/
structure Driven : Prop where
  starts : ∀ t, run.made t <+: uartInit ∨
    ∃ r, (∀ a ∈ r, a.Keeps) ∧ run.made t = uartInit ++ r
  polled : ∀ t, Polled (run.made t)

/-- Up to cycle `T` the software calls `uart_init` and makes the accesses `rest`, of which none
changes the format; each byte is written after `THRE` has been read. -/
structure Session (rest : List UartAccess) (T : ℕ) : Prop where
  all : ∀ t, T ≤ t → run.made t = uartInit ++ rest
  keeps : ∀ a ∈ rest, a.Keeps
  polled : Polled (uartInit ++ rest)

/-- In cycle `t` the software reads the line status, and the value that it reads is `dat`. -/
def ReadsStatus (t : ℕ) (dat : BitVec 8) : Prop :=
  (run.state t).accesses (run.inp t) = [.read 5 dat]

/-- In cycle `u` the last access of `uart_init` is made. -/
structure Ready (u : ℕ) : Prop where
  made : run.made u = uartInit.take 4
  last : (run.state u).accesses (run.inp u) = [.write 1 0x00]

/-- The transmitter from a cycle on in which it is quiet. -/
def transmission (t₀ : ℕ) (hquiet : (run.state t₀).transmitter.Quiet) : UartTransmitter.Run where
  state t := (run.state (t₀ + t)).transmitter
  inp t := ⟨(run.state (t₀ + t)).lcr, (run.state (t₀ + t)).tfPush, (run.inp (t₀ + t)).wbDatI,
    (run.state (t₀ + t)).enable, (run.state (t₀ + t)).txReset,
    (run.state (t₀ + t)).lsrMask (run.inp (t₀ + t))⟩
  start := hquiet
  succ t := by
    rw [← Nat.add_assoc, run.succ]
    rfl

variable {run} {rest : List UartAccess} {T t u : ℕ}

/-- The bytes pushed up to a cycle are those pushed before the transmission and those pushed in
it. -/
theorem pushed_add (t₀ t : ℕ) (hquiet : (run.state t₀).transmitter.Quiet) :
    run.pushed (t₀ + t) = run.pushed t₀ ++ (run.transmission t₀ hquiet).pushed t := by
  induction t with
  | zero => exact (List.append_nil _).symm
  | succ t ih =>
    rw [← Nat.add_assoc, pushed, ih, UartTransmitter.Run.pushed, List.append_assoc]
    rfl

/-- Until a byte is pushed, the transmitter is quiet. -/
theorem quiet_of_pushed (t : ℕ) (h : run.pushed t = []) : (run.state t).transmitter.Quiet := by
  induction t with
  | zero =>
    obtain ⟨s, hs⟩ := run.start
    rw [hs]
    exact UartTransmitter.reset_quiet _
  | succ t ih =>
    rw [pushed, List.append_eq_nil_iff] at h
    rw [run.succ]
    refine (ih h.1).next ?_
    by_contra hpush
    rw [Bool.not_eq_false] at hpush
    exact absurd h.2 (by rw [if_pos hpush]; exact List.cons_ne_nil _ _)

/-- A write is the access of its cycle. -/
theorem accesses_of_writes {addr : BitVec 3} (h : (run.inp t).writes addr = true) :
    (run.state t).accesses (run.inp t) = [.write addr (run.inp t).wbDatI] := by
  rw [In.writes, Bool.and_eq_true, beq_iff_eq] at h
  rw [accesses, if_pos h.1, h.2]

/-- An access that is a write is made by a write of the bus. -/
theorem writes_of_accesses {addr : BitVec 3} {dat : BitVec 8}
    (h : (run.state t).accesses (run.inp t) = [.write addr dat]) :
    (run.inp t).writes addr = true := by
  rw [accesses] at h
  split_ifs at h with hwe hre
  · simp only [List.cons.injEq, UartAccess.write.injEq] at h
    rw [In.writes, hwe, h.1.1, beq_self_eq_true]
    rfl
  · exact absurd h (by simp)

/-- A read of the line status returns the register as it is in this cycle. -/
theorem ReadsStatus.lsr_eq {dat : BitVec 8} (h : run.ReadsStatus t dat) :
    (run.state t).lsr = dat := by
  rw [ReadsStatus, accesses] at h
  split_ifs at h with hwe hre
  · exact absurd h (by simp)
  · simp only [List.cons.injEq, UartAccess.read.injEq, and_true] at h
    rw [← h.2]
    simp only [wbDatO, h.1]
    rfl

/-- After the cycle of its last access the accesses made are those of `uart_init`. -/
theorem Ready.made_succ (hu : run.Ready u) : run.made (u + 1) = uartInit := by
  rw [Run.made, hu.made, hu.last]
  rfl

/-- Up to the end of `uart_init` the transmitter is quiet. -/
theorem Ready.quiet (hu : run.Ready u) (hdat : run.Holds) (ht : t ≤ u + 1) :
    (run.state t).transmitter.Quiet := by
  have hnone : run.pushed (u + 1) = [] := by
    rw [pushed_eq hdat, hu.made]
    decide
  have hpre := run.pushed_prefix ht
  rw [hnone, List.prefix_nil] at hpre
  exact quiet_of_pushed t hpre

/-- The counter that holds the bit back runs down while no byte is written. -/
theorem blockCnt_le {t₀ a m : ℕ} (hquiet : (run.state t₀).transmitter.Quiet)
    (hnone : ∀ v, t₀ + a ≤ v → v < t₀ + a + m → (run.inp v).writes 0 = false) :
    (run.state (t₀ + a + m)).blockCnt.toNat ≤
      255 - ((run.transmission t₀ hquiet).ticks (a + m) -
        (run.transmission t₀ hquiet).ticks a) := by
  induction m with
  | zero =>
    have hlt := (run.state (t₀ + a)).blockCnt.isLt
    rw [Nat.add_zero, Nat.add_zero, Nat.sub_self]
    omega
  | succ m ih =>
    have hle := ih fun v hv hlt => hnone v hv (by omega)
    -- no byte is written, so that the counter is not loaded
    have hno : (run.state (t₀ + a + m)).fifoWrite (run.inp (t₀ + a + m)) = false := by
      rw [fifoWrite, hnone _ (by omega) (by omega), Bool.false_and]
    have hnext : (run.state (t₀ + a + m + 1)).blockCnt =
        if (run.state (t₀ + a + m)).enable && (run.state (t₀ + a + m)).blockCnt != 0 then
          (run.state (t₀ + a + m)).blockCnt - 1
        else (run.state (t₀ + a + m)).blockCnt := by
      rw [run.succ, next, hno, Bool.and_false, if_neg Bool.false_ne_true]
    have hticks : (run.transmission t₀ hquiet).ticks (a + m + 1) =
        (run.transmission t₀ hquiet).ticks (a + m) +
          if (run.state (t₀ + a + m)).enable = true then 1 else 0 := by
      rw [UartTransmitter.Run.ticks_succ, Nat.add_assoc t₀]
      rfl
    rw [← Nat.add_assoc (t₀ + a), ← Nat.add_assoc a, hnext, hticks]
    cases (run.state (t₀ + a + m)).enable with
    | false =>
      rw [Bool.false_and, if_neg Bool.false_ne_true, if_neg Bool.false_ne_true]
      exact hle
    | true =>
      -- a step takes one off it until it is 0
      by_cases hzero : (run.state (t₀ + a + m)).blockCnt = 0
      · rw [hzero]
        exact Nat.zero_le _
      · rw [bne_iff_ne.mpr hzero, Bool.true_and, if_pos rfl, if_pos rfl]
        bv_omega

/-- A cycle in which the list of accesses grows makes one access. -/
theorem exists_access (hlt : (run.made t).length < (run.made (t + 1)).length) :
    ∃ a, (run.state t).accesses (run.inp t) = [a] ∧ run.made (t + 1) = run.made t ++ [a] := by
  have hsplit : run.made (t + 1) = run.made t ++ (run.state t).accesses (run.inp t) := rfl
  have hacc := length_accesses (s := run.state t) (i := run.inp t)
  rw [hsplit, List.length_append] at hlt
  obtain ⟨a, ha⟩ := List.length_eq_one_iff.mp
    (show ((run.state t).accesses (run.inp t)).length = 1 by omega)
  exact ⟨a, ha, by rw [hsplit, ha]⟩

/-- It is enough that in every cycle the accesses made are the first ones of accesses that go
through `uart_init`, keep the format behind it, and are polled. -/
theorem Driven.of_made (h : ∀ t, ∃ rest, run.made t <+: uartInit ++ rest ∧
    (∀ a ∈ rest, a.Keeps) ∧ Polled (uartInit ++ rest)) : run.Driven := by
  refine ⟨fun t => ?_, fun t => ?_⟩
  · obtain ⟨rest, hstarts, hkeeps, -⟩ := h t
    rcases List.prefix_or_prefix_of_prefix hstarts (List.prefix_append uartInit rest) with
      hpre | ⟨r, hr⟩
    · exact .inl hpre
    · rw [← hr, List.prefix_append_right_inj] at hstarts
      exact .inr ⟨r, fun a ha => hkeeps a (hstarts.subset ha), hr.symm⟩
  · obtain ⟨rest, ⟨r, hr⟩, -, hpolled⟩ := h t
    rw [← hr] at hpolled
    exact hpolled.of_append

/-- A session, which ends at some time, is a run under software that goes through `uart_init` and
then polls. -/
theorem Session.driven (h : run.Session rest T) : run.Driven := by
  refine .of_made fun t => ⟨rest, ?_, h.keeps, h.polled⟩
  rw [← h.all (max T t) (le_max_left T t)]
  exact run.made_prefix (le_max_right T t)

namespace Driven

variable (h : run.Driven)

include h

/-- What `uart_init` has done after `n` accesses or more is kept. -/
theorem after_made {P : UartConfig → Prop} {n : ℕ}
    (hinit : ∀ l ∈ uartInit.inits, n ≤ l.length → P (UartConfig.initial.after l))
    (hkeep : ∀ c : UartConfig, c.lcr = 3 → c.mcr = 0 → c.dl = 27 → P c)
    (hlen : n ≤ (run.made t).length) : P (run.state t).config := by
  rw [run.config_eq t]
  rcases h.starts t with hpre | ⟨r, hr, hmade⟩
  · exact hinit _ ((List.mem_inits _ _).mpr hpre) hlen
  · obtain ⟨hlcr, hmcr, hdl⟩ :=
      UartConfig.after_keeps (c := UartConfig.initial.after uartInit) rfl hr
    rw [hmade, UartConfig.after_append]
    exact hkeep _ hlcr hmcr hdl

/-- From the fourth access on the format, the modem control and the divisor are those that
`uart_init` sets. -/
theorem config (hlen : 4 ≤ (run.made t).length) :
    (run.state t).lcr = 3 ∧ (run.state t).mcr = 0 ∧ (run.state t).dl = 27 :=
  h.after_made (P := fun c => c.lcr = 3 ∧ c.mcr = 0 ∧ c.dl = 27) (by decide)
    (fun _ hlcr hmcr hdl => ⟨hlcr, hmcr, hdl⟩) hlen

/-- From the second access on the counter of the divisor is loaded with 27. -/
theorem loaded (t : ℕ) (hlen : 2 ≤ (run.made t).length) : (run.state t).Loaded 27 := by
  have hdl (t : ℕ) (hlen : 2 ≤ (run.made t).length) : (run.state t).dl.toNat = 27 :=
    congrArg BitVec.toNat
      (h.after_made (P := fun c => c.dl = 27) (by decide) (fun _ _ _ hdl => hdl) hlen)
  -- loaded once, the divisor stays
  induction t with
  | zero => exact absurd hlen (by simp [made])
  | succ t ih =>
    by_cases hbefore : 2 ≤ (run.made t).length
    · rw [run.succ]
      refine (ih hbefore).next (by decide) ?_
      rw [← run.succ]
      exact hdl (t + 1) hlen
    · -- the second access has just been made
      have hlt : (run.made t).length < (run.made (t + 1)).length := by omega
      obtain ⟨a, ha, hmade⟩ := exists_access hlt
      have hone : (run.made t).length = 1 := by
        rw [hmade, List.length_append, List.length_singleton] at hlen
        omega
      have hpre : run.made t ++ [a] <+: uartInit := by
        rcases h.starts (t + 1) with hpre | ⟨r, -, hr⟩
        · exact hmade ▸ hpre
        · have hfive := congrArg List.length (hmade.symm.trans hr)
          rw [List.length_append, List.length_append, hone] at hfive
          change 2 = 5 + r.length at hfive
          omega
      obtain ⟨b, hb⟩ := List.length_eq_one_iff.mp hone
      rw [hb] at hpre
      obtain ⟨rfl, hpre'⟩ := List.cons_prefix_cons.mp hpre
      obtain ⟨rfl, -⟩ := List.cons_prefix_cons.mp hpre'
      have hfirst : (UartConfig.initial.after [.write 3 0x80]).dlab = true := by decide
      have hdlab : (run.state t).config.dlab = true := by rw [run.config_eq, hb, ← hfirst]
      have hwrites := writes_of_accesses ha
      have hstart : (run.state (t + 1)).startDlc =
          ((run.inp t).writes 0 && (run.state t).dlab) := by
        rw [run.succ, next]
      refine ⟨hdl (t + 1) hlen, .inl ?_⟩
      rw [hstart, hwrites, Bool.true_and]
      exact hdlab

/-- Once five accesses have been made, the last one of `uart_init` lies behind. -/
theorem exists_ready (hT : 5 ≤ (run.made T).length) : ∃ u < T, run.Ready u := by
  -- the first cycle with five accesses behind it
  obtain ⟨t₀, hle, hlen, hbefore⟩ := Temporal.First.of_exists
    (p := fun t => 5 ≤ (run.made t).length) ⟨T, Nat.zero_le T, hT⟩
  cases t₀ with
  | zero => exact absurd hlen (by simp [made])
  | succ u =>
    have hnot := hbefore u (Nat.zero_le u) u.lt_succ_self
    have hu : u < T := by
      by_contra hge
      exact hbefore T (Nat.zero_le T) (by omega) hT
    have hlt : (run.made u).length < (run.made (u + 1)).length := by omega
    obtain ⟨a, ha, hmade⟩ := exists_access hlt
    have hfour : (run.made u).length = 4 := by
      rw [hmade, List.length_append, List.length_singleton] at hlen
      omega
    -- the five accesses are those of `uart_init`
    have hinit : run.made u ++ [a] = uartInit.take 4 ++ [.write 1 0x00] := by
      have hfive : (run.made (u + 1)).length = uartInit.length := by
        rw [hmade, List.length_append, hfour]
        rfl
      rw [← hmade]
      rcases h.starts (u + 1) with hpre | ⟨r, -, hr⟩
      · exact hpre.eq_of_length hfive
      · rw [hr, List.length_append, Nat.add_eq_left, List.length_eq_zero_iff] at hfive
        rw [hr, hfive, List.append_nil]
        rfl
    obtain ⟨hmade', ha'⟩ := List.append_inj' hinit rfl
    obtain rfl := List.singleton_inj.mp ha'
    exact ⟨u, hu, hmade', ha⟩

/-- Under such software the line is not held low by the break bit and not looped back. -/
theorem unbroken (t : ℕ) :
    (run.state t).lcr.getLsbD 6 = false ∧ (run.state t).loopback = false := by
  have hall := h.after_made (t := t) (n := 0)
    (P := fun c => c.lcr.getLsbD 6 = false ∧ c.mcr.getLsbD 4 = false) (by decide)
    (fun c hlcr hmcr _ => by rw [hlcr, hmcr]; decide) (Nat.zero_le _)
  exact hall

/-- The level of the sending line is that of the transmitter. -/
theorem stxPadO_eq (t : ℕ) :
    (run.state t).stxPadO = (run.state t).transmitter.stxOTmp := by
  obtain ⟨hbreak, hloop⟩ := h.unbroken t
  rw [UartRegs.stxPadO, hloop, if_neg Bool.false_ne_true, serialOut, UartTransmitter.stxPadO,
    hbreak, if_neg Bool.false_ne_true]

/-! ## Behind the last access of `uart_init` -/

section Ready

variable (hu : run.Ready u)

include hu

/-- From the end of `uart_init` on the format is that of eight data bits without parity, and the
divisor is 27. -/
theorem config_ready (ht : u ≤ t) : (run.state t).lcr = 3 ∧ (run.state t).dl = 27 := by
  have hlen := (run.made_prefix ht).length_le
  rw [hu.made] at hlen
  obtain ⟨hlcr, -, hdl⟩ := h.config hlen
  exact ⟨hlcr, hdl⟩

/-- The divisor is not loaded again, and the FIFO is not reset. -/
theorem still (ht : u ≤ t) :
    (run.state (t + 1)).startDlc = false ∧ (run.state (t + 1)).txReset = false := by
  have hdlab : (run.state t).dlab = false := by
    rw [dlab, (h.config_ready hu ht).1]
    rfl
  have hstart : (run.state (t + 1)).startDlc = ((run.inp t).writes 0 && (run.state t).dlab) := by
    rw [run.succ, next]
  have hreset : (run.state (t + 1)).txReset =
      ((run.inp t).writes 2 && (run.inp t).wbDatI.getLsbD 2) := by
    rw [run.succ, next]
  refine ⟨by rw [hstart, hdlab, Bool.and_false], ?_⟩
  suffices hno : (run.inp t).writes 2 = false by rw [hreset, hno, Bool.false_and]
  -- a write to the FIFO control would come behind `uart_init`, where there is none
  rw [← Bool.not_eq_true]
  intro hwrites
  have haccess := accesses_of_writes hwrites
  have hmade : run.made (t + 1) = run.made t ++ [.write 2 (run.inp t).wbDatI] := by
    rw [made, haccess]
  rcases ht.eq_or_lt with rfl | ht
  · rw [hu.last] at haccess
    exact absurd haccess (by simp)
  · obtain ⟨r, hr⟩ := run.made_prefix (show u + 1 ≤ t from ht)
    rw [hu.made_succ] at hr
    rw [← hr, List.append_assoc] at hmade
    rcases h.starts (t + 1) with hpre | ⟨r', hr', hmade'⟩
    · have hle := hpre.length_le
      rw [hmade, List.length_append, List.length_append] at hle
      simp at hle
    · rw [hmade', List.append_cancel_left_eq] at hmade
      have hkeeps : (UartAccess.write 2 (run.inp t).wbDatI).Keeps := hr' _ (by simp [hmade])
      exact hkeeps.1 rfl

/-- From the end of `uart_init` on the transmission is steady. -/
theorem steady (hquiet : (run.state (u + 1)).transmitter.Quiet) :
    (run.transmission (u + 1) hquiet).Steady 3 := by
  refine ⟨fun t => ?_, fun t => ?_, fun t hover => ?_⟩
  · exact (h.config_ready hu (t := u + 1 + t) (by omega)).1
  · have hstill := h.still hu (t := u + t) (by omega)
    rw [Nat.add_right_comm] at hstill
    exact hstill.2
  · -- a byte is pushed into an empty FIFO only
    have hcount := count_of_push h.polled hover.push
    exact absurd (hover.full.symm.trans hcount) (by decide)

/-- From the end of `uart_init` on the divisor counter runs with 27. -/
theorem divides_ready : Divides 27 fun t => run.state (u + 1 + t) := by
  refine ⟨by decide, fun t => ?_, fun t => ?_, ?_, fun t => ?_, fun t => ?_⟩
  · exact congrArg BitVec.toNat (h.config_ready hu (t := u + 1 + t) (by omega)).2
  · have hstill := h.still hu (t := u + t) (by omega)
    rw [Nat.add_right_comm] at hstill
    exact hstill.1
  · refine h.loaded (u + 1) ?_
    rw [hu.made_succ]
    decide
  · change (run.state (u + 1 + t + 1)).dlc = _
    rw [run.succ, next]
  · change (run.state (u + 1 + t + 1)).enable = _
    rw [run.succ, next]

/-- The steps of the transmitter are the ticks of the divisor counter. -/
theorem ticks_ready (hquiet : (run.state (u + 1)).transmitter.Quiet) (t : ℕ) :
    (run.transmission (u + 1) hquiet).ticks t =
      Format.ticksBefore (run.state (u + 1)).wait 27 t := by
  induction t with
  | zero => exact (Format.ticksBefore_zero _ _).symm
  | succ t ih =>
    rw [UartTransmitter.Run.ticks_succ, ih, Format.ticksBefore_succ (by decide)]
    congr 1
    exact if_congr ((h.divides_ready hu).enable_iff t).1 rfl rfl

omit hu in
/-- With polled software at most one byte waits for the transmitter. -/
theorem waiting_ready (hquiet : (run.state (u + 1)).transmitter.Quiet) (t : ℕ) :
    ((run.transmission (u + 1) hquiet).waiting t).length ≤ 1 := by
  have hcount : ((run.transmission (u + 1) hquiet).state t).fifo.contents.length ≤ 1 := by
    rw [UartTfifo.length_contents]
    exact (thre h.polled (u + 1 + t)).le
  rw [UartTransmitter.Run.waiting]
  split_ifs
  · rw [List.length_tail]
    omega
  · exact hcount

/-- In 321 periods of the divisor the transmitter makes 320 steps at least, which are those of two
frames. -/
theorem ticks_add_le (hquiet : (run.state (u + 1)).transmitter.Quiet) (a : ℕ) :
    (run.transmission (u + 1) hquiet).ticks a + 320 ≤
      (run.transmission (u + 1) hquiet).ticks (a + 27 * 321) := by
  have hwait : (run.state (u + 1)).wait ≤ 27 := (h.divides_ready hu).wait_le
  rw [h.ticks_ready hu hquiet, h.ticks_ready hu hquiet]
  exact Format.ticksBefore_add_le (by decide) hwait a 320

/-- In 321 periods of the divisor the transmitter sends the frame on the line and another one. -/
theorem ticks_drain (hquiet : (run.state (u + 1)).transmitter.Quiet) (a : ℕ) :
    (run.transmission (u + 1) hquiet).ticks a + (UartTransmitter.format 3).ticks *
        (((run.transmission (u + 1) hquiet).waiting a).length + 1) ≤
      (run.transmission (u + 1) hquiet).ticks (a + 27 * 321) := by
  have hF : (UartTransmitter.format 3).ticks = 160 := by decide
  have hwaiting := h.waiting_ready hquiet a
  have hmul : 160 * (((run.transmission (u + 1) hquiet).waiting a).length + 1) ≤ 320 := by omega
  rw [hF]
  exact (Nat.add_le_add_left hmul _).trans (h.ticks_add_le hu hquiet a)

end Ready

/-! ## The bit `THRE` -/

/-- While no byte is written for 321 periods of the divisor, the FIFO becomes empty. -/
theorem count_eq_zero (hu : run.Ready u) (hquiet : (run.state (u + 1)).transmitter.Quiet) {a : ℕ}
    (hnone : ∀ v, u + a ≤ v → v ≤ u + a + 27 * 321 → (run.inp v).writes 0 = false) :
    (run.state (u + 1 + (a + 27 * 321 + 1))).transmitter.fifo.count = 0 := by
  have hsteady := h.steady hu hquiet
  have hpush (s : ℕ) (ha : a ≤ s) (hs : s ≤ a + 27 * 321) :
      ((run.transmission (u + 1) hquiet).inp s).tfPush = false := by
    change (run.state (u + 1 + s)).tfPush = false
    rw [Nat.add_right_comm, run.succ, tfPush_next, fifoWrite, hnone _ (by omega) (by omega),
      Bool.false_and]
  have hsent := (UartTransmitter.Run.drains hsteady (fun s ha hs => hpush s ha hs.le)
    (Nat.le_add_right a (27 * 321)) (h.ticks_drain hu hquiet a)).1
  have hpushed : (run.transmission (u + 1) hquiet).pushed (a + 27 * 321) =
      (run.transmission (u + 1) hquiet).pushed a :=
    UartTransmitter.Run.pushed_of_quiet (fun s ha hs => hpush s ha hs.le)
      (Nat.le_add_right a (27 * 321))
  -- all bytes have been sent, so that none waits
  have hall := UartTransmitter.Run.conserved hsteady (a + 27 * 321)
  rw [hsent, hpushed, List.append_right_eq_self] at hall
  have hnext := UartTransmitter.Run.contents_succ hsteady (a + 27 * 321)
  rw [hpush _ (Nat.le_add_right _ _) le_rfl] at hnext
  rw [UartTransmitter.Run.waiting] at hall
  -- the last of them may just be leaving the FIFO
  have hnil : ((run.transmission (u + 1) hquiet).state (a + 27 * 321 + 1)).fifo.contents = [] := by
    cases hpop : ((run.transmission (u + 1) hquiet).state (a + 27 * 321)).tfPop with
    | true =>
      rw [hpop, if_pos rfl] at hall
      rw [hnext, hpop]
      exact hall
    | false =>
      rw [hpop, if_neg Bool.false_ne_true] at hall
      rw [hnext, hpop]
      exact hall
  have hlen := UartTfifo.length_contents
    (s := ((run.transmission (u + 1) hquiet).state (a + 27 * 321 + 1)).fifo)
  rw [hnil] at hlen
  exact BitVec.eq_of_toNat_eq hlen.symm

/-- If no byte is written for a little more than the time of two frames behind `uart_init`, the bit
`THRE` is set at the end of that time. -/
theorem thre_set (hdat : run.Holds) (hinit : 5 ≤ (run.made t).length)
    (hnone : ∀ v, t ≤ v → v < t + (27 * 321 + 3) → (run.inp v).writes 0 = false) :
    (run.state (t + (27 * 321 + 3))).lsr.getLsbD 5 = true := by
  obtain ⟨u, -, hu⟩ := h.exists_ready hinit
  have hquiet := hu.quiet hdat le_rfl
  -- `uart_init` is over by cycle `t`
  have hut : u ≤ t := by
    by_contra hlt
    have hlen := (run.made_prefix (show t ≤ u by omega)).length_le
    rw [hu.made] at hlen
    exact absurd (hinit.trans hlen) (by decide)
  obtain ⟨a, rfl⟩ := Nat.exists_eq_add_of_le hut
  -- the FIFO is empty and the block counter has run down, one cycle before the end
  have hcount := h.count_eq_zero hu hquiet (a := a) fun v hv hle => hnone v hv (by omega)
  have hle := blockCnt_le (m := 27 * 321 + 1) (a := a) hquiet
    fun v hv hlt => hnone v (by omega) (by omega)
  have hadd := h.ticks_add_le hu hquiet a
  generalize 27 * 321 = n at *
  have hmono : (run.transmission (u + 1) hquiet).ticks (a + n) ≤
      (run.transmission (u + 1) hquiet).ticks (a + (n + 1)) :=
    Nat.count_monotone _ (by omega)
  have hblock : (run.state (u + 1 + a + (n + 1))).blockCnt = 0 :=
    BitVec.eq_of_toNat_eq (Nat.le_zero.mp (hle.trans (by omega)))
  have htime : u + 1 + (a + n + 1) = u + a + n + 2 := by omega
  have htime' : u + 1 + a + (n + 1) = u + a + n + 2 := by omega
  rw [htime] at hcount
  rw [htime'] at hblock
  have hset : (run.state (u + a + n + 2)).lsrSet.getLsbD 5 = true := by
    rw [lsrSet_five, threSetEn, hcount, hblock]
    rfl
  -- no byte is written in that cycle, which would clear the bit
  have hno : (run.state (u + a + n + 2)).fifoWrite (run.inp (u + a + n + 2)) =
      false := by
    rw [fifoWrite, hnone _ (by omega) (by omega), Bool.false_and]
  change (run.state (u + a + n + 2 + 1)).lsr.getLsbD 5 = true
  rw [run.succ, lsr_five, hset, hno]
  -- the bit is set already, or is set now by its edge
  cases hlsr : (run.state (u + a + n + 2)).lsr.getLsbD 5 with
  | true => rfl
  | false =>
    have hedge := (thre h.polled (u + a + n + 2)).edge hlsr
    rw [hset] at hedge
    rw [hedge.resolve_left (by decide)]
    rfl

/-- Behind `uart_init` the bit `THRE` comes back `27 * 321 + 3` cycles after the last byte has been
written, and stays. So a read of the line status from then on finds it set, and software that reads
the line status again and again does find it set, unless it writes a byte before: it never waits for
ever. -/
theorem thre_returns (hdat : run.Holds) (hinit : 5 ≤ (run.made t).length) :
    (∀ v, t + (27 * 321 + 3) ≤ v → (∀ w, t ≤ w → w < v → (run.inp w).writes 0 = false) →
      (run.state v).lsr.getLsbD 5 = true ∧
        ∀ dat, run.ReadsStatus v dat → dat.getLsbD 5 = true) ∧
    ((∀ n, ∃ v, n ≤ v ∧ ∃ dat, run.ReadsStatus v dat) →
      ∃ v, t ≤ v ∧ ((∃ dat, run.ReadsStatus v dat ∧ dat.getLsbD 5 = true) ∨
        (run.inp v).writes 0 = true)) := by
  have hset : ∀ v, t + (27 * 321 + 3) ≤ v →
      (∀ w, t ≤ w → w < v → (run.inp w).writes 0 = false) →
        (run.state v).lsr.getLsbD 5 = true ∧
          ∀ dat, run.ReadsStatus v dat → dat.getLsbD 5 = true := by
    intro v hv hnone
    -- the last cycles before `v` are enough
    obtain ⟨t', rfl⟩ := Nat.exists_eq_add_of_le' (show 27 * 321 + 3 ≤ v by omega)
    have hlen := (run.made_prefix (show t ≤ t' by omega)).length_le
    have hlsr := h.thre_set hdat (hinit.trans hlen) fun w hw hlt => hnone w (by omega) hlt
    exact ⟨hlsr, fun dat hread => hread.lsr_eq ▸ hlsr⟩
  refine ⟨hset, fun hpoll => ?_⟩
  by_cases hwrites : ∃ v, t ≤ v ∧ (run.inp v).writes 0 = true
  · obtain ⟨v, hv, hwrite⟩ := hwrites
    exact ⟨v, hv, .inr hwrite⟩
  · obtain ⟨v, hv, dat, hread⟩ := hpoll (t + (27 * 321 + 3))
    refine ⟨v, by omega, .inl ⟨dat, hread, (hset v hv fun w hw _ => ?_).2 dat hread⟩⟩
    exact Bool.of_not_eq_true fun hwrite => hwrites ⟨w, hw, hwrite⟩

end Driven

/-! ## The line of a session -/

namespace Session

variable (h : run.Session rest T)

include h

/-- The last access of `uart_init` is made within the session. -/
theorem exists_ready : ∃ u < T, run.Ready u := by
  refine h.driven.exists_ready ?_
  rw [h.all T le_rfl, List.length_append]
  exact Nat.le_add_right 5 _

section Ready

variable (hu : run.Ready u)

include hu

/-- From the last access on, all bytes have been pushed. -/
theorem pushed_ready (hdat : run.Holds) (hquiet : (run.state (u + 1)).transmitter.Quiet)
    (ht : T ≤ u + t) : (run.transmission (u + 1) hquiet).pushed t =
      UartConfig.initial.text (uartInit ++ rest) := by
  have hall := pushed_add (u + 1) t hquiet
  have hnone : UartConfig.initial.text (uartInit.take 4) = [] := by decide
  rw [pushed_eq hdat, hu.made, hnone, List.nil_append, Nat.add_right_comm, pushed_eq hdat,
    h.all _ ht] at hall
  exact hall.symm

/-- After the last access of a session nothing is pushed any more. -/
theorem tfPush_ready (hdat : run.Holds) (hquiet : (run.state (u + 1)).transmitter.Quiet)
    (ht : T ≤ u + t) : ((run.transmission (u + 1) hquiet).inp t).tfPush = false := by
  have hnext := h.pushed_ready hu hdat hquiet (t := t + 1) (by omega)
  rw [UartTransmitter.Run.pushed, h.pushed_ready hu hdat hquiet ht,
    List.append_right_eq_self] at hnext
  by_contra hpush
  rw [if_pos (Bool.of_not_eq_false hpush)] at hnext
  exact absurd hnext (List.cons_ne_nil _ _)

/-- After 321 periods of the divisor behind the last access of a session all its bytes have been
sent. -/
theorem drained (hdat : run.Holds) (hquiet : (run.state (u + 1)).transmitter.Quiet) :
    ((run.transmission (u + 1) hquiet).sent (T - u + 27 * 321)).map Frame.byte =
        UartConfig.initial.text (uartInit ++ rest) ∧
      ∀ f ∈ (run.transmission (u + 1) hquiet).sent (T - u + 27 * 321), f.start + 160 ≤
        (run.transmission (u + 1) hquiet).ticks (T - u + 27 * 321) + 3 := by
  have hF : (UartTransmitter.format 3).ticks = 160 := by decide
  obtain ⟨hsent, hended⟩ := UartTransmitter.Run.drains (h.driven.steady hu hquiet)
    (fun t ht _ => h.tfPush_ready hu hdat hquiet (by omega)) (Nat.le_add_right _ _)
    (h.driven.ticks_drain hu hquiet (T - u))
  rw [h.pushed_ready hu hdat hquiet (by omega)] at hsent
  rw [hF] at hended
  exact ⟨hsent, hended⟩

/-- The line has the level of the frames in every cycle. -/
theorem drives_ready (hdat : run.Holds) (hquiet : (run.state (u + 1)).transmitter.Quiet) {v : ℕ}
    (hv : T ≤ u + v) (hsent : ((run.transmission (u + 1) hquiet).sent v).map Frame.byte =
      UartConfig.initial.text (uartInit ++ rest))
    (hpos : ∀ f ∈ (run.transmission (u + 1) hquiet).sent v, 0 < f.start) (t : ℕ) :
    Format.Drives ⟨8, none, 16⟩ 1 ((run.transmission (u + 1) hquiet).sent v)
      (Format.ticksBefore (u + 1 + (run.state (u + 1)).wait) 27 t) (run.state t).stxPadO := by
  have hsteady := h.driven.steady hu hquiet
  have hformat : UartTransmitter.format 3 = ⟨8, none, 16⟩ := by decide
  rw [h.driven.stxPadO_eq]
  rcases Nat.lt_or_ge t (u + 1) with ht | ht
  · -- nothing has been sent yet
    have hempty : Format.Drives ⟨8, none, 16⟩ 1 [] 0 true := Format.drives_high rfl (by simp)
    have hall := hempty.append hpos
    rw [List.nil_append] at hall
    rw [Format.ticksBefore, Nat.sub_eq_zero_of_le (by omega), (hu.quiet hdat ht.le).stx]
    exact hall
  · obtain ⟨s, rfl⟩ := Nat.exists_eq_add_of_le ht
    have hshift : Format.ticksBefore (u + 1 + (run.state (u + 1)).wait) 27 (u + 1 + s) =
        (run.transmission (u + 1) hquiet).ticks s := by
      rw [h.driven.ticks_ready hu hquiet, Format.ticksBefore, Format.ticksBefore,
        Nat.add_sub_add_left]
    rw [hshift, ← hformat]
    rcases Nat.le_total s v with hs | hs
    · exact UartTransmitter.Run.drives_sent hsteady hs
    · -- nothing more is sent
      obtain ⟨r, hr, -⟩ := (run.transmission (u + 1) hquiet).exists_sent hs
      have hall := UartTransmitter.Run.conserved hsteady s
      rw [h.pushed_ready hu hdat hquiet (by omega), hr, List.map_append, hsent, List.append_assoc,
        List.append_right_eq_self, List.append_eq_nil_iff, List.map_eq_nil_iff] at hall
      rw [hall.1, List.append_nil] at hr
      rw [← hr]
      exact UartTransmitter.Run.drives_sent hsteady le_rfl

end Ready

/-- The line carries the bytes that are written, and nothing else, in frames of eight bits without
parity, sixteen times 27 cycles to a bit; and it has carried them soon after the last access. -/
theorem carries (hdat : run.Holds) : ∃ e frames,
    frames.map Frame.byte = UartConfig.initial.text (uartInit ++ rest) ∧
      Format.Spaced ⟨8, none, 16⟩ 1 frames ∧ (∀ f ∈ frames, 0 < f.start) ∧
      (∀ t, Format.Drives ⟨8, none, 16⟩ 1 frames (Format.ticksBefore e 27 t)
        (run.state t).stxPadO) ∧
      ∀ f ∈ frames, f.start + 160 ≤ Format.ticksBefore e 27 (T + 1 + 27 * 321) + 3 := by
  obtain ⟨u, huT, hu⟩ := h.exists_ready
  have hquiet := hu.quiet hdat le_rfl
  have hformat : UartTransmitter.format 3 = ⟨8, none, 16⟩ := by decide
  obtain ⟨hsent, hended⟩ := h.drained hu hdat hquiet
  -- a frame begins behind the first tick
  have hpos : ∀ f ∈ (run.transmission (u + 1) hquiet).sent (T - u + 27 * 321), 0 < f.start := by
    obtain ⟨r, hr, hpos⟩ :=
      (run.transmission (u + 1) hquiet).exists_sent (Nat.zero_le (T - u + 27 * 321))
    intro f hf
    rw [hr] at hf
    exact (Nat.zero_le _).trans_lt (hpos f hf)
  refine ⟨u + 1 + (run.state (u + 1)).wait, _, hsent, ?_, hpos,
    h.drives_ready hu hdat hquiet (by omega) hsent hpos, fun f hf => ?_⟩
  · rw [← hformat]
    exact UartTransmitter.Run.spaced (h.driven.steady hu hquiet) _
  -- the ticks of the transmitter are those of the divisor counter
  · have hend := hended f hf
    have htime : T + 1 + 27 * 321 = u + 1 + (T - u + 27 * 321) := by omega
    rw [h.driven.ticks_ready hu hquiet] at hend
    rw [htime, Format.ticksBefore, Nat.add_sub_add_left]
    exact hend

end Session

end Run

end UartRegs

end RvPipelineCore

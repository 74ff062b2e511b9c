import RvPipelineCore.Datapath.Memory
import RvPipelineCore.Execute

/-!
# A load or store in the memory stage

What the memory stage asks of the data port for a word of `Rv32` with an aligned access, and what it
makes of the answer.

- `State.Executes.transfer_eq`: the transfer is that of the access;
- `State.Executes.bytesOf_eq`: a word memory behind the port is written as `Rv32` says;
- `State.Executes.readData_eq`: a load gets the value of `Rv32`.
-/

namespace RvPipelineCore

/-- The transfer that the data port drives: its address and direction, the lanes it selects and, for
a write, the data on these lanes. -/
def DataPort.transfer (p : DataPort) : Transfer :=
  ⟨p.adr, p.we, p.sel, if p.we then mergeLanes 0 p.dataW p.sel else 0⟩

namespace State

/-- The port after the start of the transfer that the memory stage asks for. -/
def startedPort (x : DontCare) (s : State) : DataPort :=
  ⟨.active, s.m.aluResult, s.writeDataM, true, true, s.cm.memWrite, s.dSel x⟩

namespace Executes

variable {s s' : State} {x : DontCare} {w pc a b : BitVec 32} {o : Rv32.Op}

/-- A load in execute hands on the sum of its base and its immediate, and asks for a read. -/
theorem access_load (h : s.Executes x w pc a b) {wd : Rv32.Width} {u : Bool}
    (ho : (Rv32.Op.load wd u).Encodes w) : s.ce.loadStore = true ∧ s.ce.memWrite = false ∧
      s.dataOutputFromExecute = a + Rv32.immI w := by
  have hc := controlOf_eq x (decode_load x ho.opcode)
  have hop : opcodeOf w ≠ 0b0110011 := by
    rw [show opcodeOf w = 0b0000011 from ho.opcode]
    decide
  rw [h.dataOutput_add ho hop (by rw [hc]) (by rw [hc]), h.ce, ← extendImm_immI]
  simp [controlWordE, hc]

/-- A store asks for its address and brings its value. -/
theorem access_store (h : s.Executes x w pc a b) {wd : Rv32.Width}
    (ho : (Rv32.Op.store wd).Encodes w) : s.ce.loadStore = true ∧ s.ce.memWrite = true ∧
      s.dataOutputFromExecute = a + Rv32.immS w := by
  have hc := controlOf_eq x (decode_store x ho.opcode)
  have hop : opcodeOf w ≠ 0b0110011 := by
    rw [show opcodeOf w = 0b0100011 from ho.opcode]
    decide
  rw [h.dataOutput_add ho hop (by rw [hc]) (by rw [hc]), h.ce, ← extendImm_immS]
  simp [controlWordE, hc]

/-- An instruction without an access to memory does not use the data port. -/
theorem loadStore_of_access_none (h : s.Executes x w pc a b) (ho : o.Encodes w)
    (hn : Rv32.access o w a b = none) : s.ce.loadStore = false := by
  rw [h.ce]
  change (controlOf x w).loadStore = false
  cases o with
  | load wd u => exact absurd hn (Option.some_ne_none _)
  | store wd => exact absurd hn (Option.some_ne_none _)
  | lui => rw [controlOf_eq x (decode_lui x ho.opcode)]
  | auipc => rw [controlOf_eq x (decode_auipc x ho.opcode)]
  | jal => rw [controlOf_eq x (decode_jal x ho.opcode)]
  | jalr => rw [controlOf_eq x (decode_jalr x ho.opcode)]
  | branch c => rw [controlOf_eq x (decode_branch x ho.opcode)]
  | opImm f => rw [controlOf_eq x (decode_iType x ho.opcode)]
  | op f => rw [controlOf_eq x (decode_rType x ho.opcode)]
  | mul m => rw [controlOf_eq x (decode_rType x ho.opcode)]
  | fence => rw [controlOf_eq x (decode_fence x ho.opcode)]; rfl

/-- The memory stage holds a load, a store, or an instruction without an access. -/
theorem access_cases (h : s.Executes x w pc a b) (ho : o.Encodes w) (hm : s'.m = s.memoryInput)
    (hc : s'.cm = s.controlInputM) :
    (Rv32.access o w a b = none ∧ s'.cm.loadStore = false ∧ s'.cm.memWrite = false) ∨
      (∃ wd u, o = .load wd u ∧ Rv32.decodeLoad s'.m.funct3 = some (.load wd u) ∧
        s'.cm.loadStore = true ∧ s'.cm.memWrite = false ∧ s'.m.aluResult = a + Rv32.immI w) ∨
      ∃ wd, o = .store wd ∧ Rv32.decodeStore s'.m.funct3 = some (.store wd) ∧
        s'.cm.loadStore = true ∧ s'.cm.memWrite = true ∧ s'.cm.funct3 = s'.m.funct3 ∧
        s'.m.aluResult = a + Rv32.immS w ∧ s'.m.preWriteData = b := by
  have hf : s.e.funct3 = Rv32.funct3 w := by
    rw [h.e]
    rfl
  have hfc : s.ce.funct3 = Rv32.funct3 w := by
    rw [h.ce]
    rfl
  simp only [hm, hc, memoryInput, controlInputM, hf, hfc, h.writeDataE]
  -- a store is a load or store, so without an access nothing is written
  cases hacc : Rv32.access o w a b with
  | none =>
    have hls := h.loadStore_of_access_none ho hacc
    refine .inl ⟨rfl, hls, ?_⟩
    by_contra hmw
    rw [h.ce] at hls hmw
    have hof := controlOf_of_legal x (legal_of_encodes x ho)
    exact absurd (hls.symm.trans (hof.memWrite (Bool.not_eq_false _ ▸ hmw))) Bool.false_ne_true
  | some acc =>
    cases o with
    | load wd u =>
      obtain ⟨hls, hmw, hadr⟩ := h.access_load ho
      exact .inr (.inl ⟨wd, u, rfl, ho.fields, hls, hmw, hadr⟩)
    | store wd =>
      obtain ⟨hls, hmw, hadr⟩ := h.access_store ho
      exact .inr (.inr ⟨wd, rfl, ho.fields, hls, hmw, trivial, hadr, trivial⟩)
    | _ => exact absurd hacc.symm (Option.some_ne_none acc)

/-- An access that is aligned as the base instruction set asks for is flagged neither as a
misaligned store nor as a misaligned load. -/
theorem not_misaligned (h : s.Executes x w pc a b) (ho : o.Encodes w) (hm : s'.m = s.memoryInput)
    (hc : s'.cm = s.controlInputM) (ha : ∀ acc ∈ Rv32.access o w a b, acc.Aligned) :
    s'.storeMisalignedM = false ∧ s'.loadMisalignedM = false := by
  simp only [storeMisalignedM, loadMisalignedM, readAddressM]
  rcases h.access_cases ho hm hc with ⟨-, hls, hmw⟩ | ⟨wd, u, rfl, hf, hls, hmw, hadr⟩ |
    ⟨wd, rfl, hf, hls, hmw, -, hadr, -⟩
  · rw [hls, hmw]
    exact ⟨rfl, rfl⟩
  · have hal : (a + Rv32.immI w).toNat % wd.bytes = 0 := ha _ rfl
    rw [hmw, hadr]
    exact ⟨rfl, loadMisaligned_of_aligned hf (aligned_lane hal) _⟩
  · have hal : (a + Rv32.immS w).toNat % wd.bytes = 0 := ha _ rfl
    rw [hmw, hadr, Bool.not_true, Bool.and_false]
    exact ⟨storeMisaligned_of_aligned hf (aligned_lane hal) _, rfl⟩

/-- What a store puts on the lanes of the port. -/
theorem startedPort_store {wd : Rv32.Width} (hf : Rv32.decodeStore s'.m.funct3 = some (.store wd))
    (hmw : s'.cm.memWrite = true) (hfc : s'.cm.funct3 = s'.m.funct3)
    (ha : s'.m.aluResult.toNat % wd.bytes = 0) :
    s'.writeDataM =
        storeBytes wd s'.m.preWriteData <<< (8 * (s'.m.aluResult.extractLsb' 0 2).toNat) ∧
      s'.dSel x = laneMask wd <<< (s'.m.aluResult.extractLsb' 0 2).toNat := by
  have hlane := aligned_lane ha
  constructor
  · rw [writeDataM, hmw, readAddressM, writeDataOutput_eq hf hlane]
  · rw [dSel, memControlM, hmw, if_pos rfl, hfc, readAddressM, memoryDecoder_eq hf hlane]

/-- The transfer of the instruction is that of its access. -/
theorem transfer_eq (h : s.Executes x w pc a b) (ho : o.Encodes w) (hm : s'.m = s.memoryInput)
    (hc : s'.cm = s.controlInputM) (ha : ∀ acc ∈ Rv32.access o w a b, acc.Aligned) :
    (if s'.cm.loadStore then [(s'.startedPort x).transfer] else []) =
      (Rv32.access o w a b).toList.map Transfer.ofAccess := by
  -- the lanes matter only for a store
  rcases h.access_cases ho hm hc with ⟨hn, hls, -⟩ | ⟨wd, u, rfl, -, hls, hmw, hadr⟩ |
    ⟨wd, rfl, hf, hls, hmw, hfc, hadr, hdata⟩
  · rw [hn, hls]
    rfl
  · rw [hls, if_pos rfl, DataPort.transfer, startedPort, hmw, hadr, dSel, hmw]
    rfl
  · have hal : (a + Rv32.immS w).toNat % wd.bytes = 0 := ha _ rfl
    obtain ⟨hw, hsel⟩ := startedPort_store (x := x) hf hmw hfc (by rwa [hadr])
    rw [hls, if_pos rfl, DataPort.transfer, startedPort, hmw, hw, hsel, if_pos rfl,
      mergeLanes_store (by rw [hadr]; exact aligned_lane hal), hadr, hdata]
    rfl

/-- A word memory behind the port is written as `Rv32` writes its bytes. -/
theorem bytesOf_eq (h : s.Executes x w pc a b) (ho : o.Encodes w) (hm : s'.m = s.memoryInput)
    (hc : s'.cm = s.controlInputM) (ha : ∀ acc ∈ Rv32.access o w a b, acc.Aligned)
    (ram : BitVec 30 → BitVec 32) :
    bytesOf (if s'.cm.loadStore && s'.cm.memWrite then
        writeWord ram s'.m.aluResult s'.writeDataM (s'.dSel x) else ram) =
      Rv32.writeMemory (bytesOf ram) (Rv32.access o w a b) := by
  rcases h.access_cases ho hm hc with ⟨hn, hls, -⟩ | ⟨wd, u, rfl, -, hls, hmw, -⟩ |
    ⟨wd, rfl, hf, hls, hmw, hfc, hadr, hdata⟩
  · rw [hn, hls]
    rfl
  · rw [hls, hmw]
    rfl
  · have hal : (a + Rv32.immS w).toNat % wd.bytes = 0 := ha _ rfl
    obtain ⟨hw, hsel⟩ := startedPort_store (x := x) hf hmw hfc (by rwa [hadr])
    rw [hls, hmw, hw, hsel, hadr, hdata]
    exact bytesOf_writeWord hal ram b

/-- A load gets the value of `Rv32` from a word memory. -/
theorem readData_eq (h : s.Executes x w pc a b) {wd : Rv32.Width} {u : Bool}
    (ho : (Rv32.Op.load wd u).Encodes w) (hm : s'.m = s.memoryInput)
    (ha : (a + Rv32.immI w).toNat % wd.bytes = 0) (ram : BitVec 30 → BitVec 32) :
    maskExtend (ram (s'.m.aluResult.extractLsb' 2 30)) s'.readAddressM s'.m.funct3 =
      Rv32.loadValue (bytesOf ram) wd u (a + Rv32.immI w) := by
  have hf : s'.m.funct3 = Rv32.funct3 w := by
    rw [hm, memoryInput, h.e]
    rfl
  have hadr : s'.m.aluResult = a + Rv32.immI w := by
    rw [hm, memoryInput, (h.access_load ho).2.2]
  rw [readAddressM, hf, hadr]
  exact maskExtend_loadValue ho.fields ha ram

end Executes

end State

end RvPipelineCore

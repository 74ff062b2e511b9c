import RvPipelineCore.Datapath.Memory
import RvPipelineCore.Lib.Temporal
import RvPipelineCore.Step

/-!
# The RAM behind the data port

`ram_wb` of `rtl/wishbone_memory` answers a transfer one cycle after its strobe. Its write enable
stays up until the port lets go, so a store is written twice.

- `RamWb.bytes_next`: one edge with the lanes that the memory stage drives;
- `MemRun.Phase`: what port and RAM are doing, in every run;
- `MemRun.byte_memory`: loads and stores see the byte memory of `Rv32`.
-/

namespace RvPipelineCore

open Rv32

/-- The registers of `ram_wb`, with `SIZE_MEM` four times `2 ^ n`. -/
structure RamWb (n : ℕ) where
  mem : BitVec n → BitVec 32
  ack : Bool
  dataR : BitVec 32

namespace RamWb

variable {n : ℕ}

/-- `address`: the index of the word in the memory, which ignores the upper bits of the bus
address. -/
def address (n : ℕ) (adr : BitVec 32) : BitVec n := adr.extractLsb' 2 n

/-- `write_enable`: the lanes that are written at the clock edge, none unless a write is strobed. -/
def writeEnable (we : Bool) (sel : BitVec 4) (cyc stb : Bool) : BitVec 4 :=
  if we && stb && cyc then sel else 0

/-- One clock edge of the RAM: the selected lanes are written, the acknowledge follows the strobe
for one cycle, and the word is read as it was before. -/
def next (s : RamWb n) (rst : Bool) (adr dataW : BitVec 32) (we : Bool) (sel : BitVec 4)
    (cyc stb : Bool) : RamWb n where
  mem := fun i =>
    if i = address n adr then mergeLanes (s.mem i) dataW (writeEnable we sel cyc stb) else s.mem i
  ack := if rst then false else stb && cyc && !s.ack
  -- the word as it is before the edge
  dataR := s.mem (address n adr)

/-- The words of the RAM by their place in the address space, in which it repeats. -/
def words (s : RamWb n) (i : BitVec 30) : BitVec 32 := s.mem (i.setWidth n)

/-- The bytes that the RAM holds, as a byte memory over the whole address space. -/
def bytes (s : RamWb n) : BitVec 32 → BitVec 8 := bytesOf s.words

/-- The bytes of the RAM depend on its words only, and not on its two output registers. -/
theorem bytes_congr {s s' : RamWb n} (h : s.mem = s'.mem) : s.bytes = s'.bytes := by
  have hwords : s.words = s'.words := by
    funext i
    rw [words, words, h]
  rw [bytes, bytes, hwords]

/-- The address belongs to the RAM itself, and not to a copy of it further up. -/
def Inside (n : ℕ) (adr : BitVec 32) : Prop := adr.toNat < 4 * 2 ^ n

/-- Whether an address belongs to the RAM can be decided by a comparison. -/
instance (n : ℕ) (adr : BitVec 32) : Decidable (Inside n adr) :=
  inferInstanceAs (Decidable (_ < _))

/-- The index of a word is its address without the lane, cut to the size of the RAM. -/
theorem address_eq (n : ℕ) (adr : BitVec 32) :
    address n adr = (adr.extractLsb' 2 30).setWidth n := by
  have hadr := adr.isLt
  apply BitVec.eq_of_toNat_eq
  rw [address, BitVec.extractLsb'_toNat, BitVec.toNat_setWidth, BitVec.extractLsb'_toNat,
    Nat.shiftRight_eq_div_pow, Nat.mod_eq_of_lt (a := adr.toNat / 2 ^ 2) (b := 2 ^ 30) (by omega)]

/-- Within the RAM two addresses have the same index if and only if they are in the same word. -/
theorem address_eq_iff {p adr : BitVec 32} (hp : Inside n p) (ha : Inside n adr) :
    (p.extractLsb' 2 30).setWidth n = address n adr ↔
      p.extractLsb' 2 30 = adr.extractLsb' 2 30 := by
  have hlt := p.isLt
  have hlt' := adr.isLt
  rw [Inside] at hp ha
  rw [address_eq, ← BitVec.toNat_inj, ← BitVec.toNat_inj, BitVec.toNat_setWidth,
    BitVec.toNat_setWidth, BitVec.extractLsb'_toNat, BitVec.extractLsb'_toNat,
    Nat.shiftRight_eq_div_pow, Nat.shiftRight_eq_div_pow, Nat.mod_eq_of_lt (b := 2 ^ 30) (by omega),
    Nat.mod_eq_of_lt (b := 2 ^ 30) (by omega), Nat.mod_eq_of_lt (b := 2 ^ n) (by omega),
    Nat.mod_eq_of_lt (b := 2 ^ n) (by omega)]

/-- A write to the RAM is one to the words of the address space, seen from within. -/
theorem bytes_next (s : RamWb n) {p adr : BitVec 32} (hp : Inside n p) (ha : Inside n adr)
    (rst : Bool) (data : BitVec 32) (sel : BitVec 4) :
    (s.next rst adr data true sel true true).bytes p =
      bytesOf (writeWord s.words adr data sel) p := by
  have hword : (s.next rst adr data true sel true true).words (p.extractLsb' 2 30) =
      writeWord s.words adr data sel (p.extractLsb' 2 30) := by
    simp only [words, next, writeWord, address_eq_iff hp ha]
    rfl
  rw [bytes, bytesOf, bytesOf, hword]

/-- A clock edge without a strobed write leaves the memory as it is. -/
theorem mem_next_of_not (s : RamWb n) {we cyc stb : Bool} (h : (we && stb && cyc) = false)
    (rst : Bool) (adr data : BitVec 32) (sel : BitVec 4) :
    (s.next rst adr data we sel cyc stb).mem = s.mem := by
  funext i
  have hkeep : mergeLanes (s.mem i) data 0 = s.mem i := bytes_append (s.mem i)
  simp only [next, writeEnable, h, Bool.false_eq_true, if_false, hkeep, ite_self]

end RamWb

/-! ## The memory stage and the port -/

/-- A load or store in the memory stage, with the signals that the port is asked with. -/
structure MemStage where
  valid : Bool
  memWrite : Bool
  funct3 : BitVec 3
  address : BitVec 32
  preWriteData : BitVec 32

namespace MemStage

variable (x : BitVec 4) (m : MemStage)

/-- `read_address`: the offset of the access in its word. -/
def readAddress : BitVec 2 := m.address.extractLsb' 0 2

/-- `write_data_output` of `memory_store`; `q` is the value of its latch. -/
def writeData (q : BitVec 32) : BitVec 32 :=
  writeDataOutput m.preWriteData m.funct3 m.readAddress m.memWrite q

/-- `d_sel`: the lanes that the memory stage selects, which are all four for a load. -/
def sel : BitVec 4 :=
  if m.memWrite then memoryDecoder x m.memWrite m.funct3 m.readAddress else 0b1111

/-- The access to memory that the stage asks for, if its `funct3` is one of a load or a store. -/
def access : Option Access :=
  match if m.memWrite then decodeStore m.funct3 else decodeLoad m.funct3 with
  | some (.load wd _) => some (.load wd m.address)
  | some (.store wd) => some (.store wd m.address m.preWriteData)
  | _ => none

/-- The access of the stage is one of the base instruction set, naturally aligned and within the
RAM. -/
def Legal (n : ℕ) : Prop := ∃ acc, m.access = some acc ∧ acc.Aligned ∧ RamWb.Inside n m.address

/-- A legal access is a load or a store, by `mem_write`. -/
theorem Legal.cases {n : ℕ} {m : MemStage} (h : m.Legal n) :
    (∃ wd u, m.memWrite = false ∧ decodeLoad m.funct3 = some (.load wd u) ∧
        m.access = some (.load wd m.address) ∧ m.address.toNat % wd.bytes = 0) ∨
      ∃ wd, m.memWrite = true ∧ decodeStore m.funct3 = some (.store wd) ∧
        m.access = some (.store wd m.address m.preWriteData) ∧
        m.address.toNat % wd.bytes = 0 := by
  obtain ⟨acc, hacc, hal, -⟩ := h
  -- `funct3` gives the width of a load and of a store
  cases hw : m.memWrite with
  | false =>
    cases hd : decodeLoad m.funct3 with
    | none => simp [access, hw, hd] at hacc
    | some o =>
      obtain ⟨wd, u, rfl⟩ := load_of_decodeLoad hd
      have haccess : m.access = some (.load wd m.address) := by simp [access, hw, hd]
      obtain rfl := Option.some.inj (haccess.symm.trans hacc)
      exact .inl ⟨wd, u, rfl, rfl, haccess, hal⟩
  | true =>
    cases hd : decodeStore m.funct3 with
    | none => simp [access, hw, hd] at hacc
    | some o =>
      obtain ⟨wd, rfl⟩ := store_of_decodeStore hd
      have haccess : m.access = some (.store wd m.address m.preWriteData) := by
        simp [access, hw, hd]
      obtain rfl := Option.some.inj (haccess.symm.trans hacc)
      exact .inr ⟨wd, rfl, rfl, haccess, hal⟩

/-- The data port drives the access of the memory stage: its registers hold the address, the data
and the lanes of the stage. -/
structure Drives (p : DataPort) : Prop where
  valid : m.valid = true
  state : p.state = .active
  adr : p.adr = m.address
  cyc : p.cyc = true
  stb : p.stb = true
  we : p.we = m.memWrite
  dataW : m.memWrite = true → p.dataW = m.writeData 0
  sel : m.memWrite = true → p.sel = m.sel x

end MemStage

/-- The memory stage of the core, as far as its accesses to memory are concerned. -/
def State.memStage (s : State) : MemStage :=
  ⟨s.dValid, s.cm.memWrite, s.m.funct3, s.m.aluResult, s.m.preWriteData⟩

/-- The port of the core is asked with these signals. -/
theorem State.step_dPort (x : DontCare) (s : State) (i : Inputs)
    (hexc : s.isInstrExceptionM = false) (hf : s.cm.funct3 = s.m.funct3) :
    (s.step x i).dPort = s.dPort.next s.memStage.valid s.memStage.memWrite s.memStage.address
      (s.memStage.writeData s.writeDataOutput) (s.memStage.sel x.memControl) i.dWbAck := by
  have hwe : s.dWe = s.cm.memWrite := by simp [State.dWe, hexc]
  have hsel : s.dSel x = s.memStage.sel x.memControl := by
    rw [State.dSel, State.memControlM, hf]
    rfl
  rw [← hsel]
  change s.dPort.next s.dValid s.dWe _ _ _ _ = _
  rw [hwe]
  rfl

/-! ## Port and RAM together -/

/-- The port with the RAM behind it, and the latch of `memory_store` in front. -/
structure MemSystem (n : ℕ) where
  port : DataPort
  ram : RamWb n
  writeDataOutput : BitVec 32

/-- One clock edge of the port and the RAM, with `m` in the memory stage. -/
def MemSystem.step {n : ℕ} (x : BitVec 4) (s : MemSystem n) (m : MemStage) : MemSystem n where
  port := s.port.next m.valid m.memWrite m.address (m.writeData s.writeDataOutput) (m.sel x)
    s.ram.ack
  ram := s.ram.next false s.port.adr s.port.dataW s.port.we s.port.sel s.port.cyc s.port.stb
  writeDataOutput := m.writeData s.writeDataOutput

/-- A run of loads and stores to the RAM, with any gaps. The memory stage holds an access until it
is acknowledged. -/
structure MemRun (n : ℕ) (x : BitVec 4) where
  state : ℕ → MemSystem n
  stage : ℕ → MemStage
  port_zero : (state 0).port.state = .idle
  stb_zero : (state 0).port.stb = false
  ack_zero : (state 0).ram.ack = false
  next : ∀ t, state (t + 1) = (state t).step x (stage t)
  held : ∀ t, (stage t).valid = true → (state t).ram.ack = false → stage (t + 1) = stage t
  legal : ∀ t, (stage t).valid = true → (stage t).Legal n

namespace MemRun

variable {n : ℕ} {x : BitVec 4} (r : MemRun n x)

/-- The access in the memory stage is acknowledged in this cycle, and so is done. -/
def completes (t : ℕ) : Bool := (r.stage t).valid && (r.state t).ram.ack

/-- The bytes after the accesses that are done before cycle `t`. -/
def memory : ℕ → BitVec 32 → BitVec 8
  | 0 => (r.state 0).ram.bytes
  | t + 1 =>
    if r.completes t then writeMemory (memory t) (r.stage t).access else memory t

/-- `out_data` of `mask_extend`: the value that a load in the memory stage gets in this cycle. -/
def readDataExt (t : ℕ) : BitVec 32 :=
  maskExtend (r.state t).ram.dataR (r.stage t).readAddress (r.stage t).funct3

/-- The RAM holds the bytes of `mem` at all its own addresses. -/
def Holds (t : ℕ) (mem : BitVec 32 → BitVec 8) : Prop :=
  ∀ p, RamWb.Inside n p → (r.state t).ram.bytes p = mem p

/-- What port and RAM are doing: nothing, or the strobe is up, or it has been answered, with the
store done and the word read. -/
inductive Phase (t : ℕ) : Prop
  | idle (port : (r.state t).port.state = .idle) (stb : (r.state t).port.stb = false)
      (ack : (r.state t).ram.ack = false) (holds : r.Holds t (r.memory t))
  | asked (drives : (r.stage t).Drives x (r.state t).port) (ack : (r.state t).ram.ack = false)
      (holds : r.Holds t (r.memory t))
  | answered (drives : (r.stage t).Drives x (r.state t).port) (ack : (r.state t).ram.ack = true)
      (holds : r.Holds t (writeMemory (r.memory t) (r.stage t).access))
      (data : (r.stage t).memWrite = false →
        (r.state t).ram.dataR = (r.state t).ram.mem (RamWb.address n (r.stage t).address))

variable {r} {t : ℕ}

/-- The next data port of a run, from the access in the memory stage and the acknowledge of the
RAM. -/
theorem succ_port : (r.state (t + 1)).port = (r.state t).port.next (r.stage t).valid
    (r.stage t).memWrite (r.stage t).address ((r.stage t).writeData (r.state t).writeDataOutput)
    ((r.stage t).sel x) (r.state t).ram.ack := by
  rw [r.next]
  rfl

/-- The next RAM of a run, from what the data port drives. -/
theorem succ_ram : (r.state (t + 1)).ram = (r.state t).ram.next false (r.state t).port.adr
    (r.state t).port.dataW (r.state t).port.we (r.state t).port.sel (r.state t).port.cyc
    (r.state t).port.stb := by
  rw [r.next]
  rfl

/-- In a cycle that does not complete an access the memory of the completed accesses stays as it
is. -/
theorem memory_succ_of_not (h : r.completes t = false) : r.memory (t + 1) = r.memory t := by
  rw [memory, h]
  rfl

/-- A cycle that completes an access adds its store to the memory of the completed accesses. -/
theorem memory_succ (h : r.completes t = true) :
    r.memory (t + 1) = writeMemory (r.memory t) (r.stage t).access := by
  rw [memory, h]
  rfl

/-- A write to the same bytes has no effect after the first. -/
theorem writeMemory_idem (mem : BitVec 32 → BitVec 8) (acc : Option Access) :
    writeMemory (writeMemory mem acc) acc = writeMemory mem acc := by
  rcases acc with _ | ⟨wd, adr⟩ | ⟨wd, adr, v⟩
  · rfl
  · rfl
  · funext p
    simp only [writeMemory, storeValue]
    split_ifs <;> rfl

/-- The effect of a store on a byte depends, apart from the store, on this byte only. -/
theorem writeMemory_congr {mem mem' : BitVec 32 → BitVec 8} {p : BitVec 32} (h : mem p = mem' p)
    (acc : Option Access) : writeMemory mem acc p = writeMemory mem' acc p := by
  rcases acc with _ | ⟨wd, adr⟩ | ⟨wd, adr, v⟩
  · exact h
  · exact h
  · simp only [writeMemory, storeValue, h]

/-- A clock edge with the strobe up does the store of the access on the bytes of the RAM. -/
theorem holds_succ (h : (r.stage t).Drives x (r.state t).port) {mem : BitVec 32 → BitVec 8}
    (hm : r.Holds t mem) : r.Holds (t + 1) (writeMemory mem (r.stage t).access) := by
  intro p hp
  have hlegal := r.legal t h.valid
  obtain ⟨-, -, -, hin⟩ := id hlegal
  rw [← writeMemory_congr (hm p hp), succ_ram, h.adr, h.cyc, h.stb, h.we]
  -- a load leaves the memory as it is, and a store writes its lanes
  rcases hlegal.cases with ⟨wd, u, hw, -, hacc, -⟩ | ⟨wd, hw, hd, hacc, hal⟩
  · rw [hw, hacc]
    exact congrFun (RamWb.bytes_congr (RamWb.mem_next_of_not _ rfl _ _ _ _)) p
  · have hlane := aligned_lane hal
    have hdata : (r.stage t).writeData 0 = storeBytes wd (r.stage t).preWriteData <<<
        (8 * ((r.stage t).address.extractLsb' 0 2).toNat) := by
      rw [MemStage.writeData, hw]
      exact writeDataOutput_eq hd hlane _ _
    have hsel : (r.stage t).sel x =
        laneMask wd <<< ((r.stage t).address.extractLsb' 0 2).toNat := by
      rw [MemStage.sel, hw, if_pos rfl]
      exact memoryDecoder_eq hd hlane x
    rw [hw, h.dataW hw, h.sel hw, RamWb.bytes_next _ hp hin, hdata, hsel, bytesOf_writeWord hal,
      hacc]
    rfl

/-- An idle port takes up the access in the memory stage. -/
theorem Phase.succ_idle (port : (r.state t).port.state = .idle)
    (stb : (r.state t).port.stb = false) (ack : (r.state t).ram.ack = false)
    (holds : r.Holds t (r.memory t)) : r.Phase (t + 1) := by
  have hdone : r.completes t = false := by simp [completes, ack]
  have hack : (r.state (t + 1)).ram.ack = false := by
    rw [succ_ram, stb]
    rfl
  have hholds : r.Holds (t + 1) (r.memory (t + 1)) := by
    intro p hp
    rw [memory_succ_of_not hdone, ← holds p hp, succ_ram,
      RamWb.bytes_congr (RamWb.mem_next_of_not _ (by simp [stb]) _ _ _ _)]
  have hport := succ_port (r := r) (t := t)
  rw [DataPort.next, port] at hport
  -- a request begins as soon as the stage holds an access
  by_cases hv : (r.stage t).valid = true
  · have hstage := r.held t hv ack
    simp only [hv, if_true] at hport
    refine .asked ?_ hack hholds
    rw [hport, hstage]
    refine ⟨hv, rfl, rfl, rfl, rfl, rfl, fun hw => ?_, fun _ => rfl⟩
    rw [MemStage.writeData, MemStage.writeData, hw]
    rfl
  · simp only [hv, Bool.false_eq_true, if_false] at hport
    exact .idle (by rw [hport]) (by rw [hport]) hack hholds

/-- After a cycle with the strobe up and no acknowledge yet, the access has been answered. -/
theorem Phase.succ_asked (drives : (r.stage t).Drives x (r.state t).port)
    (ack : (r.state t).ram.ack = false) (holds : r.Holds t (r.memory t)) : r.Phase (t + 1) := by
  have hdone : r.completes t = false := by simp [completes, ack]
  have hstage := r.held t drives.valid ack
  have hport : (r.state (t + 1)).port = (r.state t).port := by
    rw [succ_port, DataPort.next, drives.state, ack]
    rfl
  have hack : (r.state (t + 1)).ram.ack = true := by
    rw [succ_ram, drives.cyc, drives.stb]
    simp [RamWb.next, ack]
  -- the RAM acknowledges in the next cycle, and has read the word by then
  refine .answered ?_ hack ?_ fun hw => ?_
  · rw [hport, hstage]
    exact drives
  · rw [memory_succ_of_not hdone, hstage]
    exact holds_succ drives holds
  · rw [hstage] at hw ⊢
    have hread : ((r.state t).port.we && (r.state t).port.stb && (r.state t).port.cyc) = false := by
      rw [drives.we, hw]
      rfl
    rw [succ_ram, RamWb.mem_next_of_not _ hread, ← drives.adr]
    rfl

/-- After the cycle of the acknowledge the port lets go and both are idle. -/
theorem Phase.succ_answered (drives : (r.stage t).Drives x (r.state t).port)
    (ack : (r.state t).ram.ack = true)
    (holds : r.Holds t (writeMemory (r.memory t) (r.stage t).access)) : r.Phase (t + 1) := by
  have hdone : r.completes t = true := by simp [completes, ack, drives.valid]
  have hport := succ_port (r := r) (t := t)
  rw [DataPort.next, drives.state, ack] at hport
  simp only [if_true] at hport
  refine .idle (by rw [hport]) (by rw [hport]) ?_ ?_
  · rw [succ_ram]
    simp [RamWb.next, ack]
  · -- the second write finds the bytes of the first
    rw [memory_succ hdone, ← writeMemory_idem]
    exact holds_succ drives holds

/-- Every cycle of a run of loads and stores is in one of the three phases. -/
theorem phase (t : ℕ) : r.Phase t := by
  induction t with
  | zero => exact .idle r.port_zero r.stb_zero r.ack_zero fun p _ => rfl
  | succ t ih =>
    cases ih with
    | idle port stb ack holds => exact .succ_idle port stb ack holds
    | asked drives ack holds => exact .succ_asked drives ack holds
    | answered drives ack holds data => exact .succ_answered drives ack holds

/-- What a load reads depends on the bytes from its address upwards only. -/
theorem loadValue_congr {mem mem' : BitVec 32 → BitVec 8} {wd : Width} {adr : BitVec 32}
    (h : ∀ j < wd.bytes, mem (adr + BitVec.ofNat 32 j) = mem' (adr + BitVec.ofNat 32 j))
    (u : Bool) : loadValue mem wd u adr = loadValue mem' wd u adr := by
  have h0 : mem adr = mem' adr := by
    have h0 := h 0 (by cases wd <;> decide)
    rwa [show adr + BitVec.ofNat 32 0 = adr from BitVec.add_zero adr] at h0
  cases wd with
  | byte => rw [loadValue, loadValue, h0]
  | half =>
    have h1 : mem (adr + 1) = mem' (adr + 1) := h 1 (by decide)
    rw [loadValue, loadValue, h0, h1]
  | word =>
    have h1 : mem (adr + 1) = mem' (adr + 1) := h 1 (by decide)
    have h2 : mem (adr + 2) = mem' (adr + 2) := h 2 (by decide)
    have h3 : mem (adr + 3) = mem' (adr + 3) := h 3 (by decide)
    rw [loadValue, loadValue, h0, h1, h2, h3]

/-- The bytes of an aligned access are in the RAM if its address is. -/
theorem inside_add {wd : Width} {adr : BitVec 32} (ha : adr.toNat % wd.bytes = 0)
    (hin : RamWb.Inside n adr) {j : ℕ} (hj : j < wd.bytes) :
    RamWb.Inside n (adr + BitVec.ofNat 32 j) := by
  have hadr := adr.isLt
  rw [RamWb.Inside] at hin ⊢
  rw [BitVec.toNat_add, BitVec.toNat_ofNat]
  cases wd <;> simp only [Width.bytes] at ha hj <;> omega

/-- An acknowledged load gets the value of its bytes in the memory of the accesses completed
before. -/
theorem readDataExt_eq (hdone : r.completes t = true) {wd : Width} {u : Bool}
    (hw : (r.stage t).memWrite = false)
    (hd : decodeLoad (r.stage t).funct3 = some (.load wd u)) :
    r.readDataExt t = loadValue (r.memory t) wd u (r.stage t).address := by
  rw [completes, Bool.and_eq_true] at hdone
  obtain ⟨hv, hack⟩ := hdone
  obtain ⟨acc, hacc, hal, hin⟩ := r.legal t hv
  obtain rfl : Access.load wd (r.stage t).address = acc := by
    simpa [MemStage.access, hw, hd] using hacc
  -- only a request that has been answered is completed
  cases phase (r := r) t with
  | idle _ _ ack => simp [ack] at hack
  | asked _ ack => simp [ack] at hack
  | answered drives _ holds data =>
    rw [readDataExt, data hw, RamWb.address_eq]
    refine (maskExtend_loadValue hd hal (r.state t).ram.words).trans ?_
    refine loadValue_congr (fun j hj => ?_) u
    have hbyte := holds _ (inside_add hal hin hj)
    rwa [hacc] at hbyte

/-- An access is acknowledged at most two cycles after it has come. -/
theorem completes_within (hv : (r.stage t).valid = true) :
    ∃ k ≤ 2, r.stage (t + k) = r.stage t ∧ r.completes (t + k) = true := by
  have hasked : ∀ u, (r.stage u).valid = true → (r.state u).port.stb = true →
      (r.state u).port.cyc = true → (r.state u).ram.ack = false →
        r.stage (u + 1) = r.stage u ∧ r.completes (u + 1) = true := by
    intro u hu hstb hcyc hack
    have hstage := r.held u hu hack
    refine ⟨hstage, ?_⟩
    rw [completes, hstage, hu, succ_ram, hstb, hcyc]
    simp [RamWb.next, hack]
  -- the access completes at once, in the next cycle or one later, by where the port is
  cases phase (r := r) t with
  | answered _ ack => exact ⟨0, by decide, rfl, by simp [completes, hv, ack]⟩
  | asked drives ack => exact ⟨1, by decide, hasked t hv drives.stb drives.cyc ack⟩
  | idle port stb ack =>
    have hstage := r.held t hv ack
    have hport := succ_port (r := r) (t := t)
    rw [DataPort.next, port, hv] at hport
    obtain ⟨hstage', hdone⟩ := hasked (t + 1) (hstage ▸ hv) (by rw [hport]; rfl)
      (by rw [hport]; rfl) (by rw [succ_ram, stb]; rfl)
    exact ⟨2, le_rfl, hstage'.trans hstage, hdone⟩

variable (r)

/-- Every access is acknowledged. Loads return the bytes of the byte memory that the accesses before
them have left, and the RAM holds its bytes. -/
theorem byte_memory (t : ℕ) :
    ((r.stage t).valid = true →
        ∃ k ≤ 2, r.stage (t + k) = r.stage t ∧ r.completes (t + k) = true) ∧
      (r.completes t = true → ∀ wd u, (r.stage t).memWrite = false →
        decodeLoad (r.stage t).funct3 = some (.load wd u) →
          r.readDataExt t = loadValue (r.memory t) wd u (r.stage t).address) ∧
      ∀ p, RamWb.Inside n p → (r.state t).ram.bytes p =
        if (r.state t).ram.ack then r.memory (t + 1) p else r.memory t p := by
  refine ⟨completes_within, fun hdone wd u => readDataExt_eq hdone, fun p hp => ?_⟩
  cases phase (r := r) t with
  | idle _ _ ack holds => rw [ack, holds p hp]; rfl
  | asked _ ack holds => rw [ack, holds p hp]; rfl
  | answered drives ack holds =>
    have hdone : r.completes t = true := by simp [completes, ack, drives.valid]
    rw [ack, if_pos rfl, memory_succ hdone, holds p hp]

/-! ### An example -/

/-- A `sb` of `0xab` to address 1, and a `lw` of the word around it right behind it. -/
def exampleStage (t : ℕ) : MemStage :=
  if t < 3 then ⟨true, true, 0b000, 1, 0xab⟩ else ⟨decide (t < 6), false, 0b010, 0, 0⟩

/-- The states of that run, in a RAM of eight bytes that holds 1 in each word. -/
def exampleState : ℕ → MemSystem 1
  | 0 => ⟨⟨.idle, 0, 0, false, false, false, 0⟩, ⟨fun _ => 1, false, 0⟩, 0⟩
  | t + 1 => (exampleState t).step 0 (exampleStage t)

/-- The run of a `sb` to address 1 and a `lw` of the word around it, in a RAM of two words. -/
def exampleRun : MemRun 1 0 where
  state := exampleState
  stage := exampleStage
  port_zero := rfl
  stb_zero := rfl
  ack_zero := rfl
  next _ := rfl
  held t hv hack := by
    -- the two accesses are acknowledged in cycles 2 and 5
    obtain rfl | rfl | hlt | hge : t = 2 ∨ t = 5 ∨ (t ≠ 2 ∧ t < 5) ∨ 5 < t := by omega
    · exact absurd hack (by decide)
    · exact absurd hack (by decide)
    · simp only [exampleStage]
      split_ifs <;> first | rfl | omega | simp [show t < 6 by omega, show t + 1 < 6 by omega]
    · simp [exampleStage, show ¬ t < 3 by omega, show ¬ t < 6 by omega] at hv
  legal t hv := by
    by_cases ht : t < 3
    · rw [exampleStage, if_pos ht]
      exact ⟨_, rfl, by decide, by decide⟩
    · rw [exampleStage, if_neg ht]
      exact ⟨.load .word 0, rfl, by decide, show RamWb.Inside 1 0 by decide⟩

/-- The load gets the new byte, and the others as they were. -/
theorem byte_memory_lw : exampleRun.readDataExt 5 = 0xab01 ∧
    exampleRun.readDataExt 5 = loadValue (exampleRun.memory 5) .word false 0 :=
  ⟨by decide, (byte_memory exampleRun 5).2.1 (by decide) .word false (by decide) (by decide)⟩

end MemRun

end RvPipelineCore

import Mathlib.Data.BitVec

/-!
# A sequential RV32I machine with Zmmul

An interpreter of the base integer instruction set without the `SYSTEM` opcode, and of the four
multiplications, after the RISC-V unprivileged specification. It names no processor.

- `Rv32.decode`: the operation of an instruction word, `none` for a word that is not legal;
- `Rv32.Machine.step`: one instruction;
- `Rv32.Machine.after`, `Rv32.Machine.accesses`: the state and the memory accesses of a run.

Memory is little-endian and byte-addressed. An instruction reads its registers through
`Machine.read`, for which `x0` is zero whatever was written to it.
-/

namespace Rv32

/-- The width of a memory access of the base instruction set: one, two or four bytes. -/
inductive Width
  | byte
  | half
  | word
  deriving DecidableEq

/-- The number of bytes that an access of this width covers, starting at its address. -/
def Width.bytes : Width → ℕ
  | byte => 1
  | half => 2
  | word => 4

/-- The conditions under which the six branch instructions are taken, each on two registers. -/
inductive Cond
  | eq
  | ne
  | lt
  | ge
  | ltu
  | geu
  deriving DecidableEq

/-- The condition holds of the two values, with the comparisons signed or unsigned as the
instruction says. -/
def Cond.holds (a b : BitVec 32) : Cond → Bool
  | eq => a == b
  | ne => a != b
  | lt => a.slt b
  | ge => !a.slt b
  | ltu => a.ult b
  | geu => !a.ult b

/-- The operations of the instructions on two registers and on a register and an immediate. -/
inductive AluOp
  | add
  | sub
  | sll
  | slt
  | sltu
  | xor
  | srl
  | sra
  | or
  | and
  deriving DecidableEq

/-- A shift takes its amount from the low five bits. -/
def AluOp.eval (a b : BitVec 32) : AluOp → BitVec 32
  | add => a + b
  | sub => a - b
  | sll => a <<< (b.toNat % 32)
  | slt => if a.slt b then 1 else 0
  | sltu => if a.ult b then 1 else 0
  | xor => a ^^^ b
  | srl => a >>> (b.toNat % 32)
  | sra => a.sshiftRight (b.toNat % 32)
  | or => a ||| b
  | and => a &&& b

/-- The four multiplications, which give the lower or the upper half of a signed, unsigned or mixed
product. -/
inductive MulOp
  | mul
  | mulh
  | mulhsu
  | mulhu
  deriving DecidableEq

/-- The high half is that of the 64-bit product of the extended operands. -/
def MulOp.eval (a b : BitVec 32) : MulOp → BitVec 32
  | mul => a * b
  | mulh => (a.signExtend 64 * b.signExtend 64).extractLsb' 32 32
  | mulhsu => (a.signExtend 64 * b.setWidth 64).extractLsb' 32 32
  | mulhu => (a.setWidth 64 * b.setWidth 64).extractLsb' 32 32

/-- The operations. Registers and immediates stay in the instruction word. -/
inductive Op
  | lui
  | auipc
  | jal
  | jalr
  | branch (c : Cond)
  | load (w : Width) (unsigned : Bool)
  | store (w : Width)
  | opImm (o : AluOp)
  | op (o : AluOp)
  | mul (m : MulOp)
  | fence
  deriving DecidableEq

/-! ## Fields -/

section Fields

variable (w : BitVec 32)

/-- The field of bits 6 to 0, which gives the format of the word. -/
def opcode : BitVec 7 := w.extractLsb' 0 7
/-- The field of bits 14 to 12, which selects the operation within an opcode. -/
def funct3 : BitVec 3 := w.extractLsb' 12 3
/-- The field of bits 31 to 25, which tells the register instructions with one `funct3` apart. -/
def funct7 : BitVec 7 := w.extractLsb' 25 7
/-- The number of the destination register, in bits 11 to 7. -/
def rd : BitVec 5 := w.extractLsb' 7 5
/-- The number of the first source register, in bits 19 to 15. -/
def rs1 : BitVec 5 := w.extractLsb' 15 5
/-- The number of the second source register, in bits 24 to 20. -/
def rs2 : BitVec 5 := w.extractLsb' 20 5

/-- The immediate of the I format, extended by its sign: loads, `jalr` and the instructions on an
immediate. -/
def immI : BitVec 32 := (w.extractLsb' 20 12).signExtend 32

/-- The immediate of the S format, extended by its sign: the offset of a store, in two parts of the
word. -/
def immS : BitVec 32 := (w.extractLsb' 25 7 ++ w.extractLsb' 7 5).signExtend 32

/-- The immediate of the B format, extended by its sign: the even offset of a branch. -/
def immB : BitVec 32 :=
  (w.extractLsb' 31 1 ++ w.extractLsb' 7 1 ++ w.extractLsb' 25 6 ++ w.extractLsb' 8 4 ++
    0#1).signExtend 32

/-- The immediate of the U format: the upper twenty bits of a word, the others zero. -/
def immU : BitVec 32 := w.extractLsb' 12 20 ++ 0#12

/-- The immediate of the J format, extended by its sign: the even offset of `jal`. -/
def immJ : BitVec 32 :=
  (w.extractLsb' 31 1 ++ w.extractLsb' 12 8 ++ w.extractLsb' 20 1 ++ w.extractLsb' 21 10 ++
    0#1).signExtend 32

end Fields

/-! ## Decoding -/

/-- The condition of a branch with this `funct3`, if there is one. -/
def decodeCond (f : BitVec 3) : Option Cond :=
  if f = 0b000 then some .eq
  else if f = 0b001 then some .ne
  else if f = 0b100 then some .lt
  else if f = 0b101 then some .ge
  else if f = 0b110 then some .ltu
  else if f = 0b111 then some .geu
  else none

/-- The load with this `funct3`: its width, and whether the value is extended without its sign. -/
def decodeLoad (f : BitVec 3) : Option Op :=
  if f = 0b000 then some (.load .byte false)
  else if f = 0b001 then some (.load .half false)
  else if f = 0b010 then some (.load .word false)
  else if f = 0b100 then some (.load .byte true)
  else if f = 0b101 then some (.load .half true)
  else none

/-- The store with this `funct3`, if there is one. -/
def decodeStore (f : BitVec 3) : Option Op :=
  if f = 0b000 then some (.store .byte)
  else if f = 0b001 then some (.store .half)
  else if f = 0b010 then some (.store .word)
  else none

/-- The immediate instructions; the shifts have a `funct7`, the others an immediate there. -/
def decodeOpImm (f : BitVec 3) (f7 : BitVec 7) : Option AluOp :=
  if f = 0b000 then some .add
  else if f = 0b001 then (if f7 = 0b0000000 then some .sll else none)
  else if f = 0b010 then some .slt
  else if f = 0b011 then some .sltu
  else if f = 0b100 then some .xor
  else if f = 0b101 then
    (if f7 = 0b0000000 then some .srl else if f7 = 0b0100000 then some .sra else none)
  else if f = 0b110 then some .or
  else some .and

/-- The operation of a register instruction whose `funct7` is zero, for each value of `funct3`. -/
def baseOp (f : BitVec 3) : AluOp :=
  if f = 0b000 then .add
  else if f = 0b001 then .sll
  else if f = 0b010 then .slt
  else if f = 0b011 then .sltu
  else if f = 0b100 then .xor
  else if f = 0b101 then .srl
  else if f = 0b110 then .or
  else .and

/-- The multiplication with this `funct3`. The other four values belong to the divisions, which are
not among the operations here. -/
def decodeMul (f : BitVec 3) : Option MulOp :=
  if f = 0b000 then some .mul
  else if f = 0b001 then some .mulh
  else if f = 0b010 then some .mulhsu
  else if f = 0b011 then some .mulhu
  else none

/-- The operation of a register instruction with these two fields: one of the base set, or a
multiplication. -/
def decodeOp (f : BitVec 3) (f7 : BitVec 7) : Option Op :=
  if f7 = 0b0000000 then some (.op (baseOp f))
  else if f7 = 0b0100000 then
    (if f = 0b000 then some (.op .sub) else if f = 0b101 then some (.op .sra) else none)
  else if f7 = 0b0000001 then (decodeMul f).map .mul
  else none

/-- The operation that a word encodes, if it is an instruction of the base set or a
multiplication. -/
def decode (w : BitVec 32) : Option Op :=
  if opcode w = 0b0110111 then some .lui
  else if opcode w = 0b0010111 then some .auipc
  else if opcode w = 0b1101111 then some .jal
  else if opcode w = 0b1100111 then (if funct3 w = 0b000 then some .jalr else none)
  else if opcode w = 0b1100011 then (decodeCond (funct3 w)).map .branch
  else if opcode w = 0b0000011 then decodeLoad (funct3 w)
  else if opcode w = 0b0100011 then decodeStore (funct3 w)
  else if opcode w = 0b0010011 then (decodeOpImm (funct3 w) (funct7 w)).map .opImm
  else if opcode w = 0b0110011 then decodeOp (funct3 w) (funct7 w)
  else if opcode w = 0b0001111 then (if funct3 w = 0b000 then some .fence else none)
  else none

/-- The opcode that every word encoding the operation has. -/
def Op.opcode : Op → BitVec 7
  | lui => 0b0110111
  | auipc => 0b0010111
  | jal => 0b1101111
  | jalr => 0b1100111
  | branch _ => 0b1100011
  | load _ _ => 0b0000011
  | store _ => 0b0100011
  | opImm _ => 0b0010011
  | op _ => 0b0110011
  | mul _ => 0b0110011
  | fence => 0b0001111

/-- What `funct3` and `funct7` must be for a word to encode the operation, beyond its opcode. -/
def Op.Fields (f : BitVec 3) (f7 : BitVec 7) : Op → Prop
  | branch c => decodeCond f = some c
  | load wd u => decodeLoad f = some (load wd u)
  | store wd => decodeStore f = some (store wd)
  | opImm o => decodeOpImm f f7 = some o
  | op o => decodeOp f f7 = some (op o)
  | mul m => decodeOp f f7 = some (mul m)
  | _ => True

/-- The word has the opcode of the operation and its two function fields. -/
structure Op.Encodes (o : Op) (w : BitVec 32) : Prop where
  opcode : Rv32.opcode w = o.opcode
  fields : o.Fields (funct3 w) (funct7 w)

/-- The load decoder gives loads only. -/
theorem load_of_decodeLoad {f : BitVec 3} {o : Op} (h : decodeLoad f = some o) :
    ∃ wd u, o = .load wd u := by
  unfold decodeLoad at h
  split_ifs at h <;> exact ⟨_, _, (Option.some.inj h).symm⟩

/-- The store decoder gives stores only. -/
theorem store_of_decodeStore {f : BitVec 3} {o : Op} (h : decodeStore f = some o) :
    ∃ wd, o = .store wd := by
  unfold decodeStore at h
  split_ifs at h <;> exact ⟨_, (Option.some.inj h).symm⟩

/-- The decoder of the register instructions gives an operation of the base set or a
multiplication. -/
theorem op_of_decodeOp {f : BitVec 3} {f7 : BitVec 7} {o : Op} (h : decodeOp f f7 = some o) :
    (∃ a, o = .op a) ∨ ∃ m, o = .mul m := by
  unfold decodeOp at h
  split_ifs at h
  · exact .inl ⟨_, (Option.some.inj h).symm⟩
  · exact .inl ⟨_, (Option.some.inj h).symm⟩
  · exact .inl ⟨_, (Option.some.inj h).symm⟩
  · obtain ⟨m, -, rfl⟩ := Option.map_eq_some_iff.mp h
    exact .inr ⟨m, rfl⟩

/-- A word that is decoded to an operation has the opcode and the function fields of this
operation. -/
theorem encodes_of_decode {w : BitVec 32} {o : Op} (h : decode w = some o) : o.Encodes w := by
  rw [decode] at h
  -- the opcodes are tried in the order of `decode`
  by_cases hop : opcode w = 0b0110111
  · rw [if_pos hop] at h
    obtain rfl := Option.some.inj h
    exact ⟨hop, trivial⟩
  rw [if_neg hop] at h
  by_cases hop : opcode w = 0b0010111
  · rw [if_pos hop] at h
    obtain rfl := Option.some.inj h
    exact ⟨hop, trivial⟩
  rw [if_neg hop] at h
  by_cases hop : opcode w = 0b1101111
  · rw [if_pos hop] at h
    obtain rfl := Option.some.inj h
    exact ⟨hop, trivial⟩
  rw [if_neg hop] at h
  by_cases hop : opcode w = 0b1100111
  · rw [if_pos hop] at h
    split_ifs at h
    obtain rfl := Option.some.inj h
    exact ⟨hop, trivial⟩
  rw [if_neg hop] at h
  by_cases hop : opcode w = 0b1100011
  · rw [if_pos hop] at h
    obtain ⟨c, hc, rfl⟩ := Option.map_eq_some_iff.mp h
    exact ⟨hop, hc⟩
  rw [if_neg hop] at h
  by_cases hop : opcode w = 0b0000011
  · rw [if_pos hop] at h
    obtain ⟨wd, u, rfl⟩ := load_of_decodeLoad h
    exact ⟨hop, h⟩
  rw [if_neg hop] at h
  by_cases hop : opcode w = 0b0100011
  · rw [if_pos hop] at h
    obtain ⟨wd, rfl⟩ := store_of_decodeStore h
    exact ⟨hop, h⟩
  rw [if_neg hop] at h
  by_cases hop : opcode w = 0b0010011
  · rw [if_pos hop] at h
    obtain ⟨o, ho, rfl⟩ := Option.map_eq_some_iff.mp h
    exact ⟨hop, ho⟩
  rw [if_neg hop] at h
  by_cases hop : opcode w = 0b0110011
  · rw [if_pos hop] at h
    obtain ⟨a, rfl⟩ | ⟨m, rfl⟩ := op_of_decodeOp h
    · exact ⟨hop, h⟩
    · exact ⟨hop, h⟩
  rw [if_neg hop] at h
  by_cases hop : opcode w = 0b0001111
  · rw [if_pos hop] at h
    split_ifs at h
    obtain rfl := Option.some.inj h
    exact ⟨hop, trivial⟩
  rw [if_neg hop] at h
  exact absurd h.symm (Option.some_ne_none o)

/-! ## Effects -/

/-- An access to memory: a load with its width and address, or a store that also carries its
value. -/
inductive Access
  | load (w : Width) (adr : BitVec 32)
  | store (w : Width) (adr value : BitVec 32)
  deriving DecidableEq

/-- The width of an access, which for a store is the number of bytes it changes. -/
def Access.width : Access → Width
  | load w _ => w
  | store w _ _ => w

/-- The address of an access, which is the address of its lowest byte. -/
def Access.adr : Access → BitVec 32
  | load _ adr => adr
  | store _ adr _ => adr

/-- The address of the access is a multiple of its width, as the base instruction set asks for
without misaligned support. -/
def Access.Aligned (a : Access) : Prop := a.adr.toNat % a.width.bytes = 0

/-- Whether an access is aligned can be decided, since it compares two numbers. -/
instance (a : Access) : Decidable a.Aligned := inferInstanceAs (Decidable (_ = _))

/-- The value that a load puts into its register: the bytes from its address upwards, the lowest
first, extended with or without their sign. -/
def loadValue (mem : BitVec 32 → BitVec 8) (w : Width) (unsigned : Bool) (adr : BitVec 32) :
    BitVec 32 :=
  match w with
  | .byte => if unsigned then (mem adr).setWidth 32 else (mem adr).signExtend 32
  | .half =>
    let v := mem (adr + 1) ++ mem adr
    if unsigned then v.setWidth 32 else v.signExtend 32
  | .word => mem (adr + 3) ++ mem (adr + 2) ++ mem (adr + 1) ++ mem adr

/-- The memory after a store: byte `k` of the value goes to the address `k` above `adr`. -/
def storeValue (mem : BitVec 32 → BitVec 8) (w : Width) (adr value : BitVec 32) :
    BitVec 32 → BitVec 8 :=
  fun p => if (p - adr).toNat < w.bytes then value.extractLsb' (8 * (p - adr).toNat) 8 else mem p

section Effects

variable (o : Op) (w pc a b : BitVec 32)

/-- The address of the next instruction, from the values `a` and `b` of the two registers. -/
def nextPc : BitVec 32 :=
  match o with
  | .jal => pc + immJ w
  | .jalr => (a + immI w) &&& ~~~1#32
  | .branch c => if c.holds a b then pc + immB w else pc + 4
  | _ => pc + 4

/-- The access that an operation makes to memory, from its address operand and the value it stores.
Only loads and stores have one. -/
def access : Option Access :=
  match o with
  | .load wd _ => some (.load wd (a + immI w))
  | .store wd => some (.store wd (a + immS w) b)
  | _ => none

/-- The value that an operation gives to its destination register, or none for branches, stores and
`fence`. -/
def result (mem : BitVec 32 → BitVec 8) : Option (BitVec 32) :=
  match o with
  | .lui => some (immU w)
  | .auipc => some (pc + immU w)
  | .jal => some (pc + 4)
  | .jalr => some (pc + 4)
  | .load wd unsigned => some (loadValue mem wd unsigned (a + immI w))
  | .opImm f => some (f.eval a (immI w))
  | .op f => some (f.eval a b)
  | .mul f => some (f.eval a b)
  | .branch _ => none
  | .store _ => none
  | .fence => none

end Effects

/-- The registers after an instruction, with its value for the destination register. -/
def writeRegister (regs : BitVec 5 → BitVec 32) (d : BitVec 5) :
    Option (BitVec 32) → BitVec 5 → BitVec 32
  | none => regs
  | some v => fun r => if r = d then v else regs r

/-- The memory after an instruction that made the given access: a store writes its bytes, anything
else leaves the memory as it is. -/
def writeMemory (mem : BitVec 32 → BitVec 8) : Option Access → BitVec 32 → BitVec 8
  | some (.store w adr value) => storeValue mem w adr value
  | _ => mem

/-! ## The machine -/

/-- The state of the abstract machine: the PC, the registers, and a memory of bytes. -/
structure Machine where
  pc : BitVec 32
  regs : BitVec 5 → BitVec 32
  mem : BitVec 32 → BitVec 8

namespace Machine

variable (rom : BitVec 32 → BitVec 32) (s : Machine)

/-- The value of a register as an instruction reads it, which is zero for register 0. -/
def read (r : BitVec 5) : BitVec 32 := if r = 0 then 0 else s.regs r

/-- The word that the machine executes next, read from the program at the current PC. -/
def instr : BitVec 32 := rom s.pc

/-- The value of the source register that the current word names, as the instruction reads it. -/
def rs1Value : BitVec 32 := s.read (rs1 (s.instr rom))
@[inherit_doc rs1Value] def rs2Value : BitVec 32 := s.read (rs2 (s.instr rom))

/-- The access of the instruction at the current PC. -/
def access : Option Access :=
  (decode (s.instr rom)).bind fun o =>
    Rv32.access o (s.instr rom) (s.rs1Value rom) (s.rs2Value rom)

/-- One instruction. A word that is not legal stops the machine. -/
def step : Machine :=
  match decode (s.instr rom) with
  | none => s
  | some o =>
    { pc := nextPc o (s.instr rom) s.pc (s.rs1Value rom) (s.rs2Value rom)
      regs := writeRegister s.regs (rd (s.instr rom))
        (result o (s.instr rom) s.pc (s.rs1Value rom) (s.rs2Value rom) s.mem)
      mem := writeMemory s.mem
        (Rv32.access o (s.instr rom) (s.rs1Value rom) (s.rs2Value rom)) }

/-- The state that the machine has reached after `k` instructions. -/
def after : ℕ → Machine
  | 0 => s
  | k + 1 => (after k).step rom

/-- The accesses to memory that the first `k` instructions make, in the order of the program. -/
def accesses : ℕ → List Access
  | 0 => []
  | k + 1 => accesses k ++ ((s.after rom k).access rom).toList

end Machine

end Rv32

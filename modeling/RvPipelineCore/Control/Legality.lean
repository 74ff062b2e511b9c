import RvPipelineCore.Control.Words
import RvPipelineCore.Lib.System

/-!
# What the decoder accepts

`main_decoder` raises `illegal_instruction` by the opcode. It looks at the other fields of a word
only for `ecall`, `ebreak` and `mret`.

- `reservedFields`: the fields it does not look at, where they encode nothing;
- `decode_legal_iff`: its judgement is right exactly for the words without them.
-/

namespace RvPipelineCore

open Rv32 (funct7 Legal)

/-- The opcode has instructions, but none with this `funct3` and `funct7`. -/
def reservedFields (op : BitVec 7) (funct3 : BitVec 3) (funct7 : BitVec 7) : Bool :=
  -- loads
  if op = 0b0000011 then funct3 == 0b011 || funct3 == 0b110 || funct3 == 0b111
  -- stores
  else if op = 0b0100011 then !(funct3 == 0b000 || funct3 == 0b001 || funct3 == 0b010)
  -- branches
  else if op = 0b1100011 then funct3 == 0b010 || funct3 == 0b011
  -- jalr
  else if op = 0b1100111 then funct3 != 0b000
  -- shifts by an immediate
  else if op = 0b0010011 then
    (funct3 == 0b001 && funct7 != 0b0000000) ||
      (funct3 == 0b101 && funct7 != 0b0000000 && funct7 != 0b0100000)
  -- R type
  else if op = 0b0110011 then
    !(funct7 == 0b0000000 || funct7 == 0b0000001 ||
      (funct7 == 0b0100000 && (funct3 == 0b000 || funct3 == 0b101)))
  -- fence, fence.i
  else if op = 0b0001111 then !(funct3 == 0b000 || funct3 == 0b001)
  -- csr
  else if op = 0b1110011 then funct3 == 0b100
  else false

/-- The words of an opcode with fields are legal unless the fields are reserved. -/
theorem legal_iff_fields {w : BitVec 32} (h : opcodeOf w = 0b0000011 ∨ opcodeOf w = 0b0100011 ∨
      opcodeOf w = 0b0110011 ∨ opcodeOf w = 0b1100011 ∨ opcodeOf w = 0b0010011 ∨
      opcodeOf w = 0b1100111 ∨ opcodeOf w = 0b0001111) :
    Legal w ↔ reservedFields (opcodeOf w) (funct3Of w) (funct7 w) = false := by
  -- for one opcode all values of `funct3` and `funct7` are tried
  rcases h with ho | ho | ho | ho | ho | ho | ho <;> rw [ho]
  · have hfields : ∀ f f7, (Rv32.decodeLoad f).isSome = true ↔
        reservedFields 0b0000011 f f7 = false := by
      decide +kernel
    exact (Rv32.legal_load ho).trans (hfields _ _)
  · have hfields : ∀ f f7, (Rv32.decodeStore f).isSome = true ↔
        reservedFields 0b0100011 f f7 = false := by
      decide +kernel
    exact (Rv32.legal_store ho).trans (hfields _ _)
  · have hfields : ∀ f f7, (Rv32.decodeOp f f7).isSome = true ∨ f7 = 1 ∧ f.getLsbD 2 = true ↔
        reservedFields 0b0110011 f f7 = false := by
      decide +kernel
    exact (Rv32.legal_op ho).trans (hfields _ _)
  · have hfields : ∀ f f7, (Rv32.decodeCond f).isSome = true ↔
        reservedFields 0b1100011 f f7 = false := by
      decide +kernel
    exact (Rv32.legal_branch ho).trans (hfields _ _)
  · have hfields : ∀ f f7, (Rv32.decodeOpImm f f7).isSome = true ↔
        reservedFields 0b0010011 f f7 = false := by
      decide +kernel
    exact (Rv32.legal_opImm ho).trans (hfields _ _)
  · have hfields : ∀ f f7, f = 0 ↔ reservedFields 0b1100111 f f7 = false := by
      decide +kernel
    exact (Rv32.legal_jalr ho).trans (hfields _ _)
  · have hfields : ∀ f f7, f = 0 ∨ f = 1 ↔ reservedFields 0b0001111 f f7 = false := by
      decide +kernel
    exact (Rv32.legal_miscMem ho).trans (hfields _ _)

/-- The words with the opcode of `jal`, `lui` or `auipc` are all legal, and have no reserved
fields. -/
theorem legal_iff_plain {w : BitVec 32} (h : opcodeOf w = 0b1101111 ∨ opcodeOf w = 0b0110111 ∨
      opcodeOf w = 0b0010111) :
    Legal w ↔ reservedFields (opcodeOf w) (funct3Of w) (funct7 w) = false := by
  have hop : Rv32.opcode w = opcodeOf w := rfl
  rcases h with ho | ho | ho <;> rw [Rv32.legal_other (by simp [hop, ho]), hop, ho] <;>
    simp [reservedFields]

/-- Behind the `SYSTEM` opcode the decoder checks the fields, unless `funct3` selects a CSR
access. -/
theorem decode_system (x : DontCare) {w : BitVec 32} (ho : opcodeOf w = 0b1110011) :
    (decode x w).illegalInstruction = false ∧
        (Legal w ↔ reservedFields (opcodeOf w) (funct3Of w) (funct7 w) = false) ∨
      (decode x w).illegalInstruction = true ∧ ¬ Legal w ∧
        reservedFields (opcodeOf w) (funct3Of w) (funct7 w) = false := by
  have hres : reservedFields (opcodeOf w) (funct3Of w) (funct7 w) = (funct3Of w == 0b100) := by
    rw [ho]
    rfl
  have hlegal := Rv32.legal_system ho
  rw [hres]
  -- `funct3` tells the environment instructions from those on CSRs
  by_cases hf : funct3Of w = 0#3
  · have hcsr : (Rv32.decodeCsr (Rv32.funct3 w)).isSome = false := by
      rw [show Rv32.funct3 w = 0 from hf]
      rfl
    by_cases hr : (rs1Of w = 0#5 ∧ rdOf w = 0#5) ∧
        (immITypeOf w = 770#12 ∨ immITypeOf w = 0#12 ∨ immITypeOf w = 1#12)
    · have hacc : (decode x w).illegalInstruction = false := by
        obtain ⟨hr, hi | hi⟩ := hr
        · rw [decode_mret x (by simp [isMret, ho, hf, hr, hi])]
        · rw [decode_environment x ho hf hr hi]
      refine .inl ⟨hacc, iff_of_true (hlegal.mpr (.inr ⟨hf, hr.1.1, hr.1.2, ?_⟩)) (by rw [hf]; rfl)⟩
      obtain hi | hi | hi := hr.2
      · exact .inr (.inr hi)
      · exact .inl hi
      · exact .inr (.inl hi)
    · refine .inr ⟨by rw [decode_system_illegal x ho hf hr], ?_, by rw [hf]; rfl⟩
      rw [hlegal, hcsr]
      rintro (h | ⟨-, hrs, hrd, hi⟩)
      · exact Bool.noConfusion h
      · refine hr ⟨⟨hrs, hrd⟩, ?_⟩
        obtain hi | hi | hi := hi
        · exact .inr (.inl hi)
        · exact .inr (.inr hi)
        · exact .inl hi
  · have hcsr : ∀ f : BitVec 3, f ≠ 0#3 →
        ((Rv32.decodeCsr f).isSome = true ↔ (f == 0b100) = false) := by
      decide
    refine .inl ⟨by rw [decode_csr x ho hf], ?_⟩
    rw [hlegal, ← hcsr _ hf]
    exact or_iff_left fun h => hf h.1

/-- The decoder looks at the opcode, and behind the `SYSTEM` opcode for `ecall`, `ebreak` and
`mret`: it takes the words with reserved fields for legal ones. -/
theorem decode_legal_iff (x : DontCare) (w : BitVec 32) :
    ((decode x w).illegalInstruction = true ↔ ¬ Legal w) ↔
      reservedFields (opcodeOf w) (funct3Of w) (funct7 w) = false := by
  have haccepts : (decode x w).illegalInstruction = false →
      (Legal w ↔ reservedFields (opcodeOf w) (funct3Of w) (funct7 w) = false) →
        (((decode x w).illegalInstruction = true ↔ ¬ Legal w) ↔
          reservedFields (opcodeOf w) (funct3Of w) (funct7 w) = false) := by
    intro hdec hiff
    rw [hdec, ← hiff]
    simp
  have hrejects : (decode x w).illegalInstruction = true → ¬ Legal w →
      reservedFields (opcodeOf w) (funct3Of w) (funct7 w) = false →
        (((decode x w).illegalInstruction = true ↔ ¬ Legal w) ↔
          reservedFields (opcodeOf w) (funct3Of w) (funct7 w) = false) :=
    fun hdec hill hres => iff_of_true (iff_of_true hdec hill) hres
  have hop : Rv32.opcode w = opcodeOf w := rfl
  -- one case for each opcode that the decoder knows, and one for the others
  rcases opcode_cases (opcodeOf w) with
    (ho | ho | ho | ho | ho | ho | ho | ho | ho | ho | ho | ho) | ho
  · exact haccepts (by rw [decode_load x ho]) (legal_iff_fields (by simp [ho]))
  · exact haccepts (by rw [decode_store x ho]) (legal_iff_fields (by simp [ho]))
  · exact haccepts (by rw [decode_rType x ho]) (legal_iff_fields (by simp [ho]))
  · exact haccepts (by rw [decode_branch x ho]) (legal_iff_fields (by simp [ho]))
  · exact haccepts (by rw [decode_iType x ho]) (legal_iff_fields (by simp [ho]))
  · exact haccepts (by rw [decode_jal x ho]) (legal_iff_plain (by simp [ho]))
  · exact haccepts (by rw [decode_lui x ho]) (legal_iff_plain (by simp [ho]))
  · exact haccepts (by rw [decode_jalr x ho]) (legal_iff_fields (by simp [ho]))
  · exact haccepts (by rw [decode_auipc x ho]) (legal_iff_plain (by simp [ho]))
  · rcases decode_system x ho with ⟨hdec, hiff⟩ | ⟨hdec, hill, hres⟩
    · exact haccepts hdec hiff
    · exact hrejects hdec hill hres
  · exact haccepts (by rw [decode_fence x ho]) (legal_iff_fields (by simp [ho]))
  · refine hrejects (by rw [decode_zero x ho]) ?_ (by rw [ho]; rfl)
    rw [Rv32.legal_other (by simp [hop, ho]), hop, ho]
    simp
  · have hdec := decode_other x ho
    obtain ⟨h1, h2, h3, h4, h5, h6, h7, h8, h9, h10, h11, h12⟩ := ho
    refine hrejects (by rw [hdec]) ?_ ?_
    · rw [Rv32.legal_other ⟨h1, h2, h4, h8, h5, h3, h11, h10⟩]
      rintro (h | h | h)
      · exact h7 h
      · exact h9 h
      · exact h6 h
    · simp only [reservedFields, h1, h2, h3, h4, h5, h8, h10, h11, if_false]

/-- A store with `funct3 = 011` is taken for a `sw`. -/
theorem store_reserved_accepted :
    ∃ (x : DontCare) (w : BitVec 32), opcodeOf w = 0b0100011 ∧ funct3Of w = 0b011 ∧
      ¬ Legal w ∧ (decode x w).illegalInstruction = false ∧
      ∀ a, memoryDecoder x.memControl true (funct3Of w) a = 0b1111 :=
  ⟨⟨fun _ => 0, 0⟩, 0x00003023, by decide, by decide, by decide, by decide, by decide⟩

end RvPipelineCore

import RvPipelineCore.Common

/-!
# Branch prediction

`branch_predictor` is a direct-mapped table of 128 entries, indexed by the seven low bits of the PC
and tagged with the next eight; `branch_misprediction` compares the address the front end is at
with the one a branch in execute goes to.
-/

namespace RvPipelineCore

/-- The tables of `branch_predictor`: target, tag and two-bit counter of each entry. -/
structure BranchPredictor where
  pcBuffer : BitVec 7 → BitVec 32
  pcCheck : BitVec 7 → BitVec 8
  pcPredict : BitVec 7 → BitVec 2

namespace BranchPredictor

/-- The initial values that the source gives to the three memories of the predictor: every entry is
zero, so nothing is predicted. -/
def initial : BranchPredictor := ⟨fun _ => 0, fun _ => 0, fun _ => 0⟩

/-- `pc_index`: the lower seven bits of the PC, the entry of the tables it uses. -/
def index (pc : BitVec 32) : BitVec 7 := pc.extractLsb' 0 7

/-- The tag bits of a PC, `pc(14 downto 7)`. -/
def tag (pc : BitVec 32) : BitVec 8 := pc.extractLsb' 7 8

/-- `pc_cached`: the tag stored in the entry of the PC is the tag of the PC. -/
def pcCached (p : BranchPredictor) (pc : BitVec 32) : Bool :=
  p.pcCheck (index pc) == tag pc

/-- `branch_predicted`: the counter in the entry of the PC has reached its upper half and the entry
belongs to the PC. -/
def branchPredicted (p : BranchPredictor) (pc : BitVec 32) : Bool :=
  if (p.pcPredict (index pc)).getLsbD 1 then p.pcCached pc else false

/-- `predicted_pc`: the target stored in the entry of the PC. -/
def predictedPc (p : BranchPredictor) (pc : BitVec 32) : BitVec 32 :=
  p.pcBuffer (index pc)

/-- The counter a resolved branch leaves in its entry. -/
def counter (p : BranchPredictor) (pcE : BitVec 32) (branchTakenE : Bool) : BitVec 2 :=
  let c := p.pcPredict (index pcE)
  -- a branch that finds the tag of another one starts its counter afresh
  if branchTakenE then
    if p.pcCached pcE = true ∧ c = 0b11 then 0b11
    else if p.pcCached pcE then c + 1
    else 0b01
  else
    if p.pcCached pcE = true ∧ c = 0b00 then 0b00
    else if p.pcCached pcE then c - 1
    else 0b00

/-- One clock edge: a branch in execute writes the entry of its PC. -/
def next (p : BranchPredictor) (pcE : BitVec 32) (branchInstrE branchTakenE : Bool)
    (jumpAddress : BitVec 32) : BranchPredictor :=
  -- the target is stored even if the branch falls through
  if branchInstrE then
    { pcBuffer := fun i => if i = index pcE then jumpAddress else p.pcBuffer i
      pcCheck := fun i => if i = index pcE then tag pcE else p.pcCheck i
      pcPredict := fun i => if i = index pcE then p.counter pcE branchTakenE else p.pcPredict i }
  else p

/-- A counter above zero has just been raised by a taken branch, which leaves its tag, or was above
zero before, under the same tag. -/
theorem next_cases {p : BranchPredictor} {pcE jumpAddress : BitVec 32}
    {branchInstrE branchTakenE : Bool} {i : BitVec 7}
    (h : (p.next pcE branchInstrE branchTakenE jumpAddress).pcPredict i ≠ 0) :
    (branchTakenE = true ∧ i = index pcE ∧
        (p.next pcE branchInstrE branchTakenE jumpAddress).pcCheck i = tag pcE) ∨
      (p.pcPredict i ≠ 0 ∧
        (p.next pcE branchInstrE branchTakenE jumpAddress).pcCheck i = p.pcCheck i) := by
  unfold next at h ⊢
  split_ifs at h ⊢
  -- only the entry of the branch changes
  · by_cases hidx : i = index pcE
    · simp only [hidx, if_true] at h ⊢
      cases branchTakenE with
      | true => exact .inl ⟨rfl, trivial, trivial⟩
      | false =>
        -- a branch that falls through leaves zero, unless it finds its own tag
        simp only [counter, Bool.false_eq_true, if_false] at h
        split_ifs at h with h₁ h₂
        · exact absurd rfl h
        · rw [pcCached, beq_iff_eq] at h₂
          refine .inr ⟨fun hzero => h₁ ⟨?_, hzero⟩, h₂.symm⟩
          rw [pcCached, beq_iff_eq, h₂]
        · exact absurd rfl h
    · simp only [hidx, if_false] at h ⊢
      exact .inr ⟨h, trivial⟩
  · exact .inr ⟨h, rfl⟩

end BranchPredictor

/-- `branch_misprediction`: `is_mispredict_tbranch_e` and `is_mispredict_ntbranch_e`. While decode
is in its flushed state the next address is still in the fetch stage. -/
def branchMisprediction (validPcE validPcD branchInstr takeBranch : Bool)
    (jumpTargetPc pcF pcD pcPlus4E : BitVec 32) : Bool × Bool :=
  if validPcE then
    if branchInstr && takeBranch then
      (if validPcD then jumpTargetPc != pcD else jumpTargetPc != pcF, false)
    else if branchInstr then
      (false, if validPcD then pcPlus4E != pcD else pcPlus4E != pcF)
    else (false, false)
  else (false, false)

end RvPipelineCore

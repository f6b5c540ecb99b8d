import Llm386.Core.Block
import Llm386.Core.Float

/-! # Section budgets

`llm386-pager/src/budget.rs`: the variable budget is divided over the sections by configured fractions. -/

namespace Llm386

/-- The sections in canonical order, the order of map iterations. -/
def SectionKind.all : List SectionKind :=
  [.system, .task, .state, .plan, .retrieved, .tools, .recent, .background, .slack]

/-- Per-section budget configuration, a map from sections to fractions. -/
structure SectionBudgetTable where
  fractions : SectionKind → Option Float32

/-- Concrete per-section token budgets. -/
structure SectionAllocation where
  budgets : SectionKind → Option TokenCount

namespace SectionBudgetTable

/-- `SectionBudgetTable::default`. -/
def default : SectionBudgetTable where
  fractions
    | .state => some 0.10
    | .plan => some 0.05
    | .recent => some 0.20
    | .retrieved => some 0.40
    | .tools => some 0.15
    | .background => some 0.05
    | .slack => some 0.05
    | .system | .task => none

/-- Every variable section gets zero. -/
def empty : SectionBudgetTable := ⟨fun _ => none⟩

/-- Override the fraction of a section. -/
def set (t : SectionBudgetTable) (section_ : SectionKind) (fraction : Float32) : SectionBudgetTable :=
  ⟨fun s => if s = section_ then some (clamp fraction 0 1) else t.fractions s⟩

/-- Sections with a fixed budget have no share of the variable one. -/
def isFixed : SectionKind → Bool
  | .system | .task => true
  | _ => false

def variableFractionsSum (t : SectionBudgetTable) : Float32 :=
  ((SectionKind.all.filter fun s => !isFixed s).filterMap t.fractions).foldl (· + ·) 0

/-- Fractions that sum above 1 are scaled down first; each share is truncated. -/
def allocateVariable (t : SectionBudgetTable) (variable_ : TokenCount) : SectionAllocation :=
  let sum := t.variableFractionsSum
  let scale : Float32 := if 1 < sum then 1 / sum else 1
  { budgets := fun s =>
      if isFixed s then none
      else (t.fractions s).map fun frac =>
        let n := (UInt32.ofNat variable_.val).toFloat * f64From frac * f64From scale
        ⟨n.toUInt32.toNat, n.toUInt32.toNat_lt⟩ }

end SectionBudgetTable

/-- The budget of a section, zero where it has none. -/
def SectionAllocation.forSection (a : SectionAllocation) (s : SectionKind) : TokenCount :=
  (a.budgets s).getD .zero

example : ((SectionBudgetTable.default.allocateVariable ⟨1000, by decide⟩).forSection .retrieved).val = 400 := by
  decide +kernel

example : ((SectionBudgetTable.empty.set .recent 0.75).set .retrieved 0.75 |>.allocateVariable ⟨1000, by decide⟩
    |>.forSection .recent).val = 500 := by decide +kernel

end Llm386

/-! The bound on nesting that inline tags and type expressions share. A caller may
ask for any bound, no bound reaches beyond the ceiling, and a bound below zero
allows what the bound zero allows. -/

namespace DocComment.Nesting

/-- The deepest bound that is honoured. -/
def ceiling : Int := 62

/-- The bound of a caller that names none. -/
def default : Int := 32

/-- The bound in force when a caller asks for one. -/
def bounded (asked : Int) : Int := min asked ceiling

/-- The number of levels that a bound allows. -/
def allowance (asked : Int) : Nat := (bounded asked).toNat

theorem allowance_eq (asked : Int) : (allowance asked : Int) = max 0 (min asked 62) := by
  rw [allowance, bounded, ceiling]
  omega

theorem le_allowance_iff {asked : Int} {n : Nat} :
    n ≤ allowance asked ↔ (n : Int) ≤ max 0 (min asked 62) := by
  rw [← allowance_eq, Int.ofNat_le]

/-- A greater bound allows no fewer levels. -/
theorem allowance_mono {asked asked' : Int} (h : asked ≤ asked') :
    allowance asked ≤ allowance asked' := by
  have hlow := allowance_eq asked
  have hhigh := allowance_eq asked'
  omega

end DocComment.Nesting

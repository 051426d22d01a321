/-!
# Clock budgets

The clocks left for one run. The count is signed: a core executes whole steps, so the last of them
may overdraw, and the run stops at the next boundary. Debits and refunds saturate at the limits of
a 64-bit count.
-/

namespace ProcessorCores

/-- The clocks still available; negative after an overdraw. -/
structure Budget where
  remaining : Int
  deriving DecidableEq, Repr

namespace Budget

/-- The least count a budget can hold. -/
def least : Int := -0x8000000000000000

/-- The greatest count a budget can hold. -/
def greatest : Int := 0x7FFFFFFFFFFFFFFF

/-- Bring a count back to the nearer limit when it lies outside both. -/
def saturate (count : Int) : Int := max least (min greatest count)

/-- True once nothing is left. -/
def isExhausted (budget : Budget) : Bool := budget.remaining ≤ 0

/-- Debit `clocks`. -/
def consume (budget : Budget) (clocks : Int) : Budget :=
  ⟨saturate (budget.remaining - clocks)⟩

/-- Give back `clocks` that were debited early. -/
def refund (budget : Budget) (clocks : Int) : Budget :=
  ⟨saturate (budget.remaining + clocks)⟩

/-- Drop what is left, so that the run stops at the next boundary. -/
def cancel (_ : Budget) : Budget := ⟨0⟩

/-- Between the limits a count is kept as it is. -/
theorem saturate_eq_self {count : Int} (low : least ≤ count) (high : count ≤ greatest) :
    saturate count = count := by
  simp only [saturate]
  omega

/-- A debit that stays between the limits is exact. -/
theorem remaining_consume {budget : Budget} {clocks : Int} (low : least ≤ budget.remaining - clocks)
    (high : budget.remaining - clocks ≤ greatest) :
    (budget.consume clocks).remaining = budget.remaining - clocks :=
  saturate_eq_self low high

/-- A budget is exhausted when nothing of it remains. -/
@[simp] theorem isExhausted_iff (budget : Budget) : budget.isExhausted = true ↔ budget.remaining ≤ 0 := by
  simp [isExhausted]

end Budget

end ProcessorCores

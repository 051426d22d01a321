import ProcessorCores.Budget
import ProcessorCores.Romp.Step

/-!
# ROMP runs

A run takes whole steps until its budget is exhausted. Every step costs at least one cycle, so a
run of `n` cycles takes at most `n` steps.
-/

namespace ProcessorCores.Romp

namespace Machine

/-- Take at most so many steps, stopping at the first boundary where the budget is exhausted. -/
def runSteps (machine : Machine) (budget : Budget) : Nat → Machine × Budget
  | 0 => (machine, budget)
  | count + 1 =>
    if budget.isExhausted then (machine, budget)
    else
      let (machine, cycles) := machine.step
      let machine := machine.mapCore fun core =>
        { core with totalCycles := core.totalCycles + BitVec.ofNat 64 cycles }
      machine.runSteps (budget.consume cycles) count

/-- Run until the budget is exhausted. -/
def run (machine : Machine) (budget : Budget) : Machine × Budget :=
  machine.runSteps budget budget.remaining.toNat

/-- Every step costs something. -/
theorem one_le_step (machine : Machine) : 1 ≤ machine.step.2 := by
  rw [step]
  cases if machine.core.flow = .normal then machine.takePending? else none with
  | some entered => exact Nat.le_refl 1
  | none => exact Nat.le_trans (one_le_cycles _) (Nat.le_add_right _ _)

end Machine

end ProcessorCores.Romp

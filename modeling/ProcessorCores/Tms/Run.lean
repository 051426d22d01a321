import ProcessorCores.Tms.Step

/-!
# Runs of the TMS3202x

A run takes whole steps until its budget is exhausted, letting the timer see every clock. While the
core is idle, or held where it may not execute, the budget passes without steps.

A run need not return: an undefined word costs nothing, so a core that finds only such words goes
through all of program memory for ever. The program counter takes 65536 values, so a run that has
taken more steps than that without a debit will never make one. Such a run has no result.
-/

namespace ProcessorCores.Tms

namespace Core

/-- True while a held core may not execute. -/
def isStalled (core : Core) : Bool :=
  core.hold && (core.externalAccess || core.regs.has .hm)

/-- Sample the hold input at the start of a run. A hold that stops the core lets the budget pass; a
hold that ends costs three clocks. -/
def sampleHold (core : Core) (budget : Budget) : Core × Budget :=
  if core.holdLine then
    let core := if core.hold then core else core.report (.holdAcknowledged core.regs.pc)
    let core := { core with hold := true }
    if core.isStalled then core.stall budget else (core, budget)
  else if core.hold then
    { core.report (.holdReleased core.regs.pc) with hold := false }.advanceTimer budget 3
  else (core, budget)

/-- Let a request that is already pending wake an idle core. Its clocks are debited, but the timer
does not see them. -/
def wake (core : Core) (budget : Budget) : Core × Budget :=
  if core.idle && !budget.isExhausted then
    let (core, clocks) := core.service
    core.spend budget clocks
  else (core, budget)

/-- What happens before the first step of a run. -/
def beginRun (core : Core) (budget : Budget) : Core × Budget :=
  let (core, budget) := core.sampleHold budget
  let (core, budget) := core.wake budget
  core.wait budget

/-- What happens after a step of so many clocks. -/
def settle (core : Core) (budget : Budget) (clocks : Nat) : Core × Budget :=
  let (core, budget) := core.advanceTimer budget clocks
  let (core, budget) := core.wait budget
  if core.isStalled then core.stall budget else (core, budget)

end Core

namespace Machine

/-- Take at most so many steps until the budget is exhausted; no result when they do not exhaust
it. -/
def runSteps (machine : Machine) (budget : Budget) : Nat → Option (Machine × Budget)
  | 0 => if budget.isExhausted then some (machine, budget) else none
  | count + 1 =>
    if budget.isExhausted then some (machine, budget)
    else
      let (machine, clocks) := machine.step
      let (core, budget) := machine.core.settle budget clocks
      { machine with core := core }.runSteps budget count

/-- More steps than any run takes that returns: between two debits each program address is visited
at most once, after one step for the instruction that enables interrupts. -/
def stepLimit (budget : Budget) : Nat := (65536 + 2) * (budget.remaining.toNat + 1)

/-- Run until the budget is exhausted; no result when that never happens. -/
def run (machine : Machine) (budget : Budget) : Option (Machine × Budget) :=
  let (core, budget) := machine.core.beginRun budget
  { machine with core := core }.runSteps budget (stepLimit budget)

end Machine

end ProcessorCores.Tms

import ProcessorCores.Budget
import ProcessorCores.Tms.Core

/-!
# Interrupt service and the timer

A request stays in the interrupt flags until it is served. The source served is the first that is
requested and enabled; its bit is cleared, further service is masked, and the program counter goes
to its address by way of the stack. The word fetched last being EINT holds service back for one
instruction.

Clocks that pass are debited from the budget and counted by the timer, which ticks once for each
machine cycle. At the tick past zero it takes up its period, requests an interrupt, and drops the
clocks that are left; the service that may follow is charged and counted in turn.
-/

namespace ProcessorCores.Tms

/-- The instruction that enables interrupts, which takes effect after the one that follows. -/
def eintWord : Half := 0xCE00

/-- The clocks of an interrupt service. -/
def serviceClocks : Nat := 3 * clk

namespace Core

/-- The source to serve, if service is not held back. -/
def pendingSource? (core : Core) : Option Source :=
  if core.regs.has .intm ∨ core.opcode = eintWord then none
  else Source.all.find? fun source => meets (core.regs.ifr &&& core.ram.imr) source.bit

/-- Serve a source. A receive interrupt brings in the serial word, a transmit interrupt sends one. -/
def serve (core : Core) (source : Source) : Core :=
  let returnTo := core.regs.pc
  let core := core.mapRegs (·.push returnTo)
  let core :=
    match source with
    | .rint => core.mapRam fun ram => { ram with drr := core.serialIn }
    | .xint => { core with serialOut := core.serialOut ++ [core.ram.dxr] }
    | _ => core
  let core := core.report (.interrupt source returnTo)
  { core with
    regs := { core.regs with pc := source.vector, ifr := core.regs.ifr &&& ~~~source.bit }.put .intm true
    idle := false }

/-- Serve the pending source, if there is one. The second result is the clocks used. -/
def service (core : Core) : Core × Nat :=
  match core.pendingSource? with
  | some source => (core.serve source, serviceClocks)
  | none => (core, 0)

/-- Debit clocks from the budget. -/
def spend (core : Core) (budget : Budget) (clocks : Nat) : Core × Budget :=
  ({ core with totalCycles := core.totalCycles + BitVec.ofNat 64 clocks }, budget.consume clocks)

/-- Count clocks up to the next reload. The last result tells whether it came; if so, the clocks
after it are dropped. -/
def countClocks (core : Core) (budget : Budget) (clocks : Nat) : Core × Budget × Bool :=
  let toTick := clk - core.timerPhase
  if clocks < toTick then
    let (core, budget) := core.spend budget clocks
    ({ core with timerPhase := core.timerPhase + clocks }, budget, false)
  else
    let ticks := 1 + (clocks - toTick) / clk
    let tim := core.ram.tim.toNat
    if ticks ≤ tim then
      let (core, budget) := core.spend budget clocks
      let core := core.mapRam fun ram => { ram with tim := BitVec.ofNat 16 (tim - ticks) }
      ({ core with timerPhase := (clocks - toTick) % clk }, budget, false)
    else
      let (core, budget) := core.spend budget (toTick + clk * tim)
      let core := core.mapRam fun ram => { ram with tim := ram.prd }
      let core := { core.mapRegs (·.request Source.tint.bit) with timerPhase := 0 }
      (core.report (.timerReload core.ram.prd), budget, true)

/-- Let clocks pass on the timer. After a reload a request may be served, and the clocks of that
service pass in the same way; should they reload the timer once more, no second service can follow,
because the first has masked it. -/
def advanceTimer (core : Core) (budget : Budget) (clocks : Nat) : Core × Budget :=
  match core.countClocks budget clocks with
  | (core, budget, false) => (core, budget)
  | (core, budget, true) =>
    let (core, served) := core.service
    let (core, budget, _) := core.countClocks budget served
    (core, budget)

/-- The clocks left in a budget, as far as one advance of the timer can count them. -/
def clocksLeft (budget : Budget) : Nat := min budget.remaining.toNat 0xFFFFFFFF

/-- Let the budget pass in at most so many advances of the timer. -/
def stallFor (core : Core) (budget : Budget) : Nat → Core × Budget
  | 0 => (core, budget)
  | count + 1 =>
    if budget.isExhausted then (core, budget)
    else
      let (core, budget) := core.advanceTimer budget (clocksLeft budget)
      core.stallFor budget count

/-- Let the rest of the budget pass without executing. Each advance takes at least one clock. -/
def stall (core : Core) (budget : Budget) : Core × Budget :=
  core.stallFor budget budget.remaining.toNat

/-- Let the budget pass in at most so many advances of the timer while the core is idle. -/
def waitFor (core : Core) (budget : Budget) : Nat → Core × Budget
  | 0 => (core, budget)
  | count + 1 =>
    if !core.idle || budget.isExhausted then (core, budget)
    else
      let (core, budget) := core.advanceTimer budget (clocksLeft budget)
      core.waitFor budget count

/-- Let the budget pass until a request wakes the core. Each advance takes at least one clock. -/
def wait (core : Core) (budget : Budget) : Core × Budget :=
  core.waitFor budget budget.remaining.toNat

end Core

end ProcessorCores.Tms

import ProcessorCores.Bus
import ProcessorCores.Romp.Event

/-!
# The ROMP core

A branch never moves the instruction address itself. It latches a target and sets the flow token,
and the token is consumed once, at the end of the step.

The state is all that is needed to resume a core later; a snapshot is the state, and to restore is
to put one in place. The journal of events is not part of it.
-/

namespace ProcessorCores.Romp

/-- Where the end of the current step leads. -/
inductive Flow
  /-- To the following instruction. -/
  | normal
  /-- To the latched target. -/
  | branchPending
  /-- To the following instruction, and from there to the latched target. -/
  | delaySlotPending
  /-- Nowhere: an exception entry has loaded the instruction address already. -/
  | exceptionEntered
  deriving DecidableEq, Repr

/-- The name of the token as a debugger shows it. -/
def Flow.name : Flow → String
  | .normal => "normal"
  | .branchPending => "branch"
  | .delaySlotPending => "delay"
  | .exceptionEntered => "exception"

/-- Everything needed to resume a core. -/
structure State where
  regs : Registers
  flow : Flow
  /-- The latched branch target. -/
  branchTarget : Word
  /-- The translate line, which follows the interrupt control status. -/
  translateMode : Bool
  /-- Status of a fault signalled by the host and not yet taken. -/
  pendingMachineCheck : Option Word
  /-- Cycles consumed by runs since the core was made; past sixty-four bits the count wraps. -/
  totalCycles : Long
  deriving DecidableEq, Repr

/-- A core: its state, and the events it has reported, the latest first. -/
structure Core extends State where
  journal : List Event
  deriving DecidableEq, Repr

/-- A core and the bus it works on. -/
structure Machine where
  core : Core
  bus : Bus

namespace Core

/-- A core with every register cleared. -/
def new : Core where
  regs := .zero
  flow := .normal
  branchTarget := 0
  translateMode := false
  pendingMachineCheck := none
  totalCycles := 0
  journal := []

/-- The program counter. -/
def pc (core : Core) : Word := core.regs.iar

/-- The condition flags as a listing shows them. -/
def flagsText (core : Core) : String := core.regs.condition.render

/-- Report an event. -/
def report (core : Core) (event : Event) : Core :=
  { core with journal := event :: core.journal }

/-- Replace the registers. -/
def withRegs (core : Core) (regs : Registers) : Core := { core with regs := regs }

/-- Drive the translate line, reporting a change. -/
def setTranslateMode (core : Core) (enabled : Bool) : Core :=
  let core := if core.translateMode != enabled then core.report (.translateMode enabled) else core
  { core with translateMode := enabled }

/-- Write a system control register as an instruction does: the interrupt control status drives the
translate line. -/
def writeScr (core : Core) (r : Reg) (value : Word) : Core :=
  let core := core.report (.scrWritten r value)
  let core := if r = Scr.ics then core.setTranslateMode (meets value Ics.translate) else core
  core.withRegs (core.regs.setScr r value)

/-- Latch a branch target. A branch with execute lets one more instruction run first. -/
def latch (core : Core) (target : Word) (withExecute : Bool) : Core :=
  { core with
    branchTarget := target
    flow := if withExecute then .delaySlotPending else .branchPending }

/-- Consume the flow token, `next` being the address of the following instruction. -/
def endStep (core : Core) (next : Word) : Core :=
  match core.flow with
  | .normal => core.withRegs (core.regs.setScr Scr.iar next)
  | .branchPending =>
    { core with regs := core.regs.setScr Scr.iar core.branchTarget, flow := .normal }
  | .delaySlotPending =>
    { core with regs := core.regs.setScr Scr.iar next, flow := .branchPending }
  | .exceptionEntered => { core with flow := .normal }

/-! ## Host side -/

/-- Signal a fault found by the hardware. It is taken at the next boundary outside a branch. -/
def signalMachineCheck (core : Core) (status : Word) : Core :=
  { core with pendingMachineCheck := some status }

/-- Drive an interrupt line. Lines 0 to 6 feed the request buffer, where a request stays for as
long as its line is asserted; there are no others. -/
def setInputLine (core : Core) (line : Nat) (asserted : Bool) : Core :=
  if line ≤ 6 then
    let core := if asserted then core.report (.lineAsserted line) else core
    core.withRegs
      (core.regs.setScr Scr.irb (assign (core.regs.scr.get Scr.irb) (Irb.request line) asserted))
  else core

/-- The state from which this core can be resumed. -/
def snapshot (core : Core) : State := core.toState

/-- Resume from a state. -/
def restore (core : Core) (state : State) : Core := { core with toState := state }

/-- A restored state is the snapshot of the core. -/
@[simp] theorem snapshot_restore (core : Core) (state : State) : (core.restore state).snapshot = state := rfl

/-- Restoring its own snapshot leaves a core as it is. -/
@[simp] theorem restore_snapshot (core : Core) : core.restore core.snapshot = core := rfl

end Core

namespace Machine

/-- Change the core only. -/
def mapCore (machine : Machine) (f : Core → Core) : Machine :=
  { machine with core := f machine.core }

/-- Read a byte of storage. -/
def read8 (machine : Machine) (space : Space) (address : Word) : Byte × Machine :=
  let (value, bus) := machine.bus.read8 space address
  (value, { machine with bus := bus })

/-- Read a halfword of storage. -/
def read16 (machine : Machine) (space : Space) (address : Word) : Half × Machine :=
  let (value, bus) := machine.bus.read16 space address
  (value, { machine with bus := bus })

/-- Read a word of storage. -/
def read32 (machine : Machine) (space : Space) (address : Word) : Word × Machine :=
  let (value, bus) := machine.bus.read32 space address
  (value, { machine with bus := bus })

/-- Write a byte of storage. -/
def write8 (machine : Machine) (space : Space) (address : Word) (value : Byte) : Machine :=
  { machine with bus := machine.bus.write8 space address value }

/-- Write a halfword of storage. -/
def write16 (machine : Machine) (space : Space) (address : Word) (value : Half) : Machine :=
  { machine with bus := machine.bus.write16 space address value }

/-- Write a word of storage. -/
def write32 (machine : Machine) (space : Space) (address : Word) (value : Word) : Machine :=
  { machine with bus := machine.bus.write32 space address value }

/-- Write a general register. -/
def setGpr (machine : Machine) (r : Reg) (value : Word) : Machine :=
  machine.mapCore fun core => core.withRegs (core.regs.setGpr r value)

/-- Write a system control register, with no effect beyond it. -/
def setScr (machine : Machine) (r : Reg) (value : Word) : Machine :=
  machine.mapCore fun core => core.withRegs (core.regs.setScr r value)

/-- Return to the power-on state and fetch the start address from program address 0. -/
def reset (machine : Machine) : Machine :=
  let machine := machine.mapCore fun core =>
    { (core.withRegs .zero).setTranslateMode false with
      flow := .normal
      branchTarget := 0
      pendingMachineCheck := none }
  let (start, machine) := machine.read32 .program 0
  machine.setScr Scr.iar start

end Machine

end ProcessorCores.Romp

import ProcessorCores.Bus
import ProcessorCores.Tms.Event
import ProcessorCores.Tms.OnChipRam
import ProcessorCores.Tms.Registers
import ProcessorCores.Value

/-!
# The TMS3202x core

The state is what is needed to resume a core later; a snapshot is the state. To restore one is to
put it in place, unless its timer phase or the shape of its block storage cannot occur on its
model. The input pins, the serial words and the journal of events are not part of the state.
-/

namespace ProcessorCores.Tms

/-- Input clocks in one machine cycle, which is one tick of the timer. -/
def clk : Nat := 4

/-- What the current step goes on to. -/
inductive Flow
  /-- The next instruction. -/
  | normal
  /-- The next instruction, several times from one fetch. -/
  | repeatBlock
  deriving DecidableEq, Repr

/-- Everything needed to resume a core. -/
structure State where
  model : Model
  regs : Registers
  ram : OnChipRam
  flow : Flow
  /-- Clear on the second and later passes of a repeat block. -/
  firstPass : Bool
  /-- The instruction word fetched last. -/
  opcode : Half
  /-- Where it was fetched. -/
  prevPc : Half
  /-- The data address of the last operand. -/
  memAddress : Half
  /-- The last operand was off chip. -/
  externalAccess : Bool
  /-- Waiting for a request. -/
  idle : Bool
  /-- The hold acknowledge output. -/
  hold : Bool
  /-- The XF output. -/
  xfPin : Bool
  /-- A serial word waits for its frame sync. -/
  waitingForFrame : Bool
  /-- Clocks into the current timer tick. -/
  timerPhase : Nat
  /-- Clocks consumed by runs since the core was made; past sixty-four bits the count wraps. -/
  totalCycles : Long
  deriving DecidableEq, Repr

/-- A core: its state, its pins and serial words, and the events it has reported, the latest
first. -/
structure Core extends State where
  /-- The BIO input. -/
  bio : Bool
  /-- The hold input, sampled at the start of a run. -/
  holdLine : Bool
  /-- The word that the next receive interrupt brings in. -/
  serialIn : Half
  /-- The words sent and not yet collected. -/
  serialOut : List Half
  journal : List Event
  deriving DecidableEq, Repr

/-- A core and the bus it works on. -/
structure Machine where
  core : Core
  bus : Bus

/-- The state of a part after power-on. -/
def State.initial (model : Model) : State where
  model := model
  regs := .new model.st1Fixed
  ram := .new model
  flow := .normal
  firstPass := true
  opcode := 0
  prevPc := 0
  memAddress := 0
  externalAccess := false
  idle := false
  hold := false
  xfPin := true
  waitingForFrame := false
  timerPhase := 0
  totalCycles := 0

namespace Core

/-- A core in its power-on state. -/
def new (model : Model) : Core where
  toState := .initial model
  bio := false
  holdLine := false
  serialIn := 0
  serialOut := []
  journal := []

/-- The program counter. -/
def pc (core : Core) : Half := core.regs.pc

/-- The status as a debugger shows it. -/
def flagsText (core : Core) : String := core.regs.status.render

/-- Report an event. -/
def report (core : Core) (event : Event) : Core :=
  { core with journal := event :: core.journal }

/-- Change the register file only. -/
def mapRegs (core : Core) (f : Registers → Registers) : Core := { core with regs := f core.regs }

/-- Change the on-chip memory only. -/
def mapRam (core : Core) (f : OnChipRam → OnChipRam) : Core := { core with ram := f core.ram }

/-- Move a block to program space or to data space, reporting a change. -/
def mapBlock (core : Core) (index : Nat) (program : Bool) : Core :=
  let core :=
    match core.ram.movedBlock? index program with
    | some block => core.report (.remapped block.name program)
    | none => core
  core.mapRam (·.mapBlock index program)

/-- Bring every block back to data space, reporting those that move. -/
def unmapBlocks (core : Core) : Core :=
  (List.range core.ram.inProgram.size).foldl (fun core index => core.mapBlock index false) core

/-- Return to the power-on state. The words of the blocks, the serial registers, the input pins and
the count of clocks are kept. -/
def reset (core : Core) : Core :=
  let core := core.unmapBlocks.mapRam (·.reset)
  { core with
    regs := .new core.model.st1Fixed
    flow := .normal
    firstPass := true
    opcode := 0
    prevPc := 0
    memAddress := 0
    externalAccess := false
    idle := false
    hold := false
    xfPin := true
    waitingForFrame := false
    timerPhase := 0 }

/-! ## Pins and serial words -/

/-- Drive the BIO input. -/
def setBio (core : Core) (asserted : Bool) : Core := { core with bio := asserted }

/-- Drive the hold input. -/
def setHold (core : Core) (asserted : Bool) : Core := { core with holdLine := asserted }

/-- Provide the word that the next receive interrupt brings in. -/
def setSerialInput (core : Core) (word : Half) : Core := { core with serialIn := word }

/-- Collect the words sent so far. -/
def takeSerialOutput (core : Core) : List Half × Core :=
  (core.serialOut, { core with serialOut := [] })

/-- Drive an input line. Asserting one of lines 0 to 5 latches the request of its source, and
releasing it does nothing. Line 6 is the frame sync, which turns a waiting serial word into a
transmit request. -/
def setInputLine (core : Core) (line : Nat) (asserted : Bool) : Core :=
  if asserted then
    if line = frameSyncLine then
      if core.waitingForFrame then
        { core with waitingForFrame := false, regs := core.regs.request Source.xint.bit }
      else core
    else
      match Source.ofLine? line with
      | some source => (core.report (.lineAsserted line)).mapRegs (·.request source.bit)
      | none => core
  else core

/-! ## Snapshots -/

/-- The state from which this core can be resumed. -/
def snapshot (core : Core) : State := core.toState

/-- Resume from a state, whatever its model. It is checked before anything is changed. -/
def restore (core : Core) (state : State) : Attempt Core :=
  if clk ≤ state.timerPhase then .refused (.mismatch "timer_phase" .timerPhase) core
  else if state.ram.fits state.model then .done { core with toState := state }
  else .refused (.mismatch "ram" .blockLayout) core

end Core

namespace Machine

/-- Change the core only. -/
def mapCore (machine : Machine) (f : Core → Core) : Machine :=
  { machine with core := f machine.core }

/-- Change the register file only. -/
def mapRegs (machine : Machine) (f : Registers → Registers) : Machine :=
  machine.mapCore (·.mapRegs f)

end Machine

end ProcessorCores.Tms

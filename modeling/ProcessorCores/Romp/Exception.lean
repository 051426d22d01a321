import ProcessorCores.Romp.Core

/-!
# ROMP exceptions

Each level owns a block of sixteen bytes in program space. An entry swaps the program status through
it.

| offset | bytes | contents |
|---|---|---|
| 0 | 4 | old instruction address |
| 4 | 2 | old interrupt control status |
| 6 | 2 | old condition status |
| 8 | 4 | new instruction address |
| 12 | 2 | new interrupt control status |
| 14 | 2 | new condition status for an external interrupt, code of a supervisor call |

The external levels 0 to 6 load a condition status of their own; the others keep the one they find.
Storage is not translated while the status is swapped.
-/

namespace ProcessorCores.Romp

/-- What can interrupt the flow of instructions. -/
inductive Exception
  /-- A request on one of the external lines. -/
  | interrupt (level : Fin 7)
  | machineCheck
  | programCheck
  | supervisorCall (code : Half)
  deriving DecidableEq, Repr

namespace Exception

/-- The level of an exception; a lower one goes first. -/
def level : Exception → Nat
  | .interrupt level => level.val
  | .machineCheck => 7
  | .programCheck => 8
  | .supervisorCall _ => 9

/-- The address of the block that belongs to a level. -/
def block (exception : Exception) : Word := 0x100 + BitVec.ofNat 32 exception.level * 16

/-- True for the exceptions that load a new condition status. -/
def loadsCondition : Exception → Bool
  | .interrupt _ => true
  | _ => false

end Exception

/-- The external level to take: the lowest that is requested and below the processor priority,
unless all are masked. -/
def Registers.requestedLevel? (regs : Registers) : Option (Fin 7) :=
  if meets regs.ics Ics.mask then none
  else
    (List.finRange 7).find? fun level =>
      level.val < (regs.ics &&& Ics.priority).toNat &&
        meets (regs.scr.get Scr.irb) (Irb.request level.val)

namespace Machine

/-- Swap the program status through the block of an exception. -/
def enter (machine : Machine) (exception : Exception) : Machine :=
  let block := exception.block
  let machine := machine.mapCore (·.setTranslateMode false)
  let old := machine.core.regs
  let machine := machine.write32 .program block old.iar
  let machine := machine.write16 .program (block + 4) (lowHalf old.ics)
  let machine := machine.write16 .program (block + 6) (lowHalf old.cs)
  let machine :=
    match exception with
    | .supervisorCall code => machine.write16 .program (block + 14) code
    | _ => machine
  let (iar, machine) := machine.read32 .program (block + 8)
  let machine := machine.setScr Scr.iar iar
  let (ics, machine) := machine.read16 .program (block + 12)
  let ics := ics.setWidth 32
  let machine := machine.setScr Scr.ics ics
  let machine :=
    if exception.loadsCondition then
      let (cs, machine) := machine.read16 .program (block + 14)
      machine.setScr Scr.cs (cs.setWidth 32)
    else machine
  machine.mapCore fun core =>
    { core.setTranslateMode (meets ics Ics.translate) with flow := .exceptionEntered }

/-- Replace the bits of the check status that `field` covers by those of `status`. -/
def setCheckStatus (machine : Machine) (field status : Word) : Machine :=
  machine.setScr Scr.mpcs
    ((machine.core.regs.scr.get Scr.mpcs &&& ~~~field) ||| (status &&& field))

/-- Raise a program check with the given status bits. -/
def programCheck (machine : Machine) (status : Word) : Machine :=
  let machine := machine.mapCore fun core => core.report (.programCheck core.regs.iar status)
  (machine.setCheckStatus Mpcs.programAll status).enter .programCheck

/-- The program check of an undefined operation, or of one that may not stand where it does. -/
def illegal (machine : Machine) : Machine :=
  machine.programCheck (Mpcs.knownOrigin ||| Mpcs.illegalOp)

/-- The program check of a trap instruction. -/
def trap (machine : Machine) : Machine :=
  machine.programCheck (Mpcs.knownOrigin ||| Mpcs.trap)

/-- Take a machine check with the given status bits. -/
def machineCheck (machine : Machine) (status : Word) : Machine :=
  let machine := machine.mapCore fun core => core.report (.machineCheck status)
  (machine.setCheckStatus Mpcs.machineAll status).enter .machineCheck

/-- Take what is pending at a boundary: a signalled machine check before any external interrupt. -/
def takePending? (machine : Machine) : Option Machine :=
  match machine.core.pendingMachineCheck with
  | some status =>
    let machine := machine.mapCore fun core => { core with pendingMachineCheck := none }
    some (machine.machineCheck status)
  | none =>
    machine.core.regs.requestedLevel?.map fun level =>
      (machine.mapCore fun core => core.report (.interrupt level.val)).enter (.interrupt level)

end Machine

end ProcessorCores.Romp

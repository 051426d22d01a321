import ProcessorCores.Romp.Branch
import ProcessorCores.Romp.Storage

/-!
# ROMP steps

A step is one instruction or, at a boundary with something pending, one exception entry. Nothing is
taken at the boundary between a branch with execute and its delay slot.
-/

namespace ProcessorCores.Romp

namespace TrapOp

/-- Whether the operands spring the trap. They are compared as unsigned numbers. -/
def springs (op : TrapOp) (instruction : Instruction) (regs : Registers) : Bool :=
  let a := regs.gpr.get instruction.r2
  let b := regs.gpr.get instruction.r3
  match op with
  | .tgte => b ≤ a
  | .tlt => a < b
  | .ti =>
    (instruction.r2.getLsbD 2 && b < instruction.immediate) ||
      (instruction.r2.getLsbD 1 && b == instruction.immediate) ||
      (instruction.r2.getLsbD 0 && instruction.immediate < b)

/-- The cost of a sprung trap beyond the base cost. -/
def springCost : TrapOp → Nat
  | .ti => 0
  | .tgte | .tlt => 14

end TrapOp

/-- Execute a move between the banks or a change of one control register bit, `next` being the
address of the following instruction: that is what a move from the instruction address gives. -/
def Core.control (core : Core) (op : ControlOp) (instruction : Instruction) (next : Word) : Core :=
  let r2 := instruction.r2
  let r3 := instruction.r3
  let value := core.regs.scr.get r2
  match op with
  | .mfs => core.withRegs (core.regs.setGpr r3 (if r2 = Scr.iar then next else value))
  | .mts => core.writeScr r2 (core.regs.gpr.get r3)
  | .clrsb => core.writeScr r2 (assign value (lowBitFromLeft r3.toNat) false)
  | .setsb => core.writeScr r2 (assign value (lowBitFromLeft r3.toNat) true)

namespace Machine

/-- Branch to a new program status in storage: instruction address, interrupt control status and
condition status. The low halfword of the check status is cleared. -/
def loadProgramStatus (machine : Machine) (instruction : Instruction) : Machine :=
  let address := displacedAddress instruction machine.core.regs
  let (target, machine) := machine.read32 .program address
  let (ics, machine) := machine.read16 .program (address + 4)
  let (cs, machine) := machine.read16 .program (address + 6)
  let machine := machine.mapCore fun core =>
    (core.latch target false).writeScr Scr.ics (ics.setWidth 32)
  let machine := machine.setScr Scr.cs (cs.setWidth 32)
  machine.setScr Scr.mpcs (machine.core.regs.scr.get Scr.mpcs &&& 0xFFFF0000)

/-- Execute one operation, `next` being the address of the following instruction. The second result
is the cost beyond the base cost. -/
def execute (machine : Machine) (op : Op) (instruction : Instruction) (next : Word) : Machine × Nat :=
  match op with
  | .compute op =>
    (machine.mapCore fun core => core.withRegs ((compute op instruction core.regs).apply core.regs), 0)
  | .load op => (machine.load op instruction, 0)
  | .store op => (machine.store op instruction, 0)
  | .tsh => (machine.testAndSet instruction, 0)
  | .lm =>
    (machine.loadRegisters instruction.r2 (displacedAddress instruction machine.core.regs)
        (transferCount instruction.r2),
      loadMultipleCost instruction.r2 machine.core.regs)
  | .stm =>
    (machine.storeRegisters instruction.r2 (displacedAddress instruction machine.core.regs)
        (transferCount instruction.r2),
      storeMultipleCost instruction.r2 machine.core.regs)
  | .port op => (machine.accessPort op instruction, 0)
  | .trap op =>
    if op.springs instruction machine.core.regs then (machine.trap, op.springCost) else (machine, 0)
  | .branch op =>
    let (core, cost) := machine.core.branch op instruction next
    ({ machine with core := core }, cost)
  | .control op => (machine.mapCore (·.control op instruction next), 0)
  | .svc =>
    (machine.enter (.supervisorCall (lowHalf (unsignedAddress instruction machine.core.regs))), 15)
  | .lps => (machine.loadProgramStatus instruction, 15)
  | .illegal => (machine.illegal, 0)

/-- Fetch the instruction at the instruction address, and the address of the one that follows. -/
def fetch (machine : Machine) : Instruction × Word × Machine :=
  let iar := machine.core.regs.iar
  let (word, machine) := machine.read16 .program iar
  if hasExtension word then
    let (extension, machine) := machine.read16 .program (iar + 2)
    (⟨word, extension⟩, iar + 4, machine)
  else (⟨word, 0⟩, iar + 2, machine)

/-- Execute the instruction at the instruction address. In a delay slot a branch-class instruction
is a program check. -/
def executeNext (machine : Machine) : Machine × Nat :=
  let (instruction, next, machine) := machine.fetch
  let entry := decode instruction.word
  let (machine, extra) :=
    if machine.core.flow = .branchPending ∧ entry.handler.isBranchClass then (machine.illegal, 0)
    else machine.execute entry.handler instruction next
  (machine.mapCore (·.endStep next), entry.cycles + extra)

/-- Take one step. The second result is its cost in cycles. -/
def step (machine : Machine) : Machine × Nat :=
  let entered := if machine.core.flow = .normal then machine.takePending? else none
  match entered with
  | some machine => (machine.mapCore fun core => core.endStep core.regs.iar, 1)
  | none => machine.executeNext

end Machine

end ProcessorCores.Romp

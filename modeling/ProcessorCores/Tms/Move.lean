import ProcessorCores.Tms.Access
import ProcessorCores.Tms.Compute
import ProcessorCores.Tms.Timer

/-!
# Moves between memories

Block moves, table moves and the products with a coefficient in program memory run on the prefetch
counter, which the first pass of a repeat block sets and every pass advances. A move to the next
data word goes to the address after that of the operand.

The second result of a move is its cost in clocks beyond the base cost.
-/

namespace ProcessorCores.Tms

namespace Machine

/-- Set the prefetch counter. -/
def setPfc (machine : Machine) (pfc : Half) : Machine :=
  machine.mapRegs fun regs => { regs with pfc := pfc }

/-- On the first pass, take the prefetch counter from the second word of the instruction. -/
def loadPfc (machine : Machine) : Machine :=
  if machine.core.firstPass then
    let (value, machine) := machine.fetchWord
    machine.setPfc value
  else machine

/-- On the first pass, take the prefetch counter from the accumulator. -/
def pfcFromAcc (machine : Machine) : Machine :=
  if machine.core.firstPass then machine.setPfc (lowHalf machine.core.regs.acc) else machine

/-- Write the data word after the operand. -/
def writeNext (machine : Machine) (value : Half) : Machine :=
  machine.writeData (machine.core.memAddress + 1) value

/-- Accumulate the previous product and multiply the operand by a coefficient in program memory,
moving the operand to the next word where that is asked for. A direct operand is moved on the first
pass only. -/
def multiplyAccumulate (machine : Machine) (moves : Bool) : Machine :=
  let machine := machine.loadPfc
  let machine := machine.mapRegs fun regs => regs.addAcc regs.shiftedProduct
  let (value, machine) := machine.fetchOperand true
  let machine :=
    if moves && (isIndirect machine.core.opcode || machine.core.firstPass) then
      machine.writeNext value
    else machine
  let machine := machine.mapRegs fun regs => { regs with t := value }
  let (coefficient, machine) := machine.readProgram machine.core.regs.pfc
  machine.mapRegs fun regs =>
    { regs with p := signedProduct value coefficient, pfc := regs.pfc + 1 }

/-- Store the data word at the prefetch counter. -/
def moveFromData (machine : Machine) : Machine :=
  let machine := machine.loadPfc
  let source := machine.core.regs.pfc
  let (value, machine) := machine.readData source
  (machine.storeOperand value).setPfc (source + 1)

/-- Store the program word at the prefetch counter. -/
def moveFromProgram (machine : Machine) : Machine :=
  let source := machine.core.regs.pfc
  let (value, machine) := machine.readProgram source
  (machine.storeOperand value).setPfc (source + 1)

/-- Write the operand to the program word at the prefetch counter. -/
def moveToProgram (machine : Machine) : Machine :=
  let (value, machine) := machine.fetchOperand true
  let target := machine.core.regs.pfc
  (machine.writeProgram target value).setPfc (target + 1)

/-- The bus address of the port that an instruction names. -/
def portAddress (machine : Machine) : Word := BitVec.ofNat 32 (2 * shiftField machine.core.opcode)

/-- Execute a move. A table read is free of further cost when the source is on chip, and a table
write costs more when its operand is off chip. -/
def move (machine : Machine) (op : MoveOp) : Machine × Nat :=
  match op with
  | .dmov =>
    let (value, machine) := machine.fetchOperand true
    (machine.writeNext value, 0)
  | .ltd =>
    let (value, machine) := machine.fetchOperand true
    let machine := machine.mapRegs fun regs => { regs with t := value }
    let machine := machine.writeNext value
    (machine.mapRegs fun regs => regs.addAcc regs.shiftedProduct, 0)
  | .mac => (machine.multiplyAccumulate false, 2 * clk)
  | .macd => (machine.multiplyAccumulate true, 2 * clk)
  | .blkd => (machine.moveFromData, clk)
  | .blkp => (machine.loadPfc.moveFromProgram, 2 * clk)
  | .tblr =>
    let machine := machine.pfcFromAcc
    let onChip := machine.core.ram.isOnChipProgram machine.core.regs.pfc
    (machine.moveFromProgram, if onChip then 0 else clk)
  | .tblw =>
    let machine := machine.pfcFromAcc.moveToProgram
    (machine, if machine.core.externalAccess then 2 * clk else clk)
  | .input =>
    let (value, bus) := machine.bus.read16 .io machine.portAddress
    ({ machine with bus := bus }.storeOperand value, 0)
  | .output =>
    let (value, machine) := machine.fetchOperand true
    ({ machine with bus := machine.bus.write16 .io machine.portAddress value }, 0)

end Machine

end ProcessorCores.Tms

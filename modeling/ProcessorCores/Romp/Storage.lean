import ProcessorCores.Romp.Compute
import ProcessorCores.Romp.Exception

/-!
# ROMP storage and port accesses

Loads and stores go to program space. An address is a base register plus a displacement, register 0
standing for a base of zero; the half load without displacement alone takes its register as it is.

Ports are words of I/O space. A port address at or beyond the window raises a program check instead
of the access.
-/

namespace ProcessorCores.Romp

/-- The address of an operand with a displacement of sixteen bits. -/
def displacedAddress (instruction : Instruction) (regs : Registers) : Word :=
  regs.base instruction.r3 + instruction.immediate

/-- The address of an operand with a short displacement in items of `2 ^ scale` bytes. -/
def shortAddress (scale : Nat) (instruction : Instruction) (regs : Registers) : Word :=
  regs.base instruction.r3 + instruction.shortDisplacement scale

/-- Where a load finds its operand. -/
def LoadOp.address (op : LoadOp) (instruction : Instruction) (regs : Registers) : Word :=
  match op with
  | .lcs => shortAddress 0 instruction regs
  | .lhas => shortAddress 1 instruction regs
  | .ls => shortAddress 2 instruction regs
  | .lhs => regs.gpr.get instruction.r3
  | .lc | .lha | .lh | .l => displacedAddress instruction regs

/-- Where a store puts its operand. -/
def StoreOp.address (op : StoreOp) (instruction : Instruction) (regs : Registers) : Word :=
  match op with
  | .stcs => shortAddress 0 instruction regs
  | .sths => shortAddress 1 instruction regs
  | .sts => shortAddress 2 instruction regs
  | .stc | .sth | .st => displacedAddress instruction regs

/-- A base register plus the second halfword as an unsigned number: the port of an I/O instruction,
and the code of a supervisor call. -/
def unsignedAddress (instruction : Instruction) (regs : Registers) : Word :=
  regs.base instruction.r3 + instruction.lowImmediate

/-- Port addresses from here up are outside the I/O window. -/
def portLimit : Word := 0x01000000

/-- How many registers a multiple transfer moves: the first and all above it. -/
def transferCount (first : Reg) : Nat := 16 - first.toNat

/-- At most all sixteen registers are transferred. -/
theorem transferCount_le (first : Reg) : transferCount first ≤ 16 := Nat.sub_le _ _

/-- True while the status asks for translated storage, where multiple transfers cost more. -/
def Registers.translates (regs : Registers) : Bool := meets regs.ics Ics.translate

/-- The cost of a load of several registers beyond its base cost. -/
def loadMultipleCost (first : Reg) (regs : Registers) : Nat :=
  2 * transferCount first + if regs.translates then 3 else 1

/-- The cost of a store of several registers beyond its base cost. -/
def storeMultipleCost (first : Reg) (regs : Registers) : Nat :=
  (if regs.translates then 3 else 2) * (transferCount first + 1)

namespace Machine

/-- Execute a load of one register. -/
def load (machine : Machine) (op : LoadOp) (instruction : Instruction) : Machine :=
  let address := op.address instruction machine.core.regs
  match op with
  | .lcs | .lc =>
    let (value, machine) := machine.read8 .program address
    machine.setGpr instruction.r2 (value.setWidth 32)
  | .lhas | .lha =>
    let (value, machine) := machine.read16 .program address
    machine.setGpr instruction.r2 (value.signExtend 32)
  | .lhs | .lh =>
    let (value, machine) := machine.read16 .program address
    machine.setGpr instruction.r2 (value.setWidth 32)
  | .ls | .l =>
    let (value, machine) := machine.read32 .program address
    machine.setGpr instruction.r2 value

/-- Execute a store of one register. -/
def store (machine : Machine) (op : StoreOp) (instruction : Instruction) : Machine :=
  let address := op.address instruction machine.core.regs
  let value := machine.core.regs.gpr.get instruction.r2
  match op with
  | .stcs | .stc => machine.write8 .program address (lowByte (lowHalf value))
  | .sths | .sth => machine.write16 .program address (lowHalf value)
  | .sts | .st => machine.write32 .program address value

/-- Load a halfword, then set its first byte to ones. -/
def testAndSet (machine : Machine) (instruction : Instruction) : Machine :=
  let address := displacedAddress instruction machine.core.regs
  let (value, machine) := machine.read16 .program address
  (machine.setGpr instruction.r2 (value.setWidth 32)).write8 .program address 0xFF

/-- Load so many registers, from `r` up, with consecutive words. -/
def loadRegisters (machine : Machine) (r : Reg) (address : Word) : Nat → Machine
  | 0 => machine
  | count + 1 =>
    let (value, machine) := machine.read32 .program address
    (machine.setGpr r value).loadRegisters (r + 1) (address + 4) count

/-- Store so many registers, from `r` up, to consecutive words. -/
def storeRegisters (machine : Machine) (r : Reg) (address : Word) : Nat → Machine
  | 0 => machine
  | count + 1 =>
    (machine.write32 .program address (machine.core.regs.gpr.get r)).storeRegisters (r + 1)
      (address + 4) count

/-- Execute a port access, or raise a program check when the port is outside the window. -/
def accessPort (machine : Machine) (op : PortOp) (instruction : Instruction) : Machine :=
  let port := unsignedAddress instruction machine.core.regs
  if port < portLimit then
    match op with
    | .ior =>
      let (value, machine) := machine.read32 .io port
      machine.setGpr instruction.r2 value
    | .iow => machine.write32 .io port (machine.core.regs.gpr.get instruction.r2)
  else machine.illegal

end Machine

end ProcessorCores.Romp

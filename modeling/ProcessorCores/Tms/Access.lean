import ProcessorCores.Tms.Addressing
import ProcessorCores.Tms.Core

/-!
# Data and program accesses

A word that is on chip never reaches the bus; any other goes there at twice its word address. A
write to the serial transmit register has an effect of its own: in transmit mode it requests a
transmit interrupt, at once or when the frame sync comes.
-/

namespace ProcessorCores.Tms

/-- The bus address of a word. -/
def byteAddress (address : Half) : Word := address.setWidth 32 <<< 1

/-- Operands from this address up are taken to be off chip. -/
def externalFrom : Half := 0x0800

/-- Write a mapped register. -/
def Core.writeRegister (core : Core) (register : MappedRegister) (value : Half) : Core :=
  let core := core.mapRam (·.setRegister register value)
  match register with
  | .dxr =>
    if core.regs.has .txm then
      if core.regs.has .fsm then { core with waitingForFrame := true }
      else core.mapRegs (·.request Source.xint.bit)
    else core
  | _ => core

namespace Machine

/-- Read a data word. -/
def readData (machine : Machine) (address : Half) : Half × Machine :=
  match machine.core.ram.data address with
  | some value => (value, machine)
  | none =>
    let (value, bus) := machine.bus.read16 .data (byteAddress address)
    (value, { machine with bus := bus })

/-- Write a data word. -/
def writeData (machine : Machine) (address value : Half) : Machine :=
  match MappedRegister.ofAddress? address with
  | some register => machine.mapCore (·.writeRegister register value)
  | none =>
    match machine.core.ram.dataCell? address with
    | some cell => machine.mapCore (·.mapRam (·.set cell value))
    | none => { machine with bus := machine.bus.write16 .data (byteAddress address) value }

/-- Read a program word. -/
def readProgram (machine : Machine) (address : Half) : Half × Machine :=
  match machine.core.ram.program address with
  | some value => (value, machine)
  | none =>
    let (value, bus) := machine.bus.read16 .program (byteAddress address)
    (value, { machine with bus := bus })

/-- Write a program word. -/
def writeProgram (machine : Machine) (address value : Half) : Machine :=
  match machine.core.ram.programCell? address with
  | some cell => machine.mapCore (·.mapRam (·.set cell value))
  | none => { machine with bus := machine.bus.write16 .program (byteAddress address) value }

/-- Read the program word at the program counter and step over it. -/
def fetchWord (machine : Machine) : Half × Machine :=
  let (value, machine) := machine.readProgram machine.core.regs.pc
  (value, machine.mapRegs fun regs => { regs with pc := regs.pc + 1 })

/-- Note the address of an operand. -/
def noteOperand (machine : Machine) (address : Half) : Machine :=
  machine.mapCore fun core =>
    { core with memAddress := address, externalAccess := externalFrom ≤ address }

/-- Read the data operand of the current instruction. -/
def fetchOperand (machine : Machine) (movesPointer : Bool) : Half × Machine :=
  let word := machine.core.opcode
  let address := machine.core.regs.operandAddress word
  let (value, machine) := (machine.noteOperand address).readData address
  (value, machine.mapRegs (·.afterOperand word movesPointer))

/-- Write the data operand of the current instruction. -/
def storeOperand (machine : Machine) (value : Half) : Machine :=
  let word := machine.core.opcode
  let address := machine.core.regs.operandAddress word
  ((machine.noteOperand address).writeData address value).mapRegs (·.afterOperand word true)

/-- Write a status word: direct addresses are on page 0, and the pointer stays. -/
def storeStatus (machine : Machine) (value : Half) : Machine :=
  let word := machine.core.opcode
  let address := machine.core.regs.pageZeroAddress word
  ((machine.noteOperand address).mapRegs (·.afterOperand word false)).writeData address value

end Machine

end ProcessorCores.Tms

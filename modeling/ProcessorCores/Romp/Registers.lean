import ProcessorCores.Romp.Condition

/-!
# ROMP registers

Sixteen general registers and sixteen system control registers. The instruction address and the
condition status are system control registers, so the moves between the two banks reach them.
-/

namespace ProcessorCores.Romp

/-- A register number. -/
abbrev Reg := BitVec 4

/-- Sixteen words addressed by register number. -/
structure Bank where
  cells : Vector Word 16
  deriving DecidableEq, Repr

namespace Bank

/-- A bank of zeros. -/
def zero : Bank := ⟨Vector.replicate 16 0⟩

/-- Read a register. -/
def get (bank : Bank) (r : Reg) : Word :=
  have : r.toNat < 16 := r.isLt
  bank.cells[r.toNat]

/-- Write a register. -/
def set (bank : Bank) (r : Reg) (value : Word) : Bank :=
  ⟨bank.cells.set r.toNat value r.isLt⟩

/-- The registers in order of their numbers. -/
def toList (bank : Bank) : List Word := bank.cells.toList

/-- Reading a bank after a write. -/
theorem get_set (bank : Bank) (r other : Reg) (value : Word) :
    (bank.set r value).get other = if other = r then value else bank.get other := by
  simp only [get, set, Vector.getElem_set, BitVec.toNat_inj]
  by_cases h : other = r
  · simp [h]
  · simp [h, Ne.symm h]

/-- A register reads back what was written. -/
@[simp] theorem get_set_self (bank : Bank) (r : Reg) (value : Word) :
    (bank.set r value).get r = value := by
  simp [get_set]

/-- Every register of the zero bank is zero. -/
@[simp] theorem get_zero (r : Reg) : zero.get r = 0 := by
  simp [get, zero]

end Bank

/-! ## System control registers -/

namespace Scr

/-- Counter source. -/
def cous : Reg := 6

/-- Counter. -/
def cou : Reg := 7

/-- Timer status. -/
def ts : Reg := 8

/-- Multiplier quotient. -/
def mq : Reg := 10

/-- Machine check and program check status. -/
def mpcs : Reg := 11

/-- Interrupt request buffer. -/
def irb : Reg := 12

/-- Instruction address register. -/
def iar : Reg := 13

/-- Interrupt control status. -/
def ics : Reg := 14

/-- Condition status. -/
def cs : Reg := 15

/-- The names of the system control registers in order of their numbers. -/
def names : Vector String 16 :=
  #v["scr0", "scr1", "scr2", "scr3", "scr4", "scr5", "cous", "cou", "ts", "scr9", "mq", "mpcs",
    "irb", "iar", "ics", "cs"]

/-- The name of a system control register. -/
def name (r : Reg) : String :=
  have : r.toNat < 16 := r.isLt
  names[r.toNat]

end Scr

/-! ## Bits of the interrupt control status -/

namespace Ics

/-- Processor priority: levels below this value may interrupt. -/
def priority : Word := 0x0007

/-- Check stop mask. -/
def checkStop : Word := 0x0070

/-- Parity error retry. -/
def parityRetry : Word := 0x0080

/-- Translate mode. -/
def translate : Word := 0x0100

/-- Unprivileged state. -/
def unprivileged : Word := 0x0200

/-- Memory protect. -/
def protect : Word := 0x0400

/-- Interrupt mask: no external level is taken while it is set. -/
def mask : Word := 0x1000

/-- Check stop disable. -/
def checkDisable : Word := 0x2000

end Ics

/-! ## Bits of the interrupt request buffer -/

namespace Irb

/-- The request bit of a level, level 0 being the most significant of the halfword. -/
def request (level : Nat) : Word := 0x8000 >>> level

/-- The request bits of levels 0 to 6. -/
def all : Word := 0xFE00

end Irb

/-! ## Bits of the machine check and program check status -/

namespace Mpcs

/-- Instruction address exception. -/
def address : Word := 0x0002

/-- Privileged instruction exception. -/
def privileged : Word := 0x0004

/-- Illegal operation code. -/
def illegalOp : Word := 0x0008

/-- Invalid data address. -/
def dataAddress : Word := 0x0010

/-- Program trap. -/
def trap : Word := 0x0020

/-- Program check with known origin. -/
def knownOrigin : Word := 0x0040

/-- Program check with unknown origin. -/
def unknownOrigin : Word := 0x0080

/-- All program check status bits. -/
def programAll : Word := 0x00FE

/-- All machine check status bits. -/
def machineAll : Word := 0x7F00

end Mpcs

/-! ## The register file -/

/-- Both register banks. -/
structure Registers where
  gpr : Bank
  scr : Bank
  deriving DecidableEq, Repr

namespace Registers

/-- All registers cleared. -/
def zero : Registers := ⟨.zero, .zero⟩

/-- The instruction address. -/
def iar (regs : Registers) : Word := regs.scr.get Scr.iar

/-- The interrupt control status. -/
def ics (regs : Registers) : Word := regs.scr.get Scr.ics

/-- The condition status as a word. -/
def cs (regs : Registers) : Word := regs.scr.get Scr.cs

/-- The condition status by its flags. -/
def condition (regs : Registers) : Condition := ⟨regs.cs⟩

/-- A register as base or index of an address: register 0 stands for zero. -/
def base (regs : Registers) (r : Reg) : Word := if r = 0 then 0 else regs.gpr.get r

/-- Write a general register. -/
def setGpr (regs : Registers) (r : Reg) (value : Word) : Registers :=
  { regs with gpr := regs.gpr.set r value }

/-- Write a system control register. -/
def setScr (regs : Registers) (r : Reg) (value : Word) : Registers :=
  { regs with scr := regs.scr.set r value }

end Registers

end ProcessorCores.Romp

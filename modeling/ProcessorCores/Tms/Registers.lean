import ProcessorCores.Tms.Status

/-!
# Registers of the TMS3202x

The hardware stack has eight entries. A push moves every entry one place down and loses the lowest;
a pop moves every entry one place up and keeps a copy of the lowest.

The peripheral registers are memory mapped and live with the on-chip memory.
-/

namespace ProcessorCores.Tms

/-- Eight halfwords, as used for the auxiliary registers and the stack. -/
abbrev Octet := Vector Half 8

/-- The register file. -/
structure Registers where
  /-- Program counter, a word address. -/
  pc : Half
  /-- Prefetch counter, the running source of block moves and products. -/
  pfc : Half
  /-- Accumulator. -/
  acc : Word
  /-- Product. -/
  p : Word
  /-- Multiplier input. -/
  t : Half
  /-- Auxiliary registers. -/
  ar : Octet
  /-- Return stack; entry 7 is the top. -/
  stack : Octet
  /-- Repeat counter. -/
  rptc : Byte
  /-- Interrupt flags, six request bits. -/
  ifr : Half
  status : Status
  deriving DecidableEq, Repr

namespace Registers

/-- The cleared register file of a part that fixes some bits of ST1. -/
def new (st1Fixed : Half) : Registers where
  pc := 0
  pfc := 0
  acc := 0
  p := 0
  t := 0
  ar := Vector.replicate 8 0
  stack := Vector.replicate 8 0
  rptc := 0
  ifr := 0
  status := .new st1Fixed

/-- Read an auxiliary register. -/
def getAr (regs : Registers) (pointer : Pointer) : Half :=
  have : pointer.toNat < 8 := pointer.isLt
  regs.ar[pointer.toNat]

/-- Write an auxiliary register. -/
def setAr (regs : Registers) (pointer : Pointer) (value : Half) : Registers :=
  { regs with ar := regs.ar.set pointer.toNat value pointer.isLt }

/-- The auxiliary register in use. -/
def currentAr (regs : Registers) : Half := regs.getAr regs.status.arp

/-- Write the auxiliary register in use. -/
def setCurrentAr (regs : Registers) (value : Half) : Registers := regs.setAr regs.status.arp value

/-- Push onto the stack. The lowest entry is lost. -/
def push (regs : Registers) (value : Half) : Registers :=
  let s := regs.stack
  { regs with stack := #v[s[1], s[2], s[3], s[4], s[5], s[6], s[7], value] }

/-- The top of the stack. -/
def top (regs : Registers) : Half := regs.stack[7]

/-- Remove the top of the stack. The lowest entry is duplicated. -/
def pop (regs : Registers) : Registers :=
  let s := regs.stack
  { regs with stack := #v[s[0], s[0], s[1], s[2], s[3], s[4], s[5], s[6]] }

/-- Set or clear a status flag. -/
def put (regs : Registers) (flag : StatusFlag) (on : Bool) : Registers :=
  { regs with status := regs.status.put flag on }

/-- Read a status flag. -/
def has (regs : Registers) (flag : StatusFlag) : Bool := regs.status.has flag

/-- Raise request bits. -/
def request (regs : Registers) (bits : Half) : Registers := { regs with ifr := regs.ifr ||| bits }

/-- Reading the auxiliary registers after a write. -/
theorem getAr_setAr (regs : Registers) (pointer other : Pointer) (value : Half) :
    (regs.setAr pointer value).getAr other = if other = pointer then value else regs.getAr other := by
  simp only [getAr, setAr, Vector.getElem_set, BitVec.toNat_inj]
  by_cases h : other = pointer
  · simp [h]
  · simp [h, Ne.symm h]

/-- The top of the stack is what was pushed. -/
@[simp] theorem top_push (regs : Registers) (value : Half) : (regs.push value).top = value := rfl

end Registers

end ProcessorCores.Tms

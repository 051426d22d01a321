import ProcessorCores.Tms.Registers

/-!
# Addressing operands

With bit 7 clear an instruction names a word of the current data page by its low seven bits. With
bit 7 set the operand is where the auxiliary register in use points, and that register is modified
afterwards:

| bits 6 to 4 | written | modification |
|---|---|---|
| 000, 011 | `*` | none |
| 001 | `*-` | decrement |
| 010 | `*+` | increment |
| 100 | `*BR0-` | add the negated AR0 with reverse carry |
| 101 | `*0-` | subtract AR0 |
| 110 | `*0+` | add AR0 |
| 111 | `*BR0+` | add AR0 with reverse carry |

Bit 3 then chooses another auxiliary register by bits 2 to 0. Addition with reverse carry runs from
the most significant bit down; adding half the size of a table steps through it in bit-reversed
order.
-/

namespace ProcessorCores.Tms

/-- Append `count` more bits to a sum: one bit of each operand at a time, from the most significant
down, with the carry of the bits above. -/
def addDownwards (a b : Half) (carry : Bool) (sum : Half) : Nat → Half
  | 0 => sum
  | count + 1 =>
    let bit := a.msb ^^ b.msb ^^ carry
    let carryDown := (a.msb && b.msb) || (a.msb && carry) || (b.msb && carry)
    addDownwards (a <<< 1) (b <<< 1) carryDown ((sum <<< 1) ||| (BitVec.ofBool bit).setWidth 16) count

/-- Add two indices with the carry going from the most significant bit towards the least. -/
def reverseCarryAdd (a b : Half) : Half := addDownwards a b false 0 16

/-- True for an instruction that addresses through an auxiliary register. -/
def isIndirect (word : Half) : Bool := word.getLsbD 7

/-- The value of an auxiliary register after the modification that an instruction word asks for. -/
def modifiedAr (word ar ar0 : Half) : Half :=
  match word.extractLsb' 4 3 with
  | 1 => ar - 1
  | 2 => ar + 1
  | 4 => reverseCarryAdd ar (-ar0)
  | 5 => ar - ar0
  | 6 => ar + ar0
  | 7 => reverseCarryAdd ar ar0
  | _ => ar

namespace Registers

/-- Modify the auxiliary register in use, then choose another if the word asks for it and
`movesPointer` allows it. -/
def modifyAr (regs : Registers) (word : Half) (movesPointer : Bool) : Registers :=
  let regs := regs.setCurrentAr (modifiedAr word regs.currentAr (regs.getAr 0))
  if movesPointer && word.getLsbD 3 then
    { regs with status := regs.status.setArp (word.extractLsb' 0 3) }
  else regs

/-- The address of the data operand of an instruction word. -/
def operandAddress (regs : Registers) (word : Half) : Half :=
  if isIndirect word then regs.currentAr else (regs.status.dp <<< 7) ||| (word &&& 0x7F)

/-- The same, with direct addresses always on page 0. -/
def pageZeroAddress (regs : Registers) (word : Half) : Half :=
  if isIndirect word then regs.currentAr else word &&& 0x7F

/-- The modification that goes with an operand: none when it is addressed directly. -/
def afterOperand (regs : Registers) (word : Half) (movesPointer : Bool) : Registers :=
  if isIndirect word then regs.modifyAr word movesPointer else regs

end Registers

end ProcessorCores.Tms

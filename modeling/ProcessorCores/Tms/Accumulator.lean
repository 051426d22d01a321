import ProcessorCores.Tms.Registers

/-!
# Accumulator arithmetic

Sums and differences set the sticky overflow flag when the exact signed result does not fit, and in
overflow mode leave the limit nearest to it. The carry is judged last, from the accumulator as it
then stands. Operations on the high half alone move the carry in one direction only, and the sums
with carry leave it alone when the accumulator comes out unchanged.
-/

namespace ProcessorCores.Tms

/-- The greatest signed word. -/
def greatestSigned : Word := 0x7FFFFFFF

/-- The least signed word. -/
def leastSigned : Word := 0x80000000

/-- The product of two signed halfwords. -/
def signedProduct (a b : Half) : Word := a.signExtend 32 * b.signExtend 32

/-- True when `result`, reached from `old` by adding `value`, has the wrong sign. -/
def sumOverflows {w : Nat} (old value result : BitVec w) : Bool :=
  ((result ^^^ value) &&& (old ^^^ result)).msb

/-- True when `result`, reached from `old` by subtracting `value`, has the wrong sign. -/
def differenceOverflows {w : Nat} (old value result : BitVec w) : Bool :=
  ((old ^^^ value) &&& (old ^^^ result)).msb

namespace Registers

/-- A halfword as accumulator operand: sign-extended in that mode, then shifted left. -/
def extend (regs : Registers) (value : Half) (shift : Nat) : Word :=
  (if regs.has .sxm then value.signExtend 32 else value.setWidth 32) <<< shift

/-- The product as accumulator operand, shifted as the mode asks. -/
def shiftedProduct (regs : Registers) : Word :=
  match regs.status.pm with
  | 0 => regs.p
  | 1 => regs.p <<< 1
  | 2 => regs.p <<< 4
  | _ => regs.p.sshiftRight 6

/-- Note an overflow of an accumulator that held `old`; in overflow mode the limit of that sign
replaces the result. -/
def overflow (regs : Registers) (old : Word) : Registers :=
  let regs := regs.put .ov true
  if regs.has .ovm then { regs with acc := if old.msb then leastSigned else greatestSigned } else regs

/-- Add to the accumulator. -/
def addAcc (regs : Registers) (value : Word) : Registers :=
  let old := regs.acc
  let sum := old + value
  let regs := { regs with acc := sum }
  let regs := if sumOverflows old value sum then regs.overflow old else regs
  regs.put .carry (regs.acc < old)

/-- Subtract from the accumulator. -/
def subAcc (regs : Registers) (value : Word) : Registers :=
  let old := regs.acc
  let difference := old - value
  let regs := { regs with acc := difference }
  let regs := if differenceOverflows old value difference then regs.overflow old else regs
  regs.put .carry (regs.acc ≤ old)

/-- Add a halfword and the carry to the accumulator. -/
def addWithCarry (regs : Registers) (value : Half) : Registers :=
  let old := regs.acc
  let value := value.setWidth 32
  let sum := old + (if regs.has .carry then 1 else 0) + value
  let regs := { regs with acc := sum }
  let regs := if sumOverflows old value sum then regs.overflow old else regs
  if regs.acc ≠ old then regs.put .carry (regs.acc < old) else regs

/-- Subtract a halfword and the borrow, a clear carry, from the accumulator. -/
def subWithBorrow (regs : Registers) (value : Half) : Registers :=
  let old := regs.acc
  let value := value.setWidth 32
  let difference := old - (if regs.has .carry then 0 else 1) - value
  let regs := { regs with acc := difference }
  let regs := if differenceOverflows old value difference then regs.overflow old else regs
  if regs.acc ≠ old then regs.put .carry (regs.acc ≤ old) else regs

/-- Note an overflow of a high half that held `old`, and give the high half to keep. -/
def overflowHigh (regs : Registers) (old result : Half) : Half × Registers :=
  let regs := regs.put .ov true
  (if regs.has .ovm then (if old.msb then 0x8000 else 0x7FFF) else result, regs)

/-- Add to the high half of the accumulator. The carry can only become set. -/
def addHigh (regs : Registers) (value : Half) : Registers :=
  let old := highHalf regs.acc
  let sum := old + value
  let regs := if sum < old then regs.put .carry true else regs
  let (high, regs) := if sumOverflows old value sum then regs.overflowHigh old sum else (sum, regs)
  { regs with acc := joinHalves high (lowHalf regs.acc) }

/-- Subtract from the high half of the accumulator. The carry can only become clear. -/
def subHigh (regs : Registers) (value : Half) : Registers :=
  let old := highHalf regs.acc
  let difference := old - value
  let regs := if old < difference then regs.put .carry false else regs
  let (high, regs) :=
    if differenceOverflows old value difference then regs.overflowHigh old difference
    else (difference, regs)
  { regs with acc := joinHalves high (lowHalf regs.acc) }

/-- One step of a division by conditional subtraction. The overflow mode does not touch it. -/
def divideStep (regs : Registers) (value : Half) : Registers :=
  let old := regs.acc
  let divisor := regs.extend value 15
  let difference := old - divisor
  let regs := if differenceOverflows old divisor difference then regs.put .ov true else regs
  let regs := regs.put .carry (difference ≤ old)
  { regs with acc := if divisor ≤ old then (difference <<< 1) ||| 1 else old <<< 1 }

/-- Leave the absolute value in the accumulator. -/
def absolute (regs : Registers) : Registers :=
  let regs :=
    if regs.acc.msb then
      let regs := { regs with acc := -regs.acc }
      if regs.acc = leastSigned then
        let regs := regs.put .ov true
        if regs.has .ovm then { regs with acc := greatestSigned } else regs
      else regs
    else regs
  regs.put .carry false

/-- Negate the accumulator. -/
def negate (regs : Registers) : Registers :=
  let regs :=
    if regs.acc = leastSigned then
      let regs := regs.put .ov true
      if regs.has .ovm then { regs with acc := greatestSigned } else regs
    else { regs with acc := -regs.acc }
  regs.put .carry (regs.acc = 0)

/-- Shift the accumulator left by one. -/
def shiftLeft (regs : Registers) : Registers :=
  let regs := regs.put .carry regs.acc.msb
  { regs with acc := regs.acc <<< 1 }

/-- Shift the accumulator right by one, copying the sign in sign-extension mode. -/
def shiftRight (regs : Registers) : Registers :=
  let regs := regs.put .carry (regs.acc.getLsbD 0)
  { regs with acc := if regs.has .sxm then regs.acc.sshiftRight 1 else regs.acc >>> 1 }

/-- Rotate the accumulator left through the carry. -/
def rotateLeft (regs : Registers) : Registers :=
  let old := regs.acc
  let regs := { regs with acc := (old <<< 1) ||| (BitVec.ofBool (regs.has .carry)).setWidth 32 }
  regs.put .carry old.msb

/-- Rotate the accumulator right through the carry. -/
def rotateRight (regs : Registers) : Registers :=
  let old := regs.acc
  let regs :=
    { regs with acc := (old >>> 1) ||| ((BitVec.ofBool (regs.has .carry)).setWidth 32 <<< 31) }
  regs.put .carry (old.getLsbD 0)

end Registers

end ProcessorCores.Tms

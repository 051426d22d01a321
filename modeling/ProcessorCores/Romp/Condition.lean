import ProcessorCores.Word

/-!
# Condition status

The low byte of the condition status register holds six condition bits and a bit that stays zero.
Three of the bits order a result against zero, and each operation that sets one of them clears the
other two.

Carry and overflow of a sum follow from the signs of the operands and of the result. The carry of a
difference has a formula of its own and is not that of a sum with one operand complemented.
-/

namespace ProcessorCores.Romp

/-- The condition bits. -/
inductive Flag
  /-- The result is below zero. -/
  | less
  /-- The result is zero. -/
  | equal
  /-- The result is above zero. -/
  | greater
  | carry
  | overflow
  /-- The bit that test-bit moves go through. -/
  | test
  deriving DecidableEq, Repr

namespace Flag

/-- The bit of the register that holds a flag. -/
def mask : Flag → Word
  | .less => 0x40
  | .equal => 0x20
  | .greater => 0x10
  | .carry => 0x08
  | .overflow => 0x02
  | .test => 0x01

/-- The letter that stands for a flag in listings. -/
def letter : Flag → Char
  | .less => 'L'
  | .equal => 'E'
  | .greater => 'G'
  | .carry => 'C'
  | .overflow => 'O'
  | .test => 'T'

/-- The flags in the order of a listing. -/
def all : List Flag := [.less, .equal, .greater, .carry, .overflow, .test]

/-- The condition bit that is always zero. -/
def permanentZero : Word := 0x80

/-- How a result compares with zero as a signed number. -/
def ofResult (result : Word) : Flag :=
  if result = 0 then .equal else if result.msb then .less else .greater

end Flag

/-- The condition status register. -/
structure Condition where
  raw : Word
  deriving DecidableEq, Repr

namespace Condition

/-- True when a flag is set. -/
def has (condition : Condition) (flag : Flag) : Bool := meets condition.raw flag.mask

/-- Set or clear one flag. -/
def put (condition : Condition) (flag : Flag) (on : Bool) : Condition :=
  ⟨assign condition.raw flag.mask on⟩

/-- Bit `n` counted from the least significant end; there is none past bit 31. -/
def bit (condition : Condition) (n : Nat) : Bool := condition.raw.getLsbD n

/-- Of the three ordering flags, set the one that describes a result and clear the others. -/
def setLogical (condition : Condition) (result : Word) : Condition :=
  let cleared := ((condition.put .less false).put .equal false).put .greater false
  cleared.put (.ofResult result) true

/-- The flags of the sum of two operands. -/
def setSum (condition : Condition) (a b : Word) : Condition :=
  let result := a + b
  ((condition.setLogical result).put .carry
    ((b.msb && a.msb) || (!result.msb && (b.msb || a.msb)))).put .overflow
    (b.msb == a.msb && result.msb != b.msb)

/-- The flags of the difference of two operands. -/
def setDifference (condition : Condition) (a b : Word) : Condition :=
  let result := a - b
  ((condition.setLogical result).put .carry
    ((!b.msb && a.msb) || (result.msb && (!b.msb || a.msb)))).put .overflow
    (b.msb != a.msb && result.msb != b.msb)

/-- One letter for each flag that is set and a dot for each that is clear. -/
def render (condition : Condition) : String :=
  String.ofList (Flag.all.map fun flag => if condition.has flag then flag.letter else '.')

/-- Each flag has a bit to itself. -/
theorem mask_eq_twoPow (flag : Flag) :
    ∃ n, n < 32 ∧ flag.mask = BitVec.twoPow 32 n ∧
      ∀ other : Flag, other.mask.getLsbD n = (other == flag) := by
  cases flag
  · exact ⟨6, by decide, by decide, fun other => by cases other <;> decide⟩
  · exact ⟨5, by decide, by decide, fun other => by cases other <;> decide⟩
  · exact ⟨4, by decide, by decide, fun other => by cases other <;> decide⟩
  · exact ⟨3, by decide, by decide, fun other => by cases other <;> decide⟩
  · exact ⟨1, by decide, by decide, fun other => by cases other <;> decide⟩
  · exact ⟨0, by decide, by decide, fun other => by cases other <;> decide⟩

/-- A flag reads back as it was put, and no other flag changes. -/
theorem has_put (condition : Condition) (flag other : Flag) (on : Bool) :
    (condition.put flag on).has other = if other = flag then on else condition.has other := by
  obtain ⟨n, hn, hmask, hbits⟩ := mask_eq_twoPow other
  rw [has, has, put, hmask, meets_twoPow _ hn, meets_twoPow _ hn, getLsbD_assign, hbits flag]
  by_cases h : other = flag
  · simp [h]
  · simp [h, Ne.symm h]

end Condition

end ProcessorCores.Romp

import ProcessorCores.Romp.Decode

/-!
# ROMP computations

A computation yields an outcome from the register file and the instruction alone: at most one
general register to write, and what the condition status is to show. Sums with carry fold the carry
into the second operand before the flags are judged, and every comparison judges the wrapped
difference of its operands.
-/

namespace ProcessorCores.Romp

/-- What a computation does to the condition status. -/
inductive ConditionEffect
  /-- Nothing. -/
  | keep
  /-- Order a result against zero. -/
  | logical (result : Word)
  /-- Judge a sum. -/
  | sum (a b : Word)
  /-- Judge a difference. -/
  | difference (a b : Word)
  /-- Set or clear the test bit. -/
  | test (on : Bool)
  deriving DecidableEq, Repr

/-- The condition status after an effect. -/
def ConditionEffect.apply (effect : ConditionEffect) (condition : Condition) : Condition :=
  match effect with
  | .keep => condition
  | .logical result => condition.setLogical result
  | .sum a b => condition.setSum a b
  | .difference a b => condition.setDifference a b
  | .test on => condition.put .test on

/-- The result of a computation. -/
structure Outcome where
  write : Option (Reg × Word)
  effect : ConditionEffect
  deriving DecidableEq, Repr

namespace Outcome

/-- Write a register and leave the condition status. -/
def quiet (r : Reg) (value : Word) : Outcome := ⟨some (r, value), .keep⟩

/-- Write a register and order its value against zero. -/
def logical (r : Reg) (value : Word) : Outcome := ⟨some (r, value), .logical value⟩

/-- Write the sum of two operands and judge it. -/
def sum (r : Reg) (a b : Word) : Outcome := ⟨some (r, a + b), .sum a b⟩

/-- Write the difference of two operands and judge it. -/
def difference (r : Reg) (a b : Word) : Outcome := ⟨some (r, a - b), .difference a b⟩

/-- Compare two operands: order their difference against zero. -/
def compare (a b : Word) : Outcome := ⟨none, .logical (a - b)⟩

/-- Apply an outcome to the register file. -/
def apply (outcome : Outcome) (regs : Registers) : Registers :=
  let written :=
    match outcome.write with
    | some (r, value) => regs.setGpr r value
    | none => regs
  written.setScr Scr.cs (outcome.effect.apply regs.condition).raw

end Outcome

/-- One bit counted from the left of a word. -/
def bitFromLeft (n : Nat) : Word := 0x80000000 >>> n

/-- One bit counted from the left of the low halfword. -/
def lowBitFromLeft (n : Nat) : Word := 0x00008000 >>> n

/-- Replace one byte of a word, bytes being counted from the left. -/
def insertByte (word : Word) (index : Nat) (byte : Word) : Word :=
  let mask : Word := 0xFF <<< (8 * (3 - index))
  (word &&& ~~~mask) ||| (byte <<< (8 * (3 - index)) &&& mask)

/-- One byte of a word, bytes being counted from the left. -/
def extractByte (word : Word) (index : Nat) : Word := (word >>> (8 * (3 - index))) &&& 0xFF

/-- The amount of a shift by a register: its low six bits, so that a word can be shifted out. -/
def shiftAmount (register : Word) : Nat := (register &&& 63).toNat

/-- The position of a bit named by a register: its low five bits. -/
def bitPosition (register : Word) : Nat := (register &&& 31).toNat

/-- Copy the test bit to the bits of a mask in a register. -/
def fromTest (r : Reg) (value mask : Word) (condition : Condition) : Outcome :=
  .quiet r (assign value mask (condition.has .test))

/-- Copy the bit of a mask to the test bit. -/
def toTest (value mask : Word) : Outcome := ⟨none, .test (meets value mask)⟩

/-- The carry as a number. -/
def carryIn (condition : Condition) : Word := if condition.has .carry then 1 else 0

/-- The outcome of a computation. -/
def compute (op : ComputeOp) (instruction : Instruction) (regs : Registers) : Outcome :=
  let r2 := instruction.r2
  let r3 := instruction.r3
  let a := regs.gpr.get r2
  let b := regs.gpr.get r3
  let base := regs.base r3
  let short := instruction.shortImmediate
  let immediate := instruction.immediate
  let low := instruction.lowImmediate
  let high := instruction.highImmediate
  let carry := carryIn regs.condition
  let twin := instruction.twin
  let near := instruction.nearShift
  let far := instruction.farShift
  let amount := shiftAmount b
  let position := bitPosition b
  match op with
  | .cas => .quiet instruction.r1 (a + base)
  | .cal => .quiet r2 (base + immediate)
  | .cal16 => .quiet r2 (joinHalves (highHalf base) (lowHalf (base + low)))
  | .cau => .quiet r2 (base + high)
  | .ca16 => .quiet r2 (joinHalves (highHalf b) (lowHalf a + lowHalf b))
  | .lis => .quiet r2 short
  | .inc => .quiet r2 (a + short)
  | .dec => .quiet r2 (a - short)
  | .ai => .sum r2 b immediate
  | .aei => .sum r2 b (immediate + carry)
  | .sfi => .difference r2 immediate b
  | .ais => .sum r2 a short
  | .sis => .difference r2 a short
  | .sf => .difference r2 b a
  | .a => .sum r2 a b
  | .s => .difference r2 a b
  | .ae => .sum r2 a (b + carry)
  | .se => .difference r2 a (b + carry)
  | .twoc => .difference r2 0 b
  | .cli | .ci => .compare b immediate
  | .cis => .compare a short
  | .cl | .c => .compare a b
  | .oiu => .logical r2 (high ||| b)
  | .oil => .logical r2 (low ||| b)
  | .nilz => .logical r2 (low &&& b)
  | .nilo => .logical r2 ((low ||| 0xFFFF0000) &&& b)
  | .niuz => .logical r2 (high &&& b)
  | .niuo => .logical r2 ((high ||| 0x0000FFFF) &&& b)
  | .xil => .logical r2 (low ^^^ b)
  | .xiu => .logical r2 (high ^^^ b)
  | .o => .logical r2 (a ||| b)
  | .n => .logical r2 (a &&& b)
  | .x => .logical r2 (a ^^^ b)
  | .onec => .logical r2 (~~~b)
  | .clrbu => .logical r2 (assign a (bitFromLeft near) false)
  | .clrbl => .logical r2 (assign a (lowBitFromLeft near) false)
  | .setbu => .logical r2 (assign a (bitFromLeft near) true)
  | .setbl => .logical r2 (assign a (lowBitFromLeft near) true)
  | .mftbiu => fromTest r2 a (bitFromLeft near) regs.condition
  | .mftbil => fromTest r2 a (lowBitFromLeft near) regs.condition
  | .mftb => fromTest r2 a (bitFromLeft position) regs.condition
  | .mttbiu => toTest a (bitFromLeft near)
  | .mttbil => toTest a (lowBitFromLeft near)
  | .mttb => toTest a (bitFromLeft position)
  | .sari => .logical r2 (a.sshiftRight near)
  | .sari16 => .logical r2 (a.sshiftRight far)
  | .sar => .logical r2 (a.sshiftRight amount)
  | .sri => .logical r2 (a >>> near)
  | .sri16 => .logical r2 (a >>> far)
  | .sr => .logical r2 (a >>> amount)
  | .sli => .logical r2 (a <<< near)
  | .sli16 => .logical r2 (a <<< far)
  | .sl => .logical r2 (a <<< amount)
  | .srpi => .logical twin (a >>> near)
  | .srpi16 => .logical twin (a >>> far)
  | .srp => .logical twin (a >>> amount)
  | .slpi => .logical twin (a <<< near)
  | .slpi16 => .logical twin (a <<< far)
  | .slp => .logical twin (a <<< amount)
  | .exts => .logical r2 ((lowHalf b).signExtend 32)
  | .abs => .quiet r2 b.abs
  | .clz => .quiet r2 ((lowHalf b).clz.setWidth 32)
  | .mc03 => .quiet r2 (insertByte a 0 b)
  | .mc13 => .quiet r2 (insertByte a 1 b)
  | .mc23 => .quiet r2 (insertByte a 2 b)
  | .mc33 => .quiet r2 (insertByte a 3 b)
  | .mc30 => .quiet r2 (insertByte a 3 (extractByte b 0))
  | .mc31 => .quiet r2 (insertByte a 3 (extractByte b 1))
  | .mc32 => .quiet r2 (insertByte a 3 (extractByte b 2))

end ProcessorCores.Romp

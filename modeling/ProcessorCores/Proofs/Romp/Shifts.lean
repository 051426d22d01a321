import Mathlib.Algebra.GroupWithZero.Nat
import Mathlib.Algebra.Ring.Int.Defs
import ProcessorCores.Proofs.Romp.ConditionFrame

/-!
# ROMP shifts

Fifteen operations shift a word. They are three kinds of shift, multiplication by a power of two and
division by one without or with a sign, whose amount is the last digit, that digit plus sixteen or the low
six bits of a register, and all but the last kind also come in a paired form, which leaves the result in
the other register of the pair. Amounts reach twice the size of a word, and the arithmetic stays the same
there: all bits are gone, or all copies of the sign are left.

Operands are read before the result is written, so that it does not matter whether the amount stands in the
register that is shifted or in the one that takes the result.
-/

namespace ProcessorCores.Romp

/-- The ways to shift a word. -/
inductive ShiftKind
  | left
  | right
  | arithmetic
  deriving DecidableEq

namespace ShiftKind

/-- A word shifted in bits. -/
def shift (kind : ShiftKind) (amount : Nat) (value : Word) : Word :=
  match kind with
  | .left => value <<< amount
  | .right => value >>> amount
  | .arithmetic => value.sshiftRight amount

/-- What a shift means in numbers: the product with a power of two, wrapped, or the quotient by it, rounded
down, of the word as it is read without or with a sign. -/
def Gives (kind : ShiftKind) (amount : Nat) (value result : Word) : Prop :=
  match kind with
  | .left => result.toNat = value.toNat * 2 ^ amount % 2 ^ 32
  | .right => result.toNat = value.toNat / 2 ^ amount
  | .arithmetic => result.toInt = value.toInt / 2 ^ amount

/-- Each kind of shift gives what is asked of it, for every amount. -/
theorem gives_shift (kind : ShiftKind) (amount : Nat) (value : Word) :
    kind.Gives amount value (kind.shift amount value) := by
  cases kind with
  | left =>
    change (value <<< amount).toNat = _
    rw [BitVec.toNat_shiftLeft, Nat.shiftLeft_eq]
  | right =>
    change (value >>> amount).toNat = _
    rw [BitVec.toNat_ushiftRight, Nat.shiftRight_eq_div_pow]
  | arithmetic =>
    change (value.sshiftRight amount).toInt = _
    rw [BitVec.toInt_sshiftRight, Int.shiftRight_eq_div_pow]
    norm_cast

/-- The numbers leave no choice. -/
theorem Gives.unique {kind : ShiftKind} {amount : Nat} {value result other : Word}
    (h : kind.Gives amount value result) (hother : kind.Gives amount value other) : result = other := by
  cases kind with
  | left | right => exact BitVec.eq_of_toNat_eq (h.trans hother.symm)
  | arithmetic => exact BitVec.eq_of_toInt_eq (h.trans hother.symm)

end ShiftKind

/-- Where a shift finds its amount. -/
inductive ShiftAmount
  /-- In the last digit. -/
  | near
  /-- In the last digit, sixteen more than it says. -/
  | far
  /-- In the low six bits of a register. -/
  | register
  deriving DecidableEq

/-- The amount of a shift. -/
def ShiftAmount.find (amount : ShiftAmount) (instruction : Instruction) (regs : Registers) : Nat :=
  match amount with
  | .near => instruction.r3.toNat
  | .far => instruction.r3.toNat + 16
  | .register => (regs.gpr.get instruction.r3).toNat % 64

/-- Every amount is below 64. -/
theorem ShiftAmount.find_lt (amount : ShiftAmount) (instruction : Instruction) (regs : Registers) :
    amount.find instruction regs < 64 := by
  have hdigit := instruction.r3.isLt
  cases amount with
  | near | far =>
    simp only [find]
    omega
  | register => exact Nat.mod_lt _ (by decide)

/-- An amount in a register is taken modulo 64. -/
theorem shiftAmount_eq (register : Word) : shiftAmount register = register.toNat % 64 := by
  rw [shiftAmount, BitVec.toNat_and]
  exact Nat.and_two_pow_sub_one_eq_mod register.toNat 6

/-- A form of a shift. -/
structure Shift where
  kind : ShiftKind
  amount : ShiftAmount
  paired : Bool
  deriving DecidableEq

/-- The register that takes the result of a shift. -/
def Shift.destination (shift : Shift) (instruction : Instruction) : Reg :=
  if shift.paired then instruction.twin else instruction.r2

/-- A register is not its own twin. -/
theorem Instruction.twin_ne_r2 (instruction : Instruction) : instruction.twin ≠ instruction.r2 := by
  have hall : ∀ r : Reg, r ^^^ 1 ≠ r := by decide
  exact hall instruction.r2

/-- The paired forms, and no others, have another destination. -/
theorem Shift.destination_ne_iff (shift : Shift) (instruction : Instruction) :
    shift.destination instruction ≠ instruction.r2 ↔ shift.paired = true := by
  unfold destination
  cases shift.paired with
  | true => exact iff_of_true instruction.twin_ne_r2 rfl
  | false => exact iff_of_false (fun h => h rfl) Bool.noConfusion

namespace ComputeOp

/-- The form of an operation that shifts. -/
def shift? : ComputeOp → Option Shift
  | .sari => some ⟨.arithmetic, .near, false⟩
  | .sari16 => some ⟨.arithmetic, .far, false⟩
  | .sar => some ⟨.arithmetic, .register, false⟩
  | .sri => some ⟨.right, .near, false⟩
  | .sri16 => some ⟨.right, .far, false⟩
  | .sr => some ⟨.right, .register, false⟩
  | .srpi => some ⟨.right, .near, true⟩
  | .srpi16 => some ⟨.right, .far, true⟩
  | .srp => some ⟨.right, .register, true⟩
  | .sli => some ⟨.left, .near, false⟩
  | .sli16 => some ⟨.left, .far, false⟩
  | .sl => some ⟨.left, .register, false⟩
  | .slpi => some ⟨.left, .near, true⟩
  | .slpi16 => some ⟨.left, .far, true⟩
  | .slp => some ⟨.left, .register, true⟩
  | _ => none

/-- Every shift writes its result and orders it. -/
theorem compute_shift {op : ComputeOp} {shift : Shift} (h : op.shift? = some shift)
    (instruction : Instruction) (regs : Registers) :
    compute op instruction regs =
      .logical (shift.destination instruction)
        (shift.kind.shift (shift.amount.find instruction regs) (regs.gpr.get instruction.r2)) := by
  cases op <;> first
    | contradiction
    | obtain rfl := Option.some.inj h
      simp only [compute, ShiftAmount.find, shiftAmount_eq]
      rfl

end ComputeOp

namespace Machine

/-- What a shift makes of a machine: its result goes to one general register and is ordered by the
condition status. No other register changes but the instruction address, and no other bit of the status. -/
structure Shifts (before : Machine) (kind : ShiftKind) (amount : Nat) (value : Word) (destination : Reg)
    (after : Machine) : Prop where
  gives : kind.Gives amount value (after.core.regs.gpr.get destination)
  gpr : ∀ r : Reg, r ≠ destination → after.core.regs.gpr.get r = before.core.regs.gpr.get r
  scr : ∀ r : Reg, r ≠ Scr.iar → r ≠ Scr.cs → after.core.regs.scr.get r = before.core.regs.scr.get r
  orders : after.core.regs.condition.Orders (after.core.regs.gpr.get destination)
  beside : after.core.regs.cs &&& ~~~0x70 = before.core.regs.cs &&& ~~~0x70

variable {machine other : Machine} {op : ComputeOp} {shift : Shift}

/-- A step of a shift shifts into its destination by its amount. -/
theorem shifts_of_shift (hop : machine.operation? = some (.compute op)) (hshift : op.shift? = some shift) :
    machine.Shifts shift.kind (shift.amount.find machine.current machine.core.regs)
      (machine.core.regs.gpr.get machine.current.r2) (shift.destination machine.current)
      machine.step.1 := by
  let result := shift.kind.shift (shift.amount.find machine.current machine.core.regs)
    (machine.core.regs.gpr.get machine.current.r2)
  obtain ⟨hgpr, hcs⟩ := step_of_compute hop
  rw [ComputeOp.compute_shift hshift] at hgpr hcs
  rw [Outcome.apply_cs] at hcs
  have hwritten (r : Reg) : machine.step.1.core.regs.gpr.get r =
      if r = shift.destination machine.current then result else machine.core.regs.gpr.get r := by
    rw [hgpr]
    exact Bank.get_set ..
  have hresult : machine.step.1.core.regs.gpr.get (shift.destination machine.current) = result :=
    (hwritten _).trans (if_pos rfl)
  have hcondition : machine.step.1.core.regs.condition = machine.core.regs.condition.setLogical result :=
    congrArg Condition.mk hcs
  constructor
  case gives =>
    rw [hresult]
    exact shift.kind.gives_shift _ _
  case gpr => exact fun r hr => (hwritten r).trans (if_neg hr)
  case scr => exact fun r hiar hne => step_scr_of_compute hop hiar hne
  case orders =>
    rw [hresult, hcondition]
    exact machine.core.regs.condition.setLogical_orders result
  case beside =>
    have hraw := congrArg (·.raw &&& ~~~0x70) hcondition
    exact hraw.trans (ConditionEffect.logical_beside result _)

/-- A shift by any amount up to 63 leaves the product with a power of two, wrapped, or the quotient by it
rounded down, and orders it; all else but the instruction address stays as it was. The result goes to the
register that is shifted, or in a paired form to the other one of its pair. It depends on the kind of the
shift, its amount and the word alone, not on the form. -/
theorem shift_forms_agree {machine : Machine} {op : ComputeOp} {shift : Shift}
    (hop : machine.operation? = some (.compute op)) (hshift : op.shift? = some shift) :
    let amount := shift.amount.find machine.current machine.core.regs
    let value := machine.core.regs.gpr.get machine.current.r2
    let destination := shift.destination machine.current
    amount < 64 ∧ (destination ≠ machine.current.r2 ↔ shift.paired = true) ∧
      machine.Shifts shift.kind amount value destination machine.step.1 ∧
      ∀ (other : Machine) (otherOp : ComputeOp) (otherShift : Shift),
        other.operation? = some (.compute otherOp) → otherOp.shift? = some otherShift →
        otherShift.kind = shift.kind → otherShift.amount.find other.current other.core.regs = amount →
        other.core.regs.gpr.get other.current.r2 = value →
          other.step.1.core.regs.gpr.get (otherShift.destination other.current) =
              machine.step.1.core.regs.gpr.get destination ∧
            ∀ flag ∈ Flag.ordering, other.step.1.core.regs.condition.has flag =
              machine.step.1.core.regs.condition.has flag := by
  intro amount value destination
  have hshifts : machine.Shifts shift.kind amount value destination machine.step.1 :=
    shifts_of_shift hop hshift
  refine ⟨shift.amount.find_lt _ _, shift.destination_ne_iff _, hshifts, ?_⟩
  intro other otherOp otherShift hotherOp hotherShift hkind hamount hvalue
  have hothers := shifts_of_shift hotherOp hotherShift
  rw [hkind, hamount, hvalue] at hothers
  have hsame := hothers.gives.unique hshifts.gives
  refine ⟨hsame, fun flag hflag => ?_⟩
  rw [Bool.eq_iff_iff, hothers.orders.has_iff hflag, hshifts.orders.has_iff hflag, hsame]

/-- A paired shift by its partner, and the same shift by an amount in the instruction. -/
theorem shift_forms_agree_twenty :
    let paired := ((started [0xBB, 0x23]).setGpr 2 3).setGpr 3 20
    let immediate := (started [0xAB, 0x54]).setGpr 5 3
    paired.operation? = some (.compute .slp) ∧ immediate.operation? = some (.compute .sli16) ∧
      paired.step.1.core.regs.gpr.get 2 = 3 ∧
      (paired.step.1.core.regs.gpr.get 3).toNat = 3 * 2 ^ 20 ∧
      (immediate.step.1.core.regs.gpr.get 5).toNat = 3 * 2 ^ 20 := by
  intro paired immediate
  have hpaired : paired.operation? = some (.compute .slp) := by decide +kernel
  have himmediate : immediate.operation? = some (.compute .sli16) := by decide +kernel
  obtain ⟨-, -, hshifts, hagree⟩ := shift_forms_agree hpaired rfl
  have hsame := (hagree immediate .sli16 _ himmediate rfl rfl (by decide +kernel) (by decide +kernel)).1
  have hfields : paired.current.r2 = 2 ∧ paired.current.twin = 3 ∧ immediate.current.r2 = 5 := by
    decide +kernel
  have hvalue : paired.core.regs.gpr.get 2 = 3 := by decide +kernel
  have hamount : ShiftAmount.register.find paired.current paired.core.regs = 20 := by decide +kernel
  obtain ⟨hr2, htwin, hr5⟩ := hfields
  simp only [Shift.destination, hr2, htwin, hr5, hvalue, hamount] at hshifts hsame
  have hkept := (hshifts.gpr 2 (by decide)).trans hvalue
  have hproduct : (paired.step.1.core.regs.gpr.get 3).toNat = 3 * 2 ^ 20 := hshifts.gives
  exact ⟨hpaired, himmediate, hkept, hproduct, (congrArg BitVec.toNat hsame).trans hproduct⟩

end Machine

end ProcessorCores.Romp

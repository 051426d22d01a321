import Mathlib.Algebra.GroupWithZero.Nat
import Mathlib.Algebra.Ring.Int.Defs
import ProcessorCores.Proofs.Tms.Flags

/-!
# Accumulation and overflow

Many operations end in one sum with the accumulator or in one difference from it. They differ in the word
that they add or subtract, and in whether they do so before or after the access to memory, on which the
sum does not depend. `Accumulation` is what they have in common; its exact result is an integer, the
words being signed, and the overflow flag and the accumulator are told by that integer alone.

The overflow flag is sticky: of all operations only the two branches on it and the load of ST0 clear it.
-/

namespace ProcessorCores.Tms

/-! ## Exact results -/

/-- A sum with the accumulator, or a difference from it. -/
inductive Accumulation
  | sum (value : Word)
  | difference (value : Word)
  deriving DecidableEq, Repr

/-- True for the integers that a signed word can hold. -/
def FitsSigned (exact : Int) : Prop := -2 ^ 31 ≤ exact ∧ exact < 2 ^ 31

/-- Whether an exact result fits is decided by its two bounds. -/
instance (exact : Int) : Decidable (FitsSigned exact) := inferInstanceAs (Decidable (_ ∧ _))

namespace Accumulation

/-- The exact result, both words being signed. -/
def exact (accumulation : Accumulation) (acc : Word) : Int :=
  match accumulation with
  | .sum value => acc.toInt + value.toInt
  | .difference value => acc.toInt - value.toInt

/-- The carry out of the exact sum, or the complement of the borrow of the exact difference, both words
being unsigned. -/
def carry (accumulation : Accumulation) (acc : Word) : Bool :=
  match accumulation with
  | .sum value => 2 ^ 32 ≤ acc.toNat + value.toNat
  | .difference value => !decide (acc.toNat < value.toNat)

/-- The result in 32 bits. -/
def result (accumulation : Accumulation) (acc : Word) : Word :=
  match accumulation with
  | .sum value => acc + value
  | .difference value => acc - value

/-- The accumulation on a register file. -/
def apply (accumulation : Accumulation) (regs : Registers) : Registers :=
  match accumulation with
  | .sum value => regs.addAcc value
  | .difference value => regs.subAcc value

/-- The carry as it is judged, from the accumulator before and after. -/
def judged (accumulation : Accumulation) (old acc : Word) : Bool :=
  match accumulation with
  | .sum _ => acc < old
  | .difference _ => acc ≤ old

/-- Judged from the result it is the exact one. -/
theorem judged_result (accumulation : Accumulation) (acc : Word) :
    accumulation.judged acc (accumulation.result acc) = accumulation.carry acc := by
  cases accumulation with
  | sum value =>
    have hiff : acc + value < acc ↔ 2 ^ 32 ≤ acc.toNat + value.toNat := by bv_omega
    exact decide_eq_decide.mpr hiff
  | difference value =>
    have hiff : acc - value ≤ acc ↔ ¬ acc.toNat < value.toNat := by bv_omega
    exact (decide_eq_decide.mpr hiff).trans (decide_not ..)

/-- The test by signs is the test of the exact sum. -/
theorem sumOverflows_eq (old value : Word) :
    sumOverflows old value (old + value) = !decide (FitsSigned (old.toInt + value.toInt)) := by
  have htest : sumOverflows old value (old + value) = old.saddOverflow value := by
    rw [sumOverflows, BitVec.saddOverflow_eq, BitVec.msb_and, BitVec.msb_xor, BitVec.msb_xor]
    cases (old + value).msb <;> cases old.msb <;> cases value.msb <;> rfl
  rw [htest, BitVec.saddOverflow, Bool.eq_iff_iff]
  simp only [Bool.or_eq_true, Bool.not_eq_true', decide_eq_false_iff_not, decide_eq_true_eq]
  unfold FitsSigned
  omega

/-- The same for differences. -/
theorem differenceOverflows_eq (old value : Word) :
    differenceOverflows old value (old - value) = !decide (FitsSigned (old.toInt - value.toInt)) := by
  have htest : differenceOverflows old value (old - value) = old.ssubOverflow value := by
    rw [differenceOverflows, BitVec.ssubOverflow_eq, BitVec.msb_and, BitVec.msb_xor, BitVec.msb_xor]
    cases (old - value).msb <;> cases old.msb <;> cases value.msb <;> rfl
  rw [htest, BitVec.ssubOverflow, Bool.eq_iff_iff]
  simp only [Bool.or_eq_true, Bool.not_eq_true', decide_eq_false_iff_not, decide_eq_true_eq]
  unfold FitsSigned
  omega

/-- The result is the exact one modulo the size of a word. -/
theorem result_eq_ofInt (accumulation : Accumulation) (acc : Word) :
    accumulation.result acc = BitVec.ofInt 32 (accumulation.exact acc) := by
  apply BitVec.eq_of_toInt_eq
  cases accumulation with
  | sum value => rw [result, exact, BitVec.toInt_ofInt, BitVec.toInt_add]
  | difference value => rw [result, exact, BitVec.toInt_ofInt, BitVec.toInt_sub]

/-- An exact result that fits is the result. -/
theorem toInt_result {accumulation : Accumulation} {acc : Word}
    (hfits : FitsSigned (accumulation.exact acc)) :
    (accumulation.result acc).toInt = accumulation.exact acc := by
  rw [result_eq_ofInt, BitVec.toInt_ofInt]
  exact Int.bmod_eq_of_le hfits.1 hfits.2

/-- One that does not fit lies beyond the limit of the sign that the accumulator had. -/
theorem exact_beyond {accumulation : Accumulation} {acc : Word}
    (hfits : ¬ FitsSigned (accumulation.exact acc)) :
    if acc.msb then accumulation.exact acc < -2 ^ 31 else 2 ^ 31 ≤ accumulation.exact acc := by
  have hacc := acc.le_toInt
  have hacc' := acc.toInt_lt
  rw [BitVec.msb_eq_toInt]
  unfold FitsSigned at hfits
  simp only [decide_eq_true_eq]
  cases accumulation with
  | sum value | difference value =>
    have hvalue := value.le_toInt
    have hvalue' := value.toInt_lt
    simp only [exact] at hfits ⊢
    split <;> omega

end Accumulation

/-! ## One accumulation -/

namespace Registers

/-- What an accumulation makes of the accumulator and of the flags that tell of it. A result that does
not fit is cut to its word, or in overflow mode clamped to the nearer limit. -/
structure AccumulatedTo (before : Registers) (accumulation : Accumulation) (after : Registers) :
    Prop where
  fits : FitsSigned (accumulation.exact before.acc) →
    after.acc.toInt = accumulation.exact before.acc ∧ after.has .ov = before.has .ov
  overflows : ¬ FitsSigned (accumulation.exact before.acc) → after.has .ov = true
  wraps : ¬ FitsSigned (accumulation.exact before.acc) → before.has .ovm = false →
    after.acc = BitVec.ofInt 32 (accumulation.exact before.acc)
  saturates : ¬ FitsSigned (accumulation.exact before.acc) → before.has .ovm = true →
    after.acc.toInt = max (-2 ^ 31) (min (accumulation.exact before.acc) (2 ^ 31 - 1))
  carry : before.has .ovm = false → after.has .carry = accumulation.carry before.acc

/-- The accumulator and the overflow flag as the result leaves them, before the carry is judged. -/
def settle (regs : Registers) (accumulation : Accumulation) : Registers :=
  let settled := { regs with acc := accumulation.result regs.acc }
  if FitsSigned (accumulation.exact regs.acc) then settled else settled.overflow regs.acc

/-- The carry is judged last. -/
theorem apply_eq (accumulation : Accumulation) (regs : Registers) :
    accumulation.apply regs = (regs.settle accumulation).put .carry
      (accumulation.judged regs.acc (regs.settle accumulation).acc) := by
  cases accumulation with
  | sum value =>
    simp only [Accumulation.apply, addAcc, Accumulation.sumOverflows_eq, Bool.not_eq_true',
      decide_eq_false_iff_not, ite_not]
    rfl
  | difference value =>
    simp only [Accumulation.apply, subAcc, Accumulation.differenceOverflows_eq, Bool.not_eq_true',
      decide_eq_false_iff_not, ite_not]
    rfl

variable {regs : Registers} {accumulation : Accumulation}

/-- What is left in overflow mode, when the result does not fit. -/
theorem overflow_acc (regs : Registers) (old : Word) :
    (regs.overflow old).acc =
      if regs.has .ovm then if old.msb then leastSigned else greatestSigned else regs.acc := by
  have hovm : (regs.put .ov true).has .ovm = regs.has .ovm := Status.has_put (.inl rfl) .ov true
  rw [overflow, hovm]
  split <;> rfl

/-- An overflow is noted. -/
theorem has_overflow (regs : Registers) (old : Word) : (regs.overflow old).has .ov = true := by
  have hov : (regs.put .ov true).has .ov = true := Status.has_put (.inl rfl) .ov true
  rw [overflow]
  split <;> exact hov

/-- Out of overflow mode the result is left as it is. -/
theorem settle_acc (hovm : regs.has .ovm = false) :
    (regs.settle accumulation).acc = accumulation.result regs.acc := by
  have hovm' : ({ regs with acc := accumulation.result regs.acc } : Registers).has .ovm = false := hovm
  rw [settle]
  split
  · rfl
  · rw [overflow_acc, hovm', if_neg Bool.false_ne_true]

/-- An accumulation steers nothing. -/
theorem steersAs_apply (regs : Registers) (accumulation : Accumulation) :
    regs.SteersAs (accumulation.apply regs) := by
  cases accumulation with
  | sum value => exact keptByArithmetic_steersAs.addAcc regs value
  | difference value => exact keptByArithmetic_steersAs.subAcc regs value

/-- An accumulation meets its specification, whatever is accumulated. -/
theorem accumulatedTo_apply {model : Model} (hpart : regs.status.st1Fixed = model.st1Fixed)
    (accumulation : Accumulation) : regs.AccumulatedTo accumulation (accumulation.apply regs) := by
  have hov (settled : Registers) (carry : Bool) :
      (settled.put .carry carry).has .ov = settled.has .ov := Status.has_put (.inl rfl) .carry carry
  rw [apply_eq]
  constructor
  case fits =>
    intro hfits
    rw [hov, settle, if_pos hfits]
    exact ⟨Accumulation.toInt_result hfits, rfl⟩
  case overflows =>
    intro hfits
    rw [hov, settle, if_neg hfits]
    exact has_overflow _ _
  case wraps =>
    intro _ hovm
    exact (settle_acc hovm).trans (accumulation.result_eq_ofInt regs.acc)
  case saturates =>
    intro hfits hovm
    -- A result that does not fit lies beyond the limit on the side of the sign.
    have hbeyond := Accumulation.exact_beyond hfits
    have hovm' : ({ regs with acc := accumulation.result regs.acc } : Registers).has .ovm = true := hovm
    change (regs.settle accumulation).acc.toInt = _
    rw [settle, if_neg hfits, overflow_acc, hovm', if_pos rfl]
    split
    · next hnegative =>
      rw [if_pos hnegative] at hbeyond
      change (-2 ^ 31 : Int) = _
      omega
    · next hpositive =>
      rw [if_neg hpositive] at hbeyond
      change (2 ^ 31 - 1 : Int) = _
      omega
  case carry =>
    intro hovm
    have harithmetic := keptByArithmetic_steersAs
    have hsettled : regs.SteersAs (regs.settle accumulation) :=
      harithmetic.ite (harithmetic.acc _ _)
        (harithmetic.trans (harithmetic.acc _ _) (harithmetic.overflow _ _))
    have hfree : (regs.settle accumulation).status.Frees .carry :=
      Status.frees (hsettled.status.part.trans hpart) (by decide)
    rw [settle_acc hovm, accumulation.judged_result]
    exact (Status.has_put hfree .carry _).trans (if_pos rfl)

end Registers

/-! ## Accumulating operations -/

/-- Registers that differ in nothing that an accumulation depends on or tells. -/
theorem Registers.AccumulatedTo.of_holdsAs {before held result after : Registers}
    {accumulation : Accumulation} {model : Model} (h : held.AccumulatedTo accumulation result)
    (hpart : result.status.st1Fixed = model.st1Fixed) (hbefore : before.HoldsAs held)
    (hafter : result.HoldsAs after) : before.AccumulatedTo accumulation after := by
  have hov : held.has .ov = before.has .ov := hbefore.status.has .ov (.inl rfl)
  have hovm : held.has .ovm = before.has .ovm := hbefore.status.has .ovm (.inl rfl)
  have hnoted : after.has .ov = result.has .ov := hafter.status.has .ov (.inl rfl)
  have hcarry : after.has .carry = result.has .carry :=
    hafter.status.has .carry (Status.frees hpart (by decide))
  obtain ⟨fits, overflows, wraps, saturates, carry⟩ := h
  rw [hbefore.acc] at fits overflows wraps saturates carry
  rw [hovm] at wraps saturates carry
  rw [← hafter.acc] at fits wraps saturates
  rw [← hnoted] at fits overflows
  rw [hov] at fits
  rw [← hcarry] at carry
  exact ⟨fits, overflows, wraps, saturates, carry⟩

namespace Machine

/-- The accumulation that an operation makes, if it makes one. A product is the one that the machine
already holds. -/
def accumulation? (machine : Machine) (op : Op) : Option Accumulation :=
  let regs := machine.core.regs
  let word := machine.core.opcode
  let operand := (machine.fetchOperand true).1
  let shift := shiftField word
  let tShift := (regs.t &&& 0xF).toNat
  match op with
  | .operand .add => some (.sum (regs.extend operand shift))
  | .operand .sub => some (.difference (regs.extend operand shift))
  | .operand .addt => some (.sum (regs.extend operand tShift))
  | .operand .subt => some (.difference (regs.extend operand tShift))
  | .operand .adds => some (.sum (operand.setWidth 32))
  | .operand .subs => some (.difference (operand.setWidth 32))
  | .long .adlk => some (.sum (regs.extend machine.fetchWord.1 shift))
  | .long .sblk => some (.difference (regs.extend machine.fetchWord.1 shift))
  | .register .addk => some (.sum ((shortConstant word).setWidth 32))
  | .register .subk => some (.difference ((shortConstant word).setWidth 32))
  | .operand .lta | .operand .mpya | .operand .sqra | .register .apac | .move .ltd | .move .mac
  | .move .macd => some (.sum regs.shiftedProduct)
  | .operand .lts | .operand .mpys | .operand .sqrs | .register .spac =>
    some (.difference regs.shiftedProduct)
  | _ => none

/-- What is left of a product once its operand is read leaves the accumulator. -/
theorem holdsAs_multiplyOperand (machine : Machine) (moves : Bool) (value : Half) :
    machine.core.regs.HoldsAs (machine.multiplyOperand moves value).core.regs := by
  have hmoved (moving : Bool) :
      machine.core.regs.HoldsAs (if moving then machine.writeNext value else machine).core.regs := by
    split
    · exact (machine.computesAs_writeData _ value).toHoldsAs
    · exact .refl _
  have hmultiplied (moved : Machine) : moved.core.regs.HoldsAs
      ((moved.mapRegs fun regs => { regs with t := value }).readProgram
        moved.core.regs.pfc).2.core.regs := by
    rw [readProgram_core]
    exact ⟨rfl, .refl _⟩
  exact ((hmoved _).trans (hmultiplied _)).trans ⟨rfl, .refl _⟩

/-- A product with a coefficient accumulates the product before it. -/
theorem multiplyAccumulate_accumulates {machine : Machine} {model : Model}
    (hpart : machine.core.regs.status.st1Fixed = model.st1Fixed) (moves : Bool) :
    ∃ held, machine.core.regs.HoldsAs held ∧
      ((Accumulation.sum machine.core.regs.shiftedProduct).apply held).HoldsAs
        (machine.multiplyAccumulate moves).core.regs := by
  have hloaded := machine.computesAs_loadPfc
  rw [← hloaded.shiftedProduct hpart]
  let summed := machine.loadPfc.mapRegs fun regs => regs.addAcc regs.shiftedProduct
  refine ⟨_, hloaded.toHoldsAs, ?_⟩
  exact (summed.computesAs_fetchOperand true).toHoldsAs.trans (holdsAs_multiplyOperand _ moves _)

/-- LTD accumulates the product after the move. -/
theorem ltd_accumulates {machine : Machine} {model : Model}
    (hpart : machine.core.regs.status.st1Fixed = model.st1Fixed) :
    ∃ held, machine.core.regs.HoldsAs held ∧
      (Accumulation.sum machine.core.regs.shiftedProduct).apply held =
        (machine.execute (.move .ltd)).1.core.regs := by
  have hfetched := machine.computesAs_fetchOperand true
  let loaded := (machine.fetchOperand true).2.mapRegs fun regs =>
    { regs with t := (machine.fetchOperand true).1 }
  have hwritten := loaded.computesAs_writeData (loaded.core.memAddress + 1) (machine.fetchOperand true).1
  have hpart' : loaded.core.regs.status.st1Fixed = model.st1Fixed := hfetched.status.part.trans hpart
  have hproduct : loaded.core.regs.shiftedProduct = machine.core.regs.shiftedProduct :=
    hfetched.shiftedProduct hpart
  have hloaded : machine.core.regs.HoldsAs loaded.core.regs := ⟨hfetched.acc, hfetched.status⟩
  rw [← hproduct, ← hwritten.shiftedProduct hpart']
  exact ⟨_, hloaded.trans hwritten.toHoldsAs, rfl⟩

/-- The fetch leaves what an operation has accumulated before it. -/
theorem holdsAs_finish (machine : Machine) (op : OperandOp)
    (hfinish : ∀ word value regs, Registers.HoldsAs regs (op.finish word value regs)) :
    (op.prepare machine.core.regs).HoldsAs (machine.execute (.operand op)).1.core.regs := by
  rw [execute_operand_regs]
  exact (computesAs_fetchOperand (machine.mapRegs op.prepare) _).toHoldsAs.trans (hfinish _ _ _)

/-- An operation that accumulates does so on registers that hold the same, and leaves what it has
accumulated. -/
theorem execute_accumulates {machine : Machine} {model : Model} {op : Op} {accumulation : Accumulation}
    (hpart : machine.core.regs.status.st1Fixed = model.st1Fixed)
    (h : machine.accumulation? op = some accumulation) :
    ∃ held, machine.core.regs.HoldsAs held ∧
      (accumulation.apply held).HoldsAs (machine.execute op).1.core.regs := by
  cases op with
  | operand op =>
    have hfetched := machine.computesAs_fetchOperand true
    have hextend := hfetched.extend hpart
    have hproduct := hfetched.shiftedProduct hpart
    have hfinished := machine.holdsAs_finish op
    cases op with
    | add | sub =>
      obtain rfl := Option.some.inj h
      rw [execute_finish machine rfl rfl, ← hextend]
      exact ⟨_, hfetched.toHoldsAs, .refl _⟩
    | addt | subt =>
      obtain rfl := Option.some.inj h
      rw [execute_finish machine rfl rfl, ← hextend, ← hfetched.t]
      exact ⟨_, hfetched.toHoldsAs, .refl _⟩
    | adds | subs =>
      obtain rfl := Option.some.inj h
      rw [execute_finish machine rfl rfl]
      exact ⟨_, hfetched.toHoldsAs, .refl _⟩
    | lta | lts =>
      obtain rfl := Option.some.inj h
      rw [execute_finish machine rfl rfl, ← hproduct]
      have hloaded : machine.core.regs.HoldsAs
          { (machine.fetchOperand true).2.core.regs with t := (machine.fetchOperand true).1 } :=
        ⟨hfetched.acc, hfetched.status⟩
      exact ⟨_, hloaded, .refl _⟩
    | mpya | sqra | mpys | sqrs =>
      -- These accumulate the old product before the fetch, all others after it.
      obtain rfl := Option.some.inj h
      exact ⟨_, .refl _, hfinished fun _ _ _ => ⟨rfl, .refl _⟩⟩
    | _ => cases h
  | long op =>
    have hworded := machine.computesAs_fetchWord
    cases op with
    | adlk | sblk =>
      obtain rfl := Option.some.inj h
      rw [← hworded.extend hpart]
      exact ⟨_, hworded.toHoldsAs, .refl _⟩
    | _ => cases h
  | register op =>
    cases op with
    | addk | subk | apac | spac =>
      obtain rfl := Option.some.inj h
      exact ⟨_, .refl _, .refl _⟩
    | _ => cases h
  | move op =>
    cases op with
    | ltd =>
      obtain rfl := Option.some.inj h
      obtain ⟨held, hheld, happlied⟩ := ltd_accumulates hpart
      exact ⟨held, hheld, happlied ▸ .refl _⟩
    | mac =>
      obtain rfl := Option.some.inj h
      exact multiplyAccumulate_accumulates hpart false
    | macd =>
      obtain rfl := Option.some.inj h
      exact multiplyAccumulate_accumulates hpart true
    | _ => cases h
  | _ => cases h

end Machine

/-! ## The sticky flag -/

/-- True for the edits that leave an overflow noted. -/
def StatusEdit.keepsOverflow : StatusEdit → Bool
  | .put .ov false | .st0 _ => false
  | _ => true

/-- An edit that keeps overflow leaves the flag set. -/
theorem StatusEdit.has_apply_ov {edit : StatusEdit} (hedit : edit.keepsOverflow = true) {status : Status}
    (h : status.has .ov = true) : (edit.apply status).has .ov = true := by
  cases edit with
  | put flag on =>
    refine (Status.has_put (.inl rfl) flag on).trans ?_
    split
    · next hflag =>
      subst hflag
      cases on <;> first | contradiction | rfl
    · exact h
  | arp n => exact (Status.has_setArp (.inl rfl) n).trans h
  | dp page =>
    have hpage : (page &&& St0.dp) &&& St0.ov = 0#16 := by
      have hnone : St0.dp &&& St0.ov = 0#16 := by decide
      rw [BitVec.and_assoc, hnone, BitVec.and_zero]
    have hkept : (status.setDp page).st0 &&& St0.ov = status.st0 &&& St0.ov :=
      Status.replaced_and_other (by decide) hpage (by decide)
    exact (congrArg (· != 0#16) hkept).trans h
  | pm mode => exact h
  | st0 value => contradiction
  | st1 value =>
    have hpointer : ((value ||| status.st1Fixed) &&& St1.arb) &&& St0.ov = 0#16 := by
      have hnone : St1.arb &&& St0.ov = 0#16 := by decide
      rw [BitVec.and_assoc, hnone, BitVec.and_zero]
    have hkept : (status.loadSt1 value).st0 &&& St0.ov = status.st0 &&& St0.ov := by
      rw [Status.loadSt1, ← BitVec.or_zero (x := (_ ||| _))]
      exact Status.replaced_and_other (by decide) hpointer (by decide)
    exact (congrArg (· != 0#16) hkept).trans h

namespace Registers

/-- An overflow that is noted stays noted. -/
def Sticks (before after : Registers) : Prop := before.has .ov = true → after.has .ov = true

/-- Stickiness is transitive. -/
theorem Sticks.trans {first second third : Registers} (h : first.Sticks second)
    (h' : second.Sticks third) : first.Sticks third := fun hfirst => h' (h hfirst)

/-- Overflow sticks through an edit that keeps it. -/
theorem sticks_edit (regs : Registers) (edit : StatusEdit) (hedit : edit.keepsOverflow = true) :
    regs.Sticks { regs with status := edit.apply regs.status } :=
  fun h => StatusEdit.has_apply_ov hedit h

/-- Arithmetic puts the overflow flag only to set it. -/
theorem keptByArithmetic_sticks : KeptByArithmetic Sticks where
  trans := .trans
  rest _ _ _ _ _ _ _ := id
  put regs flag on hflag := by
    have hedit : (StatusEdit.put flag on).keepsOverflow = true := by
      cases flag <;> first | rfl | (cases on <;> first | contradiction | rfl)
    exact regs.sticks_edit _ hedit

/-- Overflow sticks where the status is the same. -/
theorem HoldsAs.sticks {before after : Registers} (h : before.HoldsAs after) : before.Sticks after :=
  fun hbefore => (h.status.has .ov (.inl rfl)).trans hbefore

end Registers

open Registers

/-- The branches on overflow and the load of ST0. -/
def Op.clearsOverflow : Op → Bool
  | .operand .lst | .branch .bv | .branch .bnv => true
  | _ => false

/-- Overflow sticks through every operand operation but LST. -/
theorem OperandOp.sticks_finish {op : OperandOp} (hop : op ≠ .lst) (word value : Half)
    (regs : Registers) : regs.Sticks (op.finish word value regs) := by
  cases hsteers : op.steers with
  | false => exact keptByArithmetic_sticks.finish hsteers word value regs
  | true =>
    cases op with
    | lst => contradiction
    | lar => exact id
    | ldp => exact regs.sticks_edit (.dp value) rfl
    | lst1 => exact regs.sticks_edit (.st1 value) rfl
    | _ => contradiction

/-- Overflow sticks through the long immediate operations. -/
theorem LongOp.sticks_apply (op : LongOp) (word value : Half) (regs : Registers) :
    regs.Sticks (op.apply word value regs) := by
  cases op with
  | adlk => exact keptByArithmetic_sticks.addAcc regs _
  | sblk => exact keptByArithmetic_sticks.subAcc regs _
  | _ => exact id

/-- Overflow sticks through the register operations. -/
theorem RegisterOp.sticks_apply (op : RegisterOp) (word : Half) (regs : Registers) :
    regs.Sticks (op.apply word regs) := by
  have harithmetic := keptByArithmetic_sticks
  cases op with
  | addk | apac => exact harithmetic.addAcc regs _
  | subk | spac => exact harithmetic.subAcc regs _
  | abs => exact harithmetic.absolute regs
  | neg => exact harithmetic.negate regs
  | sfl => exact harithmetic.shiftLeft regs
  | sfr => exact harithmetic.shiftRight regs
  | rol => exact harithmetic.rotateLeft regs
  | ror => exact harithmetic.rotateRight regs
  | norm =>
    have hclear := harithmetic.put regs .tc false rfl
    refine harithmetic.ite (hclear.trans ?_) (harithmetic.put _ _ _ rfl)
    exact (harithmetic.acc _ _).trans (computesAs_modifyAr _ word true).sticks
  | spm => exact regs.sticks_edit (.pm (word &&& 3)) rfl
  | mar => exact (regs.computesAs_afterOperand word true).sticks
  | cmpr => exact harithmetic.put regs _ _ rfl
  | fort => exact regs.sticks_edit (.put .fo (word.getLsbD 0)) rfl
  | ldpk => exact regs.sticks_edit (.dp word) rfl
  | _ => exact id

/-- Overflow sticks through every branch that does not test it. -/
theorem BranchOp.sticks_settle {op : BranchOp} (hop : (Op.branch op).clearsOverflow = false)
    (regs : Registers) : regs.Sticks (op.settle regs) := by
  cases op <;> first | contradiction | exact id

namespace Machine

/-- Overflow sticks through MAC and MACD. -/
theorem sticks_multiplyAccumulate (machine : Machine) (moves : Bool) :
    machine.core.regs.Sticks (machine.multiplyAccumulate moves).core.regs := by
  let summed := machine.loadPfc.mapRegs fun regs => regs.addAcc regs.shiftedProduct
  have hsummed : machine.core.regs.Sticks summed.core.regs :=
    machine.computesAs_loadPfc.sticks.trans (keptByArithmetic_sticks.addAcc _ _)
  have hfetched := hsummed.trans (summed.computesAs_fetchOperand true).sticks
  exact hfetched.trans (holdsAs_multiplyOperand _ moves _).sticks

/-- Overflow sticks through the moves. -/
theorem sticks_move (machine : Machine) (op : MoveOp) :
    machine.core.regs.Sticks (machine.move op).1.core.regs := by
  let fetched := machine.fetchOperand true
  have hfetched : machine.core.regs.Sticks fetched.2.core.regs :=
    (machine.computesAs_fetchOperand true).sticks
  cases op with
  | dmov => exact hfetched.trans (fetched.2.computesAs_writeData _ fetched.1).sticks
  | ltd =>
    let loaded := fetched.2.mapRegs fun regs => { regs with t := fetched.1 }
    have hwritten := (loaded.computesAs_writeData (loaded.core.memAddress + 1) fetched.1).sticks
    exact (hfetched.trans hwritten).trans (keptByArithmetic_sticks.addAcc _ _)
  | mac => exact machine.sticks_multiplyAccumulate false
  | macd => exact machine.sticks_multiplyAccumulate true
  | blkd => exact machine.computesAs_moveFromData.sticks
  | blkp => exact (machine.computesAs_loadPfc.trans machine.loadPfc.computesAs_moveFromProgram).sticks
  | tblr =>
    exact (machine.computesAs_pfcFromAcc.trans machine.pfcFromAcc.computesAs_moveFromProgram).sticks
  | tblw =>
    exact (machine.computesAs_pfcFromAcc.trans machine.pfcFromAcc.computesAs_moveToProgram).sticks
  | input =>
    let read := machine.bus.read16 .io machine.portAddress
    exact (({ machine with bus := read.2 } : Machine).computesAs_storeOperand read.1).sticks
  | output => exact hfetched

/-- A branch leaves the flag, unless it is one of the two on it. -/
theorem sticks_branch (machine : Machine) {op : BranchOp}
    (hop : (Op.branch op).clearsOverflow = false) :
    machine.core.regs.Sticks (machine.branch op).core.regs := by
  let read := machine.readProgram machine.core.regs.pc
  let gone := if op.taken machine.core.regs machine.core.bio then
      read.2.mapRegs fun regs => { regs with pc := read.1 }
    else machine.mapRegs fun regs => { regs with pc := regs.pc + 1 }
  have hgone : machine.core.regs.Sticks gone.core.regs := by
    unfold gone
    split
    · exact (computesAs_of_core (machine.readProgram_core _)).sticks
    · exact id
  have hmodified := (gone.core.regs.computesAs_modifyAr gone.core.opcode true).sticks
  exact (hgone.trans hmodified).trans (BranchOp.sticks_settle hop _)

/-- Overflow sticks through a call. -/
theorem sticks_call (machine : Machine) : machine.core.regs.Sticks machine.call.core.regs := by
  let pushed := machine.mapRegs fun regs =>
    { regs.push (machine.core.regs.pc + 1) with pc := machine.core.regs.pc + 1 }
  let read := pushed.readProgram machine.core.regs.pc
  have hread : machine.core.regs.Sticks { read.2.core.regs with pc := read.1 } :=
    (computesAs_of_core (pushed.readProgram_core _)).sticks
  exact hread.trans (Registers.computesAs_modifyAr _ read.2.core.opcode true).sticks

end Machine

namespace Core

/-- Overflow sticks when a block is mapped. -/
theorem sticks_mapBlock (core : Core) (index : Nat) (program : Bool) :
    core.regs.Sticks (core.mapBlock index program).regs := by
  obtain ⟨journal, hmoved⟩ := core.mapBlock_eq index program
  rw [hmoved]
  exact id

/-- Overflow sticks when block B0 is configured. -/
theorem sticks_configureB0 (core : Core) (program : Bool) :
    core.regs.Sticks (core.configureB0 program).regs := by
  rw [configureB0]
  split
  · exact (core.sticks_mapBlock 0 program).trans (sticks_edit _ (.put .cnf0 program) rfl)
  · exact id

/-- Choosing a layout puts the layout flags only. -/
theorem sticks_configureBlocks (core : Core) : core.regs.Sticks core.configureBlocks.regs := by
  refine configureBlocks_keeps (P := fun moved => core.regs.Sticks moved.regs) ?_ ?_ id
  · intro moved flag on hflag h
    have hedit : (StatusEdit.put flag on).keepsOverflow = true := by
      rcases hflag with rfl | rfl <;> rfl
    exact h.trans (moved.regs.sticks_edit _ hedit)
  · exact fun moved index h => h.trans (moved.sticks_mapBlock index false)

end Core

namespace Machine

/-- No operation but the three clears the flag. -/
theorem sticks_execute (machine : Machine) {op : Op} (hop : op.clearsOverflow = false) :
    machine.core.regs.Sticks (machine.execute op).1.core.regs := by
  cases op with
  | operand op =>
    have hlst : op ≠ .lst := fun h => by subst h; contradiction
    let prepared := machine.mapRegs op.prepare
    have hprepared : machine.core.regs.Sticks prepared.core.regs :=
      keptByArithmetic_sticks.prepare op _
    have hfetched := (prepared.computesAs_fetchOperand op.movesPointer).sticks
    exact (hprepared.trans hfetched).trans (OperandOp.sticks_finish hlst _ _ _)
  | store op =>
    let prepared := machine.mapRegs op.prepare
    have hprepared : machine.core.regs.Sticks prepared.core.regs :=
      keptByArithmetic_sticks.prepareStore op _
    refine hprepared.trans ?_
    have hstored (ofStatus : Bool) (value : Half) : prepared.core.regs.Sticks
        (if ofStatus then prepared.storeStatus value else prepared.storeOperand value).core.regs := by
      split
      · exact (prepared.computesAs_storeStatus value).sticks
      · exact (prepared.computesAs_storeOperand value).sticks
    exact hstored _ _
  | long op => exact machine.computesAs_fetchWord.sticks.trans (op.sticks_apply _ _ _)
  | register op => exact op.sticks_apply _ _
  | flag op =>
    have hedit : (StatusEdit.put op.change.1 op.change.2).keepsOverflow = true := by cases op <;> rfl
    exact machine.core.regs.sticks_edit _ hedit
  | branch op => exact machine.sticks_branch hop
  | move op => exact machine.sticks_move op
  | call => exact machine.sticks_call
  | rpt => exact (machine.computesAs_fetchOperand true).sticks
  | rptk | illegal => exact id
  | idle => exact machine.core.regs.sticks_edit (.put .intm false) rfl
  | rxf => exact machine.core.regs.sticks_edit (.put .xf false) rfl
  | sxf => exact machine.core.regs.sticks_edit (.put .xf true) rfl
  | cnfd => exact machine.core.sticks_configureB0 false
  | cnfp => exact machine.core.sticks_configureB0 true
  | conf => exact machine.core.sticks_configureBlocks

end Machine

/-- A core that has noted an overflow. -/
def Core.NotesOverflow (core : Core) : Prop := core.regs.has .ov = true

/-- The bookkeeping of a run masks interrupts, and does no more to the status. -/
theorem Core.kept_notesOverflow : Kept NotesOverflow where
  service core h := by
    unfold service
    split
    · next source _ =>
      have hmasked := core.regs.sticks_edit (.put .intm true) rfl h
      cases source <;> exact hmasked
    · exact h
  countClocks core budget clocks h :=
    core.holds_countClocks budget clocks fun _ _ _ _ _ => h
  fetch _ _ h := h
  report _ _ h := h
  countPass _ h := h
  endBlock _ h := h
  spend _ _ h := h
  hold _ _ h := h

/-- An operation that accumulates leaves the exact signed result where that fits. Where it does not, it
notes the overflow and leaves the result cut to a word, or in overflow mode the nearer limit; out of that
mode the carry is that of the unsigned sum or difference. An overflow that is noted stays noted through
every operation, step and run in which neither a branch on it nor a load of ST0 is executed. -/
theorem accumulation_and_overflow :
    (∀ (machine : Machine) (model : Model) (op : Op) (accumulation : Accumulation),
      machine.core.regs.status.st1Fixed = model.st1Fixed →
      machine.accumulation? op = some accumulation →
        machine.core.regs.AccumulatedTo accumulation (machine.execute op).1.core.regs) ∧
      (∀ (machine : Machine) (op : Op), op.clearsOverflow = false →
        machine.core.regs.has .ov = true → (machine.execute op).1.core.regs.has .ov = true) ∧
      (∀ machine : Machine, (∀ e ∈ machine.executions, e.2.clearsOverflow = false) →
        machine.core.regs.has .ov = true → machine.step.1.core.regs.has .ov = true) ∧
      ∀ (machine other : Machine) (budget left : Budget),
        Boundary (fun e => e.2.clearsOverflow = false) machine budget other left →
        machine.core.regs.has .ov = true → other.core.regs.has .ov = true := by
  have hkeeps (e : Machine × Op) (he : e.2.clearsOverflow = false) : Keeps Core.NotesOverflow e :=
    e.1.sticks_execute he
  have hkept := Core.kept_notesOverflow
  refine ⟨fun machine model op accumulation hpart haccumulation => ?_,
    fun machine op hop => machine.sticks_execute hop,
    fun machine hexecutions hov => hkept.step hov fun e he => hkeeps e (hexecutions e he),
    fun machine other budget left hboundary hov =>
      hboundary.invariant hkept (hkept.keptBySteps hkeeps) hov⟩
  obtain ⟨held, hheld, happlied⟩ := Machine.execute_accumulates hpart haccumulation
  have hpart' : held.status.st1Fixed = model.st1Fixed := hheld.status.part.trans hpart
  have hsteers := held.steersAs_apply accumulation
  exact (held.accumulatedTo_apply hpart' accumulation).of_holdsAs
    (hsteers.status.part.trans hpart') hheld happlied

/-- In overflow mode ADDK 1 takes the greatest word no further and notes it, and a run over the SUBK that
follows leaves it noted. An ADD of 0x8001 with a shift of 15 adds the negative number that this word is,
shifted, to the 1 in the accumulator. -/
theorem accumulation_and_overflow_addk :
    let core : Core := (Core.new .tms32025).mapRegs fun regs =>
      { regs.put .ovm true with acc := greatestSigned }
    let machine : Machine := ⟨core, Bus.empty.loadHalves .program 0 [0xCC01, 0xCD01]⟩
    let added := machine.step.1
    let begun := added.beginRun ⟨4⟩
    let shifting : Machine :=
      (⟨(Core.new .tms32025).mapRegs fun regs => { regs with acc := 1 },
        Bus.empty.loadHalves .program 0 [0x0F60]⟩ : Machine).writeData 0x60 0x8001
    machine.ready.accumulation? (.register .addk) = some (.sum 1) ∧
      added.core.regs.acc.toInt = 2 ^ 31 - 1 ∧ added.core.regs.has .ov = true ∧
      (added.execute (.register .neg)).1.core.regs.has .ov = true ∧
      added.step.1.core.regs.has .ov = true ∧
      (begun.1.turn begun.2).1.core.regs.has .ov = true ∧
      shifting.ready.accumulation? (.operand .add) =
        some (.sum (shifting.ready.core.regs.extend 0x8001 15)) ∧
      shifting.step.1.core.regs.acc.toInt = 1 - 32767 * 2 ^ 15 ∧
      shifting.step.1.core.regs.has .ov = false := by
  intro core machine added begun shifting
  obtain ⟨haccumulated, hexecuted, hstepped, hran⟩ := accumulation_and_overflow
  have hadded : added.core.regs = (machine.ready.execute (.register .addk)).1.core.regs := by
    decide +kernel
  have haddk : machine.ready.accumulation? (.register .addk) = some (.sum 1) := by decide +kernel
  have hsum := haccumulated machine.ready .tms32025 (.register .addk) (.sum 1) (by decide +kernel) haddk
  have hbeyond : ¬ FitsSigned (Accumulation.exact (.sum 1) machine.ready.core.regs.acc) := by
    decide +kernel
  have hnoted : added.core.regs.has .ov = true := hadded ▸ hsum.overflows hbeyond
  have hshifting : shifting.step.1.core.regs = (shifting.ready.execute (.operand .add)).1.core.regs := by
    decide +kernel
  have hadd : shifting.ready.accumulation? (.operand .add) =
      some (.sum (shifting.ready.core.regs.extend 0x8001 15)) := by decide +kernel
  obtain ⟨hresult, hunnoted⟩ :=
    (haccumulated shifting.ready .tms32025 (.operand .add) _ (by decide +kernel) hadd).fits
      (by decide +kernel)
  rw [← hshifting] at hresult hunnoted
  refine ⟨haddk, ?_, hnoted, ?_, ?_, ?_, hadd, ?_, ?_⟩
  · have hlimit : max (-2 ^ 31) (min (Accumulation.exact (.sum 1) machine.ready.core.regs.acc)
        (2 ^ 31 - 1)) = 2 ^ 31 - 1 := by decide +kernel
    exact hadded ▸ (hsum.saturates hbeyond (by decide +kernel)).trans hlimit
  · exact hexecuted added (.register .neg) (by decide) hnoted
  · exact hstepped added (by decide +kernel) hnoted
  · exact hran added _ ⟨4⟩ _ (.turn .start (by decide +kernel) (by decide +kernel)) hnoted
  · exact hresult.trans (by decide +kernel)
  · exact hunnoted.trans (by decide +kernel)

end ProcessorCores.Tms

import ProcessorCores.Proofs.Romp.SumConditions

/-!
# What ROMP comparisons show

Five operations compare two words: C, CI and CIS by name as signed numbers, CL and CLI as unsigned ones.
All of them order the wrapped difference of the words against zero. It is zero just when the words are
equal. Its sign, however, is that of the exact difference of what the words are read as only as long as
this fits in a word as a signed number; where it does not, the other order is shown.

A conditional branch tests one bit of the status, and a trap springs on some of the orders of its operands
as unsigned numbers, which it compares by themselves. After CL and CLI the two agree where the difference
fits and on equality.
-/

namespace ProcessorCores.Romp

/-! ## Orders -/

/-- The order of two numbers that a flag stands for. -/
def Flag.Describes (flag : Flag) (x y : Int) : Prop :=
  match flag with
  | .less => x < y
  | .equal => x = y
  | .greater => y < x
  | .carry | .overflow | .test => False

/-- Whether a flag describes two numbers is decided by comparing them. -/
instance (flag : Flag) (x y : Int) : Decidable (flag.Describes x y) :=
  match flag with
  | .less => inferInstanceAs (Decidable (x < y))
  | .equal => inferInstanceAs (Decidable (x = y))
  | .greater => inferInstanceAs (Decidable (y < x))
  | .carry | .overflow | .test => inferInstanceAs (Decidable False)

/-- The ordering flags describe the order of two numbers. -/
def Condition.Compares (condition : Condition) (x y : Int) : Prop :=
  ∀ flag ∈ Flag.ordering, condition.has flag = true ↔ flag.Describes x y

/-- A statement about all ordering flags is one about each of the three. -/
theorem Flag.forall_ordering {P : Flag → Prop} :
    (∀ flag ∈ Flag.ordering, P flag) ↔ P .less ∧ P .equal ∧ P .greater := by
  simp [Flag.ordering]

/-- A statement about some ordering flag is one about any of the three. -/
theorem Flag.exists_ordering {P : Flag → Prop} :
    (∃ flag ∈ Flag.ordering, P flag) ↔ P .less ∨ P .equal ∨ P .greater := by
  simp [Flag.ordering]

/-- Turning two different numbers round exchanges the flags for less and greater. -/
theorem Flag.describes_swap {flag : Flag} (h : flag ∈ Flag.ordering) {x y : Int} (hne : x ≠ y) :
    (flag.Describes y x ↔ flag.Describes x y) ↔ flag = .equal := by
  obtain rfl | rfl | rfl := mem_ordering.mp h <;> simp [Flag.Describes] <;> omega

/-! ## Differences -/

/-- The number that a word is read as, with or without a sign. -/
def reading (signed : Bool) (word : Word) : Int := if signed then word.toInt else word.toNat

/-- Neither reading of a word confuses two words. -/
theorem reading_inj (signed : Bool) {a b : Word} : reading signed a = reading signed b ↔ a = b := by
  cases signed with
  | false => exact Int.natCast_inj.trans BitVec.toNat_inj
  | true => exact BitVec.toInt_inj

/-- As a signed number a wrapped difference is the exact one of either reading, wrapped. -/
theorem toInt_sub_reading (signed : Bool) (a b : Word) :
    (a - b).toInt = (reading signed a - reading signed b).bmod (2 ^ 32) := by
  rw [BitVec.toInt_sub]
  cases signed with
  | false =>
    rw [BitVec.toInt_eq_toNat_bmod, BitVec.toInt_eq_toNat_bmod, Int.bmod_sub_bmod, Int.sub_bmod_bmod]
    rfl
  | true => rfl

/-- The difference of two readings is less than two ranges wide. -/
theorem reading_sub_bounds (signed : Bool) (a b : Word) :
    -2 ^ 32 < reading signed a - reading signed b ∧ reading signed a - reading signed b < 2 ^ 32 := by
  cases signed with
  | false =>
    have ha := a.isLt
    have hb := b.isLt
    simp only [reading, Bool.false_eq_true, if_false]
    omega
  | true =>
    obtain ⟨ha, ha'⟩ := fitsWord_toInt a
    obtain ⟨hb, hb'⟩ := fitsWord_toInt b
    simp only [reading, if_true]
    omega

/-- A wrapped difference is zero just when its operands are equal. -/
theorem toInt_sub_eq_zero_iff (a b : Word) : (a - b).toInt = 0 ↔ a = b := by
  obtain ⟨hlow, hhigh⟩ := reading_sub_bounds true a b
  rw [← reading_inj true, toInt_sub_reading true, Int.bmod_def]
  split <;> omega

variable {condition : Condition} {a b : Word}

/-- A status that orders a wrapped difference compares the operands if their exact difference fits, and
has them the wrong way round if it does not. -/
theorem Condition.Orders.compares (h : condition.Orders (a - b)) (signed : Bool) :
    if FitsWord (reading signed a - reading signed b) then
      condition.Compares (reading signed a) (reading signed b)
    else condition.Compares (reading signed b) (reading signed a) := by
  obtain ⟨hlow, hhigh⟩ := reading_sub_bounds signed a b
  have hnegative := bmod_neg_iff (by omega) hhigh
  rw [← toInt_sub_reading] at hnegative
  have hzero : (a - b).toInt = 0 ↔ reading signed a = reading signed b :=
    (toInt_sub_eq_zero_iff a b).trans (reading_inj signed).symm
  split
  all_goals
    unfold Condition.Compares
    rw [Flag.forall_ordering, h.less, h.equal, h.greater]
    simp only [Flag.Describes]
    unfold FitsWord at *
    omega

/-- So it compares them just when the difference fits. -/
theorem Condition.Orders.compares_iff (h : condition.Orders (a - b)) (signed : Bool) :
    condition.Compares (reading signed a) (reading signed b) ↔
      FitsWord (reading signed a - reading signed b) := by
  have hcompares := h.compares signed
  split at hcompares
  · next hfits => exact iff_of_true hcompares hfits
  · next hfits =>
    refine iff_of_false (fun hstraight => ?_) hfits
    have hturned : reading signed b < reading signed a ↔ reading signed a < reading signed b :=
      (hcompares .less (by decide)).symm.trans (hstraight .less (by decide))
    unfold FitsWord at hfits
    omega

/-! ## Branches and traps -/

namespace Flag

/-- The bit of a flag by its number. -/
def position : Flag → Nat
  | .less => 6
  | .equal => 5
  | .greater => 4
  | .carry => 3
  | .overflow => 1
  | .test => 0

/-- The mask of a flag is the bit at its position. -/
theorem mask_eq_twoPow_position (flag : Flag) : flag.mask = BitVec.twoPow 32 flag.position := by
  cases flag <;> decide

/-- Every flag stands within the word. -/
theorem position_lt (flag : Flag) : flag.position < 32 := by cases flag <;> decide

end Flag

/-- The bit at the position of a flag is the flag. -/
theorem Condition.bit_position (condition : Condition) (flag : Flag) :
    condition.bit flag.position = condition.has flag := by
  rw [has, flag.mask_eq_twoPow_position, meets_twoPow _ flag.position_lt, bit]

/-- The bit of the status that a branch tests, and how it has to be for the branch to be taken. -/
def BranchOp.test? (op : BranchOp) (instruction : Instruction) : Option (Nat × Bool) :=
  match op with
  | .jb => some (((instruction.r1 &&& 7) ^^^ 7).toNat, instruction.r1.msb)
  | .bb | .bbx | .bbr | .bbrx => some ((instruction.r2 ^^^ 15).toNat, true)
  | .bnb | .bnbx | .bnbr | .bnbrx => some ((instruction.r2 ^^^ 15).toNat, false)
  | .bala | .balax | .bali | .balix | .balr | .balrx => none

/-- Whatever its form, a branch is taken when the bit that it tests is as it has to be. -/
theorem BranchOp.taken_of_test {op : BranchOp} {instruction : Instruction} {bit : Nat} {on : Bool}
    (h : op.test? instruction = some (bit, on)) (condition : Condition) :
    op.taken instruction condition = (condition.bit bit == on) := by
  cases op with
  | jb | bb | bbx | bbr | bbrx | bnb | bnbx | bnbr | bnbrx =>
    obtain ⟨rfl, rfl⟩ := Prod.mk.inj (Option.some.inj h)
    simp [taken]
  | bala | balax | bali | balix | balr | balrx => contradiction

/-- A branch that tests a flag is taken when the flag is as it has to be. -/
theorem BranchOp.taken_eq {op : BranchOp} {instruction : Instruction} {flag : Flag} {on : Bool}
    (h : op.test? instruction = some (flag.position, on)) (condition : Condition) :
    op.taken instruction condition = (condition.has flag == on) := by
  rw [taken_of_test h, condition.bit_position]

namespace TrapOp

/-- The operands of a trap. -/
def operands (op : TrapOp) (instruction : Instruction) (regs : Registers) : Word × Word :=
  match op with
  | .ti => (regs.gpr.get instruction.r3, instruction.immediate)
  | .tgte | .tlt => (regs.gpr.get instruction.r2, regs.gpr.get instruction.r3)

/-- The orders on which a trap springs, by the flags that stand for them. -/
def selects (op : TrapOp) (instruction : Instruction) (flag : Flag) : Bool :=
  match op with
  | .ti => instruction.r2.getLsbD (flag.position - 4)
  | .tgte => flag != .less
  | .tlt => flag == .less

/-- A trap springs when its operands as unsigned numbers are in an order that it selects. -/
theorem springs_iff (op : TrapOp) (instruction : Instruction) (regs : Registers) :
    op.springs instruction regs = true ↔
      ∃ flag ∈ Flag.ordering, op.selects instruction flag = true ∧
        flag.Describes (reading false (op.operands instruction regs).1)
          (reading false (op.operands instruction regs).2) := by
  rw [Flag.exists_ordering]
  simp only [Flag.Describes, reading, Bool.false_eq_true, if_false, Int.ofNat_lt, Int.natCast_inj,
    BitVec.toNat_inj]
  cases op with
  | tgte =>
    have horder : ∀ m n : Nat, n ≤ m ↔ m = n ∨ n < m := by omega
    simp [springs, selects, operands, BitVec.le_def, ← BitVec.toNat_inj, horder]
  | tlt => simp [springs, selects, operands, BitVec.lt_def]
  | ti => simp [springs, selects, operands, BitVec.lt_def, Flag.position, or_assoc]

/-- A trap selects the orders that a test of a flag lets through: that of the flag if it has to be set,
and the two others if it has to be clear. -/
def Matches (trap : TrapOp) (instruction : Instruction) (flag : Flag) (on : Bool) : Prop :=
  ∀ other ∈ Flag.ordering, trap.selects instruction other = ((other == flag) == on)

/-- Whether a trap goes by a flag is decided flag by flag. -/
instance (trap : TrapOp) (instruction : Instruction) (flag : Flag) (on : Bool) :
    Decidable (trap.Matches instruction flag on) :=
  inferInstanceAs (Decidable (∀ _ ∈ Flag.ordering, _))

/-- Such a trap springs when the flag describes its operands, or does not, as tested. -/
theorem Matches.springs_iff {trap : TrapOp} {instruction : Instruction} {flag : Flag} {on : Bool}
    (h : trap.Matches instruction flag on) (hflag : flag ∈ Flag.ordering) (regs : Registers) :
    trap.springs instruction regs = true ↔
      (flag.Describes (reading false (trap.operands instruction regs).1)
        (reading false (trap.operands instruction regs).2) ↔ on = true) := by
  rw [TrapOp.springs_iff, Flag.exists_ordering, h .less (by decide), h .equal (by decide),
    h .greater (by decide)]
  generalize reading false (trap.operands instruction regs).1 = x
  generalize reading false (trap.operands instruction regs).2 = y
  obtain rfl | rfl | rfl := Flag.mem_ordering.mp hflag
  -- The trap springs in one of the three orders, or in the other two.
  all_goals cases on <;> grind [Flag.Describes]

end TrapOp

/-- Where a branch tests an ordering flag and a trap selects the same orders of the words `a` and `b`, the
two agree if the difference of the words fits, and always on equality. -/
def Condition.AgreesWithTraps (condition : Condition) (a b : Word) : Prop :=
  ∀ (flag : Flag) (on : Bool) (branch : BranchOp) (test : Instruction) (trap : TrapOp)
    (instruction : Instruction) (regs : Registers), flag ∈ Flag.ordering →
    branch.test? test = some (flag.position, on) → trap.Matches instruction flag on →
    trap.operands instruction regs = (a, b) →
      (branch.taken test condition = trap.springs instruction regs ↔
        FitsWord (reading false a - reading false b) ∨ flag = .equal)

/-- A condition that orders the wrapped difference agrees with the traps where that has the sign of the
exact one. -/
theorem Condition.Orders.agreesWithTraps (h : condition.Orders (a - b)) :
    condition.AgreesWithTraps a b := by
  intro flag on branch test trap instruction regs hflag htest hmatches hoperands
  have hsprings := hmatches.springs_iff hflag regs
  rw [hoperands] at hsprings
  have hagree : branch.taken test condition = trap.springs instruction regs ↔
      (condition.has flag = true ↔ flag.Describes (reading false a) (reading false b)) := by
    rw [Bool.eq_iff_iff, hsprings, branch.taken_eq htest, beq_iff_eq, Bool.eq_iff_iff]
    grind
  rw [hagree]
  have hcompares := h.compares false
  split at hcompares
  · next hfits => exact iff_of_true (hcompares flag hflag) (.inl hfits)
  · next hfits =>
    have hne : reading false a ≠ reading false b := fun hsame => hfits (by rw [hsame, Int.sub_self]; decide)
    rw [hcompares flag hflag, Flag.describes_swap hflag hne, or_iff_right hfits]

/-! ## Steps -/

namespace ComputeOp

/-- The words that a comparison compares. -/
def compared? (op : ComputeOp) (instruction : Instruction) (regs : Registers) : Option (Word × Word) :=
  match op with
  | .ci | .cli => some (regs.gpr.get instruction.r3, instruction.immediate)
  | .cis => some (regs.gpr.get instruction.r2, instruction.shortImmediate)
  | .c | .cl => some (regs.gpr.get instruction.r2, regs.gpr.get instruction.r3)
  | _ => none

/-- True unless the name of a comparison calls it logical. -/
def signed : ComputeOp → Bool
  | .cl | .cli => false
  | _ => true

/-- A comparison writes no register and orders the wrapped difference of its words. -/
theorem compute_compared {op : ComputeOp} {instruction : Instruction} {regs : Registers} {a b : Word}
    (h : op.compared? instruction regs = some (a, b)) : compute op instruction regs = .compare a b := by
  cases op <;> first
    | contradiction
    | obtain ⟨rfl, rfl⟩ := Prod.mk.inj (Option.some.inj h)
      rfl

end ComputeOp

namespace Machine

/-- What a comparison of two words makes of a machine: no register changes but the instruction address,
and no bit of the condition status but the ordering flags, which compare the words as they are read just
when their difference fits, and have them the wrong way round otherwise. -/
structure Comparison (before after : Machine) (signed : Bool) (a b : Word) : Prop where
  gpr : after.core.regs.gpr = before.core.regs.gpr
  scr : ∀ r : Reg, r ≠ Scr.iar → r ≠ Scr.cs → after.core.regs.scr.get r = before.core.regs.scr.get r
  beside : after.core.regs.cs &&& ~~~0x70 = before.core.regs.cs &&& ~~~0x70
  equal : after.core.regs.condition.has .equal = true ↔ a = b
  compares_iff : after.core.regs.condition.Compares (reading signed a) (reading signed b) ↔
    FitsWord (reading signed a - reading signed b)
  turned : ¬ FitsWord (reading signed a - reading signed b) →
    after.core.regs.condition.Compares (reading signed b) (reading signed a)

variable {machine : Machine} {op : ComputeOp} {a b : Word}

/-- A step of a comparison judges the wrapped difference of what it compares. -/
theorem step_compared (hop : machine.operation? = some (.compute op))
    (hcompared : op.compared? machine.current machine.core.regs = some (a, b)) :
    machine.step.1.core.regs.condition = machine.core.regs.condition.setLogical (a - b) := by
  have hcs := (step_of_compute hop).2
  rw [ComputeOp.compute_compared hcompared, Outcome.apply_cs] at hcs
  exact congrArg Condition.mk hcs

/-- Every comparison orders its words by their wrapped difference: the order that it shows is that of the
words just when their difference fits, and after a logical comparison branches agree with traps on the
same terms. -/
theorem comparisons_order_difference (hop : machine.operation? = some (.compute op))
    (hcompared : op.compared? machine.current machine.core.regs = some (a, b)) :
    machine.Comparison machine.step.1 op.signed a b ∧
      (op.signed = false → machine.step.1.core.regs.condition.AgreesWithTraps a b) := by
  have hcondition := step_compared hop hcompared
  have horders : machine.step.1.core.regs.condition.Orders (a - b) :=
    hcondition ▸ machine.core.regs.condition.setLogical_orders (a - b)
  obtain ⟨core, hregs, hstep⟩ := step_core_of_compute hop
  rw [ComputeOp.compute_compared hcompared] at hregs
  refine ⟨?_, fun _ => horders.agreesWithTraps⟩
  constructor
  case gpr => rw [hstep, (core.endStep_regs _).1, hregs]; rfl
  case scr =>
    intro r hiar hcs
    rw [hstep, core.endStep_scr _ hiar, hregs]
    exact (Bank.get_set ..).trans (if_neg hcs)
  case beside =>
    have hflags : ∀ flag ∈ Flag.ordering, flag.mask &&& ~~~0x70 = 0 := by decide
    have hraw := congrArg (·.raw &&& ~~~0x70) hcondition
    exact hraw.trans ((ConditionEffect.logical (a - b)).apply_beside _ hflags)
  case equal => rw [horders.equal, toInt_sub_eq_zero_iff]
  case compares_iff => exact horders.compares_iff op.signed
  case turned =>
    intro hfits
    have hcompares := horders.compares op.signed
    rwa [if_neg hfits] at hcompares

/-- A machine about to execute an instruction of one halfword on two registers, R1 and R2. -/
def comparing (code : Byte) (r1 r2 : Word) : Machine :=
  ((started [code, 0x12]).setGpr 1 r1).setGpr 2 r2

/-- CL finds one less than two, and a jump on that flag agrees with TLT. -/
theorem comparisons_order_difference_cl :
    let machine := comparing 0xB3 1 2
    let status := machine.step.1.core.regs.condition
    machine.operation? = some (.compute .cl) ∧
      ComputeOp.cl.compared? machine.current machine.core.regs = some (1, 2) ∧
      status.has .less = true ∧
      BranchOp.taken .jb ⟨0x0900, 0⟩ status = TrapOp.springs .tlt ⟨0xBE12, 0⟩ machine.core.regs := by
  intro machine status
  have hop : machine.operation? = some (.compute .cl) := by decide +kernel
  have hcompared : ComputeOp.cl.compared? machine.current machine.core.regs = some (1, 2) := by
    decide +kernel
  obtain ⟨hcomparison, hagrees⟩ := comparisons_order_difference hop hcompared
  have hless := hcomparison.compares_iff.mpr (by decide) .less (by decide)
  refine ⟨hop, hcompared, hless.mpr (by decide), ?_⟩
  exact (hagrees rfl .less true .jb ⟨0x0900, 0⟩ .tlt ⟨0xBE12, 0⟩ machine.core.regs (by decide) (by decide)
    (by decide) (by decide +kernel)).mpr (.inl (by decide))

/-- C finds the smallest signed number greater than one, and CL the largest unsigned one less. -/
theorem compared_apart :
    let smallest := comparing 0xB4 0x80000000 1
    let largest := comparing 0xB3 0xFFFFFFFF 1
    smallest.operation? = some (.compute .c) ∧ largest.operation? = some (.compute .cl) ∧
      ComputeOp.c.compared? smallest.current smallest.core.regs = some (0x80000000, 1) ∧
      ComputeOp.cl.compared? largest.current largest.core.regs = some (0xFFFFFFFF, 1) ∧
      ¬ smallest.step.1.core.regs.condition.Compares (0x80000000 : Word).toInt (1 : Word).toInt ∧
      ¬ largest.step.1.core.regs.condition.Compares (0xFFFFFFFF : Word).toNat (1 : Word).toNat := by
  intro smallest largest
  refine ⟨by decide +kernel, by decide +kernel, by decide +kernel, by decide +kernel, ?_, ?_⟩
  · intro hcompares
    have hshown := (hcompares .less (by decide)).mpr (by decide)
    exact absurd hshown (by decide +kernel)
  · intro hcompares
    have hshown := (hcompares .greater (by decide)).mpr (by decide)
    exact absurd hshown (by decide +kernel)

end Machine

end ProcessorCores.Romp

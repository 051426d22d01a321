import ProcessorCores.Proofs.Romp.ConditionFrame

/-!
# ROMP moves through the test bit

Six operations move one bit between a general register and the test bit, three each way. They find the
position, counted from the left, in the last digit for the upper half of a word, in the last digit for the
lower half, or in the low five bits of a register. Position and direction are all that tells them apart: at
one position the three forms leave the same core.

A move to the test bit and a move from it copy one bit of a register to a place in any register. The
position is read before the bit is written, so that it may stand in the register that is changed.
-/

namespace ProcessorCores.Romp

/-! ## Bits from the left -/

/-- The mask of a bit counted from the left is a power of two. -/
theorem bitFromLeft_eq_twoPow {n : Nat} (h : n < 32) : bitFromLeft n = BitVec.twoPow 32 (31 - n) := by
  have hall : ∀ n < 32, bitFromLeft n = BitVec.twoPow 32 (31 - n) := by decide
  exact hall n h

/-- The bits of the low half count on from those of the high half. -/
theorem lowBitFromLeft_eq {n : Nat} (h : n < 16) : lowBitFromLeft n = bitFromLeft (n + 16) := by
  have hall : ∀ n < 16, lowBitFromLeft n = bitFromLeft (n + 16) := by decide
  exact hall n h

/-- A bit so far from the left is met exactly where the word has it. -/
theorem meets_bitFromLeft {n : Nat} (value : Word) (h : n < 32) :
    meets value (bitFromLeft n) = value.getMsbD n := by
  rw [bitFromLeft_eq_twoPow h, meets_twoPow _ (by omega), BitVec.getMsbD, decide_eq_true h, Bool.true_and]

/-- To assign one bit from the left is to change it alone. -/
theorem getMsbD_assign_bitFromLeft {n : Nat} (value : Word) (h : n < 32) (on : Bool) (i : Nat) :
    (assign value (bitFromLeft n) on).getMsbD i = if i = n then on else value.getMsbD i := by
  by_cases hi : i < 32
  · have hbit : (BitVec.twoPow 32 (31 - n)).getLsbD (32 - 1 - i) = decide (i = n) := by
      rw [BitVec.getLsbD_twoPow, decide_eq_true (by omega : 31 - n < 32), Bool.true_and]
      exact decide_eq_decide.mpr (by omega)
    rw [bitFromLeft_eq_twoPow h, BitVec.getMsbD, BitVec.getMsbD, getLsbD_assign, hbit, decide_eq_true hi]
    simp only [Bool.true_and, decide_eq_true_eq]
  · have hne : i ≠ n := by omega
    rw [if_neg hne, BitVec.getMsbD, BitVec.getMsbD, decide_eq_false hi, Bool.false_and, Bool.false_and]

/-! ## Forms -/

/-- Where a move finds the position of its bit. -/
inductive BitPlace
  /-- In the last digit. -/
  | upper
  /-- In the last digit, sixteen more than it says. -/
  | lower
  /-- In the low five bits of a register. -/
  | register
  deriving DecidableEq

/-- The position of the bit, counted from the left. -/
def BitPlace.find (place : BitPlace) (instruction : Instruction) (regs : Registers) : Nat :=
  match place with
  | .upper => instruction.r3.toNat
  | .lower => instruction.r3.toNat + 16
  | .register => (regs.gpr.get instruction.r3).toNat % 32

/-- A bit is found within the word. -/
theorem BitPlace.find_lt (place : BitPlace) (instruction : Instruction) (regs : Registers) :
    place.find instruction regs < 32 := by
  have hdigit := instruction.r3.isLt
  cases place with
  | upper | lower =>
    simp only [find]
    omega
  | register => exact Nat.mod_lt _ (by decide)

/-- A position in a register is taken modulo 32. -/
theorem bitPosition_eq (register : Word) : bitPosition register = register.toNat % 32 := by
  rw [bitPosition, BitVec.toNat_and]
  exact Nat.and_two_pow_sub_one_eq_mod register.toNat 5

/-- A form of a move between a register and the test bit. -/
structure BitMove where
  place : BitPlace
  toTest : Bool
  deriving DecidableEq

namespace BitMove

/-- What a move makes of the bit at a position of a register. -/
def outcome (move : BitMove) (r : Reg) (position : Nat) (regs : Registers) : Outcome :=
  if move.toTest then ⟨none, .test ((regs.gpr.get r).getMsbD position)⟩
  else .quiet r (assign (regs.gpr.get r) (bitFromLeft position) (regs.condition.has .test))

end BitMove

namespace ComputeOp

/-- The form of an operation that moves a bit. -/
def bitMove? : ComputeOp → Option BitMove
  | .mttbiu => some ⟨.upper, true⟩
  | .mttbil => some ⟨.lower, true⟩
  | .mttb => some ⟨.register, true⟩
  | .mftbiu => some ⟨.upper, false⟩
  | .mftbil => some ⟨.lower, false⟩
  | .mftb => some ⟨.register, false⟩
  | _ => none

/-- The form decides all but the position. -/
theorem compute_bitMove {op : ComputeOp} {move : BitMove} (h : op.bitMove? = some move)
    (instruction : Instruction) (regs : Registers) :
    compute op instruction regs =
      move.outcome instruction.r2 (move.place.find instruction regs) regs := by
  have hdigit := instruction.r3.isLt
  have hnear : instruction.nearShift < 32 := by
    rw [Instruction.nearShift]
    omega
  have hposition : (regs.gpr.get instruction.r3).toNat % 32 < 32 := Nat.mod_lt _ (by decide)
  cases op with
  | mttbiu =>
    obtain rfl := Option.some.inj h
    rw [compute, toTest, meets_bitFromLeft _ hnear]
    rfl
  | mttbil =>
    obtain rfl := Option.some.inj h
    rw [compute, toTest, Instruction.nearShift, lowBitFromLeft_eq hdigit, meets_bitFromLeft _ (by omega)]
    rfl
  | mttb =>
    obtain rfl := Option.some.inj h
    rw [compute, toTest, bitPosition_eq, meets_bitFromLeft _ hposition]
    rfl
  | mftbiu =>
    obtain rfl := Option.some.inj h
    rfl
  | mftbil =>
    obtain rfl := Option.some.inj h
    rw [compute, fromTest, Instruction.nearShift, lowBitFromLeft_eq hdigit]
    rfl
  | mftb =>
    obtain rfl := Option.some.inj h
    rw [compute, fromTest, bitPosition_eq]
    rfl
  | _ => contradiction

/-- True for an entry that moves no bit, and for one of one halfword and one cycle. -/
def fitsBitMove (entry : OpcodeEntry Op) (first : Nat) : Bool :=
  match entry.handler with
  | .compute op => op.bitMove?.isNone || (decide (first / 16 ∉ [0x8, 0xC, 0xD]) && entry.cycles == 1)
  | _ => true

/-- A move of a bit has one halfword and costs one cycle. -/
theorem format_of_bitMove {word : Half} {op : ComputeOp} {move : BitMove}
    (h : (decode word).handler = .compute op) (hmove : op.bitMove? = some move) :
    hasExtension word = false ∧ (decode word).cycles = 1 := by
  have hall : ∀ entry ∈ opcodeTable.toList.zipIdx, fitsBitMove entry.1 entry.2 = true := by decide +kernel
  have hfits := hall _ (opcodeTable.get_mem_zipIdx (highByte word).isLt)
  rw [fitsBitMove, ← decode, h] at hfits
  simp only [hmove, Option.isNone_some, Bool.false_or, Bool.and_eq_true, decide_eq_true_eq,
    beq_iff_eq] at hfits
  exact ⟨(Machine.hasExtension_eq word).trans (decide_eq_false hfits.1), hfits.2⟩

end ComputeOp

namespace Machine

/-! ## Steps -/

/-- What a step makes of a machine that moves the bit at a position of a register to the test bit. -/
structure MovesToTest (before : Machine) (r : Reg) (position : Nat) (after : Machine) : Prop where
  test : after.core.regs.condition.has .test = (before.core.regs.gpr.get r).getMsbD position
  beside : ∀ bit, bit ≠ 0 → after.core.regs.cs.getLsbD bit = before.core.regs.cs.getLsbD bit
  gpr : after.core.regs.gpr = before.core.regs.gpr
  scr : ∀ r : Reg, r ≠ Scr.iar → r ≠ Scr.cs → after.core.regs.scr.get r = before.core.regs.scr.get r

/-- What a step makes of a machine that moves the test bit to a position of a register. -/
structure MovesFromTest (before : Machine) (r : Reg) (position : Nat) (after : Machine) : Prop where
  bits : ∀ (other : Reg) (bit : Nat), (after.core.regs.gpr.get other).getMsbD bit =
    if other = r ∧ bit = position then before.core.regs.condition.has .test
    else (before.core.regs.gpr.get other).getMsbD bit
  scr : ∀ r : Reg, r ≠ Scr.iar → after.core.regs.scr.get r = before.core.regs.scr.get r

/-- What two steps make of a machine that copies a bit of one register to a place in another one, or in the
same, by way of the test bit. -/
structure CopiesBit (before : Machine) (source : Reg) (position : Nat) (target : Reg) (spot : Nat)
    (after : Machine) : Prop where
  bits : ∀ (r : Reg) (bit : Nat), (after.core.regs.gpr.get r).getMsbD bit =
    if r = target ∧ bit = spot then (before.core.regs.gpr.get source).getMsbD position
    else (before.core.regs.gpr.get r).getMsbD bit
  test : after.core.regs.condition.has .test = (before.core.regs.gpr.get source).getMsbD position
  beside : ∀ bit, bit ≠ 0 → after.core.regs.cs.getLsbD bit = before.core.regs.cs.getLsbD bit
  scr : ∀ r : Reg, r ≠ Scr.iar → r ≠ Scr.cs → after.core.regs.scr.get r = before.core.regs.scr.get r

/-- A bit moved to Test and from there on is copied. -/
theorem MovesToTest.trans {before middle after : Machine} {source target : Reg} {position spot : Nat}
    (h : before.MovesToTest source position middle) (h' : middle.MovesFromTest target spot after) :
    before.CopiesBit source position target spot after := by
  have hcs : after.core.regs.cs = middle.core.regs.cs := h'.scr Scr.cs (by decide)
  constructor
  case bits =>
    intro r bit
    rw [h'.bits, h.test, h.gpr]
  case test => rw [← h.test, Registers.condition, Registers.condition, hcs]
  case beside =>
    intro bit hbit
    rw [hcs, h.beside bit hbit]
  case scr => exact fun r hiar hne => (h'.scr r hiar).trans (h.scr r hiar hne)

variable {machine other : Machine} {op : ComputeOp} {move : BitMove}

/-- A step that moves a bit applies the outcome of its form and goes on to the next halfword. -/
theorem step_of_bitMove (hop : machine.operation? = some (.compute op)) (hmove : op.bitMove? = some move) :
    let outcome := move.outcome machine.current.r2
      (move.place.find machine.current machine.core.regs) machine.core.regs
    machine.step.1.core = (machine.core.withRegs (outcome.apply machine.core.regs)).endStep
        (machine.core.regs.iar + 2) ∧
      machine.step.2 = 1 := by
  obtain ⟨hshort, hcycles⟩ := ComputeOp.format_of_bitMove (operation?_eq_some_iff.mp hop).2 hmove
  have hnext : machine.following = machine.core.regs.iar + 2 := by
    rw [following_eq, hshort, if_neg Bool.false_ne_true]
  have hstep := step_of_operation hop fun hslot => Bool.false_ne_true hslot.2
  rw [hnext, hcycles] at hstep
  rw [hstep, ← ComputeOp.compute_bitMove hmove, ← machine.fetch_core]
  exact ⟨rfl, rfl⟩

/-- A step of a move to Test moves the bit it names. -/
theorem movesToTest_of_bitMove (hop : machine.operation? = some (.compute op))
    (hmove : op.bitMove? = some move) (hto : move.toTest = true) :
    machine.MovesToTest machine.current.r2 (move.place.find machine.current machine.core.regs)
      machine.step.1 := by
  let shown := (machine.core.regs.gpr.get machine.current.r2).getMsbD
    (move.place.find machine.current machine.core.regs)
  obtain ⟨hgpr, hcs⟩ := step_of_compute hop
  rw [ComputeOp.compute_bitMove hmove, BitMove.outcome, if_pos hto] at hgpr hcs
  rw [Outcome.apply_cs] at hcs
  have hcondition : machine.step.1.core.regs.condition = machine.core.regs.condition.put .test shown :=
    congrArg Condition.mk hcs
  constructor
  case test => rw [hcondition, Condition.has_put, if_pos rfl]
  case beside =>
    intro bit hbit
    have hnone : ∀ flag ∈ [Flag.test], flag.mask.getLsbD bit = false := by
      intro flag hflag
      rw [List.mem_singleton.mp hflag]
      simp [Flag.mask, BitVec.getLsbD_one, hbit]
    rw [hcs]
    exact (ConditionEffect.test shown).getLsbD_apply machine.core.regs.condition hnone
  case gpr => exact hgpr
  case scr => exact fun r hiar hne => step_scr_of_compute hop hiar hne

/-- A step of a move from Test moves Test to the bit it names. -/
theorem movesFromTest_of_bitMove (hop : machine.operation? = some (.compute op))
    (hmove : op.bitMove? = some move) (hto : move.toTest = false) :
    machine.MovesFromTest machine.current.r2 (move.place.find machine.current machine.core.regs)
      machine.step.1 := by
  obtain ⟨hgpr, hcs⟩ := step_of_compute hop
  rw [ComputeOp.compute_bitMove hmove, BitMove.outcome, if_neg (by rw [hto]; decide)] at hgpr hcs
  rw [Outcome.apply_cs] at hcs
  constructor
  case bits =>
    intro r bit
    have hwritten : machine.step.1.core.regs.gpr.get r = _ :=
      (congrArg (·.get r) hgpr).trans (Bank.get_set ..)
    rw [hwritten]
    by_cases hr : r = machine.current.r2
    · simp only [hr, if_true, true_and]
      exact getMsbD_assign_bitFromLeft _ (move.place.find_lt _ _) _ _
    · simp only [hr, if_false, false_and]
  case scr =>
    intro r hiar
    by_cases hr : r = Scr.cs
    · rw [hr]
      exact hcs
    · exact step_scr_of_compute hop hiar hr

/-- A move to the test bit makes it the bit that it names and changes nothing else, and a move from the test
bit changes the bit that it names and nothing else; one after the other they copy a bit. At one position
the forms of one direction leave the same core at the same cost. -/
theorem test_bit_transfers {machine : Machine} {op : ComputeOp} {move : BitMove}
    (hop : machine.operation? = some (.compute op)) (hmove : op.bitMove? = some move) :
    let r := machine.current.r2
    let position := move.place.find machine.current machine.core.regs
    position < 32 ∧
      (move.toTest = true → machine.MovesToTest r position machine.step.1) ∧
      (move.toTest = false → machine.MovesFromTest r position machine.step.1) ∧
      (∀ (onward : ComputeOp) (onwardMove : BitMove), move.toTest = true →
        machine.step.1.operation? = some (.compute onward) → onward.bitMove? = some onwardMove →
        onwardMove.toTest = false →
          machine.CopiesBit r position machine.step.1.current.r2
            (onwardMove.place.find machine.step.1.current machine.core.regs) machine.step.1.step.1) ∧
      ∀ (other : Machine) (otherOp : ComputeOp) (otherMove : BitMove), other.core = machine.core →
        other.operation? = some (.compute otherOp) → otherOp.bitMove? = some otherMove →
        otherMove.toTest = move.toTest → other.current.r2 = r →
        otherMove.place.find other.current machine.core.regs = position →
          other.step.1.core = machine.step.1.core ∧ other.step.2 = machine.step.2 := by
  intro r position
  refine ⟨move.place.find_lt _ _, movesToTest_of_bitMove hop hmove, movesFromTest_of_bitMove hop hmove,
    fun onward onwardMove hto honward honwardMove hfrom => ?_,
    fun other otherOp otherMove hcore hotherOp hotherMove hdirection hr hposition => ?_⟩
  · have hmoved := movesToTest_of_bitMove hop hmove hto
    have hcopied := hmoved.trans (movesFromTest_of_bitMove honward honwardMove hfrom)
    -- The amount register still holds what it held before the first move.
    have hspot : onwardMove.place.find machine.step.1.current machine.step.1.core.regs =
        onwardMove.place.find machine.step.1.current machine.core.regs := by
      unfold BitPlace.find
      rw [hmoved.gpr]
    rwa [hspot] at hcopied
  · obtain ⟨hstep, hcost⟩ := step_of_bitMove hop hmove
    obtain ⟨hotherStep, hotherCost⟩ := step_of_bitMove hotherOp hotherMove
    have houtcome : otherMove.outcome r position machine.core.regs =
        move.outcome r position machine.core.regs := by
      rw [BitMove.outcome, BitMove.outcome, hdirection]
    rw [hcore, hr, hposition, houtcome] at hotherStep
    exact ⟨hotherStep.trans hstep.symm, hotherCost.trans hcost.symm⟩

/-- The last bit of a register goes to a place in the same register, which is told by that register; and the
form with its position in the instruction sets the same test bit. -/
theorem test_bit_transfers_within_register :
    let copying := ((started [0xBF, 0x12, 0xBC, 0x11]).setGpr 1 0x21).setGpr 2 31
    let direct := ((started [0x9F, 0x1F]).setGpr 1 0x21).setGpr 2 31
    copying.operation? = some (.compute .mttb) ∧ direct.operation? = some (.compute .mttbil) ∧
      copying.step.1.step.1.core.regs.gpr.get 1 = 0x40000021 ∧
      direct.step.1.core = copying.step.1.core := by
  intro copying direct
  have hop : copying.operation? = some (.compute .mttb) := by decide +kernel
  have hdirect : direct.operation? = some (.compute .mttbil) := by decide +kernel
  obtain ⟨-, -, -, hcopies, hforms⟩ := test_bit_transfers hop rfl
  have hcopied := hcopies .mftb _ rfl (by decide +kernel) rfl rfl
  have hsame := hforms direct .mttbil _ (by decide +kernel) hdirect rfl rfl (by decide +kernel)
    (by decide +kernel)
  have hfields : copying.current.r2 = 1 ∧ copying.step.1.current.r2 = 1 := by decide +kernel
  have hplaces : BitPlace.register.find copying.current copying.core.regs = 31 ∧
      BitPlace.register.find copying.step.1.current copying.core.regs = 1 := by decide +kernel
  have hvalue : copying.core.regs.gpr.get 1 = 0x21 := by decide +kernel
  have hbits := hcopied.bits 1
  rw [hfields.1, hfields.2, hplaces.1, hplaces.2, hvalue] at hbits
  refine ⟨hop, hdirect, ?_, hsame.1⟩
  apply BitVec.eq_of_getMsbD_eq
  intro bit hbit
  rw [hbits]
  revert bit
  decide

end Machine

end ProcessorCores.Romp

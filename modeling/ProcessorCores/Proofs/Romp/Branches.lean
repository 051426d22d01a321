import ProcessorCores.Proofs.Romp.Arbitration
import ProcessorCores.Proofs.Romp.Comparisons

/-!
# ROMP branches from one step to the next

Nine operations branch on a bit of the condition status. A jump names a bit of the low byte and the
others a bit of the low halfword; the displacement of a jump has eight bits and that of a branch twenty,
and a register form finds in a register where to go. Whatever its form, such a branch is taken when its
bit is as it asks, goes as far for the same displacement, and changes nothing but the flow of control.
The forms differ in one thing: those on a clear bit through a register cost nothing extra when taken.

Two more branches go where a register tells and leave a link in another one. They write the link before
they read the register, so that one that links to its own target register goes to the link.

A branch with execute leaves the core as its plain form does, but held back before one more instruction.
-/

namespace ProcessorCores.Romp

/-! ## Words -/

/-- A sign-extended displacement, doubled, is twice its value. -/
theorem signExtend_shiftLeft_one {w : Nat} (x : BitVec w) :
    x.signExtend 32 <<< 1 = BitVec.ofInt 32 (2 * x.toInt) := by
  rw [BitVec.signExtend, BitVec.shiftLeft_eq_mul_twoPow, BitVec.mul_comm, BitVec.ofInt_mul]
  rfl

/-- A word is even when its lowest bit is clear. -/
theorem even_iff (value : Word) : value.getLsbD 0 = false ↔ value.toNat % 2 = 0 := by
  rw [BitVec.getLsbD, Nat.testBit_zero, decide_eq_false_iff_not]
  omega

/-- Clearing the lowest bit of an even word changes nothing. -/
theorem and_not_one_of_even {value : Word} (h : value.getLsbD 0 = false) : value &&& ~~~1 = value := by
  apply BitVec.eq_of_getLsbD_eq
  intro i hi
  change (value &&& ~~~1#32).getLsbD i = value.getLsbD i
  rw [BitVec.getLsbD_and, BitVec.getLsbD_not, BitVec.getLsbD_one]
  cases i with
  | zero => rw [h, Bool.false_and]
  | succ i => simp [hi]

/-- Whole halfwords added to an even word leave it even. -/
theorem even_add_ofInt {value : Word} (h : value.getLsbD 0 = false) (halfwords : Int) :
    (value + BitVec.ofInt 32 (2 * halfwords)).getLsbD 0 = false := by
  rw [even_iff] at h ⊢
  rw [BitVec.toNat_add, BitVec.toNat_ofInt]
  omega

/-! ## Formats -/

namespace BranchOp

/-- True for the branches of two halfwords. -/
def isLong : BranchOp → Bool
  | .bb | .bbx | .bnb | .bnbx | .bala | .balax | .bali | .balix => true
  | .jb | .bbr | .bbrx | .bnbr | .bnbrx | .balr | .balrx => false

/-- The number of bytes of a branch. -/
def length (op : BranchOp) : Word := if op.isLong then 4 else 2

/-- The branches that cost nothing extra when they are taken. -/
def freeForms : List BranchOp := [.bnbr, .bnbrx]

/-- The form of a branch that does not let another instruction run first. -/
def plain : BranchOp → BranchOp
  | .bbx => .bb
  | .bnbx => .bnb
  | .bbrx => .bbr
  | .bnbrx => .bnbr
  | .balax => .bala
  | .balix => .bali
  | .balrx => .balr
  | op => op

/-- The plain form of a branch has no execute slot. -/
theorem withExecute_plain (op : BranchOp) : op.plain.withExecute = false := by
  cases op <;> rfl

/-- The plain form of a branch is as long. -/
theorem length_plain (op : BranchOp) : op.plain.length = op.length := by
  cases op <;> rfl

/-- The plain form of a branch is free exactly when the branch is. -/
theorem mem_freeForms_plain (op : BranchOp) : op.plain ∈ freeForms ↔ op ∈ freeForms := by
  cases op <;> decide

/-- True for an entry that is no branch, and for one with the base cost of a branch whose first byte
tells its length. -/
def fitsEntry (entry : OpcodeEntry Op) (first : Nat) : Bool :=
  match entry.handler with
  | .branch op => decide (first / 16 ∈ [0x8, 0xC, 0xD]) == op.isLong && entry.cycles == 1
  | _ => true

/-- The high digit of a branch tells its length, and its base cost is one. -/
theorem format_of_decode {word : Half} {op : BranchOp} (h : (decode word).handler = .branch op) :
    hasExtension word = op.isLong ∧ (decode word).cycles = 1 := by
  have hall : ∀ entry ∈ opcodeTable.toList.zipIdx, fitsEntry entry.1 entry.2 = true := by decide +kernel
  have hfits := hall _ (opcodeTable.get_mem_zipIdx (highByte word).isLt)
  rw [fitsEntry, ← decode, h] at hfits
  simp only [Bool.and_eq_true, beq_iff_eq] at hfits
  exact ⟨(Machine.hasExtension_eq word).trans hfits.1, hfits.2⟩

/-- A branch on a condition aims so many halfwords from where it stands. One with a displacement holds
that number; a register form finds the address in its register. -/
def Aims (op : BranchOp) (instruction : Instruction) (regs : Registers) (halfwords : Int) : Prop :=
  match op with
  | .jb => (lowByte instruction.word).toInt = halfwords
  | .bb | .bbx | .bnb | .bnbx => (instruction.r3 ++ instruction.extension).toInt = halfwords
  | .bbr | .bbrx | .bnbr | .bnbrx =>
    regs.gpr.get instruction.r3 = regs.iar + BitVec.ofInt 32 (2 * halfwords)
  | .bala | .balax | .bali | .balix | .balr | .balrx => False

/-- Whether a branch aims so many halfwords away is decided by comparing addresses. -/
instance (op : BranchOp) (instruction : Instruction) (regs : Registers) (halfwords : Int) :
    Decidable (op.Aims instruction regs halfwords) :=
  match op with
  | .jb => inferInstanceAs (Decidable ((lowByte instruction.word).toInt = halfwords))
  | .bb | .bbx | .bnb | .bnbx =>
    inferInstanceAs (Decidable ((instruction.r3 ++ instruction.extension).toInt = halfwords))
  | .bbr | .bbrx | .bnbr | .bnbrx =>
    inferInstanceAs
      (Decidable (regs.gpr.get instruction.r3 = regs.iar + BitVec.ofInt 32 (2 * halfwords)))
  | .bala | .balax | .bali | .balix | .balr | .balrx => inferInstanceAs (Decidable False)

/-- From an even address every form that aims so far goes as far. -/
theorem target_of_aims {op : BranchOp} {instruction : Instruction} {regs : Registers} {halfwords : Int}
    (h : op.Aims instruction regs halfwords) (heven : regs.iar.getLsbD 0 = false) :
    op.target instruction regs = regs.iar + BitVec.ofInt 32 (2 * halfwords) := by
  cases op with
  | jb | bb | bbx | bnb | bnbx =>
    subst h
    exact congrArg (regs.iar + ·) (signExtend_shiftLeft_one _)
  | bbr | bbrx | bnbr | bnbrx =>
    have hfound : regs.gpr.get instruction.r3 = regs.iar + BitVec.ofInt 32 (2 * halfwords) := h
    rw [target, hfound]
    exact and_not_one_of_even (even_add_ofInt heven halfwords)
  | bala | balax | bali | balix | balr | balrx => contradiction

/-- A branch that tests a bit leaves no link. -/
theorem linked_of_test {op : BranchOp} {instruction : Instruction} {bit : Nat} {on : Bool}
    (h : op.test? instruction = some (bit, on)) (next : Word) (regs : Registers) :
    op.linked instruction next regs = regs := by
  cases op <;> first
    | contradiction
    | rfl

/-- A link is a general register, so that a branch still stands where it did. -/
theorem linked_iar (op : BranchOp) (instruction : Instruction) (next : Word) (regs : Registers) :
    (op.linked instruction next regs).iar = regs.iar := by
  unfold linked
  split <;> rfl

end BranchOp

/-! ## The end of a branch -/

namespace Core

/-- What a branch does, with its link, its test and its target named. -/
theorem branch_eq (core : Core) (op : BranchOp) (instruction : Instruction) (next : Word) :
    core.branch op instruction next =
      let regs := op.linked instruction next core.regs
      if op.taken instruction core.regs.condition then
        ((core.withRegs regs).latch (op.target instruction regs) op.withExecute, op.takenCost)
      else (core, 0) := rfl

/-- The core at the end of a step that goes to a target. -/
def arrive (core : Core) (target : Word) : Core :=
  { core with regs := core.regs.setScr Scr.iar target, flow := .normal, branchTarget := target }

/-- The core with its branch held back before one more instruction, the one at an address. -/
def hold (core : Core) (slot : Word) : Core :=
  { core with regs := core.regs.setScr Scr.iar slot, flow := .branchPending }

/-- A latched branch is taken at the end of the step, or held for one instruction. -/
theorem latch_endStep (core : Core) (target next : Word) (withExecute : Bool) :
    (core.latch target withExecute).endStep next =
      if withExecute then (core.arrive target).hold next else core.arrive target := by
  cases withExecute with
  | true =>
    have hset : (core.regs.setScr Scr.iar target).setScr Scr.iar next = core.regs.setScr Scr.iar next :=
      congrArg (Registers.mk core.regs.gpr) (Bank.set_set ..)
    rw [if_pos rfl, hold, arrive, hset]
    rfl
  | false => rfl

end Core

namespace Machine

/-- From the boundary before a delay slot one instruction runs and control arrives at the target, unless
that instruction is of the branch class or is stopped by a program check. -/
structure RunsSlot (slot : Machine) (target : Word) : Prop where
  executes : slot.step = slot.executeNext
  flow : slot.step.1.core.flow = .normal
  arrives : (decode slot.current.word).handler.isBranchClass = false →
    slot.transfer ≠ .exception .programCheck → slot.step.1.core.regs.iar = target

/-- A machine with a branch pending executes its slot and then arrives at the target. -/
theorem runsSlot_of_branchPending {slot : Machine} (hflow : slot.core.flow = .branchPending) :
    slot.RunsSlot slot.core.branchTarget := by
  obtain ⟨hstep, hafter, harrived⟩ := step_of_branchPending hflow
  refine ⟨hstep, hafter, fun _ hcheck => ?_⟩
  obtain ⟨-, hiar⟩ | ⟨htransfer, -⟩ := harrived
  · exact hiar
  · exact absurd htransfer hcheck

/-- What a branch that is taken makes of a machine, the link written before. -/
structure BranchesTo (before : Machine) (op : BranchOp) (target : Word) (after : Machine) : Prop where
  core : after.core =
    if op.withExecute then (before.core.arrive target).hold (before.core.regs.iar + op.length)
    else before.core.arrive target
  slot : op.withExecute = true → after.RunsSlot target
  bytes : ∀ space address, after.bus.peek8 space address = before.bus.peek8 space address

/-- What a branch that is not taken makes of a machine. -/
structure FallsThrough (before : Machine) (op : BranchOp) (after : Machine) : Prop where
  core : after.core =
    before.core.withRegs (before.core.regs.setScr Scr.iar (before.core.regs.iar + op.length))
  bytes : ∀ space address, after.bus.peek8 space address = before.bus.peek8 space address

variable {machine : Machine} {op : BranchOp}

/-- The machine once a branch has written its link, if it leaves one. -/
def linked (machine : Machine) (op : BranchOp) : Machine :=
  machine.mapCore fun core =>
    core.withRegs (op.linked machine.current (core.regs.iar + op.length) core.regs)

/-- A step that executes a branch where one may stand follows it or falls through. -/
theorem step_of_branch (hflow : machine.core.flow = .normal)
    (hop : machine.operation? = some (.branch op)) :
    if op.taken machine.current machine.core.regs.condition then
      (machine.linked op).BranchesTo op (op.target machine.current (machine.linked op).core.regs)
          machine.step.1 ∧
        machine.step.2 = 1 + op.takenCost
    else machine.FallsThrough op machine.step.1 ∧ machine.step.2 = 1 := by
  obtain ⟨-, hhandler⟩ := operation?_eq_some_iff.mp hop
  obtain ⟨hlong, hcycles⟩ := BranchOp.format_of_decode hhandler
  have hnext : machine.following = machine.core.regs.iar + op.length := by
    rw [following_eq, hlong, BranchOp.length]
  have hslot : ¬ (machine.core.flow = .branchPending ∧ (Op.branch op).isBranchClass) := by
    rw [hflow]
    exact fun h => Flow.noConfusion h.1
  have hstep := step_of_operation hop hslot
  rw [hnext, hcycles] at hstep
  have hended : (machine.step.1.core, machine.step.2) =
      let branched := machine.core.branch op machine.current (machine.core.regs.iar + op.length)
      (branched.1.endStep (machine.core.regs.iar + op.length), 1 + branched.2) := by
    rw [hstep, ← machine.fetch_core]
    rfl
  have hbytes (space : Space) (address : Word) :
      machine.step.1.bus.peek8 space address = machine.bus.peek8 space address := by
    rw [hstep]
    exact machine.fetch_noted.bytes space address
  rw [Core.branch_eq] at hended
  split
  · next htaken =>
    simp only [htaken, if_true, Core.latch_endStep, Prod.mk.injEq] at hended
    obtain ⟨hcore, hcost⟩ := hended
    refine ⟨⟨?_, fun hexecute => ?_, hbytes⟩, hcost⟩
    · have hiar : (machine.linked op).core.regs.iar = machine.core.regs.iar := op.linked_iar _ _ _
      rw [hiar]
      exact hcore
    · rw [if_pos hexecute] at hcore
      have hpending : machine.step.1.core.flow = .branchPending := congrArg (·.flow) hcore
      have htarget : machine.step.1.core.branchTarget =
          op.target machine.current (machine.linked op).core.regs := congrArg (·.branchTarget) hcore
      exact htarget ▸ runsSlot_of_branchPending hpending
  · next htaken =>
    simp only [htaken, Bool.false_eq_true, if_false, Core.endStep, hflow, Prod.mk.injEq] at hended
    exact ⟨⟨hended.1, hbytes⟩, hended.2⟩

/-! ## Branches on a condition -/

/-- The next step executes a branch on a condition where one may stand, at an even address. The branch
asks that the bit of a number be as given, and aims so many halfwords from itself. -/
structure Tests (machine : Machine) (op : BranchOp) (bit : Nat) (on : Bool) (halfwords : Int) : Prop where
  flow : machine.core.flow = .normal
  operation : machine.operation? = some (.branch op)
  test : op.test? machine.current = some (bit, on)
  even : machine.core.regs.iar.getLsbD 0 = false
  aims : op.Aims machine.current machine.core.regs halfwords

/-- What a step makes of a machine that executes a branch on a condition, and what it costs. -/
structure Decides (before : Machine) (op : BranchOp) (taken : Bool) (target : Word)
    (after : Machine × Nat) : Prop where
  branches : taken = true → before.BranchesTo op target after.1
  fallsThrough : taken = false → before.FallsThrough op after.1
  cost : after.2 = if taken = true ∧ op ∉ BranchOp.freeForms then 5 else 1

variable {bit : Nat} {on : Bool} {halfwords : Int}

/-- A branch that tests a bit is taken when the bit is as it asks. -/
theorem Tests.taken (h : machine.Tests op bit on halfwords) :
    op.taken machine.current machine.core.regs.condition = (machine.core.regs.cs.getLsbD bit == on) :=
  BranchOp.taken_of_test h.test _

/-- A step takes the branch exactly when the bit is as it asks. -/
theorem Tests.takesBranch_iff (h : machine.Tests op bit on halfwords) :
    machine.TakesBranch [op] ↔ machine.core.regs.cs.getLsbD bit = on := by
  obtain ⟨hpending, hhandler⟩ := operation?_eq_some_iff.mp h.operation
  have htaken := h.taken
  rw [← beq_iff_eq (a := machine.core.regs.cs.getLsbD bit), ← htaken]
  constructor
  · rintro ⟨-, -, other, hmem, -, hother⟩
    obtain rfl := List.mem_singleton.mp hmem
    exact hother
  · intro htaken
    exact ⟨entered_of_not_pending hpending, h.flow, op, List.mem_singleton_self op, hhandler, htaken⟩

/-- Every form decides by its bit and aims at the same address, and its cost is that of all but two. -/
theorem Tests.decides (h : machine.Tests op bit on halfwords) :
    machine.Decides op (machine.core.regs.cs.getLsbD bit == on)
      (machine.core.regs.iar + BitVec.ofInt 32 (2 * halfwords)) machine.step := by
  have hstep := step_of_branch h.flow h.operation
  have hlinked : machine.linked op = machine := by
    rw [linked, mapCore, BranchOp.linked_of_test h.test]
    rfl
  have hextra : 1 + op.takenCost = if op ∉ BranchOp.freeForms then 5 else 1 := by
    cases op <;> rfl
  rw [hlinked, BranchOp.target_of_aims h.aims h.even, h.taken] at hstep
  split at hstep
  · next htaken =>
    refine ⟨fun _ => hstep.1, fun hnot => absurd (htaken.symm.trans hnot) Bool.noConfusion, ?_⟩
    rw [hstep.2, hextra, htaken]
    simp only [true_and]
  · next htaken =>
    rw [Bool.not_eq_true] at htaken
    refine ⟨fun hyes => absurd (hyes.symm.trans htaken) Bool.noConfusion, fun _ => hstep.1, ?_⟩
    rw [hstep.2, htaken]
    rfl

/-- Two forms that are taken together cost the same unless they are taken and one of them is free. -/
theorem Decides.cost_eq_iff {other : Machine} {otherOp : BranchOp} {taken : Bool} {target : Word}
    (h : machine.Decides op taken target machine.step)
    (hother : other.Decides otherOp taken target other.step) :
    other.step.2 = machine.step.2 ↔
      (taken = true → (otherOp ∈ BranchOp.freeForms ↔ op ∈ BranchOp.freeForms)) := by
  rw [h.cost, hother.cost]
  cases taken with
  | false => simp
  | true =>
    by_cases hfree : op ∈ BranchOp.freeForms <;>
      by_cases hfreeOther : otherOp ∈ BranchOp.freeForms <;> simp [hfree, hfreeOther]

/-- From one core, a form with execute leaves what its plain form does, held back if it is taken. -/
theorem Decides.core_plain {other : Machine} {taken : Bool} {target : Word}
    (h : machine.Decides op taken target machine.step)
    (hplain : other.Decides op.plain taken target other.step) (hcore : other.core = machine.core) :
    machine.step.1.core =
      if taken && op.withExecute then other.step.1.core.hold (machine.core.regs.iar + op.length)
      else other.step.1.core := by
  cases taken with
  | false =>
    have hthrough := (hplain.fallsThrough rfl).core
    rw [hcore, op.length_plain] at hthrough
    rw [(h.fallsThrough rfl).core, hthrough]
    rfl
  | true =>
    have harrived := (hplain.branches rfl).core
    rw [hcore, op.withExecute_plain] at harrived
    rw [(h.branches rfl).core, harrived]
    rfl

/-- Branches in two forms that test the same bit of the same status and aim as far from the same address
are taken together if they ask for the same, and one at a time if they do not. Each goes to the same
address, at a cost of five if it is taken and of one if it is not, except that the two forms on a clear bit
through a register always cost one. A form with execute costs what its plain form does and leaves the same
core, held back before the delay slot. -/
theorem conditional_branches_agree {machine other : Machine} {op otherOp : BranchOp} {bit : Nat}
    {on otherOn : Bool} {halfwords : Int} (h : machine.Tests op bit on halfwords)
    (hother : other.Tests otherOp bit otherOn halfwords)
    (hcs : other.core.regs.cs = machine.core.regs.cs)
    (hiar : other.core.regs.iar = machine.core.regs.iar) :
    let taken := machine.core.regs.cs.getLsbD bit == on
    let target := machine.core.regs.iar + BitVec.ofInt 32 (2 * halfwords)
    (machine.TakesBranch [op] ↔ taken = true) ∧
      ((machine.TakesBranch [op] ↔ other.TakesBranch [otherOp]) ↔ on = otherOn) ∧
      machine.Decides op taken target machine.step ∧
      (on = otherOn →
        other.Decides otherOp taken target other.step ∧
          (other.step.2 = machine.step.2 ↔
            (taken = true → (otherOp ∈ [.bnbr, .bnbrx] ↔ op ∈ [.bnbr, .bnbrx]))) ∧
          (otherOp = op.plain → other.core = machine.core →
            other.step.2 = machine.step.2 ∧
              machine.step.1.core =
                if taken && op.withExecute then other.step.1.core.hold (machine.core.regs.iar + op.length)
                else other.step.1.core)) := by
  intro taken target
  have hdecides : machine.Decides op taken target machine.step := h.decides
  have htakes : machine.TakesBranch [op] ↔ taken = true := h.takesBranch_iff.trans beq_iff_eq.symm
  refine ⟨htakes, ?_, hdecides, fun hon => ?_⟩
  · rw [h.takesBranch_iff, hother.takesBranch_iff, hcs]
    cases machine.core.regs.cs.getLsbD bit <;> cases on <;> cases otherOn <;> decide
  · have hdecidesOther : other.Decides otherOp taken target other.step := by
      have hown := hother.decides
      rwa [hcs, hiar, ← hon] at hown
    have hcost := hdecides.cost_eq_iff hdecidesOther
    refine ⟨hdecidesOther, hcost, fun hplain hcore => ?_⟩
    subst hplain
    exact ⟨hcost.mpr fun _ => op.mem_freeForms_plain, hdecides.core_plain hdecidesOther hcore⟩

/-- A machine about to branch on a clear bit through a register, five halfwords on. -/
def clearBranch : Machine := (started [0xE8, 0x93]).setGpr 3 14

/-- The branch of the example tests bit 6 and asks that it be clear. -/
theorem clearBranch_tests : clearBranch.Tests .bnbr 6 false 5 :=
  ⟨by decide +kernel, by decide +kernel, by decide +kernel, by decide +kernel, by decide +kernel⟩

/-- A jump on the same bit goes to the same place. -/
theorem conditional_branches_agree_clear :
    let jump := started [0x01, 0x05]
    jump.Tests .jb 6 false 5 ∧ clearBranch.Tests .bnbr 6 false 5 ∧ jump.step.2 = 5 ∧
      jump.step.1.core = jump.core.arrive 14 ∧
      clearBranch.step.1.core = clearBranch.core.arrive 14 := by
  intro jump
  have hjump : jump.Tests .jb 6 false 5 :=
    ⟨by decide +kernel, by decide +kernel, by decide +kernel, by decide +kernel, by decide +kernel⟩
  have hclear : (jump.core.regs.cs.getLsbD 6 == false) = true := by decide +kernel
  have htarget : jump.core.regs.iar + BitVec.ofInt 32 (2 * 5) = 14 := by decide +kernel
  obtain ⟨-, -, hdecides, hsame⟩ :=
    conditional_branches_agree hjump clearBranch_tests (by decide +kernel) (by decide +kernel)
  obtain ⟨hdecidesOther, -, -⟩ := hsame rfl
  rw [hclear, htarget] at hdecides hdecidesOther
  exact ⟨hjump, clearBranch_tests, hdecides.cost, (hdecides.branches rfl).core,
    (hdecidesOther.branches rfl).core⟩

/-- A taken branch on a clear bit through a register does not cost five. -/
theorem clear_branch_without_cost :
    ¬ ∀ (machine : Machine) (op : BranchOp) (bit : Nat) (on : Bool) (halfwords : Int),
      machine.Tests op bit on halfwords → machine.core.regs.cs.getLsbD bit = on → machine.step.2 = 5 := by
  intro hall
  have hcost := hall clearBranch .bnbr 6 false 5 clearBranch_tests (by decide +kernel)
  exact absurd hcost (by decide +kernel)

/-! ## Branches that leave a link in a register -/

/-- A branch through a register leaves its link in another one. -/
theorem linked_of_register {op : BranchOp} (h : op ∈ [.balr, .balrx]) (machine : Machine) :
    machine.linked op =
      machine.setGpr machine.current.r2 (machine.core.regs.iar + if op = .balrx then 6 else 2) := by
  rw [List.mem_pair] at h
  obtain rfl | rfl := h
  · rfl
  · have hlink : machine.core.regs.iar + BranchOp.balrx.length + 4 = machine.core.regs.iar + 6 :=
      BitVec.add_assoc _ 2 4
    rw [if_pos rfl, ← hlink]
    rfl

/-- BALR and BALRX leave in R2 the address after them, or after their delay slot, and change nothing else
but the flow of control. They go where R3 tells, with its low bit cleared, except that one that links to
its own target register goes to the link. -/
theorem register_links {machine : Machine} {op : BranchOp} (h : op ∈ [.balr, .balrx])
    (hflow : machine.core.flow = .normal) (hop : machine.operation? = some (.branch op)) :
    let r2 := machine.current.r2
    let r3 := machine.current.r3
    let held := machine.core.regs.gpr.get r3
    let link := machine.core.regs.iar + if op = .balrx then 6 else 2
    let target := (if r3 = r2 then link else held) &&& ~~~1
    (machine.setGpr r2 link).BranchesTo op target machine.step.1 ∧ machine.step.2 = 5 ∧
      (target = held &&& ~~~1 ↔ r2 ≠ r3 ∨ held &&& ~~~1 = link &&& ~~~1) := by
  intro r2 r3 held link target
  have hlinked : machine.linked op = machine.setGpr r2 link := linked_of_register h machine
  have htarget : op.target machine.current (machine.setGpr r2 link).core.regs = target := by
    have hread : (machine.setGpr r2 link).core.regs.gpr.get r3 = if r3 = r2 then link else held :=
      Bank.get_set ..
    rw [List.mem_pair] at h
    obtain rfl | rfl := h <;> exact congrArg (· &&& ~~~1) hread
  have hstep := step_of_branch hflow hop
  have htaken : op.taken machine.current machine.core.regs.condition = true ∧ op.takenCost = 4 := by
    rw [List.mem_pair] at h
    obtain rfl | rfl := h <;> exact ⟨rfl, rfl⟩
  rw [if_pos htaken.1, hlinked, htarget, htaken.2] at hstep
  refine ⟨hstep.1, hstep.2, ?_⟩
  by_cases hsame : r3 = r2
  · have hnot : ¬ r2 ≠ r3 := fun hne => hne hsame.symm
    rw [or_iff_right hnot]
    change (if r3 = r2 then link else held) &&& ~~~1 = _ ↔ _
    rw [if_pos hsame, eq_comm]
  · change (if r3 = r2 then link else held) &&& ~~~1 = _ ↔ _
    rw [if_neg hsame]
    exact iff_of_true rfl (.inl (Ne.symm hsame))

/-- BALRX through register 2 with a link in register 1: the low bit is cleared, and the delay slot is
before. -/
theorem register_links_balrx :
    let machine := (started [0xED, 0x12]).setGpr 2 0x3001
    machine.operation? = some (.branch .balrx) ∧
      machine.step.1.core = ((machine.setGpr 1 10).core.arrive 0x3000).hold 6 := by
  intro machine
  have hop : machine.operation? = some (.branch .balrx) := by decide +kernel
  obtain ⟨hbranches, -, -⟩ := register_links (by decide) (by decide +kernel) hop
  have hfields : machine.current.r2 = 1 ∧ machine.current.r3 = 2 := by decide +kernel
  have hiar : machine.core.regs.iar = 4 := by decide +kernel
  have hheld : machine.core.regs.gpr.get 2 = 0x3001 := by decide +kernel
  simp only [hfields, hiar, hheld] at hbranches
  exact ⟨hop, hbranches.core⟩

/-- BALR through the register of its own link does not go where that register tells. -/
theorem register_link_to_itself :
    let machine := (started [0xEC, 0x11]).setGpr 1 0x3000
    machine.core.flow = .normal ∧ machine.operation? = some (.branch .balr) ∧
      machine.core.regs.gpr.get machine.current.r3 = 0x3000 ∧
      machine.step.1.core.regs.iar ≠ 0x3000 := by
  intro machine
  exact ⟨by decide +kernel, by decide +kernel, by decide +kernel, by decide +kernel⟩

end Machine

end ProcessorCores.Romp

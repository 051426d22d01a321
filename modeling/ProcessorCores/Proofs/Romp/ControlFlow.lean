import ProcessorCores.Proofs.Romp.Transfer

/-!
# The flow token between ROMP steps

Whatever a host does after a reset, the token it finds between two steps is one of two, and the
second one, a pending branch, is the trace of a branch with execute that was taken in the very last
step. From there the next step is the delay slot: nothing is entered, one instruction runs, and
control arrives at the latched target, unless that instruction is stopped by a program check.

The boundaries inside a run are reached as well as those after it.
-/

namespace ProcessorCores.Romp

/-- The branches with execute. -/
def branchesWithExecute : List BranchOp := [.bnbx, .balax, .balix, .bbx, .bnbrx, .balrx, .bbrx]

/-- A branch belongs to the list exactly when it lets one more instruction run. -/
theorem mem_branchesWithExecute (op : BranchOp) : op ∈ branchesWithExecute ↔ op.withExecute = true := by
  cases op <;> decide

namespace Machine

/-- The machine once what is pending at a boundary is entered, if the boundary allows it. -/
def entered? (machine : Machine) : Option Machine :=
  if machine.core.flow = .normal then machine.takePending? else none

/-- True when the next step executes a branch of a list, outside a delay slot, and takes it. -/
def TakesBranch (machine : Machine) (among : List BranchOp) : Prop :=
  machine.entered? = none ∧ machine.core.flow = .normal ∧
    ∃ op ∈ among, (decode machine.current.word).handler = .branch op ∧
      op.taken machine.current machine.core.regs.condition = true

/-- The machine before the step taken last, once at most so many steps of a run are taken. -/
def lastOfRun (machine : Machine) (budget : Budget) (last : Option Machine) : Nat → Option Machine
  | 0 => last
  | count + 1 =>
    if budget.isExhausted then last
    else
      let (next, cycles) := machine.step
      let next := next.mapCore fun core => { core with totalCycles := core.totalCycles + BitVec.ofNat 64 cycles }
      next.lastOfRun (budget.consume cycles) (some machine) count

/-- What a host can reach from a reset, with the machine before the step taken last. A run is cut
off after any number of steps, so that every boundary inside it is reached as well. -/
inductive Reached : Machine → Option Machine → Prop
  | reset (machine : Machine) : Reached machine.reset none
  | step {machine : Machine} {last : Option Machine} :
    Reached machine last → Reached machine.step.1 (some machine)
  | run {machine : Machine} {last : Option Machine} (budget : Budget) (count : Nat) :
    Reached machine last →
      Reached (machine.runSteps budget count).1 (machine.lastOfRun budget last count)
  | line {machine : Machine} {last : Option Machine} (line : Nat) (asserted : Bool) :
    Reached machine last → Reached (machine.mapCore (·.setInputLine line asserted)) last
  | machineCheck {machine : Machine} {last : Option Machine} (status : Word) :
    Reached machine last → Reached (machine.mapCore (·.signalMachineCheck status)) last

/-! ## One step -/

/-- A step ends an entry at once and otherwise executes one instruction. -/
theorem step_eq (machine : Machine) :
    machine.step =
      match machine.entered? with
      | some entered => (entered.mapCore fun core => core.endStep core.regs.iar, 1)
      | none => machine.executeNext := rfl

/-- Nothing is entered in a delay slot, whatever is pending. -/
theorem entry_delaySlot {machine : Machine} (h : machine.core.flow = .branchPending) :
    machine.entered? = none := by
  rw [entered?, h]
  rfl

/-- An entry at a boundary is one of a machine check or of an external interrupt. -/
theorem entry_eq_some {machine entered : Machine} (h : machine.entered? = some entered) :
    ∃ noted cause, entered = enter noted cause := by
  rw [entered?] at h
  split at h
  · unfold takePending? at h
    split at h
    · exact ⟨_, _, (Option.some.inj h).symm⟩
    · obtain ⟨level, -, hlevel⟩ := Option.map_eq_some_iff.mp h
      exact ⟨_, _, hlevel.symm⟩
  · contradiction

/-- A step that enters something ends with the flow token back to normal. -/
theorem step_flow_of_entry {machine entered : Machine} (h : machine.entered? = some entered) :
    machine.step.1.core.flow = .normal := by
  obtain ⟨noted, cause, rfl⟩ := entry_eq_some h
  have hentered : (noted.enter cause).core.flow = .exceptionEntered :=
    congrArg (·.1) (noted.enter_sequencing cause)
  rw [step_eq, h]
  dsimp only
  rw [mapCore, Core.endStep, hentered]

/-- Outside a delay slot the operation alone decides how control is passed on. -/
theorem transfer_of_normal {machine : Machine} (hflow : machine.core.flow = .normal) :
    machine.transfer =
      (decode machine.current.word).handler.transfer machine machine.current machine.following := by
  rw [transfer, hflow]
  exact if_neg fun h => Flow.noConfusion h.1

/-- In a delay slot no branch is taken. -/
theorem transfer_of_branchPending {machine : Machine} (hflow : machine.core.flow = .branchPending) :
    machine.transfer = .sequential ∨ machine.transfer = .exception .programCheck := by
  rw [transfer]
  generalize (decode machine.current.word).handler = op
  split
  · exact .inr rfl
  · next hclass =>
    rw [hflow] at hclass
    cases op with
    | port op =>
      simp only [Op.transfer]
      split
      · exact .inl rfl
      · exact .inr rfl
    | illegal => exact .inr rfl
    | trap _ | branch _ | svc | lps => exact absurd ⟨rfl, rfl⟩ hclass
    | compute _ | load _ | store _ | tsh | lm | stm | control _ => exact .inl rfl

/-- A branch-class instruction in a delay slot is a program check. -/
theorem transfer_of_isBranchClass {machine : Machine} (hflow : machine.core.flow = .branchPending)
    (hclass : (decode machine.current.word).handler.isBranchClass = true) :
    machine.transfer = .exception .programCheck := by
  rw [transfer]
  exact if_pos ⟨hflow, hclass⟩

end Machine

/-- An operation passes control on with execute exactly when it is such a branch and taken. -/
theorem Op.transfer_withExecute_iff (op : Op) (machine : Machine) (instruction : Instruction)
    (next : Word) :
    (∃ target, op.transfer machine instruction next = .branch target true) ↔
      ∃ branch ∈ branchesWithExecute, op = .branch branch ∧
        branch.taken instruction machine.core.regs.condition = true := by
  constructor
  · rintro ⟨target, htransfer⟩
    cases op with
    | branch branch =>
      simp only [Op.transfer] at htransfer
      split at htransfer
      · next htaken =>
        have hexecute : branch.withExecute = true := by
          injection htransfer
        exact ⟨branch, (mem_branchesWithExecute branch).mpr hexecute, rfl, htaken⟩
      · contradiction
    | port op =>
      simp only [Op.transfer] at htransfer
      split at htransfer <;> contradiction
    | trap op =>
      simp only [Op.transfer] at htransfer
      split at htransfer <;> contradiction
    | lps =>
      simp only [Op.transfer] at htransfer
      injection htransfer with _ hexecute
      contradiction
    | compute _ | load _ | store _ | tsh | lm | stm | control _ | svc | illegal => contradiction
  · rintro ⟨branch, hmem, rfl, htaken⟩
    rw [mem_branchesWithExecute] at hmem
    refine ⟨branch.target instruction (branch.linked instruction next machine.core.regs), ?_⟩
    simp only [Op.transfer, htaken, hmem, ↓reduceIte]

namespace Machine

/-- A step from the normal token ends in one of the two tokens of a boundary, and with a branch
pending exactly when it takes a branch with execute. -/
theorem step_flow_of_normal {machine : Machine} (hflow : machine.core.flow = .normal) :
    (machine.step.1.core.flow = .normal ∨ machine.step.1.core.flow = .branchPending) ∧
      (machine.step.1.core.flow = .branchPending ↔ machine.TakesBranch branchesWithExecute) := by
  -- An entry is made in place of an instruction; without one the instruction decides.
  cases hentry : machine.entered? with
  | some entered =>
    have hafter := step_flow_of_entry hentry
    refine ⟨.inl hafter, ?_⟩
    rw [hafter, TakesBranch, hentry]
    exact ⟨fun h => Flow.noConfusion h, fun h => Option.noConfusion rfl (heq_of_eq h.1)⟩
  | none =>
    have htakes : machine.TakesBranch branchesWithExecute ↔
        ∃ target, machine.transfer = .branch target true := by
      rw [transfer_of_normal hflow, Op.transfer_withExecute_iff]
      exact ⟨fun h => h.2.2, fun h => ⟨hentry, hflow, h⟩⟩
    rw [htakes, step_eq, hentry]
    dsimp only
    cases htransfer : machine.transfer with
    | sequential =>
      have hafter := (executeNext_sequential htransfer hflow).1
      rw [hafter]
      refine ⟨.inl rfl, fun h => Flow.noConfusion h, ?_⟩
      rintro ⟨target, hbranch⟩
      contradiction
    | branch target withExecute =>
      have hafter := executeNext_branch htransfer
      rw [hafter]
      cases withExecute with
      | true => exact ⟨.inr rfl, fun _ => ⟨target, rfl⟩, fun _ => rfl⟩
      | false =>
        refine ⟨.inl rfl, fun h => Flow.noConfusion h, ?_⟩
        rintro ⟨other, hbranch⟩
        injection hbranch with _ hexecute
        contradiction
    | exception cause =>
      have hafter := (executeNext_exception htransfer).1
      rw [hafter]
      refine ⟨.inl rfl, fun h => Flow.noConfusion h, ?_⟩
      rintro ⟨target, hbranch⟩
      contradiction

/-- In a delay slot the next step executes one instruction and uses the token up: control arrives
at the latched target, unless a program check takes it to its handler. -/
theorem step_of_branchPending {machine : Machine} (hflow : machine.core.flow = .branchPending) :
    machine.step = machine.executeNext ∧ machine.step.1.core.flow = .normal ∧
      (machine.transfer = .sequential ∧
          machine.step.1.core.regs.iar = machine.core.branchTarget ∨
        machine.transfer = .exception .programCheck ∧
          machine.step.1.core.regs.iar = machine.bus.peek32 .program 0x188 ∧
          machine.step.1.core.branchTarget = machine.core.branchTarget) := by
  have hstep : machine.step = machine.executeNext := by
    rw [step_eq, entry_delaySlot hflow]
  rw [hstep]
  rcases transfer_of_branchPending hflow with htransfer | htransfer
  · obtain ⟨hafter, hiar⟩ := executeNext_delaySlot htransfer hflow
    exact ⟨rfl, hafter, .inl ⟨htransfer, hiar⟩⟩
  · obtain ⟨hafter, htarget, hiar⟩ := executeNext_exception htransfer
    exact ⟨rfl, hafter, .inr ⟨htransfer, hiar, htarget⟩⟩

/-! ## Between steps -/

/-- What holds between steps, `last` being the machine before the step taken last: a branch is
pending exactly when that step took a branch with execute, and otherwise the token is normal. -/
structure Settled (machine : Machine) (last : Option Machine) : Prop where
  flow : machine.core.flow = .normal ∨ machine.core.flow = .branchPending
  branchPending_iff : machine.core.flow = .branchPending ↔
    ∃ before ∈ last, before.TakesBranch branchesWithExecute

/-- Only the flow token counts. -/
theorem Settled.of_flow {machine other : Machine} {last : Option Machine}
    (hflow : other.core.flow = machine.core.flow) (h : machine.Settled last) : other.Settled last :=
  ⟨hflow ▸ h.flow, hflow ▸ h.branchPending_iff⟩

/-- A step from any settled boundary leads to a settled one. -/
theorem Settled.step {machine : Machine} {last : Option Machine} (h : machine.Settled last) :
    machine.step.1.Settled (some machine) := by
  have hsome : (∃ before ∈ some machine, before.TakesBranch branchesWithExecute) ↔
      machine.TakesBranch branchesWithExecute := by
    simp only [Option.mem_some_iff, exists_eq_left']
  rcases h.flow with hflow | hflow
  · obtain ⟨hafter, hiff⟩ := step_flow_of_normal hflow
    exact ⟨hafter, hiff.trans hsome.symm⟩
  · obtain ⟨-, hafter, -⟩ := step_of_branchPending hflow
    refine ⟨.inl hafter, ?_⟩
    rw [hsome, hafter]
    refine ⟨fun h => Flow.noConfusion h, fun htakes => ?_⟩
    rw [htakes.2.1] at hflow
    contradiction

/-- However many steps of a run are taken, the boundary is settled. -/
theorem Settled.runSteps {machine : Machine} {last : Option Machine} (h : machine.Settled last)
    (budget : Budget) (count : Nat) :
    (machine.runSteps budget count).1.Settled (machine.lastOfRun budget last count) := by
  induction count generalizing machine last budget with
  | zero => exact h
  | succ count ih =>
    rw [Machine.runSteps, lastOfRun]
    split
    · exact h
    · have hstep := h.step
      rcases hnext : machine.step with ⟨next, cycles⟩
      rw [hnext] at hstep
      have hcounted : (next.mapCore fun core =>
          { core with totalCycles := core.totalCycles + BitVec.ofNat 64 cycles }).Settled (some machine) := by
        refine hstep.of_flow ?_
        rfl
      exact ih hcounted _

/-- Every boundary that a host can reach is settled. -/
theorem Reached.settled {machine : Machine} {last : Option Machine} (h : Reached machine last) :
    machine.Settled last := by
  induction h with
  | reset machine =>
    refine ⟨.inl rfl, fun h => Flow.noConfusion h, ?_⟩
    rintro ⟨before, hmem, -⟩
    contradiction
  | step _ ih => exact ih.step
  | run budget count _ ih => exact ih.runSteps budget count
  | line line asserted _ ih =>
    refine ih.of_flow ?_
    rw [mapCore, Core.setInputLine]
    dsimp only
    split
    · split <;> rfl
    · rfl
  | machineCheck status _ ih =>
    refine ih.of_flow ?_
    rfl

/-- The formats of two halfwords by their high digit. -/
theorem hasExtension_iff (word : Half) :
    hasExtension word = true ↔ word.extractLsb' 12 4 ∈ [0x8, 0xC, 0xD] := by
  rw [hasExtension]
  generalize word.extractLsb' 12 4 = digit
  revert digit
  decide

/-- The first byte of an instruction tells its length. -/
theorem hasExtension_eq (word : Half) :
    hasExtension word = decide ((highByte word).toNat / 16 ∈ [0x8, 0xC, 0xD]) := by
  have hdigit : (highByte word).toNat / 16 = (word.extractLsb' 12 4).toNat := by
    simp only [highByte, BitVec.extractLsb'_toNat, Nat.shiftRight_eq_div_pow]
    omega
  have hlong : ∀ digit : BitVec 4, digit.toNat ∈ [0x8, 0xC, 0xD] ↔ digit ∈ [0x8, 0xC, 0xD] := by
    decide
  rw [Bool.eq_iff_iff, hasExtension_iff, decide_eq_true_iff, hdigit, hlong]

/-- Between steps the token is normal or a branch is pending, the latter exactly after a step that
took one of the branches with execute. A pending branch lets one instruction run, whatever else is
pending, and is then followed to its target, unless the instruction is of the branch class or is
stopped by a program check: control then goes to the handler in block 8. A step that enters nothing
and takes no branch goes on to the following instruction, even if it writes the instruction
address. -/
theorem Reached.controlFlow {machine : Machine} {last : Option Machine} (h : Reached machine last) :
    let op := (decode machine.current.word).handler
    let after := machine.step.1
    (machine.core.flow = .normal ∨ machine.core.flow = .branchPending) ∧
      (machine.core.flow = .branchPending ↔
        ∃ before ∈ last, before.TakesBranch branchesWithExecute) ∧
      (machine.core.flow = .branchPending →
        machine.entered? = none ∧ machine.step = machine.executeNext ∧
          after.core.pendingMachineCheck = machine.core.pendingMachineCheck ∧
          after.core.flow = .normal ∧
          if op.isBranchClass = false ∧ machine.transfer ≠ .exception .programCheck then
            after.core.regs.iar = machine.core.branchTarget
          else
            after.core.regs.iar = machine.bus.peek32 .program 0x188 ∧
              after.core.branchTarget = machine.core.branchTarget) ∧
      (machine.core.flow = .normal → machine.entered? = none → machine.transfer = .sequential →
        after.core.flow = .normal ∧
          after.core.regs.iar = machine.core.regs.iar +
            if machine.current.word.extractLsb' 12 4 ∈ [0x8, 0xC, 0xD] then 4 else 2) ∧
      (machine.core.flow = .normal → ∀ control, op = .control control →
        machine.transfer = .sequential) := by
  intro op after
  refine ⟨h.settled.flow, h.settled.branchPending_iff, fun hflow => ?_,
    fun hflow hentry htransfer => ?_, fun hflow control hop => ?_⟩
  · obtain ⟨hstep, hafter, harrived⟩ := step_of_branchPending hflow
    have hfault : after.core.pendingMachineCheck = machine.core.pendingMachineCheck := by
      rw [← machine.executeNext_pendingMachineCheck, ← hstep]
    refine ⟨entry_delaySlot hflow, hstep, hfault, hafter, ?_⟩
    rcases harrived with ⟨htransfer, hiar⟩ | ⟨htransfer, hiar⟩
    · have hclass : op.isBranchClass = false := by
        cases hbranch : op.isBranchClass with
        | false => rfl
        | true =>
          rw [transfer_of_isBranchClass hflow hbranch] at htransfer
          contradiction
      rw [if_pos ⟨hclass, by rw [htransfer]; exact Transfer.noConfusion⟩]
      exact hiar
    · rw [if_neg fun hslot => hslot.2 htransfer]
      exact hiar
  · have hstep : after = machine.executeNext.1 := by
      change machine.step.1 = _
      rw [step_eq, hentry]
    obtain ⟨hafter, hiar⟩ := executeNext_sequential htransfer hflow
    rw [hstep, hiar, following_eq]
    simp only [hasExtension_iff]
    exact ⟨hafter, trivial⟩
  · rw [transfer_of_normal hflow]
    change op.transfer machine machine.current machine.following = .sequential
    rw [hop]
    rfl

/-- A machine just after its reset, with a program that the reset starts at address 4. -/
def started (program : List Byte) : Machine :=
  Machine.reset ⟨.new, Bus.empty.load .program 0 ([0, 0, 0, 4] ++ program)⟩

/-- An absolute branch with execute to address 16: after its delay slot, control is there. -/
theorem controlFlow_balax :
    let machine := (started [0x8B, 0x00, 0x00, 0x10, 0xA4, 0x15]).step.1
    machine.core.flow = .branchPending ∧ machine.step.1.core.flow = .normal ∧
      machine.step.1.core.regs.iar = 16 := by
  intro machine
  have hreached : Reached machine (some (started [0x8B, 0x00, 0x00, 0x10, 0xA4, 0x15])) :=
    (Reached.reset _).step
  have hpending : machine.core.flow = .branchPending := by decide +kernel
  obtain ⟨-, -, -, hafter, hiar⟩ := hreached.controlFlow.2.2.1 hpending
  have hslot : (decode machine.current.word).handler.isBranchClass = false ∧
      machine.transfer ≠ .exception .programCheck := by decide +kernel
  rw [if_pos hslot] at hiar
  have htarget : machine.core.branchTarget = 16 := by decide +kernel
  exact ⟨hpending, hafter, hiar.trans htarget⟩

/-- The list of the branches with execute is complete only with the register branch on a set bit:
here a comparison sets the bit for equality and such a branch leaves the token pending. -/
theorem branchPending_after_bbrx :
    ¬ ∀ machine last, Reached machine last →
      (machine.core.flow = .branchPending ↔
        ∃ before ∈ last, before.TakesBranch [.bnbx, .balax, .balix, .bbx, .bnbrx, .balrx]) := by
  intro hall
  let before := (started [0x94, 0x00, 0xEF, 0xA0]).step.1
  have hreached : Reached before.step.1 (some before) := (Reached.reset _).step.step
  have hpending : before.step.1.core.flow = .branchPending := by decide +kernel
  have hhandler : (decode before.current.word).handler = .branch .bbrx := by decide +kernel
  obtain ⟨other, hother, htakes⟩ := (hall _ _ hreached).mp hpending
  obtain rfl : before = other := Option.some.inj hother
  obtain ⟨-, -, op, hmem, hop, -⟩ := htakes
  obtain rfl : BranchOp.bbrx = op := Op.branch.inj (hhandler.symm.trans hop)
  exact absurd hmem (by decide)

end Machine

end ProcessorCores.Romp

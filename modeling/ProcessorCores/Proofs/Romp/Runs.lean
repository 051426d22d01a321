import Mathlib.Order.Bounds.Basic
import ProcessorCores.Proofs.Budgets
import ProcessorCores.Proofs.Romp.Transfer

/-!
# How far a ROMP run goes

A run is the shortest sequence of steps that uses its budget up, and the counter of cycles grows by
what these steps cost. No step reads that counter, so a run is described by plain steps, the cycles
being put on the counter at the end.

The dearest operation is the store of all sixteen registers under translation, at 52 cycles. A step
is taken only while a cycle is left, so a run overdraws its budget by at most 51.

Being shortest determines the number of steps. That is why a run may be cut anywhere: what the first
slice overdraws is missing from the second.
-/

namespace ProcessorCores.Romp

/-! ## The cost of a step -/

/-- The most that an operation can cost beyond the base cost of its entry. -/
def Op.greatestExtra : Op → Nat
  | .stm => 51
  | .lm => 35
  | .svc | .lps => 15
  | .trap _ => 14
  | .branch _ => 4
  | .compute _ | .load _ | .store _ | .tsh | .port _ | .control _ | .illegal => 0

/-- A load of all sixteen registers under translation costs 35 cycles more. -/
theorem loadMultipleCost_le (first : Reg) (regs : Registers) :
    loadMultipleCost first regs ≤ 35 := by
  have hcount := transferCount_le first
  unfold loadMultipleCost
  split <;> omega

/-- A store of all sixteen costs 51. -/
theorem storeMultipleCost_le (first : Reg) (regs : Registers) :
    storeMultipleCost first regs ≤ 51 := by
  have hcount := transferCount_le first
  unfold storeMultipleCost
  split <;> omega

/-- A branch that is taken costs at most 4 more. -/
theorem BranchOp.takenCost_le (op : BranchOp) : op.takenCost ≤ 4 := by
  cases op <;> decide

/-- A trap that springs costs at most 14 more. -/
theorem TrapOp.springCost_le (op : TrapOp) : op.springCost ≤ 14 := by
  cases op <;> decide

/-- No entry of the table, with the most that its operation can add, costs more than 52 cycles. -/
theorem cycles_add_greatestExtra_le (word : Half) :
    (decode word).cycles + (decode word).handler.greatestExtra ≤ 52 := by
  have all : ∀ entry ∈ opcodeTable.toList, entry.cycles + entry.handler.greatestExtra ≤ 52 := by
    decide +kernel
  exact all _ (opcodeTable.get_mem_toList _)

namespace Machine

/-- An execution costs no more than its operation can add. -/
theorem execute_le (machine : Machine) (op : Op) (instruction : Instruction) (next : Word) :
    (machine.execute op instruction next).2 ≤ op.greatestExtra := by
  cases op with
  | lm => exact loadMultipleCost_le _ _
  | stm => exact storeMultipleCost_le _ _
  | branch op =>
    simp only [execute, Core.branch]
    split
    · exact op.takenCost_le
    · exact Nat.zero_le _
  | trap op =>
    simp only [execute]
    split
    · exact op.springCost_le
    · exact Nat.zero_le _
  | svc | lps => exact Nat.le_refl 15
  | compute _ | load _ | store _ | tsh | port _ | control _ | illegal => exact Nat.zero_le _

/-- No step costs more than 52 cycles. -/
theorem step_le (machine : Machine) : machine.step.2 ≤ 52 := by
  rw [step]
  cases if machine.core.flow = .normal then machine.takePending? else none with
  | some entered => exact Nat.one_le_of_lt (by decide : 0 < 52)
  | none =>
    have hentry := cycles_add_greatestExtra_le machine.fetch.1.word
    have hexecute := machine.fetch.2.2.execute_le (decode machine.fetch.1.word).handler
      machine.fetch.1 machine.fetch.2.1
    dsimp only
    rw [executeNext]
    dsimp only
    split
    · exact (Nat.le_add_right _ _).trans hentry
    · exact (Nat.add_le_add_left hexecute _).trans hentry

end Machine

/-! ## The counter of cycles -/

/-- A core with its counter at a number of cycles. -/
def Core.withCycles (core : Core) (cycles : Long) : Core := { core with totalCycles := cycles }

namespace Core

variable (core : Core) (cycles : Long)

/-- The counter is no register. -/
@[simp] theorem withCycles_regs : (core.withCycles cycles).regs = core.regs := rfl

/-- The counter reads as it was put. -/
@[simp] theorem withCycles_totalCycles : (core.withCycles cycles).totalCycles = cycles := rfl

/-- The counter is not the flow token. -/
@[simp] theorem withCycles_flow : (core.withCycles cycles).flow = core.flow := rfl

/-- Nor is it the status of a pending machine check. -/
@[simp] theorem withCycles_pendingMachineCheck :
    (core.withCycles cycles).pendingMachineCheck = core.pendingMachineCheck := rfl

/-- Registers are replaced whatever the counter. -/
@[simp] theorem withCycles_withRegs (regs : Registers) :
    (core.withCycles cycles).withRegs regs = (core.withRegs regs).withCycles cycles := rfl

/-- An event is reported whatever the counter. -/
@[simp] theorem withCycles_report (event : Event) :
    (core.withCycles cycles).report event = (core.report event).withCycles cycles := rfl

/-- A target is latched whatever the counter. -/
@[simp] theorem withCycles_latch (target : Word) (withExecute : Bool) :
    (core.withCycles cycles).latch target withExecute =
      (core.latch target withExecute).withCycles cycles := rfl

/-- The translate line is driven, and a change reported, whatever the counter. -/
@[simp] theorem withCycles_setTranslateMode (enabled : Bool) :
    (core.withCycles cycles).setTranslateMode enabled =
      (core.setTranslateMode enabled).withCycles cycles := by
  unfold setTranslateMode
  split <;> simp_all [withCycles, report]

/-- A system control register is written whatever the counter. -/
@[simp] theorem withCycles_writeScr (r : Reg) (value : Word) :
    (core.withCycles cycles).writeScr r value = (core.writeScr r value).withCycles cycles := by
  unfold writeScr
  split <;> simp

/-- A control operation works whatever the counter. -/
@[simp] theorem withCycles_control (op : ControlOp) (instruction : Instruction) (next : Word) :
    (core.withCycles cycles).control op instruction next =
      (core.control op instruction next).withCycles cycles := by
  cases op <;> simp [control]

/-- A branch is taken, and costs, what it is and does whatever the counter. -/
theorem withCycles_branch (op : BranchOp) (instruction : Instruction) (next : Word) :
    (core.withCycles cycles).branch op instruction next =
      ((core.branch op instruction next).1.withCycles cycles,
        (core.branch op instruction next).2) := by
  unfold branch
  by_cases htaken : op.taken instruction core.regs.condition = true
  · simp [htaken]
  · simp [htaken]

/-- The flow token is consumed whatever the counter. -/
@[simp] theorem withCycles_endStep (next : Word) :
    (core.withCycles cycles).endStep next = (core.endStep next).withCycles cycles := by
  unfold endStep
  simp only [withCycles_flow]
  split <;> rfl

end Core

namespace Machine

/-- A machine with the counter of its core at a number of cycles. -/
def withCycles (machine : Machine) (cycles : Long) : Machine := machine.mapCore (·.withCycles cycles)

section Counter

variable (machine : Machine) (cycles : Long)

/-- The counter of a machine is that of its core. -/
@[simp] theorem withCycles_core :
    (machine.withCycles cycles).core = machine.core.withCycles cycles := rfl

/-- A counter put to where it is changes nothing. -/
@[simp] theorem withCycles_self : machine.withCycles machine.core.totalCycles = machine := rfl

/-- Of two values put on the counter the later stays. -/
@[simp] theorem withCycles_withCycles (other : Long) :
    (machine.withCycles cycles).withCycles other = machine.withCycles other := rfl

/-- A change of the core that ignores the counter is a change of the machine that ignores it. -/
theorem withCycles_mapCore {f : Core → Core}
    (h : ∀ core : Core, f (core.withCycles cycles) = (f core).withCycles cycles) :
    (machine.withCycles cycles).mapCore f = (machine.mapCore f).withCycles cycles := by
  simp [withCycles, mapCore, h]

/-- A general register is written whatever the counter. -/
@[simp] theorem withCycles_setGpr (r : Reg) (value : Word) :
    (machine.withCycles cycles).setGpr r value = (machine.setGpr r value).withCycles cycles := rfl

/-- Storage is written whatever the counter. -/
@[simp] theorem withCycles_write32 (space : Space) (address value : Word) :
    (machine.withCycles cycles).write32 space address value =
      (machine.write32 space address value).withCycles cycles := rfl

/-- A halfword of storage is read whatever the counter. -/
@[simp] theorem withCycles_read16 (space : Space) (address : Word) :
    (machine.withCycles cycles).read16 space address =
      ((machine.read16 space address).1, (machine.read16 space address).2.withCycles cycles) := rfl

/-- A word of storage is read whatever the counter. -/
@[simp] theorem withCycles_read32 (space : Space) (address : Word) :
    (machine.withCycles cycles).read32 space address =
      ((machine.read32 space address).1, (machine.read32 space address).2.withCycles cycles) := rfl

/-! No step looks at the counter. -/

/-- A load does not look at the counter. -/
theorem withCycles_load (op : LoadOp) (instruction : Instruction) :
    (machine.withCycles cycles).load op instruction =
      (machine.load op instruction).withCycles cycles := by
  cases op <;> rfl

/-- Nor does a store. -/
theorem withCycles_store (op : StoreOp) (instruction : Instruction) :
    (machine.withCycles cycles).store op instruction =
      (machine.store op instruction).withCycles cycles := by
  cases op <;> rfl

/-- Nor does a load of many registers, by induction on how many there are. -/
theorem withCycles_loadRegisters (r : Reg) (address : Word) (count : Nat) :
    (machine.withCycles cycles).loadRegisters r address count =
      (machine.loadRegisters r address count).withCycles cycles := by
  induction count generalizing machine r address with
  | zero => rfl
  | succ count ih => simp [loadRegisters, ih]

/-- Nor does a store of many. -/
theorem withCycles_storeRegisters (r : Reg) (address : Word) (count : Nat) :
    (machine.withCycles cycles).storeRegisters r address count =
      (machine.storeRegisters r address count).withCycles cycles := by
  induction count generalizing machine r address with
  | zero => rfl
  | succ count ih => simp [storeRegisters, ih]

/-- An exception entry does not look at the counter. -/
theorem withCycles_enter (cause : Exception) :
    (machine.withCycles cycles).enter cause = (machine.enter cause).withCycles cycles := by
  rw [enter_eq, enter_eq]
  simp only [withCycles_core, Core.withCycles_regs, Core.withCycles_setTranslateMode,
    Core.withCycles_withRegs]
  rfl

/-- So a program check does not. -/
theorem withCycles_programCheck (status : Word) :
    (machine.withCycles cycles).programCheck status =
      (machine.programCheck status).withCycles cycles := by
  rw [programCheck, programCheck, ← withCycles_enter]
  rfl

/-- Nor does a machine check. -/
theorem withCycles_machineCheck (status : Word) :
    (machine.withCycles cycles).machineCheck status =
      (machine.machineCheck status).withCycles cycles := by
  rw [machineCheck, machineCheck, ← withCycles_enter]
  rfl

/-- Nor does an illegal instruction. -/
theorem withCycles_illegal :
    (machine.withCycles cycles).illegal = machine.illegal.withCycles cycles :=
  machine.withCycles_programCheck cycles _

/-- Nor does an access to a port, in the window or beyond it. -/
theorem withCycles_accessPort (op : PortOp) (instruction : Instruction) :
    (machine.withCycles cycles).accessPort op instruction =
      (machine.accessPort op instruction).withCycles cycles := by
  unfold accessPort
  by_cases hport : unsignedAddress instruction machine.core.regs < portLimit
  · cases op <;> simp [hport]
  · simp [hport, withCycles_illegal]

/-- Nor does a load of the program status. -/
theorem withCycles_loadProgramStatus (instruction : Instruction) :
    (machine.withCycles cycles).loadProgramStatus instruction =
      (machine.loadProgramStatus instruction).withCycles cycles := by
  unfold loadProgramStatus
  simp only [withCycles_core, Core.withCycles_regs, withCycles_read32, withCycles_read16]
  rw [withCycles_mapCore _ _ fun core => by rw [Core.withCycles_latch, Core.withCycles_writeScr]]
  rfl

/-- No operation looks at the counter, for what it changes or for what it costs. -/
theorem withCycles_execute (op : Op) (instruction : Instruction) (next : Word) :
    (machine.withCycles cycles).execute op instruction next =
      ((machine.execute op instruction next).1.withCycles cycles,
        (machine.execute op instruction next).2) := by
  cases op with
  | compute op => rfl
  | load op => simp [execute, withCycles_load]
  | store op => simp [execute, withCycles_store]
  | tsh => rfl
  | lm => simp [execute, withCycles_loadRegisters]
  | stm => simp [execute, withCycles_storeRegisters]
  | port op => simp [execute, withCycles_accessPort]
  | trap op =>
    by_cases hsprings : op.springs instruction machine.core.regs = true
    · simp [execute, hsprings, trap, withCycles_programCheck]
    · simp [execute, hsprings]
  | branch op => simp [execute, Core.withCycles_branch, withCycles, mapCore]
  | control op => simp [execute, withCycles, mapCore]
  | svc => simp [execute, withCycles_enter]
  | lps => simp [execute, withCycles_loadProgramStatus]
  | illegal => simp [execute, withCycles_illegal]

/-- A fetch does not look at the counter. -/
theorem withCycles_fetch :
    (machine.withCycles cycles).fetch =
      (machine.fetch.1, machine.fetch.2.1, machine.fetch.2.2.withCycles cycles) := by
  unfold fetch
  by_cases hlong : hasExtension (machine.read16 .program machine.core.regs.iar).1 = true
  · simp [hlong]
  · simp [hlong]

/-- Nor does the execution of the next instruction. -/
theorem withCycles_executeNext :
    (machine.withCycles cycles).executeNext =
      (machine.executeNext.1.withCycles cycles, machine.executeNext.2) := by
  unfold executeNext
  rw [withCycles_fetch]
  by_cases hslot : machine.fetch.2.2.core.flow = .branchPending ∧
      (decode machine.fetch.1.word).handler.isBranchClass
  · simp [hslot, withCycles_illegal, withCycles_mapCore]
  · simp [hslot, withCycles_execute, withCycles_mapCore]

/-- Nor does the decision what is pending at a boundary. -/
theorem withCycles_takePending? :
    (machine.withCycles cycles).takePending? = machine.takePending?.map (·.withCycles cycles) := by
  unfold takePending?
  rw [withCycles_core, Core.withCycles_pendingMachineCheck]
  cases machine.core.pendingMachineCheck with
  | some status =>
    rw [Option.map_some, ← withCycles_machineCheck]
    rfl
  | none =>
    rw [Core.withCycles_regs, Option.map_map]
    refine Option.map_congr fun level _ => ?_
    rw [Function.comp_apply, ← withCycles_enter]
    rfl

/-- A step neither reads the counter nor changes it. -/
theorem withCycles_step :
    (machine.withCycles cycles).step = (machine.step.1.withCycles cycles, machine.step.2) := by
  unfold step
  rw [withCycles_takePending?, withCycles_core, Core.withCycles_flow]
  split
  · cases machine.takePending? with
    | some entered => simp [withCycles, mapCore]
    | none => exact machine.withCycles_executeNext cycles
  · exact machine.withCycles_executeNext cycles

/-- The counter after a step is the one before it, since a step from another would end at that. -/
theorem step_totalCycles : machine.step.1.core.totalCycles = machine.core.totalCycles := by
  have hstep := congrArg (·.1.core.totalCycles) (machine.withCycles_step machine.core.totalCycles)
  rw [withCycles_self] at hstep
  exact hstep

end Counter

/-! ## Sequences of steps -/

/-- The machine after so many steps. -/
def stepped (machine : Machine) : Nat → Machine
  | 0 => machine
  | count + 1 => machine.step.1.stepped count

/-- What so many steps cost together. -/
def cost (machine : Machine) : Nat → Nat
  | 0 => 0
  | count + 1 => machine.step.2 + machine.step.1.cost count

/-- Steps in two portions are the steps of both. -/
theorem stepped_add (machine : Machine) (first second : Nat) :
    machine.stepped (first + second) = (machine.stepped first).stepped second := by
  induction first generalizing machine with
  | zero => rw [Nat.zero_add, stepped]
  | succ first ih =>
    rw [Nat.succ_add, stepped, ih, stepped]

/-- What they cost is the sum. -/
theorem cost_add (machine : Machine) (first second : Nat) :
    machine.cost (first + second) = machine.cost first + (machine.stepped first).cost second := by
  induction first generalizing machine with
  | zero => simp [cost, stepped]
  | succ first ih =>
    rw [Nat.succ_add, cost, ih, cost, stepped, Nat.add_assoc]

/-- Steps leave a counter that is put beforehand as it is put. -/
theorem withCycles_stepped (machine : Machine) (cycles : Long) (count : Nat) :
    (machine.withCycles cycles).stepped count = (machine.stepped count).withCycles cycles := by
  induction count generalizing machine with
  | zero => rfl
  | succ count ih => rw [stepped, withCycles_step, ih, stepped]

/-- What steps cost does not depend on the counter. -/
theorem withCycles_cost (machine : Machine) (cycles : Long) (count : Nat) :
    (machine.withCycles cycles).cost count = machine.cost count := by
  induction count generalizing machine with
  | zero => rfl
  | succ count ih => rw [cost, withCycles_step, ih, cost]

/-- The last of some steps adds no more than any step can cost. -/
theorem cost_succ_le (machine : Machine) (count : Nat) :
    machine.cost (count + 1) ≤ machine.cost count + 52 := by
  rw [cost_add, cost, cost, Nat.add_zero]
  exact Nat.add_le_add_left (step_le _) _

/-! ## The shortest sequence -/

/-- True for the number of steps with which an amount is used up first. -/
def Spends (machine : Machine) (amount : Int) (count : Nat) : Prop :=
  IsLeast {count | amount ≤ machine.cost count} count

variable {machine : Machine} {amount : Int} {count : Nat}

/-- The least number of steps is one that suffices and that no other number comes below. -/
theorem spends_iff :
    machine.Spends amount count ↔
      amount ≤ machine.cost count ∧ ∀ other : Nat, amount ≤ machine.cost other → count ≤ other :=
  Iff.rfl

/-- Nothing is used up without a step. -/
theorem spends_zero (h : amount ≤ 0) : machine.Spends amount 0 :=
  ⟨h, fun _ _ => Nat.zero_le _⟩

/-- Where nothing is to be used up, no step is taken. -/
theorem Spends.eq_zero (h : machine.Spends amount count) (hamount : amount ≤ 0) : count = 0 :=
  h.unique (spends_zero hamount)

/-- A step is taken while something is left, and further steps use up what it leaves. -/
theorem spends_succ (hamount : 0 < amount)
    (h : machine.step.1.Spends (amount - machine.step.2) count) :
    machine.Spends amount (count + 1) := by
  rw [spends_iff] at h ⊢
  obtain ⟨henough, hleast⟩ := h
  refine ⟨by rw [cost]; omega, fun other hother => ?_⟩
  cases other with
  | zero =>
    rw [cost] at hother
    omega
  | succ other =>
    rw [cost] at hother
    have hrest := hleast other (by omega)
    omega

/-- Steps that use up a first amount, and then those that use up what is left of it and some more,
are the steps that use up both. -/
theorem Spends.add {more further : Nat} (hfirst : machine.Spends amount count)
    (hsecond : (machine.stepped count).Spends (amount - machine.cost count + more) further) :
    machine.Spends (amount + more) (count + further) := by
  rw [spends_iff] at hfirst hsecond ⊢
  obtain ⟨henough, hleast⟩ := hsecond
  refine ⟨by rw [cost_add]; omega, fun other hother => ?_⟩
  have hcount : count ≤ other := hfirst.2 other (by omega)
  obtain ⟨rest, rfl⟩ := Nat.exists_eq_add_of_le hcount
  rw [cost_add] at hother
  have hrest := hleast rest (by omega)
  omega

/-- The last step is taken while something is left, so it overdraws by less than it costs. -/
theorem Spends.overdraw (h : machine.Spends amount count) (hamount : 0 ≤ amount) :
    -51 ≤ amount - machine.cost count ∧ amount - machine.cost count ≤ 0 := by
  rw [spends_iff] at h
  obtain ⟨henough, hleast⟩ := h
  refine ⟨?_, by omega⟩
  cases count with
  | zero =>
    rw [cost]
    omega
  | succ count =>
    have hbefore : ¬ amount ≤ machine.cost count := fun hless =>
      Nat.not_succ_le_self count (hleast count hless)
    have hlast := machine.cost_succ_le count
    omega

/-- So the steps cost little more than the amount, whether there is one or not. -/
theorem Spends.cost_le (h : machine.Spends amount count) : machine.cost count ≤ max amount 0 + 51 := by
  rcases Int.le_total amount 0 with hnone | hsome
  · obtain rfl := h.eq_zero hnone
    rw [cost]
    omega
  · have hoverdraw := h.overdraw hsome
    omega

/-! ## Runs -/

variable {budget : Budget}

/-- While something is left, a run takes a step, counts its cost and goes on. -/
theorem runSteps_succ (machine : Machine) (hbudget : budget.isExhausted = false) (limit : Nat) :
    machine.runSteps budget (limit + 1) =
      (machine.step.1.withCycles (machine.core.totalCycles + BitVec.ofNat 64 machine.step.2)).runSteps
        (budget.consume machine.step.2) limit := by
  rw [← machine.step_totalCycles, runSteps, hbudget]
  rfl

/-- Whatever its budget, a run is a sequence of steps. -/
theorem runSteps_eq_stepped (machine : Machine) (budget : Budget) (limit : Nat) :
    ∃ count cycles, (machine.runSteps budget limit).1 = (machine.stepped count).withCycles cycles := by
  -- The counter is carried along, since no step looks at it.
  induction limit generalizing machine budget with
  | zero => exact ⟨0, machine.core.totalCycles, rfl⟩
  | succ limit ih =>
    cases hexhausted : budget.isExhausted with
    | true =>
      refine ⟨0, machine.core.totalCycles, ?_⟩
      rw [runSteps, hexhausted, if_pos rfl]
      rfl
    | false =>
      rw [runSteps_succ machine hexhausted]
      obtain ⟨count, cycles, hrun⟩ :=
        ih (machine.step.1.withCycles (machine.core.totalCycles + BitVec.ofNat 64 machine.step.2)) _
      rw [withCycles_stepped, withCycles_withCycles] at hrun
      exact ⟨count + 1, cycles, hrun⟩

/-- As many steps are taken as use the budget up, if the limit on them allows. -/
theorem runSteps_spends (machine : Machine) (hbudget : budget.InRange) {limit : Nat}
    (hlimit : budget.remaining.toNat ≤ limit) :
    ∃ count, machine.Spends budget.remaining count ∧
      machine.runSteps budget limit =
        ((machine.stepped count).withCycles (machine.core.totalCycles + BitVec.ofNat 64 (machine.cost count)),
          ⟨budget.remaining - machine.cost count⟩) := by
  induction limit generalizing machine budget with
  | zero =>
    refine ⟨0, spends_zero (by omega), ?_⟩
    simp [runSteps, stepped, cost]
  | succ limit ih =>
    cases hexhausted : budget.isExhausted with
    | true =>
      refine ⟨0, spends_zero (budget.isExhausted_iff.mp hexhausted), ?_⟩
      simp [runSteps, hexhausted, stepped, cost]
    | false =>
      rw [runSteps_succ machine hexhausted]
      rw [Budget.isExhausted_eq_false_iff] at hexhausted
      have hpositive := machine.one_le_step
      have hcost := machine.step_le
      have hleast : Budget.least ≤ -51 := by decide
      have hgreatest := hbudget.2
      have hleft : (budget.consume machine.step.2).remaining = budget.remaining - machine.step.2 :=
        Budget.remaining_consume (by omega) (by omega)
      obtain ⟨count, hspends, hrun⟩ :=
        ih (machine.step.1.withCycles (machine.core.totalCycles + BitVec.ofNat 64 machine.step.2))
          (budget.inRange_consume machine.step.2) (by omega)
      rw [hleft] at hspends hrun
      simp only [Spends, withCycles_cost, withCycles_stepped, withCycles_withCycles,
        withCycles_core, Core.withCycles_totalCycles] at hspends hrun
      refine ⟨count + 1, spends_succ hexhausted hspends, ?_⟩
      rw [hrun, stepped, cost, count_add_add, Int.sub_sub]
      rfl

/-- A run uses its budget up. -/
theorem run_spends (machine : Machine) (hbudget : budget.InRange) :
    ∃ count, machine.Spends budget.remaining count ∧
      machine.run budget =
        ((machine.stepped count).withCycles (machine.core.totalCycles + BitVec.ofNat 64 (machine.cost count)),
          ⟨budget.remaining - machine.cost count⟩) :=
  machine.runSteps_spends hbudget (Nat.le_refl _)

/-- A run may be cut at any boundary: what it leaves goes to the rest, with what is added. -/
theorem run_extend (machine : Machine) (hbudget : 0 ≤ budget.remaining) {more : Nat}
    (hmore : budget.remaining + more ≤ Budget.greatest) :
    (machine.run budget).1.run ((machine.run budget).2.extend more) =
      machine.run (budget.extend more) := by
  have hleast : Budget.least ≤ -51 := by decide
  have hrange : budget.InRange := ⟨by omega, by omega⟩
  obtain ⟨first, hfirst, hrunFirst⟩ := machine.run_spends hrange
  have hleft := hfirst.overdraw hbudget
  have hrangeLeft : Budget.InRange ⟨budget.remaining - machine.cost first⟩ :=
    ⟨hleast.trans hleft.1, by dsimp only; omega⟩
  have hrangeRest : Budget.InRange ⟨budget.remaining - machine.cost first + more⟩ :=
    hrangeLeft.extend (by dsimp only; omega)
  obtain ⟨second, hsecond, hrunSecond⟩ := (machine.run budget).1.run_spends hrangeRest
  obtain ⟨whole, hwhole, hrunWhole⟩ := machine.run_spends (hrange.extend hmore)
  rw [hrunFirst] at hsecond hrunSecond ⊢
  simp only [Spends, withCycles_cost, withCycles_stepped, withCycles_withCycles, withCycles_core,
    Core.withCycles_totalCycles] at hsecond hrunSecond
  have hcount : whole = first + second := hwhole.unique (hfirst.add hsecond)
  have hremaining :
      budget.remaining - machine.cost first + more - (machine.stepped first).cost second =
        budget.remaining + more - (machine.cost (first + second) : Nat) := by
    rw [cost_add]
    omega
  simp only [Budget.extend, hremaining] at hrunSecond ⊢ hrunWhole
  rw [hrunSecond, hrunWhole, hcount, stepped_add, cost_add, count_add_add]

/-- A run is the shortest sequence of steps whose costs use up its budget, and the counter of cycles
grows by these costs, wherever it wraps. It overdraws by at most 51 cycles, and may be cut into slices
anywhere. -/
theorem run_shortest (machine : Machine) {budget : Budget} (hbudget : budget.InRange) :
    (∃ count, IsLeast {count | budget.remaining ≤ machine.cost count} count ∧
      (budget.remaining ≤ 0 → count = 0) ∧
      machine.run budget =
        ((machine.stepped count).withCycles (machine.core.totalCycles + BitVec.ofNat 64 (machine.cost count)),
          ⟨budget.remaining - machine.cost count⟩)) ∧
    (((machine.run budget).1.core.totalCycles - machine.core.totalCycles).toNat : Int) =
      budget.remaining - (machine.run budget).2.remaining ∧
    (0 < budget.remaining →
      -51 ≤ (machine.run budget).2.remaining ∧ (machine.run budget).2.remaining ≤ 0) ∧
    ∀ more : Nat, 0 ≤ budget.remaining → budget.remaining + more ≤ Budget.greatest →
      (machine.run budget).1.run ((machine.run budget).2.extend more) =
        machine.run (budget.extend more) := by
  obtain ⟨count, hspends, hrun⟩ := machine.run_spends hbudget
  refine ⟨⟨count, hspends, hspends.eq_zero, hrun⟩, ?_, ?_, ?_⟩
  · -- The budget is a signed count, so the steps cost less than the counter can tell apart.
    have hcost := Spends.cost_le hspends
    have hgreatest := hbudget.2
    simp only [Budget.greatest] at hgreatest
    rw [hrun, withCycles_core, Core.withCycles_totalCycles, count_growth _ (by omega)]
    dsimp only
    omega
  · intro hpositive
    rw [hrun]
    exact hspends.overdraw hpositive.le
  · intro more hsum hmore
    exact machine.run_extend hsum hmore

/-- A machine that is about to store all its registers under translation. -/
def storingAll : Machine :=
  ⟨Core.new.writeScr Scr.ics Ics.translate, Bus.empty.load .program 0 [0xD9, 0x00, 0x01, 0x00]⟩

/-- A store of all registers under translation overdraws a budget of one cycle by 51, the most that
is possible. -/
theorem run_shortest_stm :
    let budget : Budget := ⟨1⟩
    budget.InRange ∧ (storingAll.run budget).2.remaining = -51 ∧
      (∃ count, IsLeast {count | budget.remaining ≤ storingAll.cost count} count ∧
        storingAll.run budget =
          ((storingAll.stepped count).withCycles
              (storingAll.core.totalCycles + BitVec.ofNat 64 (storingAll.cost count)),
            ⟨budget.remaining - storingAll.cost count⟩)) ∧
      (storingAll.run budget).1.run ((storingAll.run budget).2.extend 60) =
        storingAll.run (budget.extend 60) := by
  intro budget
  have hbudget : budget.InRange := by decide
  have hleft : (storingAll.run budget).2.remaining = -51 := by decide +kernel
  obtain ⟨⟨count, hleast, -, hrun⟩, -, -, hsliced⟩ := storingAll.run_shortest hbudget
  exact ⟨hbudget, hleft, ⟨count, hleast, hrun⟩, hsliced 60 (by decide) (by decide)⟩

end Machine

end ProcessorCores.Romp

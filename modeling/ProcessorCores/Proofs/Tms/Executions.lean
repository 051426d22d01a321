import ProcessorCores.Tms.Place
import ProcessorCores.Tms.Run

/-!
# Executions within steps and runs

A step executes one operation, and every pass of the repeat block that this operation may arm. What
lies between the executions is bookkeeping: a service, a fetch, a report, the count of the passes.
So an invariant of the core that the bookkeeping keeps is an invariant of the step as soon as each
execution keeps it. A run adds the clocks that pass between its steps.

`Reached` gathers all that a host can do to a core, short of putting a state in place. It takes a
condition on executions, so that one can speak of the histories in which every execution meets it.
-/

namespace ProcessorCores.Tms

namespace Core

/-- Count one pass of a repeat block. -/
def countPass (core : Core) : Core :=
  { core with firstPass := false, regs := { core.regs with rptc := core.regs.rptc - 1 } }

/-- Leave a repeat block. -/
def endBlock (core : Core) : Core :=
  { core with
    regs := { core.regs with rptc := 0, pfc := core.regs.pc }
    firstPass := true
    flow := .normal }

/-! ## Services, clocks and lines -/

/-- The interrupt mask holds service back. -/
theorem pendingSource?_of_masked {core : Core} (h : core.regs.has .intm = true) :
    core.pendingSource? = none := if_pos (.inl h)

/-- So does EINT, until the next word is fetched. -/
theorem pendingSource?_of_eint {core : Core} (h : core.opcode = eintWord) :
    core.pendingSource? = none := if_pos (.inr h)

/-- A service pushes, jumps, masks and wakes, drops a request, and may exchange a serial word. -/
theorem service_eq (core : Core) :
    ∃ pc stack ifr status drr serialOut idle journal, core.service.1 =
      { core with
        regs := { core.regs with pc := pc, stack := stack, ifr := ifr, status := status }
        ram := { core.ram with drr := drr }
        serialOut := serialOut
        idle := idle
        journal := journal } := by
  unfold service
  split
  · next source _ => cases source <;> exact ⟨_, _, _, _, _, _, _, _, rfl⟩
  · exact ⟨_, _, _, _, _, _, _, _, rfl⟩

/-- What depends on none of that is kept by a service. -/
theorem holds_service {P : Core → Prop} (core : Core)
    (h : ∀ pc stack ifr status drr serialOut idle journal,
      P { core with
        regs := { core.regs with pc := pc, stack := stack, ifr := ifr, status := status }
        ram := { core.ram with drr := drr }
        serialOut := serialOut
        idle := idle
        journal := journal }) : P core.service.1 := by
  obtain ⟨_, _, _, _, _, _, _, _, hserved⟩ := core.service_eq
  rw [hserved]
  exact h ..

/-- Clocks are counted by the timer and in total, and a reload raises a request. -/
theorem countClocks_eq (core : Core) (budget : Budget) (clocks : Nat) :
    ∃ ifr tim timerPhase totalCycles journal, (core.countClocks budget clocks).1 =
      { core with
        regs := { core.regs with ifr := ifr }
        ram := { core.ram with tim := tim }
        timerPhase := timerPhase
        totalCycles := totalCycles
        journal := journal } := by
  unfold countClocks
  dsimp only
  split
  · exact ⟨_, _, _, _, _, rfl⟩
  · split
    · exact ⟨_, _, _, _, _, rfl⟩
    · exact ⟨_, _, _, _, _, rfl⟩

/-- What depends on neither the timer, the total, the requests nor the reports is kept by clocks. -/
theorem holds_countClocks {P : Core → Prop} (core : Core) (budget : Budget) (clocks : Nat)
    (h : ∀ ifr tim timerPhase totalCycles journal,
      P { core with
        regs := { core.regs with ifr := ifr }
        ram := { core.ram with tim := tim }
        timerPhase := timerPhase
        totalCycles := totalCycles
        journal := journal }) : P (core.countClocks budget clocks).1 := by
  obtain ⟨_, _, _, _, _, hcounted⟩ := core.countClocks_eq budget clocks
  rw [hcounted]
  exact h ..

/-- Let the budget pass in at most so many advances of the timer, as long as the core is to. -/
def passFor (waits : Core → Bool) (core : Core) (budget : Budget) : Nat → Core × Budget
  | 0 => (core, budget)
  | count + 1 =>
    if !waits core || budget.isExhausted then (core, budget)
    else
      let (core, budget) := core.advanceTimer budget (clocksLeft budget)
      passFor waits core budget count

/-- A stalled core lets the budget pass whatever happens. -/
theorem stallFor_eq_passFor (core : Core) (budget : Budget) (count : Nat) :
    core.stallFor budget count = passFor (fun _ => true) core budget count := by
  induction count generalizing core budget with
  | zero => rfl
  | succ count ih =>
    rw [stallFor, passFor, Bool.not_true, Bool.false_or]
    split
    · rfl
    · exact ih _ _

/-- An idle core lets it pass as long as it is idle. -/
theorem waitFor_eq_passFor (core : Core) (budget : Budget) (count : Nat) :
    core.waitFor budget count = passFor (·.idle) core budget count := by
  induction count generalizing core budget with
  | zero => rfl
  | succ count ih =>
    rw [waitFor, passFor]
    split
    · rfl
    · exact ih _ _

/-- A line raises a request, at once or when a serial word has waited for it. -/
theorem setInputLine_eq (core : Core) (line : Nat) (asserted : Bool) :
    ∃ ifr waiting journal, core.setInputLine line asserted =
      { core with
        regs := { core.regs with ifr := ifr }
        waitingForFrame := waiting
        journal := journal } := by
  unfold setInputLine
  split
  · split
    · split
      · exact ⟨_, _, _, rfl⟩
      · exact ⟨_, _, _, rfl⟩
    · split
      · exact ⟨_, _, _, rfl⟩
      · exact ⟨_, _, _, rfl⟩
  · exact ⟨_, _, _, rfl⟩

/-- What does not depend on the requests, the wait for a frame or the reports is kept by a line. -/
theorem holds_setInputLine {P : Core → Prop} (core : Core) (line : Nat) (asserted : Bool)
    (h : ∀ ifr waiting journal,
      P { core with
        regs := { core.regs with ifr := ifr }
        waitingForFrame := waiting
        journal := journal }) : P (core.setInputLine line asserted) := by
  obtain ⟨_, _, _, hline⟩ := core.setInputLine_eq line asserted
  rw [hline]
  exact h ..

end Core

namespace Machine

/-! ## Steps -/

/-- The machine once it has served a request, if there is one to serve. -/
def served (machine : Machine) : Machine := { machine with core := machine.core.service.1 }

/-- The machine once a request is served and an instruction word fetched. -/
def ready (machine : Machine) : Machine :=
  ({ machine with core := machine.core.service.1 } : Machine).fetch

/-- The operation of the instruction word fetched last. -/
def op (machine : Machine) : Op := (decode machine.core.opcode).handler

/-- The machine at the first pass of a repeat block. -/
def enterBlock (machine : Machine) : Machine :=
  let machine := machine.fetch
  machine.mapCore fun core => core.report (.repeated core.opcode core.regs.rptc)

/-- The executions of at most so many passes, each as the machine before it and its operation. -/
def passExecutions (machine : Machine) (op : Op) : Nat → List (Machine × Op)
  | 0 => []
  | count + 1 =>
    let next := (machine.pass op).1
    (machine, op) :: if next.core.regs.rptc = 0xFF then [] else next.passExecutions op count

/-- The executions of a repeat block, if one is armed. -/
def blockExecutions (machine : Machine) : List (Machine × Op) :=
  match machine.core.flow with
  | .normal => []
  | .repeatBlock => machine.enterBlock.passExecutions machine.enterBlock.op passLimit

/-- The executions of a step, in their order. -/
def executions (machine : Machine) : List (Machine × Op) :=
  (machine.ready, machine.ready.op) ::
    (machine.ready.execute machine.ready.op).1.blockExecutions

/-- A fetch notes the word and its address, and steps over it, whichever way the word comes. -/
theorem fetch_core (machine : Machine) :
    machine.fetch.core =
      { machine.core with
        regs := { machine.core.regs with pc := machine.core.regs.pc + 1 }
        prevPc := machine.core.regs.pc
        opcode := (machine.readProgram machine.core.regs.pc).1 } := by
  unfold fetch fetchWord readProgram
  dsimp only
  split <;> rfl

/-- A pass is an execution and a count. -/
theorem pass_core (machine : Machine) (op : Op) :
    (machine.pass op).1 = (machine.execute op).1.mapCore Core.countPass := rfl

/-- A repeat block without its clocks: so many passes, and their end. -/
theorem repeatBlock_machine (machine : Machine) :
    machine.repeatBlock.1 =
      (machine.enterBlock.passes machine.enterBlock.op clk passLimit).1.mapCore Core.endBlock := by
  unfold repeatBlock
  rfl

/-- An instruction without its clocks: an execution, and the repeat block if one is armed. -/
theorem executeNext_machine (machine : Machine) :
    machine.executeNext.1 =
      let after := (machine.fetch.execute machine.fetch.op).1
      match after.core.flow with
      | .normal => after
      | .repeatBlock => after.repeatBlock.1 := by
  unfold executeNext
  change Prod.fst (match (machine.fetch.execute machine.fetch.op).1.core.flow with
    | .normal => _
    | .repeatBlock => _) = _
  dsimp only
  split <;> rfl

/-- A machine in normal flow has no block to repeat. -/
theorem blockExecutions_of_normal {machine : Machine} (h : machine.core.flow = .normal) :
    machine.blockExecutions = [] := by
  rw [blockExecutions, h]

/-- A repeat block has a first pass. -/
theorem blockExecutions_of_repeat {machine : Machine} (h : machine.core.flow = .repeatBlock) :
    ∃ rest, machine.blockExecutions = (machine.enterBlock, machine.enterBlock.op) :: rest := by
  obtain ⟨count, hcount⟩ : ∃ count, passLimit = count + 1 := ⟨_, rfl⟩
  rw [blockExecutions, h, hcount, passExecutions]
  exact ⟨_, rfl⟩

/-- A repeat block of one pass is that pass. -/
theorem repeatBlock_of_length {machine : Machine} (h : machine.core.flow = .repeatBlock)
    (hlength : machine.blockExecutions.length ≤ 1) :
    machine.repeatBlock.1 =
      ((machine.enterBlock.execute machine.enterBlock.op).1.mapCore Core.countPass).mapCore
        Core.endBlock := by
  obtain ⟨count, hcount⟩ : ∃ count, passLimit = count + 1 + 1 := ⟨_, rfl⟩
  rw [blockExecutions, h, hcount, passExecutions, List.length_cons] at hlength
  rw [repeatBlock_machine, hcount, passes, ← pass_core]
  split at hlength
  · next hlast =>
    dsimp only
    rw [if_pos hlast]
  · rw [passExecutions] at hlength
    exact absurd hlength (by simp)

/-- An instruction that ends in normal flow is all that the step executes. -/
theorem executeNext_of_normal {machine : Machine}
    (h : (machine.fetch.execute machine.fetch.op).1.core.flow = .normal) :
    machine.executeNext.1 = (machine.fetch.execute machine.fetch.op).1 := by
  rw [executeNext_machine]
  simp only [h]

/-- An instruction that opens a repeat block is followed by the whole block. -/
theorem executeNext_of_repeat {machine : Machine}
    (h : (machine.fetch.execute machine.fetch.op).1.core.flow = .repeatBlock) :
    machine.executeNext.1 = (machine.fetch.execute machine.fetch.op).1.repeatBlock.1 := by
  rw [executeNext_machine]
  simp only [h]

/-- A step without its clocks: the instruction that follows the service. -/
theorem step_served (machine : Machine) : machine.step.1 = machine.served.executeNext.1 := by
  unfold step
  rfl

/-- A step readies the machine, executes one instruction and runs the block it opens, if it opens
one. -/
theorem step_machine (machine : Machine) :
    machine.step.1 =
      let after := (machine.ready.execute machine.ready.op).1
      match after.core.flow with
      | .normal => after
      | .repeatBlock => after.repeatBlock.1 := by
  rw [step_served]
  exact executeNext_machine machine.served

/-- The clocks of a repeat block, if one is armed. -/
def blockClocks (machine : Machine) : Nat :=
  match machine.core.flow with
  | .normal => 0
  | .repeatBlock => machine.repeatBlock.2

/-- The clocks of a step: those of the service, of the instruction, and of the block. -/
theorem step_clocks (machine : Machine) :
    machine.step.2 = machine.core.service.2 +
      ((decode machine.ready.core.opcode).cycles * clk +
        (machine.ready.execute machine.ready.op).2 +
          (machine.ready.execute machine.ready.op).1.blockClocks) := by
  unfold step executeNext blockClocks
  rcases hserved : machine.core.service with ⟨served, clocks⟩
  have hready : machine.ready = ({ machine with core := served } : Machine).fetch := by
    rw [ready, hserved]
  rw [hready, op]
  dsimp only
  cases hflow : (({ machine with core := served } : Machine).fetch.execute (decode
    ({ machine with core := served } : Machine).fetch.core.opcode).handler).1.core.flow with
  | normal => rfl
  | repeatBlock => rfl
end Machine

/-! ## Invariants -/

/-- A property of cores that clocks passing on the timer keep. -/
structure KeptByClocks (P : Core → Prop) : Prop where
  service : ∀ core, P core → P core.service.1
  countClocks : ∀ core budget clocks, P core → P (core.countClocks budget clocks).1

/-- A property of cores that a run keeps between its steps. -/
structure KeptBetweenSteps (P : Core → Prop) : Prop extends KeptByClocks P where
  report : ∀ core event, P core → P (core.report event)
  spend : ∀ core clocks, P core → P { core with totalCycles := core.totalCycles + BitVec.ofNat 64 clocks }
  hold : ∀ core hold, P core → P { core with hold := hold }

/-- A property of cores that everything but the executions keeps. -/
structure Kept (P : Core → Prop) : Prop extends KeptBetweenSteps P where
  fetch : ∀ core word, P core →
    P { core with
        regs := { core.regs with pc := core.regs.pc + 1 }
        prevPc := core.regs.pc
        opcode := word }
  countPass : ∀ core, P core → P core.countPass
  endBlock : ∀ core, P core → P core.endBlock

/-- A property of cores that a step keeps between its executions. -/
structure KeptWithinSteps (P : Core → Prop) : Prop where
  service : ∀ core, P core → P core.service.1
  fetch : ∀ core word, P core →
    P { core with
        regs := { core.regs with pc := core.regs.pc + 1 }
        prevPc := core.regs.pc
        opcode := word }
  repeated : ∀ core opcode count, P core → P (core.report (.repeated opcode count))
  countPass : ∀ core, P core → P core.countPass
  endBlock : ∀ core, P core → P core.endBlock

/-- True for an execution that keeps a property of cores. -/
def Keeps (P : Core → Prop) (execution : Machine × Op) : Prop :=
  P execution.1.core → P (execution.1.execute execution.2).1.core

namespace KeptByClocks

variable {P : Core → Prop}

/-- Ticks of the timer keep the property. -/
theorem advanceTimer (h : KeptByClocks P) {core : Core} (budget : Budget) (clocks : Nat)
    (hcore : P core) : P (core.advanceTimer budget clocks).1 := by
  have hcounted := h.countClocks core budget clocks hcore
  unfold Core.advanceTimer
  rcases hcount : core.countClocks budget clocks with ⟨core', budget', reloaded⟩
  rw [hcount] at hcounted
  cases reloaded with
  | false => exact hcounted
  | true => exact h.countClocks _ _ _ (h.service _ hcounted)

/-- Clocks passed in a wait keep the property. -/
theorem passFor (h : KeptByClocks P) (waits : Core → Bool) (count : Nat) {core : Core}
    (budget : Budget) (hcore : P core) : P (core.passFor waits budget count).1 := by
  induction count generalizing core budget with
  | zero => exact hcore
  | succ count ih =>
    rw [Core.passFor]
    split
    · exact hcore
    · exact ih _ (h.advanceTimer budget _ hcore)

/-- A stall keeps the property. -/
theorem stall (h : KeptByClocks P) {core : Core} (budget : Budget) (hcore : P core) :
    P (core.stall budget).1 := by
  rw [Core.stall, Core.stallFor_eq_passFor]
  exact h.passFor _ _ budget hcore

/-- An idle wait keeps the property. -/
theorem wait (h : KeptByClocks P) {core : Core} (budget : Budget) (hcore : P core) :
    P (core.wait budget).1 := by
  rw [Core.wait, Core.waitFor_eq_passFor]
  exact h.passFor _ _ budget hcore

end KeptByClocks

namespace KeptBetweenSteps

variable {P : Core → Prop}

/-- A core that is stalled lets the budget pass, and one that is not keeps it. -/
theorem stallIf (h : KeptBetweenSteps P) {core : Core} (budget : Budget) (hcore : P core) :
    P (if core.isStalled then core.stall budget else (core, budget)).1 := by
  split
  · exact h.stall budget hcore
  · exact hcore

/-- Sampling the hold pin keeps the property. -/
theorem sampleHold (h : KeptBetweenSteps P) {core : Core} (budget : Budget) (hcore : P core) :
    P (core.sampleHold budget).1 := by
  unfold Core.sampleHold
  split
  · have hnoted : P (if core.hold then core else core.report (.holdAcknowledged core.regs.pc)) := by
      split
      · exact hcore
      · exact h.report _ _ hcore
    exact h.stallIf budget (h.hold _ true hnoted)
  · split
    · exact h.advanceTimer budget 3 (h.hold _ false (h.report _ _ hcore))
    · exact hcore

/-- Waking keeps the property. -/
theorem wake (h : KeptBetweenSteps P) {core : Core} (budget : Budget) (hcore : P core) :
    P (core.wake budget).1 := by
  unfold Core.wake
  split
  · exact h.spend _ _ (h.service core hcore)
  · exact hcore

/-- What happens before the first step of a run is bookkeeping. -/
theorem beginRun (h : KeptBetweenSteps P) {core : Core} (budget : Budget) (hcore : P core) :
    P (core.beginRun budget).1 :=
  h.wait _ (h.wake _ (h.sampleHold budget hcore))

/-- What happens after a step of a run is bookkeeping. -/
theorem settle (h : KeptBetweenSteps P) {core : Core} (budget : Budget) (clocks : Nat) (hcore : P core) :
    P (core.settle budget clocks).1 := by
  have hwaited := h.wait (core.advanceTimer budget clocks).2 (h.advanceTimer budget clocks hcore)
  exact h.stallIf _ hwaited

end KeptBetweenSteps

namespace KeptWithinSteps

variable {P : Core → Prop}

/-- A fetch keeps the property. -/
theorem machine_fetch (h : KeptWithinSteps P) {machine : Machine} (hmachine : P machine.core) :
    P machine.fetch.core := by
  rw [machine.fetch_core]
  exact h.fetch _ _ hmachine

/-- Readying a step keeps the property: it is a service and a fetch. -/
theorem ready (h : KeptWithinSteps P) {machine : Machine} (hmachine : P machine.core) :
    P machine.ready.core :=
  h.machine_fetch (h.service _ hmachine)

/-- Entering a repeat block keeps the property. -/
theorem enterBlock (h : KeptWithinSteps P) {machine : Machine} (hmachine : P machine.core) :
    P machine.enterBlock.core :=
  h.repeated _ _ _ (h.machine_fetch hmachine)

/-- An invariant of the passes of a repeat block. -/
theorem passes (h : KeptWithinSteps P) {op : Op} (count : Nat) {machine : Machine} (clocks : Nat)
    (hmachine : P machine.core) (hexecutions : ∀ e ∈ machine.passExecutions op count, Keeps P e) :
    P (machine.passes op clocks count).1.core := by
  induction count generalizing machine clocks with
  | zero => exact hmachine
  | succ count ih =>
    have hfirst : Keeps P (machine, op) := hexecutions _ (List.mem_cons_self ..)
    have hnext : P (machine.pass op).1.core := h.countPass _ (hfirst hmachine)
    rw [Machine.passes]
    dsimp only
    split
    · exact hnext
    · next hcounter =>
      refine ih _ hnext fun e he => hexecutions e (List.mem_cons_of_mem _ ?_)
      rw [if_neg hcounter]
      exact he

/-- An invariant of the repeat block that an instruction may have armed. -/
theorem block (h : KeptWithinSteps P) {machine : Machine} (hmachine : P machine.core)
    (hexecutions : ∀ e ∈ machine.blockExecutions, Keeps P e) :
    P (match machine.core.flow with
      | .normal => machine
      | .repeatBlock => machine.repeatBlock.1).core := by
  split
  · exact hmachine
  · next hflow =>
    rw [Machine.blockExecutions, hflow] at hexecutions
    rw [Machine.repeatBlock_machine]
    exact h.endBlock _ (h.passes _ clk (h.enterBlock hmachine) hexecutions)

/-- An invariant of a step, as soon as its executions keep it. -/
theorem step (h : KeptWithinSteps P) {machine : Machine} (hmachine : P machine.core)
    (hexecutions : ∀ e ∈ machine.executions, Keeps P e) : P machine.step.1.core := by
  have hready : Keeps P (machine.ready, machine.ready.op) := hexecutions _ (List.mem_cons_self ..)
  rw [Machine.step_machine]
  exact h.block (hready (h.ready hmachine)) fun e he => hexecutions e (List.mem_cons_of_mem _ he)

/-- What holds after one pass holds after the last, as soon as the passes in between keep it. -/
theorem after_pass (h : KeptWithinSteps P) {op : Op} (count : Nat) {machine : Machine} (clocks : Nat)
    {before rest : List (Machine × Op)} {e : Machine × Op}
    (hsplit : machine.passExecutions op count = before ++ e :: rest)
    (he : P (e.1.execute e.2).1.core) (hrest : ∀ e' ∈ rest, Keeps P e') :
    P (machine.passes op clocks count).1.core := by
  induction count generalizing machine clocks before with
  | zero => exact absurd hsplit (by simp [Machine.passExecutions])
  | succ count ih =>
    rw [Machine.passes]
    cases before with
    | nil =>
      obtain ⟨rfl, hlater⟩ := List.cons.inj hsplit
      have hnext : P (machine.pass op).1.core := h.countPass _ he
      dsimp only
      split
      · exact hnext
      · next hcounter =>
        rw [if_neg hcounter] at hlater
        exact h.passes count _ hnext (hlater ▸ hrest)
    | cons first before =>
      obtain ⟨-, hlater⟩ := List.cons.inj hsplit
      dsimp only
      split at hlater
      · exact absurd hlater (by simp)
      · next hcounter =>
        rw [if_neg hcounter]
        exact ih _ hlater

/-- What holds after one execution of a step holds after the step, as soon as the executions that
follow it keep it. -/
theorem after_execution (h : KeptWithinSteps P) {machine : Machine} {before rest : List (Machine × Op)}
    {e : Machine × Op} (hsplit : machine.executions = before ++ e :: rest)
    (he : P (e.1.execute e.2).1.core) (hrest : ∀ e' ∈ rest, Keeps P e') :
    P machine.step.1.core := by
  rw [Machine.step_machine]
  cases before with
  | nil =>
    obtain ⟨rfl, hblock⟩ := List.cons.inj hsplit
    exact h.block he (hblock ▸ hrest)
  | cons first before =>
    obtain ⟨-, hblock⟩ := List.cons.inj hsplit
    unfold Machine.blockExecutions at hblock
    dsimp only
    split at hblock
    · exact absurd hblock (by simp)
    · rw [Machine.repeatBlock_machine]
      exact h.endBlock _ (h.after_pass _ clk hblock he hrest)

/-- An invariant holds before each pass, as soon as the passes before it keep it. -/
theorem before_pass (h : KeptWithinSteps P) {op : Op} (count : Nat) {machine : Machine}
    {before rest : List (Machine × Op)} {e : Machine × Op} (hmachine : P machine.core)
    (hsplit : machine.passExecutions op count = before ++ e :: rest)
    (hbefore : ∀ e' ∈ before, Keeps P e') : P e.1.core := by
  induction count generalizing machine before with
  | zero => exact absurd hsplit (by simp [Machine.passExecutions])
  | succ count ih =>
    cases before with
    | nil =>
      obtain ⟨rfl, -⟩ := List.cons.inj hsplit
      exact hmachine
    | cons first before =>
      obtain ⟨rfl, hrest⟩ := List.cons.inj hsplit
      have hfirst : Keeps P (machine, op) := hbefore _ (List.mem_cons_self ..)
      have hnext : P (machine.pass op).1.core := h.countPass _ (hfirst hmachine)
      split at hrest
      · exact absurd hrest (by simp)
      · exact ih hnext hrest fun e' he' => hbefore e' (List.mem_cons_of_mem _ he')

/-- An invariant holds before each execution of a step, as soon as those before it keep it. -/
theorem before_execution (h : KeptWithinSteps P) {machine : Machine} {before rest : List (Machine × Op)}
    {e : Machine × Op} (hmachine : P machine.core)
    (hsplit : machine.executions = before ++ e :: rest) (hbefore : ∀ e' ∈ before, Keeps P e') :
    P e.1.core := by
  cases before with
  | nil =>
    obtain ⟨rfl, -⟩ := List.cons.inj hsplit
    exact h.ready hmachine
  | cons first before =>
    obtain ⟨rfl, hrest⟩ := List.cons.inj hsplit
    have hready : Keeps P (machine.ready, machine.ready.op) := hbefore _ (List.mem_cons_self ..)
    have hafter := hready (h.ready hmachine)
    unfold Machine.blockExecutions at hrest
    split at hrest
    · exact absurd hrest (by simp)
    · exact h.before_pass _ (h.enterBlock hafter) hrest fun e' he' =>
        hbefore e' (List.mem_cons_of_mem _ he')

/-- An invariant holds before every execution of a step, when all of them keep it. -/
theorem before_executions (h : KeptWithinSteps P) {machine : Machine} (hmachine : P machine.core)
    (hexecutions : ∀ e ∈ machine.executions, Keeps P e) :
    ∀ e ∈ machine.executions, P e.1.core := by
  intro e he
  obtain ⟨before, rest, hsplit⟩ := List.append_of_mem he
  refine h.before_execution hmachine hsplit fun earlier hearlier => hexecutions earlier ?_
  rw [hsplit]
  exact List.mem_append_left _ hearlier

end KeptWithinSteps

namespace Kept

variable {P : Core → Prop}

/-- A property that everything keeps is kept within steps. -/
theorem withinSteps (h : Kept P) : KeptWithinSteps P where
  service := h.service
  fetch := h.fetch
  repeated core opcode count := h.report core (.repeated opcode count)
  countPass := h.countPass
  endBlock := h.endBlock

/-- An invariant of the bookkeeping is one of a step, as soon as its executions keep it. -/
theorem step (h : Kept P) {machine : Machine} (hmachine : P machine.core)
    (hexecutions : ∀ e ∈ machine.executions, Keeps P e) : P machine.step.1.core :=
  h.withinSteps.step hmachine hexecutions

/-- It holds before each execution of a step, as soon as those before it keep it. -/
theorem before_execution (h : Kept P) {machine : Machine} {before rest : List (Machine × Op)}
    {e : Machine × Op} (hmachine : P machine.core)
    (hsplit : machine.executions = before ++ e :: rest) (hbefore : ∀ e' ∈ before, Keeps P e') :
    P e.1.core :=
  h.withinSteps.before_execution hmachine hsplit hbefore

end Kept

/-! ## Histories -/

namespace Machine

/-- What happens before the first step of a run. -/
def beginRun (machine : Machine) (budget : Budget) : Machine × Budget :=
  let begun := machine.core.beginRun budget
  ({ machine with core := begun.1 }, begun.2)

/-- One turn of a run: a step, and the clocks that it takes. -/
def turn (machine : Machine) (budget : Budget) : Machine × Budget :=
  let stepped := machine.step
  let settled := stepped.1.core.settle budget stepped.2
  ({ stepped.1 with core := settled.1 }, settled.2)

/-- The core at the start of a run is the one that core and budget determine. -/
theorem beginRun_core (machine : Machine) (budget : Budget) :
    (machine.beginRun budget).1.core = (machine.core.beginRun budget).1 := by
  rw [beginRun]

/-- The budget at the start of a run is the one that core and budget determine. -/
theorem beginRun_budget (machine : Machine) (budget : Budget) :
    (machine.beginRun budget).2 = (machine.core.beginRun budget).2 := by
  rw [beginRun]

/-- The core after a turn is the stepped core, settled. -/
theorem turn_core (machine : Machine) (budget : Budget) :
    (machine.turn budget).1.core = (machine.step.1.core.settle budget machine.step.2).1 := by
  rw [turn]

/-- The budget after a turn is what settling the step leaves. -/
theorem turn_budget (machine : Machine) (budget : Budget) :
    (machine.turn budget).2 = (machine.step.1.core.settle budget machine.step.2).2 := by
  rw [turn]

/-- A run is what happens before its first step, and so many steps. -/
theorem run_eq_runSteps (machine : Machine) (budget : Budget) :
    machine.run budget =
      (machine.beginRun budget).1.runSteps (machine.beginRun budget).2
        (stepLimit (machine.beginRun budget).2) := by
  rw [run, beginRun]

/-- A run with clocks left makes a turn. -/
theorem runSteps_succ {machine : Machine} {budget : Budget} (hbudget : budget.isExhausted = false)
    (count : Nat) :
    machine.runSteps budget (count + 1) =
      (machine.turn budget).1.runSteps (machine.turn budget).2 count := by
  rw [runSteps, hbudget, turn, if_neg Bool.false_ne_true]

end Machine

/-- The boundaries of a run whose executions all meet a condition: those before its first step and
after each of its turns, where the budget is exhausted at the last of them only. -/
inductive Boundary (fair : Machine × Op → Prop) (machine : Machine) (budget : Budget) :
    Machine → Budget → Prop
  | start : Boundary fair machine budget (machine.beginRun budget).1 (machine.beginRun budget).2
  | turn {other : Machine} {left : Budget} : Boundary fair machine budget other left →
    left.isExhausted = false → (∀ e ∈ other.executions, fair e) →
      Boundary fair machine budget (other.turn left).1 (other.turn left).2

/-- What a host can reach from power-on or from a reset while every execution meets a condition. The
host may reset the core, drive its lines and pins, exchange serial words, patch places of the core
and replace all that is on the bus. -/
inductive Reached (model : Model) (fair : Machine × Op → Prop) : Machine → Prop
  | new (bus : Bus) : Reached model fair ⟨.new model, bus⟩
  | reset {core : Core} (bus : Bus) : core.model = model → core.ram.fits model = true →
    Reached model fair ⟨core.reset, bus⟩
  | step {machine : Machine} : Reached model fair machine → (∀ e ∈ machine.executions, fair e) →
    Reached model fair machine.step.1
  | run {machine other : Machine} {budget left : Budget} : Reached model fair machine →
    Boundary fair machine budget other left → Reached model fair other
  | resetAgain {machine : Machine} : Reached model fair machine →
    Reached model fair (machine.mapCore (·.reset))
  | line {machine : Machine} (line : Nat) (asserted : Bool) : Reached model fair machine →
    Reached model fair (machine.mapCore (·.setInputLine line asserted))
  | bio {machine : Machine} (asserted : Bool) : Reached model fair machine →
    Reached model fair (machine.mapCore (·.setBio asserted))
  | hold {machine : Machine} (asserted : Bool) : Reached model fair machine →
    Reached model fair (machine.mapCore (·.setHold asserted))
  | serialInput {machine : Machine} (word : Half) : Reached model fair machine →
    Reached model fair (machine.mapCore (·.setSerialInput word))
  | serialOutput {machine : Machine} : Reached model fair machine →
    Reached model fair (machine.mapCore (·.takeSerialOutput.2))
  | poke {machine : Machine} (path : String) (value : Value) : Reached model fair machine →
    Reached model fair (machine.mapCore fun core => (core.poke path value).state)
  | bus {machine : Machine} (bus : Bus) : Reached model fair machine →
    Reached model fair { machine with bus := bus }

/-- A property of cores that a host keeps. -/
structure KeptByHost (P : Core → Prop) : Prop where
  reset : ∀ core, P core → P core.reset
  line : ∀ core line asserted, P core → P (core.setInputLine line asserted)
  bio : ∀ core asserted, P core → P (core.setBio asserted)
  hold : ∀ core asserted, P core → P (core.setHold asserted)
  serialInput : ∀ core word, P core → P (core.setSerialInput word)
  serialOutput : ∀ core, P core → P core.takeSerialOutput.2
  poke : ∀ core path value, P core → P (core.poke path value).state

variable {P : Core → Prop} {fair : Machine × Op → Prop}

/-- A property of cores that a step keeps as soon as its executions meet a condition. -/
def KeptBySteps (P : Core → Prop) (fair : Machine × Op → Prop) : Prop :=
  ∀ {machine : Machine}, P machine.core → (∀ e ∈ machine.executions, fair e) →
    P machine.step.1.core

/-- It is one that everything but the executions keeps, if the executions keep it as well. -/
theorem Kept.keptBySteps (h : Kept P) (hfair : ∀ e, fair e → Keeps P e) : KeptBySteps P fair :=
  fun hmachine hexecutions => h.step hmachine fun e he => hfair e (hexecutions e he)

/-- A property that a run keeps between its steps, and that each step keeps, holds at every boundary
of a run. -/
theorem Boundary.holds (hkept : KeptBetweenSteps P) (hstep : KeptBySteps P fair)
    {machine other : Machine} {budget left : Budget} (hmachine : P machine.core)
    (h : Boundary fair machine budget other left) : P other.core := by
  induction h with
  | start =>
    rw [Machine.beginRun_core]
    exact hkept.beginRun budget hmachine
  | turn _ _ hexecutions ih =>
    rw [Machine.turn_core]
    exact hkept.settle _ _ (hstep ih hexecutions)

/-- It holds of all that a host can reach, if the host keeps it as well. -/
theorem Reached.holds {model : Model} (hkept : KeptBetweenSteps P) (hhost : KeptByHost P)
    (hstep : KeptBySteps P fair) (hnew : P (.new model))
    (hreset : ∀ core : Core, core.model = model → core.ram.fits model = true → P core.reset)
    {machine : Machine} (h : Reached model fair machine) : P machine.core := by
  induction h with
  | new bus => exact hnew
  | reset bus hmodel hfits => exact hreset _ hmodel hfits
  | step _ hexecutions ih => exact hstep ih hexecutions
  | run _ hboundary ih => exact hboundary.holds hkept hstep ih
  | resetAgain _ ih => exact hhost.reset _ ih
  | line line asserted _ ih => exact hhost.line _ line asserted ih
  | bio asserted _ ih => exact hhost.bio _ asserted ih
  | hold asserted _ ih => exact hhost.hold _ asserted ih
  | serialInput word _ ih => exact hhost.serialInput _ word ih
  | serialOutput _ ih => exact hhost.serialOutput _ ih
  | poke path value _ ih => exact hhost.poke _ path value ih
  | bus bus _ ih => exact ih

/-- An invariant of the bookkeeping holds at every boundary of a run. -/
theorem Boundary.invariant (hkept : Kept P) (hstep : KeptBySteps P fair)
    {machine other : Machine} {budget left : Budget} (hmachine : P machine.core)
    (h : Boundary fair machine budget other left) : P other.core :=
  h.holds hkept.toKeptBetweenSteps hstep hmachine

/-- An invariant of the bookkeeping holds of all that a host can reach. -/
theorem Reached.invariant {model : Model} (hkept : Kept P) (hhost : KeptByHost P)
    (hstep : KeptBySteps P fair) (hnew : P (.new model))
    (hreset : ∀ core : Core, core.model = model → core.ram.fits model = true → P core.reset)
    {machine : Machine} (h : Reached model fair machine) : P machine.core :=
  h.holds hkept.toKeptBetweenSteps hhost hstep hnew hreset

end ProcessorCores.Tms

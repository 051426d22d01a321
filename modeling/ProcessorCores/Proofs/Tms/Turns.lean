import ProcessorCores.Proofs.Tms.Clocks
import ProcessorCores.Proofs.Tms.Frames
import ProcessorCores.Proofs.Tms.Patches

/-!
# Runs of the TMS3202x, turn by turn

A run is a number of turns, and the boundaries of a run are what these turns come to. Between steps a
core is steady: it is not about to repeat anything, and its timer phase is below a machine cycle.
From this it follows that every loop within a turn ends by itself, and not at the bound on its
passes: a core that waits wakes or uses the budget up, one that is stalled uses it up, and a repeat
block counts its counter down.
-/

namespace ProcessorCores.Tms

namespace Machine

/-! ## Turns -/

/-- So many turns, or fewer if they exhaust the budget. -/
def turns (machine : Machine) (budget : Budget) : Nat → Machine × Budget
  | 0 => (machine, budget)
  | count + 1 =>
    if budget.isExhausted then (machine, budget)
    else (machine.turn budget).1.turns (machine.turn budget).2 count

/-- Once the budget is exhausted, no turn is taken. -/
theorem turns_of_exhausted (machine : Machine) {budget : Budget} (hbudget : budget.isExhausted = true)
    (count : Nat) : machine.turns budget count = (machine, budget) := by
  cases count with
  | zero => rfl
  | succ count => exact if_pos hbudget

/-- While the budget lasts, the first of several turns is taken, and then the others. -/
theorem turns_succ (machine : Machine) {budget : Budget} (hbudget : budget.isExhausted = false)
    (count : Nat) :
    machine.turns budget (count + 1) =
      (machine.turn budget).1.turns (machine.turn budget).2 count := by
  rw [turns, hbudget]
  rfl

/-- Turns one after another. -/
theorem turns_add (machine : Machine) (budget : Budget) (first second : Nat) :
    machine.turns budget (first + second) =
      (machine.turns budget first).1.turns (machine.turns budget first).2 second := by
  induction first generalizing machine budget with
  | zero => rw [Nat.zero_add, turns]
  | succ first ih =>
    cases hbudget : budget.isExhausted with
    | true => rw [turns_of_exhausted _ hbudget, turns_of_exhausted _ hbudget,
        turns_of_exhausted _ hbudget]
    | false => rw [Nat.succ_add, turns_succ _ hbudget, turns_succ _ hbudget, ih]

/-- One more turn after so many. -/
theorem turns_succ_last (machine : Machine) (budget : Budget) (count : Nat) :
    machine.turns budget (count + 1) =
      if (machine.turns budget count).2.isExhausted then machine.turns budget count
      else (machine.turns budget count).1.turn (machine.turns budget count).2 := by
  rw [turns_add]
  rfl

/-- Once they exhaust the budget, more turns are the same. -/
theorem turns_of_turns_exhausted {machine : Machine} {budget : Budget} {count more : Nat}
    (hexhausted : (machine.turns budget count).2.isExhausted = true) (hmore : count ≤ more) :
    machine.turns budget more = machine.turns budget count := by
  obtain ⟨rest, rfl⟩ := Nat.exists_eq_add_of_le hmore
  rw [turns_add, turns_of_exhausted _ hexhausted]

/-- An exhausted budget stays so. -/
theorem turns_exhausted_mono {machine : Machine} {budget : Budget} {count more : Nat}
    (hexhausted : (machine.turns budget count).2.isExhausted = true) (hmore : count ≤ more) :
    (machine.turns budget more).2.isExhausted = true := by
  rw [turns_of_turns_exhausted hexhausted hmore]
  exact hexhausted

/-- What turns come to, the fewest of them come to before which no budget was exhausted. -/
theorem turns_first (machine : Machine) (budget : Budget) (count : Nat) :
    ∃ first, (∀ earlier < first, (machine.turns budget earlier).2.isExhausted = false) ∧
      machine.turns budget first = machine.turns budget count := by
  induction count with
  | zero => exact ⟨0, fun _ hearlier => absurd hearlier (Nat.not_lt_zero _), rfl⟩
  | succ count ih =>
    cases hcount : (machine.turns budget count).2.isExhausted with
    | true =>
      obtain ⟨first, hbefore, hfirst⟩ := ih
      exact ⟨first, hbefore, hfirst.trans (turns_of_turns_exhausted hcount (Nat.le_succ _)).symm⟩
    | false =>
      refine ⟨count + 1, fun earlier hearlier => ?_, rfl⟩
      rw [Bool.eq_false_iff] at hcount ⊢
      exact fun hexhausted => hcount (turns_exhausted_mono hexhausted (Nat.le_of_lt_succ hearlier))

/-- The steps of a run are turns, and have a result as soon as these exhaust the budget. -/
theorem runSteps_eq_turns (machine : Machine) (budget : Budget) (count : Nat) :
    machine.runSteps budget count =
      if (machine.turns budget count).2.isExhausted then some (machine.turns budget count)
      else none := by
  induction count generalizing machine budget with
  | zero => rfl
  | succ count ih =>
    cases hbudget : budget.isExhausted with
    | true => rw [turns_of_exhausted _ hbudget, runSteps, if_pos hbudget, if_pos hbudget]
    | false => rw [turns_succ _ hbudget, runSteps_succ hbudget, ih]

/-- A run that returns is cut off after some number of turns, once the budget is exhausted. -/
theorem turns_of_run {machine other : Machine} {budget left : Budget}
    (h : machine.run budget = some (other, left)) :
    (∃ count,
      (machine.beginRun budget).1.turns (machine.beginRun budget).2 count = (other, left)) ∧
      left.isExhausted = true := by
  rw [run_eq_runSteps, runSteps_eq_turns] at h
  split at h
  · next hexhausted =>
    have hlast := Option.some.inj h
    rw [hlast] at hexhausted
    exact ⟨⟨_, hlast⟩, hexhausted⟩
  · contradiction

end Machine

/-- The turns of a run come to boundaries. -/
theorem boundary_turns (machine : Machine) (budget : Budget) (count : Nat) :
    Boundary (fun _ => True) machine budget
      ((machine.beginRun budget).1.turns (machine.beginRun budget).2 count).1
      ((machine.beginRun budget).1.turns (machine.beginRun budget).2 count).2 := by
  induction count with
  | zero => exact .start
  | succ count ih =>
    rw [Machine.turns_succ_last]
    split
    · exact ih
    · next hleft => exact .turn ih (Bool.eq_false_iff.mpr hleft) fun _ _ => trivial

/-- Every boundary of a run is one that its turns come to. -/
theorem Boundary.eq_turns {machine other : Machine} {budget left : Budget}
    (h : Boundary (fun _ => True) machine budget other left) :
    ∃ count, (machine.beginRun budget).1.turns (machine.beginRun budget).2 count =
      (other, left) := by
  induction h with
  | start => exact ⟨0, rfl⟩
  | turn _ hleft _ ih =>
    obtain ⟨count, hcount⟩ := ih
    refine ⟨count + 1, ?_⟩
    rw [Machine.turns_succ_last, hcount, if_neg (Bool.eq_false_iff.mp hleft)]

/-- A run that returns ends at a boundary. -/
theorem boundary_of_run {machine other : Machine} {budget left : Budget}
    (h : machine.run budget = some (other, left)) :
    Boundary (fun _ => True) machine budget other left := by
  obtain ⟨⟨count, hcount⟩, -⟩ := Machine.turns_of_run h
  have hboundary := boundary_turns machine budget count
  rw [hcount] at hboundary
  exact hboundary

/-- When the executions of all turns meet a condition, those before a boundary do. -/
theorem Boundary.restrict {fair : Machine × Op → Prop} {machine other : Machine}
    {budget left : Budget} (h : Boundary (fun _ => True) machine budget other left)
    (hfair : ∀ reached rest, Boundary (fun _ => True) machine budget reached rest →
      rest.isExhausted = false → ∀ e ∈ reached.executions, fair e) :
    Boundary fair machine budget other left := by
  induction h with
  | start => exact .start
  | turn hbefore hleft _ ih => exact .turn ih hleft (hfair _ _ hbefore hleft)

/-! ## Steady cores -/

namespace Core

/-- What holds between the steps of every core that a host can reach. -/
structure Steady (core : Core) : Prop where
  flow : core.flow = .normal
  timerPhase : core.timerPhase < clk

/-- A service leaves the flow. -/
theorem service_flow (core : Core) : core.service.1.flow = core.flow := by
  obtain ⟨_, _, _, _, _, _, _, _, hserved⟩ := core.service_eq
  rw [hserved]

/-- Counted clocks leave the flow. -/
theorem countClocks_flow (core : Core) (budget : Budget) (clocks : Nat) :
    (core.countClocks budget clocks).1.flow = core.flow := by
  obtain ⟨_, _, _, _, _, hcounted⟩ := core.countClocks_eq budget clocks
  rw [hcounted]

/-- Everything but the executions leaves a core steady. -/
theorem kept_steady : Kept Steady where
  service core h := ⟨core.service_flow.trans h.flow, kept_timerPhase.service _ h.timerPhase⟩
  countClocks core budget clocks h :=
    ⟨(core.countClocks_flow budget clocks).trans h.flow, countClocks_timerPhase h.timerPhase⟩
  fetch _ _ h := ⟨h.flow, h.timerPhase⟩
  report _ _ h := ⟨h.flow, h.timerPhase⟩
  countPass _ h := ⟨h.flow, h.timerPhase⟩
  endBlock _ h := ⟨rfl, h.timerPhase⟩
  spend _ _ h := ⟨h.flow, h.timerPhase⟩
  hold _ _ h := ⟨h.flow, h.timerPhase⟩

/-- A core at power on is steady. -/
theorem steady_new (model : Model) : (new model).Steady := ⟨rfl, Nat.zero_lt_succ _⟩

/-- A core after a reset is steady. -/
theorem steady_reset (core : Core) : core.reset.Steady := ⟨rfl, Nat.zero_lt_succ _⟩

/-- So does the host. -/
theorem keptByHost_steady : KeptByHost Steady where
  reset core _ := core.steady_reset
  line core line asserted h := core.holds_setInputLine line asserted fun _ _ _ => ⟨h.flow, h.timerPhase⟩
  bio _ _ h := ⟨h.flow, h.timerPhase⟩
  hold _ _ h := ⟨h.flow, h.timerPhase⟩
  serialInput _ _ h := ⟨h.flow, h.timerPhase⟩
  serialOutput _ h := ⟨h.flow, h.timerPhase⟩
  poke core path value h :=
    core.holds_poke path value (fun _ _ => ⟨h.flow, h.timerPhase⟩) fun _ _ => ⟨h.flow, h.timerPhase⟩

end Core

/-- A step ends steady whatever it begins with: a repeat block is over by then. -/
theorem Machine.steady_of_step {machine : Machine} (hphase : machine.core.timerPhase < clk) :
    machine.step.1.core.Steady where
  flow := by
    rw [step_machine]
    dsimp only
    split
    · next hflow => exact hflow
    · rfl
  timerPhase := Core.kept_timerPhase.step hphase fun e _ hphase => by
    change (e.1.execute e.2).1.core.timerPhase < clk
    rw [e.1.execute_timerPhase e.2]
    exact hphase

/-- A step leaves a steady core steady. -/
theorem Machine.steady_step {machine : Machine} (h : machine.core.Steady) :
    machine.step.1.core.Steady :=
  steady_of_step h.timerPhase

/-- Steps keep the phase of the timer below its period. -/
theorem keptBySteps_timerPhase (fair : Machine × Op → Prop) :
    KeptBySteps (fun core => core.timerPhase < clk) fair :=
  fun h _ => (Machine.steady_of_step h).timerPhase

/-- Steps keep a core steady. -/
theorem keptBySteps_steady (fair : Machine × Op → Prop) : KeptBySteps Core.Steady fair :=
  fun h _ => Machine.steady_step h

/-- Whatever a host can reach is steady. -/
theorem Reached.steady {model : Model} {fair : Machine × Op → Prop} {machine : Machine}
    (h : Reached model fair machine) : machine.core.Steady :=
  h.invariant Core.kept_steady Core.keptByHost_steady (keptBySteps_steady fair)
    (Core.steady_new model) fun core _ _ => core.steady_reset

/-- The start of a run leaves a steady core steady. -/
theorem Machine.steady_beginRun {machine : Machine} (h : machine.core.Steady) (budget : Budget) :
    (machine.beginRun budget).1.core.Steady := by
  rw [beginRun_core]
  exact Core.kept_steady.beginRun budget h

/-- So is a core after a turn. -/
theorem Machine.steady_of_turn {machine : Machine} (hphase : machine.core.timerPhase < clk)
    (budget : Budget) : (machine.turn budget).1.core.Steady := by
  rw [turn_core]
  exact Core.kept_steady.settle _ _ (steady_of_step hphase)

/-- A turn leaves a steady core steady. -/
theorem Machine.steady_turn {machine : Machine} (h : machine.core.Steady) (budget : Budget) :
    (machine.turn budget).1.core.Steady :=
  steady_of_turn h.timerPhase budget

/-- Turns leave a steady core steady. -/
theorem Machine.steady_turns {machine : Machine} (h : machine.core.Steady) (budget : Budget)
    (count : Nat) : (machine.turns budget count).1.core.Steady := by
  induction count generalizing machine budget with
  | zero => exact h
  | succ count ih =>
    rw [turns]
    split
    · exact h
    · exact ih (steady_turn h budget) _

/-! ## Loops within a turn -/

namespace Core

variable {core : Core} {budget : Budget}

/-- Clocks on the timer do not stall a core, and do not release it. -/
theorem keptByClocks_isStalled (stalled : Bool) :
    KeptByClocks fun core => core.isStalled = stalled where
  service core h := by
    rw [← h]
    unfold service
    split
    · next source _ => cases source <;> rfl
    · rfl
  countClocks core budget clocks h := by
    obtain ⟨_, _, _, _, _, hcounted⟩ := core.countClocks_eq budget clocks
    rw [← h, hcounted]
    rfl

/-- The core is awake and not stalled, unless the budget is exhausted. -/
def Runs (core : Core) (budget : Budget) : Prop :=
  budget.isExhausted = true ∨ core.idle = false ∧ core.isStalled = false

/-- A wait gives nothing back to a budget that is exhausted. -/
theorem isExhausted_wait (hbudget : budget.isExhausted = true) :
    (core.wait budget).2.isExhausted = true := by
  rw [Budget.isExhausted_iff_toNat] at hbudget ⊢
  have hless := core.wait_le budget
  exact Nat.le_zero.mp (hbudget ▸ hless)

/-- A core that is stalled uses the budget up, and one that is not runs on. -/
theorem stallIf_ends (h : core.timerPhase < clk) :
    (if core.isStalled then core.stall budget else (core, budget)).2.isExhausted = true ∨
      (if core.isStalled then core.stall budget else (core, budget)).1.isStalled = false := by
  split
  · exact .inl (stall_exhausts h)
  · next hrunning =>
    rw [Bool.not_eq_true] at hrunning
    exact .inr hrunning

/-- After a turn the core runs on. -/
theorem runs_settle (h : core.timerPhase < clk) (clocks : Nat) :
    (core.settle budget clocks).1.Runs (core.settle budget clocks).2 := by
  have hadvanced := kept_timerPhase.advanceTimer budget clocks h
  have hwaited := kept_timerPhase.wait (core.advanceTimer budget clocks).2 hadvanced
  unfold settle
  dsimp only
  rcases wait_ends hadvanced with hawake | hexhausted
  · split
    · exact .inl (stall_exhausts hwaited)
    · next hrunning =>
      rw [Bool.not_eq_true] at hrunning
      exact .inr ⟨hawake, hrunning⟩
  · split
    · exact .inl (stall_exhausts hwaited)
    · exact .inl hexhausted

/-- A hold sampled at the start of a run stalls no core that has a budget left. -/
theorem sampleHold_ends (h : core.timerPhase < clk) :
    (core.sampleHold budget).2.isExhausted = true ∨
      (core.sampleHold budget).1.isStalled = false := by
  unfold sampleHold
  split
  · have hnoted : (if core.hold then core
        else core.report (.holdAcknowledged core.regs.pc)).timerPhase < clk := by
      split
      · exact h
      · exact h
    exact stallIf_ends hnoted
  · split
    · exact .inr ((keptByClocks_isStalled false).advanceTimer budget 3 rfl)
    · next hheld =>
      rw [Bool.not_eq_true] at hheld
      right
      rw [isStalled, hheld]
      rfl

/-- A request that wakes the core debits nothing from an exhausted budget, and stalls no core. -/
theorem wake_ends (h : budget.isExhausted = true ∨ core.isStalled = false) :
    (core.wake budget).2.isExhausted = true ∨ (core.wake budget).1.isStalled = false := by
  unfold wake
  split
  · next hasleep =>
    rw [Bool.and_eq_true, Bool.not_eq_true'] at hasleep
    rcases h with hexhausted | hrunning
    · rw [hexhausted] at hasleep
      exact absurd hasleep.2 (by decide)
    · exact .inr ((keptByClocks_isStalled false).service _ hrunning)
  · exact h

/-- Before the first step of a run the core runs. -/
theorem runs_beginRun (h : core.timerPhase < clk) :
    (core.beginRun budget).1.Runs (core.beginRun budget).2 := by
  have hsampled := kept_timerPhase.sampleHold budget h
  have hwoken := kept_timerPhase.wake (core.sampleHold budget).2 hsampled
  have hsampleEnds : (core.sampleHold budget).2.isExhausted = true ∨
      (core.sampleHold budget).1.isStalled = false := sampleHold_ends h
  have hends := wake_ends hsampleEnds
  unfold beginRun
  dsimp only
  rcases wait_ends hwoken with hawake | hexhausted
  · rcases hends with hexhausted | hrunning
    · exact .inl (isExhausted_wait hexhausted)
    · exact .inr ⟨hawake, (keptByClocks_isStalled false).wait _ hrunning⟩
  · exact .inl hexhausted

end Core

namespace Machine

/-- Before the first turn of a run the core runs. -/
theorem runs_beginRun {machine : Machine} (hsteady : machine.core.Steady) (budget : Budget) :
    (machine.beginRun budget).1.core.Runs (machine.beginRun budget).2 := by
  rw [beginRun_core, beginRun_budget]
  exact Core.runs_beginRun hsteady.timerPhase

/-- After a turn the core runs on. -/
theorem runs_of_turn {machine : Machine} (hphase : machine.core.timerPhase < clk) (left : Budget) :
    (machine.turn left).1.core.Runs (machine.turn left).2 := by
  rw [turn_core, turn_budget]
  exact Core.runs_settle (steady_of_step hphase).timerPhase _

/-- A turn leaves a core that runs or a budget that is exhausted. -/
theorem runs_turn {machine : Machine} (hsteady : machine.core.Steady) (left : Budget) :
    (machine.turn left).1.core.Runs (machine.turn left).2 :=
  runs_of_turn hsteady.timerPhase left

/-- Turns leave a core that runs or a budget that is exhausted. -/
theorem runs_turns {machine : Machine} {left : Budget} (hsteady : machine.core.Steady)
    (hruns : machine.core.Runs left) (count : Nat) :
    (machine.turns left count).1.core.Runs (machine.turns left count).2 := by
  induction count generalizing machine left with
  | zero => exact hruns
  | succ count ih =>
    rw [turns]
    split
    · exact hruns
    · exact ih (steady_turn hsteady left) (runs_turn hsteady left)

/-- The passes of an operation that leaves the repeat counter alone end with the counter below
zero. -/
theorem passes_end {op : Op} (hrpt : op ≠ .rpt) (hrptk : op ≠ .rptk) (count : Nat)
    {machine : Machine} (clocks : Nat) (hcount : machine.core.regs.rptc.toNat < count) :
    (machine.passes op clocks count).1.core.regs.rptc = 0xFF := by
  induction count generalizing machine clocks with
  | zero => exact absurd hcount (Nat.not_lt_zero _)
  | succ count ih =>
    have hcounted : (machine.pass op).1.core.regs.rptc = machine.core.regs.rptc - 1 := by
      have hkept := (machine.execute_timing hrpt hrptk).2.1
      rw [pass_core]
      exact congrArg (· - 1) hkept
    rw [passes]
    dsimp only
    split
    · next hbelow => exact hbelow
    · next hleft =>
      rw [hcounted] at hleft
      apply ih
      rw [hcounted]
      bv_omega

/-- No byte reaches the limit on passes. -/
theorem rptc_lt_passLimit (machine : Machine) : machine.core.regs.rptc.toNat < passLimit := by
  have hbyte := machine.core.regs.rptc.isLt
  unfold passLimit
  omega

/-- The repeat block of a step, if it comes to one, ends with its counter below zero, and not at the
bound on its passes. -/
def BlockEnds (machine : Machine) : Prop :=
  let armed := (machine.ready.execute machine.ready.op).1
  armed.core.flow = .repeatBlock →
    (armed.enterBlock.passes armed.enterBlock.op clk passLimit).1.core.regs.rptc = 0xFF

/-- So it is when the block does not arm the counter anew. -/
theorem blockEnds {machine : Machine}
    (h : ∀ e ∈ machine.executions.tail, e.2 ≠ .rpt ∧ e.2 ≠ .rptk) : machine.BlockEnds := by
  intro hflow
  let armed := (machine.ready.execute machine.ready.op).1
  have hfirst : (armed.enterBlock, armed.enterBlock.op) ∈ machine.executions.tail := by
    change _ ∈ armed.blockExecutions
    rw [blockExecutions, hflow]
    exact List.mem_cons_self ..
  obtain ⟨hrpt, hrptk⟩ := h _ hfirst
  exact passes_end hrpt hrptk _ _ armed.enterBlock.rptc_lt_passLimit

end Machine

end ProcessorCores.Tms

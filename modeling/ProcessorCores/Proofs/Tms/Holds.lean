import ProcessorCores.Proofs.Tms.Clockwork
import ProcessorCores.Proofs.Tms.Courses

/-!
# Holds of the TMS3202x

A run samples the hold input once, at its start, and the acknowledge output follows it. A held core is
stalled where its last operand was off chip, or where it is in hold mode: nothing is executed, and the
budget passes. Clocks that pass are counted by the timer, so the one thing that can happen to a
stalled core is that a reload brings a request which it serves; the service masks any other.

A core that is not stalled goes on until a step leaves it so. The test stands between the steps, and a
step is an instruction together with the repeat block that it arms.
-/

namespace ProcessorCores.Tms

namespace Core

/-- What happens between steps leaves the workings of the core. -/
theorem keptBetweenSteps_workings (workings : Workings) :
    KeptBetweenSteps fun core => core.workings = workings where
  service core h :=
    core.holds_service (P := fun core => core.workings = workings) fun _ _ _ _ _ _ _ _ => h
  countClocks core budget clocks h :=
    core.holds_countClocks (P := fun core => core.workings = workings) budget clocks fun _ _ _ _ _ => h
  report _ _ h := h
  spend _ _ h := h
  hold _ _ h := h

/-! ## The acknowledge output -/

/-- The hold input and its acknowledge. -/
def HoldPins (hold line : Bool) (core : Core) : Prop := core.hold = hold ∧ core.holdLine = line

/-- Clocks leave both. -/
theorem keptByClocks_holdPins (hold line : Bool) : KeptByClocks (HoldPins hold line) where
  service core h := core.holds_service fun _ _ _ _ _ _ _ _ => h
  countClocks core budget clocks h :=
    core.holds_countClocks budget clocks fun _ _ _ _ _ => h

variable {core : Core} {budget : Budget} {hold line : Bool}

/-- A stall leaves both pins. -/
theorem HoldPins.stallIf (h : core.HoldPins hold line) (budget : Budget) :
    (if core.isStalled then core.stall budget else (core, budget)).1.HoldPins hold line := by
  split
  · exact (keptByClocks_holdPins hold line).stall budget h
  · exact h

/-- The sample makes the acknowledge follow the input. -/
theorem holdPins_sampleHold (core : Core) (budget : Budget) :
    (core.sampleHold budget).1.HoldPins core.holdLine core.holdLine := by
  unfold sampleHold
  split
  · next hline =>
    apply HoldPins.stallIf
    refine ⟨hline.symm, ?_⟩
    split <;> rfl
  · next hline =>
    rw [Bool.not_eq_true] at hline
    split
    · exact (keptByClocks_holdPins _ _).advanceTimer budget 3 ⟨hline.symm, rfl⟩
    · next hhold =>
      rw [Bool.not_eq_true] at hhold
      exact ⟨hhold.trans hline.symm, rfl⟩

/-- From the start of a run the acknowledge follows the input. -/
theorem holdPins_beginRun (core : Core) (budget : Budget) :
    (core.beginRun budget).1.HoldPins core.holdLine core.holdLine := by
  have hwoken : ((core.sampleHold budget).1.wake (core.sampleHold budget).2).1.HoldPins
      core.holdLine core.holdLine := by
    unfold wake
    split
    · exact (keptByClocks_holdPins _ _).service _ (core.holdPins_sampleHold budget)
    · exact core.holdPins_sampleHold budget
  exact (keptByClocks_holdPins _ _).wait _ hwoken

/-- Settling a step leaves both pins. -/
theorem HoldPins.settle (h : core.HoldPins hold line) (budget : Budget) (clocks : Nat) :
    (core.settle budget clocks).1.HoldPins hold line := by
  have hadvanced := (keptByClocks_holdPins hold line).advanceTimer budget clocks h
  exact ((keptByClocks_holdPins hold line).wait _ hadvanced).stallIf _

end Core

/-- No step changes either of them. -/
theorem Core.HoldPins.step {machine : Machine} {hold line : Bool}
    (h : machine.core.HoldPins hold line) : machine.step.1.core.HoldPins hold line :=
  ⟨(congrArg Clockwork.hold machine.step_clockwork).trans h.1,
    (congrArg Clockwork.holdLine machine.step_clockwork).trans h.2⟩

/-- All through a run the acknowledge output is what the input was at the start. -/
theorem Boundary.holdPins {fair : Machine × Op → Prop} {machine other : Machine}
    {budget left : Budget} (h : Boundary fair machine budget other left) :
    other.core.HoldPins machine.core.holdLine machine.core.holdLine := by
  induction h with
  | start =>
    rw [Machine.beginRun_core]
    exact machine.core.holdPins_beginRun budget
  | turn _ _ _ ih =>
    rw [Machine.turn_core]
    exact ih.step.settle _ _

namespace Core

/-! ## Stalled cores -/

variable {core : Core} {budget : Budget}

/-- The core would be stalled if it were held. -/
def StopsForHold (core : Core) : Prop :=
  core.externalAccess = true ∨ core.regs.has .hm = true

/-- The core once a hold is acknowledged. -/
def acknowledged (core : Core) : Core :=
  { (if core.hold then core else core.report (.holdAcknowledged core.regs.pc)) with hold := true }

/-- A core is stalled when a hold is acknowledged and it stops for holds. -/
theorem isStalled_iff : core.isStalled = true ↔ core.hold = true ∧ core.StopsForHold := by
  rw [isStalled, Bool.and_eq_true, Bool.or_eq_true]
  rfl

/-- With no clocks left a core does not wake. -/
theorem wake_of_exhausted (hbudget : budget.isExhausted = true) :
    core.wake budget = (core, budget) := by
  rw [wake, hbudget, Bool.not_true, Bool.and_false]
  rfl

/-- The acknowledge leaves the phase of the timer. -/
theorem acknowledged_timerPhase (core : Core) : core.acknowledged.timerPhase = core.timerPhase := by
  unfold acknowledged
  split <;> rfl

/-- A core that stops for holds is stalled once it acknowledges one. -/
theorem StopsForHold.isStalled_acknowledged (h : core.StopsForHold) :
    core.acknowledged.isStalled = true := by
  refine isStalled_iff.mpr ⟨rfl, ?_⟩
  unfold acknowledged
  split
  · exact h
  · exact h

/-- A core that a hold stops lets the whole budget pass at the start of a run, and polls nowhere
else. -/
theorem beginRun_of_stops (hphase : core.timerPhase < clk) (hline : core.holdLine = true)
    (hstops : core.StopsForHold) (budget : Budget) :
    core.beginRun budget = core.acknowledged.stall budget ∧
      core.beginRunPolls budget = core.acknowledged.stallPolls budget budget.remaining.toNat := by
  have hstalled := hstops.isStalled_acknowledged
  have hsampled : core.sampleHold budget = core.acknowledged.stall budget := by
    rw [sampleHold, if_pos hline]
    exact if_pos hstalled
  have hpolls : core.sampleHoldPolls budget =
      core.acknowledged.stallPolls budget budget.remaining.toNat := by
    rw [sampleHoldPolls, if_pos hline]
    exact if_pos hstalled
  rw [← acknowledged_timerPhase] at hphase
  have hexhausted : (core.acknowledged.stall budget).2.isExhausted = true :=
    stall_exhausts hphase
  have hnothing := Budget.isExhausted_iff_toNat _ |>.mp hexhausted
  constructor
  · simp only [beginRun, hsampled, wake_of_exhausted hexhausted, wait, hnothing]
    rfl
  · simp only [beginRunPolls, hpolls, hsampled, wake_of_exhausted hexhausted, wakePolls, hexhausted,
      hnothing, waitPolls]
    simp

/-- A poll of an advance is one at a reload. -/
theorem reload_of_mem_advancePolls {clocks : Nat} {poll : Core}
    (h : poll ∈ core.advancePolls budget clocks) :
    poll.journal.head? = some (.timerReload poll.ram.prd) := by
  unfold advancePolls at h
  dsimp only at h
  split at h
  · next hreload =>
    obtain rfl := List.mem_singleton.mp h
    unfold countClocks at hreload ⊢
    dsimp only at hreload ⊢
    split at hreload
    · contradiction
    · split at hreload
      · contradiction
      · next hless hmore =>
        rw [if_neg hless, if_neg hmore]
        rfl
  · contradiction

/-- So is every poll while a budget passes. -/
theorem reload_of_mem_stallPolls {count : Nat} {poll : Core}
    (h : poll ∈ core.stallPolls budget count) :
    poll.journal.head? = some (.timerReload poll.ram.prd) := by
  induction count generalizing core budget with
  | zero => contradiction
  | succ count ih =>
    rw [stallPolls] at h
    split at h
    · contradiction
    · rcases List.mem_append.mp h with hfirst | hlater
      · exact reload_of_mem_advancePolls hfirst
      · exact ih hlater

/-! ## One service -/

/-- The core after a calm trail with interrupts masked is where it was. -/
theorem Trail.masked {first last : Core} {polls : List Core} (h : Trail CalmTo first polls last)
    (hmasked : first.regs.has .intm = true) :
    last.regs.pc = first.regs.pc ∧ last.regs.stack = first.regs.stack := by
  induction h with
  | rest hcalm => exact ⟨hcalm.pc, hcalm.stack⟩
  | @poll before poll after polls hcalm _ ih =>
    have hpoll : poll.regs.has .intm = true :=
      (congrArg (Status.has · .intm) hcalm.status).trans hmasked
    rw [service_of_none (pendingSource?_of_masked hpoll)] at ih
    obtain ⟨hpc, hstack⟩ := ih hpoll
    exact ⟨hpc.trans hcalm.pc, hstack.trans hcalm.stack⟩

/-- Along a calm trail one request at most is served, because its service masks the others. Nothing
else moves the program counter or the stack. -/
theorem Trail.serves_once {first last : Core} {polls : List Core}
    (h : Trail CalmTo first polls last) :
    (last.regs.pc = first.regs.pc ∧ last.regs.stack = first.regs.stack) ∨
      ∃ poll ∈ polls, ∃ source, poll.pendingSource? = some source ∧
        poll.regs.pc = first.regs.pc ∧ poll.regs.stack = first.regs.stack ∧
        last.regs.pc = source.vector ∧
        last.regs.stack = (first.regs.push first.regs.pc).stack := by
  induction h with
  | rest hcalm => exact .inl ⟨hcalm.pc, hcalm.stack⟩
  | @poll before poll after polls hcalm hrest ih =>
    cases hsource : poll.pendingSource? with
    | some source =>
      have hserved := servedTo_service hsource
      obtain ⟨hpc, hstack⟩ := hrest.masked hserved.masked
      refine .inr ⟨poll, List.mem_cons_self .., source, hsource, hcalm.pc, hcalm.stack,
        hpc.trans hserved.vector, hstack.trans ?_⟩
      rw [hserved.pushed, Registers.push, Registers.push, hcalm.pc, hcalm.stack]
    | none =>
      rw [service_of_none hsource] at ih
      rcases ih with ⟨hpc, hstack⟩ | ⟨later, hlater, source, hsource, hpc, hstack, hvector, hpushed⟩
      · exact .inl ⟨hpc.trans hcalm.pc, hstack.trans hcalm.stack⟩
      · refine .inr ⟨later, List.mem_cons_of_mem _ hlater, source, hsource, hpc.trans hcalm.pc,
          hstack.trans hcalm.stack, hvector, hpushed.trans ?_⟩
        rw [Registers.push, Registers.push, hcalm.pc, hcalm.stack]

/-- After a step that leaves a held core where it stops, the rest of the budget passes. -/
theorem settle_of_stops (hphase : core.timerPhase < clk) (hhold : core.hold = true)
    (hstops : core.StopsForHold) (clocks : Nat) :
    (core.settle budget clocks).2.isExhausted = true := by
  have hadvanced := kept_timerPhase.advanceTimer budget clocks hphase
  have hwaited := kept_timerPhase.wait (core.advanceTimer budget clocks).2 hadvanced
  have hstalled := (keptByClocks_isStalled true).wait (core.advanceTimer budget clocks).2
    ((keptByClocks_isStalled true).advanceTimer budget clocks (isStalled_iff.mpr ⟨hhold, hstops⟩))
  rw [settle]
  dsimp only
  rw [if_pos hstalled]
  exact stall_exhausts hwaited

end Core

namespace Machine

/-! ## Held runs -/

/-- A run from first to last of which a hold stops the core. -/
structure StoppedRun (machine : Machine) (budget : Budget) (other : Machine) (left : Budget) :
    Prop where
  returns : machine.run budget = some (other, left)
  exhausted : left.isExhausted = true
  bus : other.bus = machine.bus
  executesNothing : ∀ count, ∀ moment ∈ machine.runMoments budget count, moment.isExecution = false
  workings : other.core.workings = machine.core.workings
  /-- A service at a reload is the one thing that moves the program counter and the stack. -/
  service : (other.core.regs.pc = machine.core.regs.pc ∧
      other.core.regs.stack = machine.core.regs.stack) ∨
    ∃ poll ∈ machine.core.beginRunPolls budget, ∃ source, poll.pendingSource? = some source ∧
      poll.journal.head? = some (.timerReload poll.ram.prd) ∧
      poll.regs.pc = machine.core.regs.pc ∧ poll.regs.stack = machine.core.regs.stack ∧
      other.core.regs.pc = source.vector ∧
      other.core.regs.stack = (machine.core.regs.push machine.core.regs.pc).stack

variable {machine : Machine} {budget : Budget}

/-- Once the budget is exhausted, nothing more happens. -/
theorem turnsMoments_of_exhausted (machine : Machine) (hbudget : budget.isExhausted = true)
    (count : Nat) : machine.turnsMoments budget count = [] := by
  cases count with
  | zero => rfl
  | succ count => exact if_pos hbudget

/-- A core that a hold stops is stopped for the whole run. -/
theorem stoppedRun_beginRun (hphase : machine.core.timerPhase < clk)
    (hline : machine.core.holdLine = true) (hstops : machine.core.StopsForHold) :
    machine.StoppedRun budget (machine.beginRun budget).1 (machine.beginRun budget).2 := by
  obtain ⟨hbegun, hpolls⟩ := Core.beginRun_of_stops hphase hline hstops budget
  have hexhausted : (machine.beginRun budget).2.isExhausted = true := by
    rw [← Core.acknowledged_timerPhase] at hphase
    rw [beginRun_budget, hbegun]
    exact Core.stall_exhausts hphase
  have htrail := machine.core.trail_beginRun budget
  rw [← beginRun_core] at htrail
  constructor
  case returns => exact (run_eq_some_iff hphase).mpr ⟨0, rfl, hexhausted⟩
  case exhausted => exact hexhausted
  case bus => rfl
  case executesNothing =>
    intro count moment hmoment
    rw [runMoments, turnsMoments_of_exhausted _ hexhausted, List.append_nil] at hmoment
    obtain ⟨poll, -, rfl⟩ := List.mem_map.mp hmoment
    rfl
  case workings =>
    rw [beginRun_core]
    exact (Core.keptBetweenSteps_workings _).beginRun budget rfl
  case service =>
    rcases htrail.serves_once with hstill | ⟨poll, hpoll, source, hsource, hservice⟩
    · exact .inl hstill
    · refine .inr ⟨poll, hpoll, source, hsource, ?_, hservice⟩
      rw [hpolls] at hpoll
      exact Core.reload_of_mem_stallPolls hpoll

/-- The first step that leaves a held core where it stops is the last of the run. -/
theorem run_of_stops {reached : Machine} {left : Budget} (hphase : machine.core.timerPhase < clk)
    (hline : machine.core.holdLine = true)
    (hreached : Boundary (fun _ => True) machine budget reached left)
    (hleft : left.isExhausted = false) (hstops : reached.step.1.core.StopsForHold) :
    machine.run budget = some (reached.turn left) ∧
      (reached.turn left).2.isExhausted = true := by
  have hpins := hreached.holdPins.step
  have hexhausted : (reached.turn left).2.isExhausted = true := by
    have hsteady := steady_of_step
      (hreached.holds Core.kept_timerPhase.toKeptBetweenSteps (keptBySteps_timerPhase _) hphase)
    rw [turn_budget]
    exact Core.settle_of_stops hsteady.timerPhase (hpins.1.trans hline) hstops _
  obtain ⟨count, hcount⟩ := hreached.eq_turns
  refine ⟨(run_eq_some_iff hphase).mpr ⟨count + 1, ?_, hexhausted⟩, hexhausted⟩
  rw [turns_succ_last, hcount, if_neg (Bool.eq_false_iff.mp hleft)]

/-- The acknowledge output tells after a run whether the hold input was asserted at its start. If it
was, a core that it stops executes nothing, and one that goes on executes nothing after the first step
that leaves it so. -/
theorem run_held (budget : Budget) (hphase : machine.core.timerPhase < clk) :
    (∀ other left, machine.run budget = some (other, left) →
        other.core.hold = machine.core.holdLine) ∧
      (machine.core.holdLine = true →
        (machine.core.StopsForHold → ∃ other left, machine.StoppedRun budget other left) ∧
        ∀ reached left, Boundary (fun _ => True) machine budget reached left →
          left.isExhausted = false → reached.step.1.core.StopsForHold →
            machine.run budget = some (reached.turn left) ∧
              (reached.turn left).2.isExhausted = true ∧
              ∀ count, (reached.turn left).1.turnsMoments (reached.turn left).2 count = []) := by
  refine ⟨fun other left hrun => (boundary_of_run hrun).holdPins.1, fun hline => ⟨fun hstops => ?_, ?_⟩⟩
  · exact ⟨_, _, stoppedRun_beginRun hphase hline hstops⟩
  · intro reached left hreached hleft hstops
    obtain ⟨hrun, hexhausted⟩ := run_of_stops hphase hline hreached hleft hstops
    exact ⟨hrun, hexhausted, turnsMoments_of_exhausted _ hexhausted⟩

/-- A held TMS32025 that is not in hold mode, with AR0 at an off-chip word, over a program. -/
def heldOver (program : List Half) : Machine :=
  let regs := (Core.new .tms32025).regs
  ⟨{ Core.new .tms32025 with regs := (regs.put .hm false).setAr 0 0x0900, holdLine := true },
    Bus.empty.loadHalves .program 0 program⟩

/-- A load from off chip is the last instruction of a held run. -/
theorem run_held_lac :
    let machine := heldOver [0x2080, 0xCA05]
    (machine.core.timerPhase < clk ∧ machine.core.holdLine = true) ∧
      ∃ other left, machine.run ⟨100⟩ = some (other, left) ∧ left.isExhausted = true ∧
        other.core.hold = true ∧ other.core.regs.pc = 1 := by
  intro machine
  have hphase : machine.core.timerPhase < clk := by decide
  have hline : machine.core.holdLine = true := rfl
  obtain ⟨hfollows, hheld⟩ := run_held ⟨100⟩ hphase
  have hleft : (machine.beginRun ⟨100⟩).2.isExhausted = false := by decide +kernel
  have hstops : (machine.beginRun ⟨100⟩).1.step.1.core.StopsForHold := .inl (by decide +kernel)
  obtain ⟨hrun, hexhausted, -⟩ := (hheld hline).2 _ _ .start hleft hstops
  exact ⟨⟨hphase, hline⟩, _, _, hrun, hexhausted, (hfollows _ _ hrun).trans hline,
    by decide +kernel⟩

/-- A repeat with its count off chip leaves a held core where it stops. The instruction that it
repeats is executed all the same. -/
theorem repeated_after_stop :
    ¬ ∀ (machine : Machine) (budget : Budget) (count : Nat) (before after : List Moment)
        (executing : Machine) (op : Op), machine.core.timerPhase < clk →
        machine.core.holdLine = true → ¬ machine.core.StopsForHold →
        machine.runMoments budget count = before ++ .execution executing op :: after →
        (executing.execute op).1.core.StopsForHold →
          ∀ moment ∈ after, moment.isExecution = false := by
  intro hall
  let machine := heldOver [0x4B80, 0xCA05]
  let begun := (machine.beginRun ⟨100⟩).1
  let armed := (begun.ready.execute begun.ready.op).1
  have hpolls : machine.core.beginRunPolls ⟨100⟩ = [] := by decide +kernel
  have hleft : (machine.beginRun ⟨100⟩).2.isExhausted = false := by decide +kernel
  have hflow : armed.core.flow = .repeatBlock := by decide +kernel
  have hmoments : machine.runMoments ⟨100⟩ 1 =
      [.poll begun] ++ .execution begun.ready begun.ready.op ::
        (Moment.executions armed.blockExecutions ++ Moment.polls begun.step.1.bus
          (begun.step.1.core.settlePolls (machine.beginRun ⟨100⟩).2 begun.step.2) ++ []) := by
    rw [runMoments, hpolls, turnsMoments, hleft]
    rfl
  have hstops : armed.core.StopsForHold := .inl (by decide +kernel)
  have hidle := hall machine ⟨100⟩ 1 _ _ _ _ (by decide) rfl
    (not_or.mpr ⟨by decide, by decide +kernel⟩) hmoments hstops
  obtain ⟨rest, hblock⟩ := blockExecutions_of_repeat hflow
  have hrepeated : .execution armed.enterBlock armed.enterBlock.op ∈
      Moment.executions armed.blockExecutions := by
    rw [hblock]
    exact List.mem_cons_self ..
  have hnone := hidle _ (List.mem_append_left _ (List.mem_append_left _ hrepeated))
  exact absurd hnone (by decide)

end Machine

end ProcessorCores.Tms

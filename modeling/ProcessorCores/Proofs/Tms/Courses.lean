import ProcessorCores.Proofs.Tms.Polls
import ProcessorCores.Proofs.Tms.Termination

/-!
# Polls and executions in their order

What a host lets a core do is put down here as a list of moments: the polls, at which the core may
serve a request, and the executions of operations, as they come one after the other. Whatever happens
in between is calm, the fetches and the bookkeeping of repeat blocks apart.

`Timeline` lists the moments of all that a host can let a core do, and `Course` is what is known of
such a list when one forgets which steps and runs it came from.
-/

namespace ProcessorCores.Tms

namespace Machine

/-- The executions of an instruction: its own, and those of the repeat block that it may arm. -/
def instruction (machine : Machine) : List (Machine × Op) :=
  (machine.fetch, machine.fetch.op) :: (machine.fetch.execute machine.fetch.op).1.blockExecutions

/-- A poll that finds nothing changes nothing. -/
theorem served_of_none {machine : Machine} (h : machine.core.pendingSource? = none) :
    machine.served = machine := by
  rw [served, Core.service_of_none h]

/-- What happens to a machine between polls and executions. -/
structure CalmTo (before after : Machine) : Prop where
  core : before.core.CalmTo after.core
  bus : after.bus = before.bus

/-- Nothing at all is calm. -/
theorem CalmTo.refl (machine : Machine) : machine.CalmTo machine := ⟨.refl _, rfl⟩

/-- Calm stretches compose. -/
theorem CalmTo.trans {first second third : Machine} (h : first.CalmTo second)
    (h' : second.CalmTo third) : first.CalmTo third :=
  ⟨h.core.trans h'.core, h'.bus.trans h.bus⟩

/-- A calm stretch changes no program word. -/
theorem CalmTo.programWord {before after : Machine} (h : before.CalmTo after) (address : Half) :
    after.programWord address = before.programWord address := by
  apply programWord_congr h.core.program
  rw [h.bus]
  exact fun _ => rfl

end Machine

/-! ## Moments -/

/-- A poll, or the execution of an operation, each with the machine just before it. -/
inductive Moment
  | poll (machine : Machine)
  | execution (machine : Machine) (op : Op)

namespace Moment

/-- The source that is served at a moment, if one is, and the address at which it is. -/
def served? : Moment → Option (Source × Half)
  | .poll machine => machine.core.served?
  | .execution _ _ => none

/-- True for executions. -/
def isExecution : Moment → Bool
  | .poll _ => false
  | .execution _ _ => true

/-- Polls while a core works on one bus. -/
def polls (bus : Bus) (cores : List Core) : List Moment := cores.map fun core => .poll ⟨core, bus⟩

/-- Executions one after the other. -/
def executions (list : List (Machine × Op)) : List Moment :=
  list.map fun (machine, op) => .execution machine op

/-- A list of executions holds no poll. -/
theorem poll_notMem_executions (machine : Machine) (list : List (Machine × Op)) :
    .poll machine ∉ executions list := by
  simp [executions]

/-- A list of executions serves nothing. -/
theorem executions_served? (list : List (Machine × Op)) :
    (executions list).filterMap served? = [] := by
  simp [executions, served?]

end Moment

namespace Machine

/-- The moments of a step. -/
def stepMoments (machine : Machine) : List Moment :=
  .poll machine :: Moment.executions machine.executions

/-- The moments of a turn of a run. -/
def turnMoments (machine : Machine) (budget : Budget) : List Moment :=
  machine.stepMoments ++
    Moment.polls machine.step.1.bus (machine.step.1.core.settlePolls budget machine.step.2)

/-- The moments of at most so many turns. -/
def turnsMoments (machine : Machine) (budget : Budget) : Nat → List Moment
  | 0 => []
  | count + 1 =>
    if budget.isExhausted then []
    else
      machine.turnMoments budget ++
        (machine.turn budget).1.turnsMoments (machine.turn budget).2 count

/-- The moments of a run that is cut off after so many turns. -/
def runMoments (machine : Machine) (budget : Budget) (count : Nat) : List Moment :=
  Moment.polls machine.bus (machine.core.beginRunPolls budget) ++
    (machine.beginRun budget).1.turnsMoments (machine.beginRun budget).2 count

/-- A turn executes something. -/
theorem one_le_countP_turnMoments (machine : Machine) (budget : Budget) :
    1 ≤ (machine.turnMoments budget).countP Moment.isExecution := by
  have hexecution : .execution machine.ready machine.ready.op ∈ machine.turnMoments budget := by
    simp [turnMoments, stepMoments, Moment.executions, executions]
  exact List.countP_pos_iff.mpr ⟨_, hexecution, rfl⟩

/-- So a run executes something in every turn for which budget is left. -/
theorem le_countP_turnsMoments {machine : Machine} {budget : Budget} {count : Nat}
    (hleft : ∀ earlier < count, (machine.turns budget earlier).2.isExhausted = false) :
    count ≤ (machine.turnsMoments budget count).countP Moment.isExecution := by
  induction count generalizing machine budget with
  | zero => exact Nat.zero_le _
  | succ count ih =>
    have hbudget : budget.isExhausted = false := hleft 0 (Nat.succ_pos count)
    have hrest : count ≤ ((machine.turn budget).1.turnsMoments
        (machine.turn budget).2 count).countP Moment.isExecution := by
      apply ih
      intro earlier hearlier
      rw [← turns_succ machine hbudget earlier]
      exact hleft (earlier + 1) (Nat.succ_lt_succ hearlier)
    have hfirst := machine.one_le_countP_turnMoments budget
    rw [turnsMoments, if_neg (Bool.eq_false_iff.mp hbudget), List.countP_append]
    omega

end Machine

/-! ## Timelines -/

/-- What a host does to the lines and pins of a core, and to its serial words. -/
inductive Core.DrivenTo (core : Core) : Core → Prop
  | line (line : Nat) (asserted : Bool) : DrivenTo core (core.setInputLine line asserted)
  | bio (asserted : Bool) : DrivenTo core (core.setBio asserted)
  | hold (asserted : Bool) : DrivenTo core (core.setHold asserted)
  | serialInput (word : Half) : DrivenTo core (core.setSerialInput word)
  | serialOutput : DrivenTo core core.takeSerialOutput.2

/-- What a host can let a machine do short of changing what is stored, with all its moments. A run may
be cut off after any number of turns, so that the lines may change at every boundary inside it. -/
inductive Timeline (start : Machine) : List Moment → Machine → Prop
  | start : Timeline start [] start
  | step {moments : List Moment} {machine : Machine} : Timeline start moments machine →
    Timeline start (moments ++ machine.stepMoments) machine.step.1
  | run {moments : List Moment} {machine : Machine} (budget : Budget) (count : Nat) :
    Timeline start moments machine →
      Timeline start (moments ++ machine.runMoments budget count)
        ((machine.beginRun budget).1.turns (machine.beginRun budget).2 count).1
  | driven {moments : List Moment} {machine : Machine} {core : Core} :
    Timeline start moments machine → machine.core.DrivenTo core →
      Timeline start moments { machine with core := core }

/-- A run that returns is part of a timeline. -/
theorem Timeline.returned {start machine other : Machine} {moments : List Moment}
    {budget left : Budget} (h : Timeline start moments machine)
    (hrun : machine.run budget = some (other, left)) :
    ∃ count, Timeline start (moments ++ machine.runMoments budget count) other := by
  obtain ⟨⟨count, hturns⟩, -⟩ := Machine.turns_of_run hrun
  have hother := h.run budget count
  rw [hturns] at hother
  exact ⟨count, hother⟩

/-- What the host drives is calm. -/
theorem Core.DrivenTo.calm {core after : Core} (h : core.DrivenTo after) : core.CalmTo after := by
  cases h with
  | line line asserted => exact core.setInputLine_calm line asserted
  | bio _ | hold _ | serialInput _ | serialOutput =>
    exact ⟨⟨.refl _, rfl⟩, rfl, rfl, rfl, rfl, rfl, rfl⟩

/-! ## Courses -/

/-- A machine goes through polls and instructions, and is calm in between. -/
inductive Course : Machine → List Moment → Machine → Prop
  | rest {before after : Machine} : before.CalmTo after → Course before [] after
  | poll {before poll after : Machine} {moments : List Moment} : before.CalmTo poll →
    Course poll.served moments after → Course before (.poll poll :: moments) after
  | instruction {before ready after : Machine} {moments : List Moment} : before.CalmTo ready →
    Course ready.executeNext.1 moments after →
      Course before (Moment.executions ready.instruction ++ moments) after

namespace Course

variable {first second third : Machine} {moments more : List Moment}

/-- The empty course. -/
theorem refl (machine : Machine) : Course machine [] machine := .rest (.refl machine)

/-- A calm start is no moment. -/
theorem after_calm (h : first.CalmTo second) (h' : Course second moments third) :
    Course first moments third := by
  cases h' with
  | rest hcalm => exact .rest (h.trans hcalm)
  | poll hcalm hrest => exact .poll (h.trans hcalm) hrest
  | instruction hcalm hrest => exact .instruction (h.trans hcalm) hrest

/-- One course after another. -/
theorem trans (h : Course first moments second) (h' : Course second more third) :
    Course first (moments ++ more) third := by
  induction h with
  | rest hcalm => exact after_calm hcalm h'
  | poll hcalm _ ih => exact .poll hcalm (ih h')
  | instruction hcalm _ ih =>
    rw [List.append_assoc]
    exact .instruction hcalm (ih h')

/-- Nor is a calm end. -/
theorem then_calm (h : Course first moments second) (h' : second.CalmTo third) :
    Course first moments third := by
  have hcourse := h.trans (.rest h')
  rwa [List.append_nil] at hcourse

/-- After a poll the course goes on from what its service leaves. -/
theorem after_poll {poll : Machine} (h : Course first (moments ++ .poll poll :: more) second) :
    Course poll.served more second := by
  generalize hall : moments ++ .poll poll :: more = all at h
  induction h generalizing moments with
  | rest _ => simp at hall
  | poll _ hrest ih =>
    cases moments with
    | nil =>
      obtain ⟨heq, rfl⟩ := List.cons.inj hall
      obtain rfl := Moment.poll.inj heq
      exact hrest
    | cons other moments => exact ih (List.cons.inj hall).2
  | @instruction _ ready _ rest _ hrest ih =>
    -- The poll is none of the executions, so it comes after them.
    rcases List.append_eq_append_iff.mp hall with ⟨between, hexecutions, hmore⟩ | ⟨between, -, hmore⟩
    · cases between with
      | nil => exact @ih [] hmore
      | cons other between =>
        obtain ⟨rfl, -⟩ := List.cons.inj hmore
        have hmem : .poll poll ∈ Moment.executions ready.instruction := by
          rw [hexecutions]
          exact List.mem_append_right _ (List.mem_cons_self ..)
        exact absurd hmem (Moment.poll_notMem_executions _ _)
    · exact ih hmore.symm

/-- The interrupts that are reported are those served at the polls. -/
theorem interrupts (h : Course first moments second) :
    second.core.interrupts =
      (moments.filterMap Moment.served?).reverse ++ first.core.interrupts := by
  induction h with
  | rest hcalm => exact hcalm.core.interrupts
  | @poll before poll after moments hcalm _ ih =>
    have hserved : poll.served.core.interrupts = poll.core.served?.toList ++ poll.core.interrupts :=
      poll.core.service_interrupts
    rw [ih, hserved, hcalm.core.interrupts, List.filterMap_cons, Moment.served?]
    cases poll.core.served? with
    | some served => simp
    | none => simp
  | @instruction before ready after moments hcalm _ ih =>
    rw [ih, List.filterMap_append, Moment.executions_served?, List.nil_append,
      ready.executeNext_quiet.interrupts, hcalm.core.interrupts]

/-- A calm trail on one bus is a course. -/
theorem of_trail {before after : Core} {polls : List Core}
    (h : Core.Trail Core.CalmTo before polls after) (bus : Bus) :
    Course ⟨before, bus⟩ (Moment.polls bus polls) ⟨after, bus⟩ := by
  induction h with
  | rest hcalm => exact .rest ⟨hcalm, rfl⟩
  | poll hcalm _ ih => exact .poll ⟨hcalm, rfl⟩ ih

end Course

namespace Machine

/-- A step goes through its moments. -/
theorem course_step (machine : Machine) : Course machine machine.stepMoments machine.step.1 := by
  have hinstruction := Course.instruction (.refl machine.served) (.refl machine.served.executeNext.1)
  rw [List.append_nil] at hinstruction
  rw [step_served]
  exact .poll (.refl machine) hinstruction

/-- A turn goes through its moments. -/
theorem course_turn (machine : Machine) (budget : Budget) :
    Course machine (machine.turnMoments budget) (machine.turn budget).1 :=
  machine.course_step.trans (.of_trail (Core.trail_settle _ _ _) _)

/-- Turns go through their moments. -/
theorem course_turns (machine : Machine) (budget : Budget) (count : Nat) :
    Course machine (machine.turnsMoments budget count) (machine.turns budget count).1 := by
  induction count generalizing machine budget with
  | zero => exact .refl machine
  | succ count ih =>
    rw [turnsMoments, turns]
    split
    · exact .refl machine
    · exact (machine.course_turn budget).trans (ih _ _)

/-- A run goes through its moments. -/
theorem course_run (machine : Machine) (budget : Budget) (count : Nat) :
    Course machine (machine.runMoments budget count)
      ((machine.beginRun budget).1.turns (machine.beginRun budget).2 count).1 :=
  (Course.of_trail (machine.core.trail_beginRun budget) machine.bus).trans (course_turns _ _ _)

end Machine

/-- A timeline is a course. -/
theorem Timeline.course {start later : Machine} {moments : List Moment}
    (h : Timeline start moments later) : Course start moments later := by
  induction h with
  | start => exact .refl start
  | step _ ih => exact ih.trans (Machine.course_step _)
  | run budget count _ ih => exact ih.trans (Machine.course_run _ budget count)
  | driven _ hdriven ih => exact ih.then_calm ⟨hdriven.calm, rfl⟩

end ProcessorCores.Tms

import ProcessorCores.Proofs.Tms.Courses

/-!
# Code without interrupts

A host may let a core take single steps or whole runs, with clocks, polls and changes of the lines in
between. As long as no poll serves a request and no instruction repeats another, nothing of this
shows: the instructions come one after the other, and all that only instructions change is handed on
from each to the next. What a piece of code does can then be told from its instruction words.
-/

namespace ProcessorCores.Tms

/-- The instruction word that is executed at a moment, if one is. -/
def Moment.word? : Moment → Option Half
  | .poll _ => none
  | .execution machine _ => some machine.core.opcode

/-- The execution at a moment, if there is one. -/
def Moment.execution? : Moment → Option (Machine × Op)
  | .poll _ => none
  | .execution machine op => some (machine, op)

/-- Instructions with these words, and no others, are executed from one machine to another, and no
request is served. -/
def Machine.Performs (start : Machine) (words : List Half) (later : Machine) : Prop :=
  ∃ moments, Timeline start moments later ∧ moments.filterMap Moment.word? = words ∧
    ∀ moment ∈ moments, moment.served? = none

/-- The end of a timeline can be reached where its start can. -/
theorem Reached.timeline {model : Model} {start later : Machine} {moments : List Moment}
    (h : Reached model (fun _ => True) start) (htimeline : Timeline start moments later) :
    Reached model (fun _ => True) later := by
  induction htimeline with
  | start => exact h
  | step _ ih => exact ih.step fun _ _ => trivial
  | run budget count _ ih => exact ih.run (boundary_turns _ budget count)
  | driven _ hdriven ih =>
    cases hdriven with
    | line line asserted => exact ih.line line asserted
    | bio asserted => exact ih.bio asserted
    | hold asserted => exact ih.hold asserted
    | serialInput word => exact ih.serialInput word
    | serialOutput => exact ih.serialOutput

/-- A machine reached stays one while it performs straight code. -/
theorem Reached.performs {model : Model} {start later : Machine} {words : List Half}
    (h : Reached model (fun _ => True) start) (hperforms : start.Performs words later) :
    Reached model (fun _ => True) later := by
  obtain ⟨moments, htimeline, -, -⟩ := hperforms
  exact h.timeline htimeline

/-! ## Single steps -/

namespace Machine

/-- So many steps. -/
def steps (machine : Machine) : Nat → Machine
  | 0 => machine
  | count + 1 => (machine.steps count).step.1

/-- The moments of so many steps. -/
def stepsMoments (machine : Machine) : Nat → List Moment
  | 0 => []
  | count + 1 => machine.stepsMoments count ++ (machine.steps count).stepMoments

/-- Steps without a host make a timeline. -/
theorem timeline_steps (machine : Machine) (count : Nat) :
    Timeline machine (machine.stepsMoments count) (machine.steps count) := by
  induction count with
  | zero => exact .start
  | succ count ih => exact ih.step

/-- Steps that serve nothing perform what they execute. -/
theorem performs_steps {machine : Machine} {words : List Half} {count : Nat}
    (hwords : (machine.stepsMoments count).filterMap Moment.word? = words)
    (hserved : ∀ moment ∈ machine.stepsMoments count, moment.served? = none) :
    machine.Performs words (machine.steps count) :=
  ⟨_, machine.timeline_steps count, hwords, hserved⟩

end Machine

/-! ## Instruction by instruction -/

/-- True for the operations that arm no repeat block. -/
def Op.isPlain : Op → Bool
  | .rpt | .rptk => false
  | _ => true

/-- A plain operation is neither RPT nor RPTK. -/
theorem Op.ne_of_isPlain {op : Op} (h : op.isPlain = true) : op ≠ .rpt ∧ op ≠ .rptk := by
  cases op <;> first | contradiction | exact ⟨nofun, nofun⟩

/-- A machine executes one instruction after the other, and is calm in between. -/
inductive Straight : Machine → List Half → Machine → Prop
  | rest {before after : Machine} : before.CalmTo after → Straight before [] after
  | instruction {before ready after : Machine} {words : List Half} : before.CalmTo ready →
    Straight (ready.fetch.execute ready.fetch.op).1 words after →
      Straight before (ready.fetch.core.opcode :: words) after

namespace Machine

/-- What is calm arms no repeat block. -/
theorem CalmTo.flow {before after : Machine} (h : before.CalmTo after) :
    after.core.flow = before.core.flow :=
  congrArg Workings.flow h.core.workings

/-- A plain instruction is a single execution. -/
theorem instruction_of_plain {machine : Machine} (hflow : machine.core.flow = .normal)
    (hplain : machine.fetch.op.isPlain = true) :
    (machine.fetch.execute machine.fetch.op).1.core.flow = .normal ∧
      machine.instruction = [(machine.fetch, machine.fetch.op)] ∧
      machine.executeNext.1 = (machine.fetch.execute machine.fetch.op).1 := by
  obtain ⟨hrpt, hrptk⟩ := Op.ne_of_isPlain hplain
  have hfetched : machine.fetch.core.flow = .normal := by
    rw [fetch_core]
    exact hflow
  have hexecuted : (machine.fetch.execute machine.fetch.op).1.core.flow = .normal :=
    (machine.fetch.execute_timing hrpt hrptk).2.2.trans hfetched
  exact ⟨hexecuted, congrArg _ (blockExecutions_of_normal hexecuted), executeNext_of_normal hexecuted⟩

end Machine

/-- A machine goes through executions one after the other, and is calm in between. -/
inductive Executes : Machine → List (Machine × Op) → Machine → Prop
  | rest {before after : Machine} : before.CalmTo after → Executes before [] after
  | instruction {before ready after : Machine} {executions : List (Machine × Op)} :
    before.CalmTo ready → Executes (ready.fetch.execute ready.fetch.op).1 executions after →
      Executes before ((ready.fetch, ready.fetch.op) :: executions) after

namespace Executes

variable {first second third : Machine} {executions : List (Machine × Op)}

/-- Executions may start after a calm stretch. -/
theorem after_calm (h : first.CalmTo second) (h' : Executes second executions third) :
    Executes first executions third := by
  cases h' with
  | rest hcalm => exact .rest (h.trans hcalm)
  | instruction hcalm hrest => exact .instruction (h.trans hcalm) hrest

/-- Plain operations arm no repeat block. -/
theorem flow (h : Executes first executions third) (hplain : ∀ e ∈ executions, e.2.isPlain = true) :
    third.core.flow = first.core.flow := by
  induction h with
  | rest hcalm => exact hcalm.flow
  | @instruction before ready after executions hcalm _ ih =>
    obtain ⟨hrpt, hrptk⟩ := Op.ne_of_isPlain (hplain _ (List.mem_cons_self ..))
    have hfetched : ready.fetch.core.flow = ready.core.flow := by
      rw [Machine.fetch_core]
    have hexecuted := (ready.fetch.execute_timing hrpt hrptk).2.2
    exact ((ih fun e he => hplain e (List.mem_cons_of_mem _ he)).trans hexecuted).trans
      (hfetched.trans hcalm.flow)

/-- With the machines forgotten the instruction words are left. -/
theorem straight (h : Executes first executions third) :
    Straight first (executions.map fun e => e.1.core.opcode) third := by
  induction h with
  | rest hcalm => exact .rest hcalm
  | instruction hcalm _ ih => exact .instruction hcalm ih

end Executes

/-- A course that serves nothing goes through its executions as long as its instructions are plain. -/
theorem Course.executes {start later : Machine} {moments : List Moment}
    (h : Course start moments later) (hserved : ∀ moment ∈ moments, moment.served? = none)
    (hflow : start.core.flow = .normal)
    (hplain : ∀ e ∈ moments.filterMap Moment.execution?, e.2 = e.1.op → e.2.isPlain = true) :
    Executes start (moments.filterMap Moment.execution?) later := by
  induction h with
  | rest hcalm => exact .rest hcalm
  | @poll before poll after moments hcalm _ ih =>
    have hnone : poll.core.pendingSource? = none :=
      Option.map_eq_none_iff.mp (hserved _ (List.mem_cons_self ..))
    have hpolled : before.CalmTo poll.served := by
      rw [Machine.served_of_none hnone]
      exact hcalm
    have hrest := ih (fun moment hmoment => hserved moment (List.mem_cons_of_mem _ hmoment))
      (hpolled.flow.trans hflow) hplain
    exact hrest.after_calm hpolled
  | @instruction before ready after moments hcalm _ ih =>
    have hfirst : (ready.fetch, ready.fetch.op) ∈
        (Moment.executions ready.instruction ++ moments).filterMap Moment.execution? := by
      rw [Machine.instruction]
      exact List.mem_cons_self ..
    obtain ⟨hexecuted, hsingle, hnext⟩ :=
      Machine.instruction_of_plain (hcalm.flow.trans hflow) (hplain _ hfirst rfl)
    rw [hsingle] at hserved hplain ⊢
    rw [hnext] at ih
    refine .instruction hcalm (ih ?_ hexecuted ?_)
    · exact fun moment hmoment => hserved moment (List.mem_cons_of_mem _ hmoment)
    · exact fun e hmem => hplain e (List.mem_cons_of_mem _ hmem)

/-- It is straight as long as its words are those of plain instructions. -/
theorem Course.straight {start later : Machine} {moments : List Moment}
    (h : Course start moments later) (hserved : ∀ moment ∈ moments, moment.served? = none)
    (hflow : start.core.flow = .normal)
    (hplain : ∀ word ∈ moments.filterMap Moment.word?, (decode word).handler.isPlain = true) :
    Straight start (moments.filterMap Moment.word?) later := by
  have hwords : moments.filterMap Moment.word? =
      (moments.filterMap Moment.execution?).map fun e => e.1.core.opcode := by
    rw [List.map_filterMap]
    exact List.filterMap_congr fun moment _ => by cases moment <;> rfl
  rw [hwords] at hplain ⊢
  refine (h.executes hserved hflow fun e he hop => ?_).straight
  rw [hop]
  exact hplain _ (List.mem_map_of_mem he)

/-- So is what a host lets a core perform between two steps. -/
theorem Machine.Performs.straight {start later : Machine} {words : List Half}
    (h : start.Performs words later) (hflow : start.core.flow = .normal)
    (hplain : ∀ word ∈ words, (decode word).handler.isPlain = true) : Straight start words later := by
  obtain ⟨moments, htimeline, rfl, hserved⟩ := h
  exact htimeline.course.straight hserved hflow hplain

end ProcessorCores.Tms

import ProcessorCores.Proofs.Tms.Requests
import ProcessorCores.Proofs.Tms.Turns

/-!
# Requests are kept and served in order

A core looks for a request to serve at the start of each step, when a run finds it idle, and at each
reload of the timer that an advance comes to. These moments are its polls, and they are listed below
for all that a host can let a core do, each poll as the core at that moment.

From one poll to the next a core is quiet, and calm as far as nothing is executed, which `Trail` puts
down. So a request that is raised lasts until a poll serves its source, and what is served, in which
order, can be read off the list.
-/

namespace ProcessorCores.Tms

namespace Core

/-! ## One service -/

/-- What serving a source makes of a core. -/
structure ServedTo (poll : Core) (source : Source) (after : Core) : Prop where
  unmasked : poll.regs.has .intm = false
  afterEint : poll.opcode ≠ 0xCE00
  requested : meets (poll.regs.ifr &&& poll.ram.imr) source.bit = true
  lowest : ∀ other : Source, other.number < source.number →
    meets (poll.regs.ifr &&& poll.ram.imr) other.bit = false
  requests : after.regs.ifr = poll.regs.ifr &&& ~~~source.bit
  masked : after.regs.has .intm = true
  awake : after.idle = false
  pushed : after.regs.stack = (poll.regs.push poll.regs.pc).stack
  vector : after.regs.pc = source.vector

end Core

/-- The interrupt mask reads back as it was set. -/
theorem Status.has_put_intm (status : Status) (on : Bool) : (status.put .intm on).has .intm = on := by
  have hmask : St0.intm = BitVec.twoPow 16 9 := by decide
  have hbit : St0.intm.getLsbD 9 = true := by decide
  have hfixed : St0.fixed.getLsbD 9 = false := by decide
  change meets (assign status.st0 St0.intm on ||| St0.fixed) St0.intm = on
  rw [hmask, meets_twoPow _ (by decide), ← hmask, BitVec.getLsbD_or, getLsbD_assign, if_pos hbit,
    hfixed, Bool.or_false]

/-- The sources are listed in the order of their numbers. -/
theorem Source.mem_of_number_lt {before rest : List Source} {source other : Source}
    (hall : Source.all = before ++ source :: rest) (hless : other.number < source.number) :
    other ∈ before := by
  have hsorted : Source.all.Pairwise (fun first second => first.number < second.number) := by decide
  have hmem : other ∈ Source.all := by cases other <;> decide
  rw [hall] at hsorted hmem
  rcases List.mem_append.mp hmem with hbefore | hrest
  · exact hbefore
  · rcases List.mem_cons.mp hrest with rfl | hrest
    · exact absurd hless (Nat.lt_irrefl _)
    · have hafter := (List.pairwise_cons.mp (List.pairwise_append.mp hsorted).2.1).1 other hrest
      exact absurd hless (Nat.lt_asymm hafter)

/-- A request is one bit of the interrupt flags. -/
theorem Source.meets_bit (requests : Half) (source : Source) :
    meets requests source.bit = requests.getLsbD source.number := by
  have hbit : source.bit = BitVec.twoPow 16 source.number := by cases source <;> decide
  rw [hbit]
  exact meets_twoPow requests (by cases source <;> decide)

/-- Each source has a bit to itself. -/
theorem Source.getLsbD_bit_of_ne {source other : Source} (h : other ≠ source) :
    other.bit.getLsbD source.number = false := by
  revert h
  cases other <;> cases source <;> decide

namespace Core

/-- A poll that finds a source serves it. -/
theorem servedTo_service {poll : Core} {source : Source} (h : poll.pendingSource? = some source) :
    poll.ServedTo source poll.service.1 := by
  have hservice : poll.service.1 = poll.serve source := by
    rw [service, h]
  rw [pendingSource?] at h
  split at h
  · contradiction
  · next hopen =>
    rw [not_or] at hopen
    obtain ⟨hbit, before, rest, hall, hbefore⟩ := List.find?_eq_some_iff_append.mp h
    rw [hservice]
    constructor
    case unmasked => exact Bool.eq_false_iff.mpr hopen.1
    case afterEint => exact hopen.2
    case requested => exact hbit
    case lowest =>
      intro other hless
      have := hbefore other (Source.mem_of_number_lt hall hless)
      rwa [Bool.not_eq_true'] at this
    case requests => cases source <;> rfl
    case masked => exact Status.has_put_intm _ true
    case awake => rfl
    case pushed => cases source <;> rfl
    case vector => rfl

/-- A poll that finds nothing changes nothing. -/
theorem service_of_none {poll : Core} (h : poll.pendingSource? = none) : poll.service.1 = poll := by
  rw [service, h]

/-- The source that a poll serves, if it serves one, and the address at which it does. -/
def served? (poll : Core) : Option (Source × Half) :=
  poll.pendingSource?.map fun source => (source, poll.regs.pc)

/-- A service is reported. -/
theorem service_interrupts (poll : Core) :
    poll.service.1.interrupts = poll.served?.toList ++ poll.interrupts := by
  unfold service served?
  cases poll.pendingSource? with
  | some source => cases source <;> rfl
  | none => rfl

/-! ## Polls -/

/-- The poll of an advance of the timer: the core at the reload, if it comes to one. -/
def advancePolls (core : Core) (budget : Budget) (clocks : Nat) : List Core :=
  let counted := core.countClocks budget clocks
  if counted.2.2 then [counted.1] else []

/-- The polls while a budget passes in at most so many advances. -/
def stallPolls (core : Core) (budget : Budget) : Nat → List Core
  | 0 => []
  | count + 1 =>
    if budget.isExhausted then []
    else
      let advanced := core.advanceTimer budget (clocksLeft budget)
      core.advancePolls budget (clocksLeft budget) ++ advanced.1.stallPolls advanced.2 count

/-- The polls while an idle core waits for at most so many advances. -/
def waitPolls (core : Core) (budget : Budget) : Nat → List Core
  | 0 => []
  | count + 1 =>
    if !core.idle || budget.isExhausted then []
    else
      let advanced := core.advanceTimer budget (clocksLeft budget)
      core.advancePolls budget (clocksLeft budget) ++ advanced.1.waitPolls advanced.2 count

/-- The polls of a core that lets the budget pass if it is stalled. -/
def stallIfPolls (core : Core) (budget : Budget) : List Core :=
  if core.isStalled then core.stallPolls budget budget.remaining.toNat else []

/-- The polls at the sample of the hold input. -/
def sampleHoldPolls (core : Core) (budget : Budget) : List Core :=
  if core.holdLine then
    let core := if core.hold then core else core.report (.holdAcknowledged core.regs.pc)
    { core with hold := true }.stallIfPolls budget
  else if core.hold then
    { core.report (.holdReleased core.regs.pc) with hold := false }.advancePolls budget 3
  else []

/-- The poll that may wake an idle core at the start of a run. -/
def wakePolls (core : Core) (budget : Budget) : List Core :=
  if core.idle && !budget.isExhausted then [core] else []

/-- The polls before the first step of a run. -/
def beginRunPolls (core : Core) (budget : Budget) : List Core :=
  let sampled := core.sampleHold budget
  let woken := sampled.1.wake sampled.2
  core.sampleHoldPolls budget ++ sampled.1.wakePolls sampled.2 ++
    woken.1.waitPolls woken.2 woken.2.remaining.toNat

/-- The polls after a step of so many clocks. -/
def settlePolls (core : Core) (budget : Budget) (clocks : Nat) : List Core :=
  let advanced := core.advanceTimer budget clocks
  let waited := advanced.1.wait advanced.2
  core.advancePolls budget clocks ++
    advanced.1.waitPolls advanced.2 advanced.2.remaining.toNat ++ waited.1.stallIfPolls waited.2

end Core

namespace Machine

/-- The polls of a turn of a run: one at the start of its step, and those after the step. -/
def turnPolls (machine : Machine) (budget : Budget) : List Core :=
  machine.core :: machine.step.1.core.settlePolls budget machine.step.2

/-- The polls of at most so many turns. -/
def turnsPolls (machine : Machine) (budget : Budget) : Nat → List Core
  | 0 => []
  | count + 1 =>
    if budget.isExhausted then []
    else
      machine.turnPolls budget ++
        (machine.turn budget).1.turnsPolls (machine.turn budget).2 count

/-- The polls of a run that is cut off after so many turns. -/
def runPolls (machine : Machine) (budget : Budget) (count : Nat) : List Core :=
  machine.core.beginRunPolls budget ++
    (machine.beginRun budget).1.turnsPolls (machine.beginRun budget).2 count

end Machine

/-! ## Trails -/

namespace Core

/-- A core goes from poll to poll, and `quiet` relates what it is before and after all in between. -/
inductive Trail (quiet : Core → Core → Prop) : Core → List Core → Core → Prop
  | rest {before after : Core} : quiet before after → Trail quiet before [] after
  | poll {before poll after : Core} {polls : List Core} : quiet before poll →
    Trail quiet poll.service.1 polls after → Trail quiet before (poll :: polls) after

namespace Trail

variable {quiet : Core → Core → Prop} {first second third : Core} {polls more : List Core}

/-- The empty trail. -/
theorem refl [Std.Refl quiet] (core : Core) : Trail quiet core [] core := .rest (refl_of quiet core)

/-- A quiet start makes no poll. -/
theorem after_quiet [IsTrans Core quiet] (h : quiet first second)
    (h' : Trail quiet second polls third) : Trail quiet first polls third := by
  cases h' with
  | rest hquiet => exact .rest (trans_of quiet h hquiet)
  | poll hquiet hrest => exact .poll (trans_of quiet h hquiet) hrest

/-- One trail after another. -/
theorem trans [IsTrans Core quiet] (h : Trail quiet first polls second)
    (h' : Trail quiet second more third) : Trail quiet first (polls ++ more) third := by
  induction h with
  | rest hquiet => exact after_quiet hquiet h'
  | poll hquiet _ ih => exact .poll hquiet (ih h')

/-- Nor does a quiet end. -/
theorem then_quiet [IsTrans Core quiet] (h : Trail quiet first polls second)
    (h' : quiet second third) : Trail quiet first polls third := by
  have htrail := h.trans (.rest h')
  rwa [List.append_nil] at htrail

/-- A trail may be cut at any of its polls. -/
theorem split {poll : Core} (h : Trail quiet first (polls ++ poll :: more) third) :
    Trail quiet first polls poll ∧ Trail quiet poll.service.1 more third := by
  induction polls generalizing first with
  | nil =>
    cases h with
    | poll hquiet hrest => exact ⟨.rest hquiet, hrest⟩
  | cons other polls ih =>
    cases h with
    | poll hquiet hrest => exact ⟨.poll hquiet (ih hrest).1, (ih hrest).2⟩

/-- A calm trail is a quiet one. -/
theorem quiet_of_calm (h : Trail CalmTo first polls second) : Trail QuietTo first polls second := by
  induction h with
  | rest hcalm => exact .rest hcalm.toQuietTo
  | poll hcalm _ ih => exact .poll hcalm.toQuietTo ih

end Trail

/-! ### Requests along a trail -/

/-- True when no request bit is set but those of the six sources. -/
def WithinSources (core : Core) : Prop := core.regs.ifr &&& ~~~0x3F = 0

/-- A request of the first core is there in the last, unless a poll in between serves its source. -/
def KeptUntilServed (before : Core) (polls : List Core) (after : Core) : Prop :=
  ∀ source : Source, meets before.regs.ifr source.bit = true →
    (∀ poll ∈ polls, poll.pendingSource? ≠ some source) →
      meets after.regs.ifr source.bit = true

/-- What holds of requests and services from one core to a later one. -/
structure Orderly (earlier : Core) (polls : List Core) (later : Core) : Prop where
  sources : later.WithinSources
  pollSources : ∀ poll ∈ polls, poll.WithinSources
  kept : earlier.KeptUntilServed polls later
  keptToPoll : ∀ before poll rest, polls = before ++ poll :: rest →
    earlier.KeptUntilServed before poll
  keptFromPoll : ∀ before poll rest, polls = before ++ poll :: rest →
    poll.KeptUntilServed (poll :: rest) later
  keptBetweenPolls : ∀ before poll between next rest,
    polls = before ++ poll :: (between ++ next :: rest) →
      poll.KeptUntilServed (poll :: between) next
  served : ∀ poll ∈ polls, ∀ source, poll.pendingSource? = some source →
    poll.ServedTo source poll.service.1
  interrupts : later.interrupts = (polls.filterMap served?).reverse ++ earlier.interrupts

/-- What is raised is raised by one of the sources. -/
theorem QuietTo.withinSources {before after : Core} (h : before.QuietTo after)
    (hbefore : before.WithinSources) : after.WithinSources := by
  have hzero : RaisedTo 0 before.regs.ifr := ⟨before.regs.ifr, hbefore, BitVec.zero_or.symm⟩
  obtain ⟨bits, hbits, hafter⟩ := hzero.trans h.requests
  rw [WithinSources, hafter]
  exact (congrArg (· &&& ~~~Source.allBits) BitVec.zero_or).trans hbits

/-- A service leaves the flag register within the sources. -/
theorem service_withinSources {core : Core} (h : core.WithinSources) :
    core.service.1.WithinSources := by
  cases hsource : core.pendingSource? with
  | none =>
    rw [service_of_none hsource]
    exact h
  | some source =>
    rw [WithinSources, (servedTo_service hsource).requests, BitVec.and_assoc,
      BitVec.and_comm (~~~source.bit), ← BitVec.and_assoc]
    exact (congrArg (· &&& ~~~source.bit) h).trans BitVec.zero_and

/-- A request that is there stays while the core is quiet. -/
theorem QuietTo.requested {before after : Core} (h : before.QuietTo after) {source : Source}
    (hset : meets before.regs.ifr source.bit = true) : meets after.regs.ifr source.bit = true := by
  obtain ⟨bits, -, hafter⟩ := h.requests
  rw [Source.meets_bit] at hset ⊢
  rw [hafter, BitVec.getLsbD_or, hset, Bool.true_or]

/-- So it does when another source is served. -/
theorem service_requested {poll : Core} {source : Source} (h : poll.pendingSource? ≠ some source)
    (hset : meets poll.regs.ifr source.bit = true) :
    meets poll.service.1.regs.ifr source.bit = true := by
  cases hother : poll.pendingSource? with
  | none =>
    rw [service_of_none hother]
    exact hset
  | some other =>
    have hne : other ≠ source := fun heq => h (heq ▸ hother)
    rw [Source.meets_bit] at hset ⊢
    rw [(servedTo_service hother).requests, BitVec.getLsbD_and, BitVec.getLsbD_not, hset,
      Source.getLsbD_bit_of_ne hne]
    cases source <;> rfl

namespace Trail

variable {first last : Core} {polls : List Core}

/-- A trail leaves the flag register within the sources. -/
theorem withinSources (h : Trail QuietTo first polls last) (hfirst : first.WithinSources) :
    last.WithinSources := by
  induction h with
  | rest hquiet => exact hquiet.withinSources hfirst
  | poll hquiet _ ih => exact ih (service_withinSources (hquiet.withinSources hfirst))

/-- Along a trail a request stands until it is served. -/
theorem keptUntilServed (h : Trail QuietTo first polls last) : first.KeptUntilServed polls last := by
  intro source hset hnone
  -- Along the trail: the poll at the head serves another source or none, and the rest is shorter.
  induction h with
  | rest hquiet => exact hquiet.requested hset
  | poll hquiet _ ih =>
    have hpoll := service_requested (hnone _ (List.mem_cons_self ..)) (hquiet.requested hset)
    exact ih hpoll fun other hother => hnone other (List.mem_cons_of_mem _ hother)

/-- The interrupts recorded at the end of a trail are those its polls served, newest first. -/
theorem interrupts (h : Trail QuietTo first polls last) :
    last.interrupts = (polls.filterMap served?).reverse ++ first.interrupts := by
  induction h with
  | rest hquiet => exact hquiet.interrupts
  | @poll before poll after polls hquiet _ ih =>
    rw [ih, service_interrupts, hquiet.interrupts]
    cases hserved : poll.served? with
    | some served => simp [hserved]
    | none => simp [hserved]

/-- A poll begins a trail of its own. -/
theorem from_poll {poll : Core} {rest : List Core} (h : Trail QuietTo poll.service.1 rest last) :
    Trail QuietTo poll (poll :: rest) last := .poll (.refl poll) h

/-- Every trail is orderly. -/
theorem isOrderly (h : Trail QuietTo first polls last) (hfirst : first.WithinSources) :
    first.Orderly polls last where
  sources := h.withinSources hfirst
  pollSources poll hpoll := by
    obtain ⟨before, rest, rfl⟩ := List.append_of_mem hpoll
    exact h.split.1.withinSources hfirst
  kept := h.keptUntilServed
  keptToPoll before poll rest hpolls := by
    subst hpolls
    exact h.split.1.keptUntilServed
  keptFromPoll before poll rest hpolls := by
    subst hpolls
    exact h.split.2.from_poll.keptUntilServed
  keptBetweenPolls before poll between next rest hpolls := by
    subst hpolls
    exact h.split.2.split.1.from_poll.keptUntilServed
  served poll _ source hsource := servedTo_service hsource
  interrupts := h.interrupts

end Trail

variable {core : Core} {budget : Budget}

/-- Ticks of the timer follow the trail of their polls. -/
theorem trail_advanceTimer (core : Core) (budget : Budget) (clocks : Nat) :
    Trail CalmTo core (core.advancePolls budget clocks) (core.advanceTimer budget clocks).1 := by
  have hcounted := core.countClocks_calm budget clocks
  unfold advancePolls advanceTimer
  rcases hcount : core.countClocks budget clocks with ⟨counted, left, reloaded⟩
  rw [hcount] at hcounted
  -- The clocks of a service may come to a reload again. INTM is set by then, and it makes no poll.
  cases reloaded with
  | false => exact .rest hcounted
  | true => exact .poll hcounted (.rest (countClocks_calm _ _ _))

/-- Stalled clocks follow the trail of their polls. -/
theorem trail_stallFor (core : Core) (budget : Budget) (count : Nat) :
    Trail CalmTo core (core.stallPolls budget count) (core.stallFor budget count).1 := by
  induction count generalizing core budget with
  | zero => exact .refl core
  | succ count ih =>
    rw [stallPolls, stallFor]
    split
    · exact .refl core
    · exact (core.trail_advanceTimer _ _).trans (ih _ _)

/-- Idle clocks follow the trail of their polls. -/
theorem trail_waitFor (core : Core) (budget : Budget) (count : Nat) :
    Trail CalmTo core (core.waitPolls budget count) (core.waitFor budget count).1 := by
  induction count generalizing core budget with
  | zero => exact .refl core
  | succ count ih =>
    rw [waitPolls, waitFor]
    split
    · exact .refl core
    · exact (core.trail_advanceTimer _ _).trans (ih _ _)

/-- The stall that opens a run follows the trail of its polls. -/
theorem trail_stallIf (core : Core) (budget : Budget) :
    Trail CalmTo core (core.stallIfPolls budget)
      (if core.isStalled then core.stall budget else (core, budget)).1 := by
  unfold stallIfPolls
  split
  · exact core.trail_stallFor budget _
  · exact .refl core

/-- Sampling the hold pin follows the trail of its polls. -/
theorem trail_sampleHold (core : Core) (budget : Budget) :
    Trail CalmTo core (core.sampleHoldPolls budget) (core.sampleHold budget).1 := by
  unfold sampleHoldPolls sampleHold
  split
  · refine .after_quiet ?_ (trail_stallIf _ budget)
    split
    · exact ⟨⟨.refl _, rfl⟩, rfl, rfl, rfl, rfl, rfl, rfl⟩
    · exact ⟨⟨.refl _, rfl⟩, rfl, rfl, rfl, rfl, rfl, rfl⟩
  · split
    · have hreleased : core.CalmTo
          { core.report (.holdReleased core.regs.pc) with hold := false } :=
        ⟨⟨.refl _, rfl⟩, rfl, rfl, rfl, rfl, rfl, rfl⟩
      exact .after_quiet hreleased (trail_advanceTimer _ budget 3)
    · exact .refl core

/-- Waking follows the trail of its polls. -/
theorem trail_wake (core : Core) (budget : Budget) :
    Trail CalmTo core (core.wakePolls budget) (core.wake budget).1 := by
  unfold wakePolls wake
  split
  · exact .poll (.refl core) (.rest ⟨⟨.refl _, rfl⟩, rfl, rfl, rfl, rfl, rfl, rfl⟩)
  · exact .refl core

/-- The start of a run follows the trail of its polls. -/
theorem trail_beginRun (core : Core) (budget : Budget) :
    Trail CalmTo core (core.beginRunPolls budget) (core.beginRun budget).1 :=
  ((core.trail_sampleHold budget).trans (trail_wake _ _)).trans (trail_waitFor _ _ _)

/-- Settling a step follows the trail of its polls. -/
theorem trail_settle (core : Core) (budget : Budget) (clocks : Nat) :
    Trail CalmTo core (core.settlePolls budget clocks) (core.settle budget clocks).1 :=
  ((core.trail_advanceTimer budget clocks).trans (trail_waitFor _ _ _)).trans (trail_stallIf _ _)

end Core

namespace Machine

/-- A step polls once, where it starts. -/
theorem trail_step (machine : Machine) :
    Core.Trail Core.QuietTo machine.core [machine.core] machine.step.1.core :=
  .poll (.refl _) (.rest machine.step_quiet)

/-- A turn follows the trail of its polls. -/
theorem trail_turn (machine : Machine) (budget : Budget) :
    Core.Trail Core.QuietTo machine.core (machine.turnPolls budget)
      (machine.turn budget).1.core := by
  rw [turn_core]
  exact machine.trail_step.trans (Core.trail_settle _ _ _).quiet_of_calm

/-- Turns follow the trail of their polls. -/
theorem trail_turns (machine : Machine) (budget : Budget) (count : Nat) :
    Core.Trail Core.QuietTo machine.core (machine.turnsPolls budget count)
      (machine.turns budget count).1.core := by
  induction count generalizing machine budget with
  | zero => exact .refl _
  | succ count ih =>
    rw [turnsPolls, turns]
    split
    · exact .refl _
    · exact (machine.trail_turn budget).trans (ih _ _)

/-- A run follows the trail of its polls. -/
theorem trail_run (machine : Machine) (budget : Budget) (count : Nat) :
    Core.Trail Core.QuietTo machine.core (machine.runPolls budget count)
      ((machine.beginRun budget).1.turns (machine.beginRun budget).2 count).1.core := by
  have hbegun := machine.core.trail_beginRun budget
  rw [← beginRun_core] at hbegun
  exact hbegun.quiet_of_calm.trans (trail_turns _ _ _)

end Machine

/-! ## Histories -/

/-- What a host can do to a machine short of resetting it, patching it or putting a state in place,
with all polls that come of it. A run may be cut off after any number of turns, so that every boundary
inside it counts. -/
inductive History (start : Machine) : List Core → Machine → Prop
  | start : History start [] start
  | step {polls : List Core} {machine : Machine} : History start polls machine →
    History start (polls ++ [machine.core]) machine.step.1
  | run {polls : List Core} {machine : Machine} (budget : Budget) (count : Nat) :
    History start polls machine →
      History start (polls ++ machine.runPolls budget count)
        ((machine.beginRun budget).1.turns (machine.beginRun budget).2 count).1
  | line {polls : List Core} {machine : Machine} (line : Nat) (asserted : Bool) :
    History start polls machine →
      History start polls (machine.mapCore (·.setInputLine line asserted))
  | bio {polls : List Core} {machine : Machine} (asserted : Bool) :
    History start polls machine → History start polls (machine.mapCore (·.setBio asserted))
  | hold {polls : List Core} {machine : Machine} (asserted : Bool) :
    History start polls machine → History start polls (machine.mapCore (·.setHold asserted))
  | serialInput {polls : List Core} {machine : Machine} (word : Half) :
    History start polls machine → History start polls (machine.mapCore (·.setSerialInput word))
  | serialOutput {polls : List Core} {machine : Machine} :
    History start polls machine → History start polls (machine.mapCore (·.takeSerialOutput.2))
  | bus {polls : List Core} {machine : Machine} (bus : Bus) :
    History start polls machine → History start polls { machine with bus := bus }

namespace History

variable {start machine : Machine} {polls : List Core}

/-- A run that returns is part of a history. -/
theorem returned {other : Machine} {budget left : Budget} (h : History start polls machine)
    (hrun : machine.run budget = some (other, left)) :
    ∃ more, History start (polls ++ more) other := by
  obtain ⟨⟨count, hturns⟩, -⟩ := Machine.turns_of_run hrun
  have hother := h.run budget count
  rw [hturns] at hother
  exact ⟨_, hother⟩

/-- A history is a trail. -/
theorem trail (h : History start polls machine) :
    Core.Trail Core.QuietTo start.core polls machine.core := by
  induction h with
  | start => exact .refl _
  | step _ ih => exact ih.trans (Machine.trail_step _)
  | run budget count _ ih => exact ih.trans (Machine.trail_run _ budget count)
  | line line asserted _ ih => exact ih.then_quiet (Core.setInputLine_quiet _ line asserted)
  | bio _ _ ih => exact ih.then_quiet ⟨.refl _, rfl⟩
  | hold _ _ ih => exact ih.then_quiet ⟨.refl _, rfl⟩
  | serialInput _ _ ih => exact ih.then_quiet ⟨.refl _, rfl⟩
  | serialOutput _ ih => exact ih.then_quiet ⟨.refl _, rfl⟩
  | bus _ _ ih => exact ih

/-- In all that follows power-on, requests are kept until they are served and served in order. -/
theorem orderly {model : Model} {bus : Bus} {past polls : List Core} {earlier later : Machine}
    (hpast : History ⟨.new model, bus⟩ past earlier) (h : History earlier polls later) :
    earlier.core.Orderly polls later.core := by
  have hnew : (Core.new model).WithinSources := BitVec.zero_and
  exact h.trail.isOrderly (hpast.trail.withinSources hnew)

/-- Sources 2 and 0 request while a program enables all interrupts. Source 0, and it alone, is served
after the instruction that follows EINT, so that the next word is fetched at address 2. As that word is an
EINT as well, source 2 is served one instruction later, at address 6. -/
theorem orderly_two_requests :
    let start : Machine :=
      ⟨.new .tms32025, Bus.empty.loadHalves .program 0 [0xCA3F, 0x6004, 0xCE00, 0xCA01]⟩
    ∃ polls between all later, start.core.Orderly polls between ∧
      between.interrupts = [(.int0, 4)] ∧ between.prevPc = 0x0002 ∧
      between.regs.ifr = Source.int2.bit ∧ start.core.Orderly all later ∧
      later.interrupts = [(.int2, 4), (.int0, 4)] ∧ later.prevPc = 0x0006 ∧ later.regs.ifr = 0 := by
  intro start
  have hlines := ((History.start : History start [] start).line 2 true).line 0 true
  have hfirst := hlines.step.step.step.step.step
  exact ⟨_, _, _, _, orderly .start hfirst, by decide +kernel, by decide +kernel, by decide +kernel,
    orderly .start hfirst.step.step, by decide +kernel, by decide +kernel, by decide +kernel⟩

end History

end ProcessorCores.Tms

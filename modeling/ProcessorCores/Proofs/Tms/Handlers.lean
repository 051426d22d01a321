import ProcessorCores.Proofs.Tms.Courses

/-!
# Handlers that cannot nest

The shortest handler of a request is EINT followed by RET. A service sets the interrupt mask, and the
word fetched last being EINT holds service back for one more instruction, so nothing is served between
the service and the end of RET, whichever requests come in meanwhile. RET takes the return address
that the service has pushed, and the hardware stack is as it was but for its lowest entry, which the
push has lost.

So requests that are served one after the other without anything else being executed leave the core
where it was, however many there are. All this holds for any core. One that is about to repeat an
instruction when it serves a request will repeat RET, and it is the first pass that returns.
-/

namespace ProcessorCores.Tms

/-! ## What is promised -/

/-- The handler of a source is EINT followed by RET. -/
def Machine.HasBareHandler (machine : Machine) (source : Source) : Prop :=
  machine.programWord source.vector = 0xCE00 ∧ machine.programWord (source.vector + 1) = 0xCE26

/-- Whether a handler is bare is decided by its two words. -/
instance (machine : Machine) (source : Source) : Decidable (machine.HasBareHandler source) :=
  inferInstanceAs (Decidable (_ ∧ _))

namespace Core

/-- Two cores are at one address with the same seven topmost entries on the stack. -/
structure SamePlace (core other : Core) : Prop where
  pc : other.regs.pc = core.regs.pc
  stack : ∀ (entry : Nat) (h : entry < 8), 1 ≤ entry →
    other.regs.stack[entry] = core.regs.stack[entry]

end Core

/-- What an execution does that returns to a poll: RET leaves the core at the place of the poll, where
nothing holds service back. -/
structure Machine.ReturnsTo (poll : Core) (machine : Machine) (op : Op) : Prop where
  isRet : op = .register .ret
  place : poll.SamePlace (machine.execute op).1.core
  unmasked : (machine.execute op).1.core.regs.has .intm = false
  afterRet : (machine.execute op).1.core.opcode ≠ 0xCE00

namespace Moment

/-- No request is served before the next execution, and that meets a condition, which may speak of
what follows it. -/
def NextExecution (condition : Machine → Op → List Moment → Prop) : List Moment → Prop
  | [] => True
  | .poll machine :: rest =>
    machine.core.pendingSource? = none ∧ NextExecution condition rest
  | .execution machine op :: rest => condition machine op rest

/-- What follows a poll whose request is handled without nesting: EINT is executed next, then RET, and
no request is served before either of them. -/
def Handled (poll : Core) : List Moment → Prop :=
  NextExecution fun _ op rest =>
    op = .flag .eint ∧ NextExecution (fun machine op _ => machine.ReturnsTo poll op) rest

/-- The executions that bare handlers are owed after so many moments: two for each service, less those
that have come. No result once something else is served or executed. -/
def owed : Nat → List Moment → Option Nat
  | count, [] => some count
  | count, .poll machine :: rest =>
    match machine.core.pendingSource? with
    | none => owed count rest
    | some source => if machine.HasBareHandler source then owed (count + 2) rest else none
  | 0, .execution _ _ :: _ => none
  | count + 1, .execution _ _ :: rest => owed count rest

end Moment

/-! ## The stack -/

/-- RET takes what a service has pushed. -/
theorem Registers.pop_of_push {regs before : Registers} {value : Half}
    (h : regs.stack = (before.push value).stack) :
    regs.top = value ∧
      ∀ (entry : Nat) (h : entry < 8), 1 ≤ entry → regs.pop.stack[entry] = before.stack[entry] := by
  rw [top, pop, h]
  refine ⟨rfl, fun entry hentry hpositive => ?_⟩
  match entry with
  | 1 | 2 | 3 | 4 | 5 | 6 | 7 => rfl

namespace Core

/-- A core is at its own place. -/
theorem SamePlace.refl (core : Core) : core.SamePlace core := ⟨rfl, fun _ _ _ => rfl⟩

/-- Being at one place is transitive. -/
theorem SamePlace.trans {first second third : Core} (h : first.SamePlace second)
    (h' : second.SamePlace third) : first.SamePlace third :=
  ⟨h'.pc.trans h.pc, fun entry hlt hpositive =>
    (h'.stack entry hlt hpositive).trans (h.stack entry hlt hpositive)⟩

/-- A calm stretch stays at one place. -/
theorem CalmTo.samePlace {before after : Core} (h : before.CalmTo after) :
    before.SamePlace after :=
  ⟨h.pc, fun entry hlt _ => by simp only [h.stack]⟩

end Core

namespace Machine

variable {poll : Core} {machine : Machine}

/-- The operation that a fetch brings in. -/
theorem fetch_op (machine : Machine) :
    machine.fetch.op = (decode (machine.programWord machine.core.regs.pc)).handler := by
  rw [op, fetch_core]
  rfl

/-- A service changes no program word. -/
theorem served_programWord (machine : Machine) (address : Half) :
    machine.served.programWord address = machine.programWord address := by
  apply programWord_congr
  · obtain ⟨_, _, _, _, _, _, _, _, hserved⟩ := machine.core.service_eq
    rw [served, hserved]
    rfl
  · exact fun _ => rfl

/-! ## Stages of a bare handler -/

/-- The handler that the service of a poll has led to is about to execute its EINT. -/
structure BeforeEint (poll : Core) (machine : Machine) : Prop where
  eint : machine.programWord machine.core.regs.pc = 0xCE00
  ret : machine.programWord (machine.core.regs.pc + 1) = 0xCE26
  masked : machine.core.regs.has .intm = true
  stack : machine.core.regs.stack = (poll.regs.push poll.regs.pc).stack

/-- It has executed its EINT and is about to execute its RET. -/
structure BeforeRet (poll : Core) (machine : Machine) : Prop where
  ret : machine.programWord machine.core.regs.pc = 0xCE26
  unmasked : machine.core.regs.has .intm = false
  shadow : machine.core.opcode = 0xCE00
  stack : machine.core.regs.stack = (poll.regs.push poll.regs.pc).stack

/-- A property of machines that calm leaves and that holds service back. -/
structure HoldsService (P : Machine → Prop) : Prop where
  calm : ∀ {before after : Machine}, P before → before.CalmTo after → P after
  unserved : ∀ {machine : Machine}, P machine → machine.core.pendingSource? = none

/-- Ahead of the EINT of a bare handler no service is possible. -/
theorem holdsService_beforeEint (poll : Core) : HoldsService (BeforeEint poll) where
  calm h hcalm := by
    constructor
    case eint => rw [hcalm.programWord, hcalm.core.pc, h.eint]
    case ret => rw [hcalm.programWord, hcalm.core.pc, h.ret]
    case masked =>
      rw [Registers.has, hcalm.core.status]
      exact h.masked
    case stack => rw [hcalm.core.stack, h.stack]
  unserved h := Core.pendingSource?_of_masked h.masked

/-- Ahead of the RET of a bare handler no service is possible. -/
theorem holdsService_beforeRet (poll : Core) : HoldsService (BeforeRet poll) where
  calm h hcalm := by
    constructor
    case ret => rw [hcalm.programWord, hcalm.core.pc, h.ret]
    case unmasked =>
      rw [Registers.has, hcalm.core.status]
      exact h.unmasked
    case shadow => rw [hcalm.core.opcode, h.shadow]
    case stack => rw [hcalm.core.stack, h.stack]
  unserved h := Core.pendingSource?_of_eint h.shadow

/-- A service leads to the EINT of a bare handler. -/
theorem HasBareHandler.beforeEint {source : Source} (h : machine.HasBareHandler source)
    (hsource : machine.core.pendingSource? = some source) :
    BeforeEint machine.core machine.served := by
  have hserved := Core.servedTo_service hsource
  have hpc : machine.served.core.regs.pc = source.vector := hserved.vector
  constructor
  case eint => rw [served_programWord, hpc, h.1]
  case ret => rw [served_programWord, hpc, h.2]
  case masked => exact hserved.masked
  case stack => exact hserved.pushed

/-- EINT leads to RET. -/
theorem BeforeEint.execute (h : BeforeEint poll machine) :
    machine.fetch.op = .flag .eint ∧
      BeforeRet poll (machine.fetch.execute machine.fetch.op).1 := by
  have hop : machine.fetch.op = .flag .eint := by
    rw [fetch_op, h.eint]
    decide +kernel
  rw [hop]
  refine ⟨rfl, ?_⟩
  have hcore : (machine.fetch.execute (.flag .eint)).1.core =
      machine.fetch.core.mapRegs (·.put .intm false) := rfl
  rw [fetch_core] at hcore
  have hword (address : Half) : (machine.fetch.execute (.flag .eint)).1.programWord address =
      machine.programWord address := by
    rw [← machine.fetch_programWord address]
    apply programWord_congr
    · rfl
    · exact fun _ => rfl
  constructor
  case ret =>
    rw [hword, hcore]
    exact h.ret
  case unmasked =>
    rw [hcore]
    exact Status.has_put_intm _ false
  case shadow =>
    rw [hcore]
    exact h.eint
  case stack =>
    rw [hcore]
    exact h.stack

/-- RET leads back, fetched by itself or as the instruction of a repeat block. -/
theorem BeforeRet.returnsTo (h : BeforeRet poll machine) {fetched : Machine}
    (hregs : fetched.core.regs = machine.fetch.core.regs)
    (hopcode : fetched.core.opcode = machine.fetch.core.opcode) :
    fetched.ReturnsTo poll fetched.op := by
  rw [fetch_core] at hregs hopcode
  have hret : fetched.core.opcode = 0xCE26 := hopcode.trans h.ret
  have hop : fetched.op = .register .ret := by
    rw [op, hret]
    decide +kernel
  rw [hop]
  constructor
  case isRet => rfl
  case place =>
    have hstack : fetched.core.regs.stack = (poll.regs.push poll.regs.pc).stack := by
      rw [hregs]
      exact h.stack
    have hpopped := Registers.pop_of_push hstack
    exact ⟨hpopped.1, hpopped.2⟩
  case unmasked =>
    change fetched.core.regs.has .intm = false
    rw [hregs]
    exact h.unmasked
  case afterRet =>
    change fetched.core.opcode ≠ 0xCE00
    rw [hret]
    decide

/-- The instruction that is fetched returns to the poll. -/
theorem BeforeRet.fetch_returnsTo (h : BeforeRet poll machine) :
    machine.fetch.ReturnsTo poll machine.fetch.op := h.returnsTo rfl rfl

/-- So does the one a repeat block would enter. -/
theorem BeforeRet.enterBlock_returnsTo (h : BeforeRet poll machine) :
    machine.enterBlock.ReturnsTo poll machine.enterBlock.op := h.returnsTo rfl rfl

end Machine

/-! ## Courses through handlers -/

namespace Course

variable {poll : Core} {machine later : Machine} {moments : List Moment}

/-- What holds service back leads to the next instruction. -/
theorem nextExecution {P : Machine → Prop} (hholds : Machine.HoldsService P)
    {condition : Machine → Op → List Moment → Prop} (h : Course machine moments later)
    (hmachine : P machine)
    (hnext : ∀ {ready : Machine} {rest : List Moment}, P ready →
      Course ready.executeNext.1 rest later →
        condition ready.fetch ready.fetch.op
          (Moment.executions (ready.fetch.execute ready.fetch.op).1.blockExecutions ++ rest)) :
    Moment.NextExecution condition moments := by
  induction h with
  | rest _ => trivial
  | poll hcalm _ ih =>
    have hpoll := hholds.calm hmachine hcalm
    have hnone := hholds.unserved hpoll
    rw [← Machine.served_of_none hnone] at hpoll
    exact ⟨hnone, ih hpoll hnext⟩
  | instruction hcalm hrest _ => exact hnext (hholds.calm hmachine hcalm) hrest

/-- Whatever a course starts with ahead of RET, the next execution returns to the poll. -/
theorem returns (h : Course machine moments later) (hmachine : machine.BeforeRet poll) :
    Moment.NextExecution (fun machine op _ => machine.ReturnsTo poll op) moments :=
  h.nextExecution (Machine.holdsService_beforeRet poll) hmachine
    fun hready _ => hready.fetch_returnsTo

/-- Whatever a course starts with ahead of EINT, EINT and RET come next. -/
theorem handled (h : Course machine moments later) (hmachine : machine.BeforeEint poll) :
    Moment.Handled poll moments := by
  apply h.nextExecution (Machine.holdsService_beforeEint poll) hmachine
  intro ready rest hready hrest
  obtain ⟨hop, hafter⟩ := hready.execute
  refine ⟨hop, ?_⟩
  cases hflow : (ready.fetch.execute ready.fetch.op).1.core.flow with
  | normal =>
    rw [Machine.executeNext_of_normal hflow] at hrest
    rw [Machine.blockExecutions_of_normal hflow]
    exact hrest.returns hafter
  | repeatBlock =>
    -- The service came upon a core about to repeat, and RET is what it repeats. One pass returns.
    obtain ⟨passes, hpasses⟩ := Machine.blockExecutions_of_repeat hflow
    rw [hpasses]
    exact hafter.enterBlock_returnsTo

end Course

/-! ## Nothing but handlers -/

namespace Machine

variable {base : Core} {machine : Machine} {count : Nat}

/-- Where a machine stands that executes nothing but bare handlers, and how many executions the last
of them is owed. However many have come before, it was called from the place of `base`. -/
inductive Standing (base : Core) (machine : Machine) : Nat → Prop
  | returned : base.SamePlace machine.core → Standing base machine 0
  | enabled {poll : Core} : base.SamePlace poll → BeforeRet poll machine → Standing base machine 1
  | entered {poll : Core} : base.SamePlace poll → BeforeEint poll machine → Standing base machine 2

/-- A calm stretch changes nothing about what stands. -/
theorem Standing.calm (h : Standing base machine count) {after : Machine}
    (hcalm : machine.CalmTo after) : Standing base after count := by
  cases h with
  | returned hplace => exact .returned (hplace.trans hcalm.core.samePlace)
  | enabled hplace hret => exact .enabled hplace ((holdsService_beforeRet _).calm hret hcalm)
  | entered hplace heint => exact .entered hplace ((holdsService_beforeEint _).calm heint hcalm)

/-- A request is served at the place of `base` only. -/
theorem Standing.served (h : Standing base machine count) {source : Source}
    (hsource : machine.core.pendingSource? = some source) (hbare : machine.HasBareHandler source) :
    Standing base machine.served (count + 2) := by
  have hserves : machine.core.pendingSource? ≠ none := by
    rw [hsource]
    exact Option.some_ne_none source
  cases h with
  | returned hplace => exact .entered hplace (hbare.beforeEint hsource)
  | enabled _ hret => exact absurd ((holdsService_beforeRet _).unserved hret) hserves
  | entered _ heint => exact absurd ((holdsService_beforeEint _).unserved heint) hserves

/-- An instruction takes the executions that it makes from those owed. -/
theorem Standing.instruction (h : Standing base machine count)
    (hlength : machine.instruction.length ≤ count) :
    Standing base machine.executeNext.1 (count - machine.instruction.length) := by
  rw [Machine.instruction, List.length_cons] at hlength ⊢
  cases h with
  | returned _ => exact absurd hlength (Nat.not_succ_le_zero _)
  | enabled hplace hret =>
    have hplace' := hplace.trans hret.fetch_returnsTo.place
    cases hflow : (machine.fetch.execute machine.fetch.op).1.core.flow with
    | normal =>
      rw [executeNext_of_normal hflow, blockExecutions_of_normal hflow]
      exact .returned hplace'
    | repeatBlock =>
      obtain ⟨passes, hpasses⟩ := blockExecutions_of_repeat hflow
      rw [hpasses] at hlength
      exact absurd hlength (by simp)
  | @entered poll hplace heint =>
    have hret := heint.execute.2
    cases hflow : (machine.fetch.execute machine.fetch.op).1.core.flow with
    | normal =>
      rw [executeNext_of_normal hflow, blockExecutions_of_normal hflow]
      exact .enabled hplace hret
    | repeatBlock =>
      have hlength' := Nat.le_of_succ_le_succ hlength
      rw [executeNext_of_repeat hflow, repeatBlock_of_length hflow hlength']
      obtain ⟨passes, hpasses⟩ := blockExecutions_of_repeat hflow
      rw [hpasses, List.length_cons] at hlength' ⊢
      have hsingle : 2 - (passes.length + 1 + 1) = 0 := by omega
      rw [hsingle]
      have hpass := hplace.trans hret.enterBlock_returnsTo.place
      exact .returned ⟨hpass.pc, hpass.stack⟩

end Machine

namespace Moment

/-- Executions are taken from those owed. -/
theorem owed_executions {executions : List (Machine × Op)} {moments : List Moment} {count left : Nat}
    (h : owed count (Moment.executions executions ++ moments) = some left) :
    executions.length ≤ count ∧ owed (count - executions.length) moments = some left := by
  induction executions generalizing count with
  | nil => exact ⟨Nat.zero_le _, h⟩
  | cons execution executions ih =>
    cases count with
    | zero => exact absurd h (Option.some_ne_none left).symm
    | succ count =>
      obtain ⟨hlength, howed⟩ := ih h
      rw [List.length_cons, Nat.add_sub_add_right]
      exact ⟨Nat.succ_le_succ hlength, howed⟩

end Moment

/-- Through nothing but bare handlers a machine stands where these leave it. -/
theorem Course.standing {base : Core} {machine later : Machine} {moments : List Moment}
    {count left : Nat} (h : Course machine moments later)
    (hstanding : machine.Standing base count) (howed : Moment.owed count moments = some left) :
    later.Standing base left := by
  induction h generalizing count with
  | rest hcalm =>
    obtain rfl : count = left := Option.some.inj howed
    exact hstanding.calm hcalm
  | @poll _ poll _ _ hcalm _ ih =>
    have hpoll := hstanding.calm hcalm
    rw [Moment.owed] at howed
    split at howed
    · next hnone =>
      rw [← Machine.served_of_none hnone] at hpoll
      exact ih hpoll howed
    · next source hsource =>
      split at howed
      · next hbare => exact ih (hpoll.served hsource hbare) howed
      · contradiction
  | instruction hcalm _ ih =>
    obtain ⟨hlength, hrest⟩ := Moment.owed_executions howed
    exact ih ((hstanding.calm hcalm).instruction hlength) hrest

/-- Handlers that consist of EINT and RET cannot nest, whatever requests come in while they run.
Between a service that finds such a handler and the end of its RET no other request is served, and RET
leaves the core at the address and with the seven topmost stack entries of the poll, open to the next
service. So requests served one after the other, with nothing else executed, leave it there as well,
however many there are; each service is reported. Every turn of a run executes something, and two
more of them end a handler. -/
theorem Timeline.handlers_return {start later : Machine} {moments : List Moment}
    (h : Timeline start moments later) :
    (∀ before poll source rest, moments = before ++ .poll poll :: rest →
      poll.core.pendingSource? = some source → poll.HasBareHandler source →
        Moment.Handled poll.core rest) ∧
    (Moment.owed 0 moments = some 0 → start.core.SamePlace later.core) ∧
    later.core.interrupts =
      (moments.filterMap Moment.served?).reverse ++ start.core.interrupts ∧
    ∀ budget count, (∀ earlier < count, (later.turns budget earlier).2.isExhausted = false) →
      count ≤ (later.turnsMoments budget count).countP Moment.isExecution := by
  have hcourse := h.course
  refine ⟨?_, ?_, hcourse.interrupts, fun budget count => Machine.le_countP_turnsMoments⟩
  · rintro before poll source rest rfl hsource hbare
    exact hcourse.after_poll.handled (hbare.beforeEint hsource)
  · intro howed
    cases hcourse.standing (.returned (.refl start.core)) howed with
    | returned hplace => exact hplace

/-- A TMS32025 at address 0 with two requests that are pending and enabled, and with handlers for
both. -/
def twoRequests : Machine where
  core := ((Core.new .tms32025).mapRegs fun regs => (regs.request 3).put .intm false).mapRam
    fun ram => { ram with imr := 3 }
  bus := Bus.empty.loadHalves .program 4 [0xCE00, 0xCE26, 0xCE00, 0xCE26]

/-- Both are served one after the other, the first of them at once, and nothing else is executed. -/
theorem handlers_return_two_requests :
    let later := ((twoRequests.beginRun ⟨48⟩).1.turns (twoRequests.beginRun ⟨48⟩).2 4).1
    let moments := twoRequests.runMoments ⟨48⟩ 4
    moments = .poll twoRequests :: moments.tail ∧ Moment.Handled twoRequests.core moments.tail ∧
      Moment.owed 0 moments = some 0 ∧ twoRequests.core.SamePlace later.core ∧
        later.core.interrupts = [(.int1, 0), (.int0, 0)] := by
  intro later moments
  have hfirst : moments = .poll twoRequests :: moments.tail := rfl
  have howed : Moment.owed 0 moments = some 0 := by decide +kernel
  have htimeline : Timeline twoRequests moments later := Timeline.start.run ⟨48⟩ 4
  obtain ⟨hhandled, hplace, hinterrupts, -⟩ := htimeline.handlers_return
  exact ⟨hfirst, hhandled [] twoRequests .int0 _ hfirst (by decide +kernel) (by decide +kernel),
    howed, hplace howed, hinterrupts.trans (by decide +kernel)⟩

end ProcessorCores.Tms

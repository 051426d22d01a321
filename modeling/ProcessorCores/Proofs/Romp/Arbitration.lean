import Mathlib.Data.List.FinRange
import Mathlib.Order.Bounds.Basic
import ProcessorCores.Proofs.Romp.Return

/-!
# Arbitration at a ROMP boundary

With the normal flow token a step begins by deciding what to take. A signalled machine check goes
first, whatever the mask. Then comes the lowest external level that is requested and below the
processor priority, unless all are masked. With neither, an instruction is executed.

`Machine.Arbitrates` states the rule on the bits of the registers; `Machine.TakenAt` lists what a step
leaves that takes an exception. A request is not consumed by its entry: only the line that made it
takes it back, and no line has a part in the request of another.
-/

namespace ProcessorCores.Romp

/-! ## Request bits -/

/-- The request bit of a level counts from the left of the halfword. -/
theorem Irb.request_eq {level : Nat} (h : level ≤ 6) :
    Irb.request level = BitVec.twoPow 32 (15 - level) := by
  have hall : ∀ level < 7, Irb.request level = BitVec.twoPow 32 (15 - level) := by decide
  exact hall level (Nat.lt_succ_of_le h)

/-- The mask bit is bit 12. -/
theorem Ics.meets_mask (ics : Word) : meets ics Ics.mask = ics.getLsbD 12 := by
  have hmask : Ics.mask = BitVec.twoPow 32 12 := by decide
  rw [hmask]
  exact meets_twoPow _ (by decide)

/-- The first index that a test finds is the least that passes it. -/
theorem find?_finRange_eq_some_iff {n : Nat} (test : Fin n → Bool) (i : Fin n) :
    (List.finRange n).find? test = some i ↔ IsLeast {i | test i = true} i := by
  rw [List.find?_eq_some_iff_getElem]
  simp only [List.getElem_finRange, List.length_finRange]
  constructor
  · rintro ⟨hi, index, hindex, rfl, hbefore⟩
    refine ⟨hi, fun j hj => ?_⟩
    by_contra hlt
    have hfails := hbefore j.val (by simpa [Fin.lt_def] using hlt)
    simp_all
  · rintro ⟨hi, hleast⟩
    refine ⟨hi, i.val, i.isLt, rfl, fun j hj => ?_⟩
    by_contra hpasses
    have hle := hleast (a := ⟨j, by omega⟩) (by simpa using hpasses)
    rw [Fin.le_def] at hle
    dsimp only at hle
    omega

namespace Registers

/-- True for the external levels that are requested and below the processor priority. -/
def Requests (regs : Registers) (level : Fin 7) : Prop :=
  level.val < (regs.ics &&& 7).toNat ∧ (regs.scr.get Scr.irb).getLsbD (15 - level.val) = true

/-- The search for a level meets those that are requested. -/
theorem requests_iff (regs : Registers) (level : Fin 7) :
    regs.Requests level ↔
      (level.val < (regs.ics &&& Ics.priority).toNat &&
        meets (regs.scr.get Scr.irb) (Irb.request level.val)) = true := by
  have hlevel : level.val ≤ 6 := Nat.le_of_lt_succ level.isLt
  rw [Irb.request_eq hlevel, meets_twoPow _ (by omega), Bool.and_eq_true, decide_eq_true_iff]
  rfl

/-- The level to take is the lowest of those that are requested. -/
theorem requestedLevel?_eq_some_iff (regs : Registers) (level : Fin 7) :
    regs.requestedLevel? = some level ↔
      regs.ics.getLsbD 12 = false ∧ IsLeast {level | regs.Requests level} level := by
  rw [requestedLevel?, Ics.meets_mask]
  cases regs.ics.getLsbD 12 with
  | true => simp
  | false => simp [find?_finRange_eq_some_iff, requests_iff]

/-- No level is requested when interrupts are masked or no level has a request. -/
theorem requestedLevel?_eq_none_iff (regs : Registers) :
    regs.requestedLevel? = none ↔ regs.ics.getLsbD 12 = true ∨ ∀ level, ¬ regs.Requests level := by
  rw [requestedLevel?, Ics.meets_mask]
  cases regs.ics.getLsbD 12 with
  | true => simp
  | false => simp [requests_iff]

end Registers

/-- The external levels are those that load a condition status. -/
theorem Exception.loadsCondition_iff (cause : Exception) :
    cause.loadsCondition = true ↔ cause.level < 7 := by
  cases cause with
  | interrupt level => exact iff_of_true rfl level.isLt
  | machineCheck => decide
  | programCheck => decide
  | supervisorCall code => exact iff_of_false Bool.false_ne_true (by decide : ¬ 9 < 7)

namespace Machine

/-! ## The decision -/

/-- What a boundary with the normal token decides on: an exception to take, or an instruction. -/
inductive Arbitrates (machine : Machine) : Option Exception → Prop
  | machineCheck {status : Word} (hcheck : machine.core.pendingMachineCheck = some status) :
    Arbitrates machine (some .machineCheck)
  | interrupt {level : Fin 7} (hcheck : machine.core.pendingMachineCheck = none)
    (hmask : machine.core.regs.ics.getLsbD 12 = false)
    (hlevel : IsLeast {level | machine.core.regs.Requests level} level) :
    Arbitrates machine (some (.interrupt level))
  | instruction (hcheck : machine.core.pendingMachineCheck = none)
    (hnone : machine.core.regs.ics.getLsbD 12 = true ∨
      ∀ level, ¬ machine.core.regs.Requests level) :
    Arbitrates machine none

/-- The rule decides on what is pending. -/
theorem arbitrates_iff {machine : Machine} (hflow : machine.core.flow = .normal)
    (taken : Option Exception) :
    machine.Arbitrates taken ↔ machine.pendingException? = taken := by
  rw [pendingException?, if_pos hflow]
  constructor
  · intro h
    cases h with
    | machineCheck hcheck => rw [hcheck]
    | interrupt hcheck hmask hlevel =>
      rw [hcheck]
      dsimp only
      rw [(Registers.requestedLevel?_eq_some_iff _ _).mpr ⟨hmask, hlevel⟩, Option.map_some]
    | instruction hcheck hnone =>
      rw [hcheck]
      dsimp only
      rw [(Registers.requestedLevel?_eq_none_iff _).mpr hnone, Option.map_none]
  · rintro rfl
    cases hcheck : machine.core.pendingMachineCheck with
    | some status => exact .machineCheck hcheck
    | none =>
      dsimp only
      cases hlevel : machine.core.regs.requestedLevel? with
      | some level =>
        obtain ⟨hmask, hleast⟩ := (Registers.requestedLevel?_eq_some_iff _ _).mp hlevel
        exact .interrupt hcheck hmask hleast
      | none => exact .instruction hcheck ((Registers.requestedLevel?_eq_none_iff _).mp hlevel)

/-! ## What a step leaves that takes an exception -/

/-- What a step leaves that takes a pending exception. -/
structure TakenAt (before : Machine) (cause : Exception) (after : Machine × Nat) : Prop where
  /-- The status is swapped through the block of the level, and nothing else changes. -/
  entered : before.EnteredTo cause after.1
  cost : after.2 = 1
  irb : after.1.core.regs.scr.get Scr.irb = before.core.regs.scr.get Scr.irb
  cs : after.1.core.regs.cs =
    if cause.level < 7 then (before.bus.peek16 .program (cause.block + 14)).setWidth 32
    else before.core.regs.cs
  /-- Of the check status only the bits of a machine check are replaced, by a machine check. -/
  mpcs : after.1.core.regs.scr.get Scr.mpcs =
    match before.core.pendingMachineCheck with
    | some status => (before.core.regs.scr.get Scr.mpcs &&& ~~~0x7F00) ||| (status &&& 0x7F00)
    | none => before.core.regs.scr.get Scr.mpcs
  bytes : ∀ space address, (space = .program → 8 ≤ (address - cause.block).toNat) →
    after.1.bus.peek8 space address = before.bus.peek8 space address
  consumed : after.1.core.pendingMachineCheck = none

/-- A step that enters an exception from a boundary, its check status noted before. -/
theorem takenAt_of_noted {machine noted : Machine} {cause : Exception}
    (hflow : machine.core.flow = .normal) (hnoted : machine.NotedTo noted)
    (hentry : machine.entered? = some (noted.enter cause)) (hlevel : cause.level < 9)
    (hmpcs : noted.core.regs.scr.get Scr.mpcs =
      match machine.core.pendingMachineCheck with
      | some status => (machine.core.regs.scr.get Scr.mpcs &&& ~~~0x7F00) ||| (status &&& 0x7F00)
      | none => machine.core.regs.scr.get Scr.mpcs) :
    machine.TakenAt cause machine.step := by
  have hconsumed := step_pendingMachineCheck hflow
  rw [step_eq, hentry] at hconsumed ⊢
  dsimp only at hconsumed ⊢
  have hentered := hnoted.enteredTo cause (noted.enter cause).core.regs.iar
  constructor
  case entered => exact hentered
  case cost => rfl
  case irb =>
    exact hentered.scr Scr.irb (by decide) (by decide) (by decide) fun h => absurd h (by decide)
  case cs =>
    have hcs := hnoted.entered_cs cause (noted.enter cause).core.regs.iar
    simp only [cause.loadsCondition_iff] at hcs
    exact hcs
  case mpcs => exact (noted.enter_endStep_mpcs cause _).trans hmpcs
  case bytes =>
    intro space address hapart
    apply hentered.bytes
    rintro hprogram (hlow | ⟨⟨code, rfl⟩, -⟩)
    · have hhigh := hapart hprogram
      omega
    · exact absurd hlevel (by decide : ¬ 9 < 9)
  case consumed => exact hconsumed

/-- What the rule decides on is taken. -/
theorem takenAt_of_arbitrates {machine : Machine} (hflow : machine.core.flow = .normal)
    {cause : Exception} (h : machine.Arbitrates (some cause)) :
    machine.TakenAt cause machine.step := by
  cases h with
  | @machineCheck status hcheck =>
    refine takenAt_of_noted hflow (machine.noteMachineCheck_noted status)
      (entered_of_check hflow hcheck) (by decide) ?_
    rw [hcheck]
    exact Bank.get_set_self _ _ _
  | @interrupt level hcheck hmask hlevel =>
    have hrequested := (Registers.requestedLevel?_eq_some_iff _ _).mpr ⟨hmask, hlevel⟩
    refine takenAt_of_noted hflow (machine.mapCore_noted rfl rfl)
      (entered_of_requested hflow hcheck hrequested) (Nat.lt_trans level.isLt (by decide)) ?_
    rw [hcheck]
    rfl

end Machine

/-! ## What a step reports -/

/-- The exception that an event reports as taken at a boundary. -/
def Event.taken? : Event → Option Exception
  | .machineCheck _ => some .machineCheck
  | .interrupt level => if h : level < 7 then some (.interrupt ⟨level, h⟩) else none
  | .programCheck _ _ | .scrWritten _ _ | .translateMode _ | .lineAsserted _ => none

/-- The taken interrupts are reports of note. -/
theorem Event.notable_taken? : Event.Notable Event.taken? := ⟨fun _ _ => rfl, fun _ => rfl⟩

/-- The exceptions taken at boundaries so far, the latest first. -/
def Core.arrivals (core : Core) : List Exception := core.reports Event.taken?

namespace Machine

/-- A step reports what is pending, and an instruction nothing of the kind. -/
theorem step_arrivals (machine : Machine) :
    machine.step.1.core.arrivals = machine.pendingException?.toList ++ machine.core.arrivals := by
  rw [step_eq]
  cases hpending : machine.pendingException? with
  | some cause =>
    obtain ⟨noted, -, hentry⟩ := entered_of_pending hpending
    rw [hentry]
    have hboundary : machine.boundaryEvent?.bind Event.taken? = some cause := by
      rw [← hpending, boundaryEvent?, pendingException?]
      split
      · cases machine.core.pendingMachineCheck with
        | some status => rfl
        | none => cases machine.core.regs.requestedLevel? <;> simp [Event.taken?]
      · rfl
    have hreports := entered_reports Event.notable_taken? hentry
    rw [hboundary] at hreports
    exact (Core.endStep_reports _ _).trans hreports
  | none =>
    have hentry := entered_of_not_pending hpending
    have hreports := executeNext_reports Event.notable_taken? hentry
    have hfault : (machine.fault?.bind fun fault =>
        (Event.programCheck machine.core.regs.iar fault.status).taken?) = none := by
      simp [Event.taken?]
    rw [hfault] at hreports
    rw [hentry]
    exact hreports

end Machine

/-! ## Lines -/

namespace Bank

/-- Of two writes to a register the second counts. -/
theorem set_set (bank : Bank) (r : Reg) (first second : Word) :
    (bank.set r first).set r second = bank.set r second := by
  simp [set]

/-- Writing a register with its own value changes nothing. -/
theorem set_get_self (bank : Bank) (r : Reg) : bank.set r (bank.get r) = bank := by
  simp [set, get]

end Bank

namespace Core

/-- The request buffer once a line is driven. -/
def drivenIrb (core : Core) (line : Nat) (asserted : Bool) : Word :=
  if line ≤ 6 then assign (core.regs.scr.get Scr.irb) (Irb.request line) asserted
  else core.regs.scr.get Scr.irb

/-- Driving a line touches nothing but the request buffer. -/
theorem setInputLine_snapshot (core : Core) (line : Nat) (asserted : Bool) :
    (core.setInputLine line asserted).snapshot =
      { core.snapshot with
        regs := core.regs.setScr Scr.irb (core.drivenIrb line asserted) } := by
  by_cases hline : line ≤ 6
  · cases asserted <;> simp [setInputLine, drivenIrb, hline] <;> rfl
  · simp [setInputLine, drivenIrb, hline, Registers.setScr, Bank.set_get_self, snapshot]

/-- IRB after a change of an input line. -/
theorem setInputLine_irb (core : Core) (line : Nat) (asserted : Bool) :
    (core.setInputLine line asserted).regs.scr.get Scr.irb = core.drivenIrb line asserted := by
  have hregs := congrArg (fun state : State => state.regs.scr.get Scr.irb)
    (core.setInputLine_snapshot line asserted)
  simpa [snapshot, Registers.setScr] using hregs

/-- Driving a line replaces its own request bit, if it has one. -/
theorem getLsbD_drivenIrb (core : Core) (line : Nat) (asserted : Bool) (bit : Nat) :
    (core.drivenIrb line asserted).getLsbD bit =
      if line ≤ 6 ∧ bit = 15 - line then asserted else (core.regs.scr.get Scr.irb).getLsbD bit := by
  by_cases hline : line ≤ 6
  · have hbit : 15 - line < 32 := by omega
    rw [drivenIrb, if_pos hline, getLsbD_assign, Irb.request_eq hline, BitVec.getLsbD_twoPow]
    simp [hline, hbit, eq_comm]
  · simp [drivenIrb, hline]

/-- Different lines may be driven in either order. -/
theorem setInputLine_comm (core : Core) {line other : Nat} (hne : line ≠ other) (on otherOn : Bool) :
    ((core.setInputLine line on).setInputLine other otherOn).snapshot =
      ((core.setInputLine other otherOn).setInputLine line on).snapshot := by
  have htwice (line other : Nat) (on otherOn : Bool) :
      ((core.setInputLine line on).setInputLine other otherOn).snapshot =
        { core.snapshot with
          regs := core.regs.setScr Scr.irb ((core.setInputLine line on).drivenIrb other otherOn) } := by
    have hfirst := core.setInputLine_snapshot line on
    have hregs : (core.setInputLine line on).regs =
        core.regs.setScr Scr.irb (core.drivenIrb line on) := congrArg State.regs hfirst
    rw [setInputLine_snapshot, hfirst, hregs]
    simp [Registers.setScr, Bank.set_set]
  have hirb : (core.setInputLine line on).drivenIrb other otherOn =
      (core.setInputLine other otherOn).drivenIrb line on := by
    apply BitVec.eq_of_getLsbD_eq
    intro bit hbit
    simp only [getLsbD_drivenIrb, setInputLine_irb]
    by_cases hother : other ≤ 6 ∧ bit = 15 - other
    · have hline : ¬ (line ≤ 6 ∧ bit = 15 - line) := by omega
      simp only [if_pos hother, if_neg hline]
    · simp only [if_neg hother]
  rw [htwice, htwice, hirb]

end Core

namespace Machine

/-- At a boundary with the normal token a step does exactly one of three things. -/
theorem step_arbitrates (machine : Machine) (hflow : machine.core.flow = .normal) :
    (∃! taken, machine.Arbitrates taken) ∧
    (∀ taken, machine.Arbitrates taken →
      machine.step.1.core.arrivals = taken.toList ++ machine.core.arrivals ∧
        match taken with
        | some cause => machine.TakenAt cause machine.step
        | none => machine.step = machine.executeNext) ∧
    ∀ (core : Core) (line other : Nat) (on otherOn : Bool), line ≠ other →
      ((core.setInputLine line on).setInputLine other otherOn).snapshot =
          ((core.setInputLine other otherOn).setInputLine line on).snapshot ∧
        (core.setInputLine line on).snapshot =
          { core.snapshot with
            regs := core.regs.setScr Scr.irb ((core.setInputLine line on).regs.scr.get Scr.irb) } ∧
        ∀ bit : Nat, ((core.setInputLine line on).regs.scr.get Scr.irb).getLsbD bit =
          if line ≤ 6 ∧ bit = 15 - line then on else (core.regs.scr.get Scr.irb).getLsbD bit := by
  refine ⟨?_, ?_, ?_⟩
  · refine ⟨machine.pendingException?, (arbitrates_iff hflow _).mpr rfl, fun taken h => ?_⟩
    exact ((arbitrates_iff hflow taken).mp h).symm
  · intro taken h
    have hpending := (arbitrates_iff hflow taken).mp h
    refine ⟨hpending ▸ machine.step_arrivals, ?_⟩
    cases taken with
    | some cause => exact takenAt_of_arbitrates hflow h
    | none =>
      dsimp only
      rw [step_eq, entered_of_not_pending hpending]
  · intro core line other on otherOn hne
    rw [core.setInputLine_irb line on]
    exact ⟨core.setInputLine_comm hne on otherOn, core.setInputLine_snapshot line on,
      core.getLsbD_drivenIrb line on⟩

/-- Levels 4 and 2 are requested of a processor at priority 5, and a machine check is signalled. The
first step takes the machine check and the second level 2, both with the requests left as they are. At
the priority of that level neither is taken again, and the third step executes an increment of R3. -/
def contended : Machine where
  core := { Core.new with
    regs := (Registers.zero.setScr Scr.ics 5).setScr Scr.irb (Irb.request 2 ||| Irb.request 4)
    pendingMachineCheck := some 0x0100 }
  bus := ((Bus.empty.load .program 0x178 [0x00, 0x00, 0x04, 0x00, 0x00, 0x05]).load .program 0x128
    [0x00, 0x00, 0x05, 0x00, 0x00, 0x02]).load .program 0x500 [0x91, 0x31]

/-- Each of the three first steps of the contended processor takes another way. -/
theorem step_arbitrates_contended :
    let second := contended.step.1
    let third := second.step.1
    contended.core.flow = .normal ∧ contended.TakenAt .machineCheck contended.step ∧
      second.core.flow = .normal ∧ second.TakenAt (.interrupt 2) second.step ∧
      third.core.flow = .normal ∧ third.core.regs.scr.get Scr.irb = 0x2800 ∧
      third.step = third.executeNext ∧ third.step.1.core.regs.gpr.get 3 = 1 ∧
      third.step.1.core.arrivals = [.interrupt 2, .machineCheck] := by
  intro second third
  have hflow : contended.core.flow = .normal := rfl
  have hfirst : contended.Arbitrates (some .machineCheck) := .machineCheck rfl
  have hflowSecond : second.core.flow = .normal := by decide +kernel
  have hsecond : second.Arbitrates (some (.interrupt 2)) :=
    (arbitrates_iff hflowSecond _).mpr (by decide +kernel)
  have hflowThird : third.core.flow = .normal := by decide +kernel
  have hthird : third.Arbitrates none := (arbitrates_iff hflowThird _).mpr (by decide +kernel)
  have harrived : third.core.arrivals = [.interrupt 2, .machineCheck] := by decide +kernel
  obtain ⟨hreported, hexecuted⟩ := (third.step_arbitrates hflowThird).2.1 _ hthird
  rw [harrived] at hreported
  exact ⟨hflow, ((contended.step_arbitrates hflow).2.1 _ hfirst).2, hflowSecond,
    ((second.step_arbitrates hflowSecond).2.1 _ hsecond).2, hflowThird, by decide +kernel, hexecuted,
    by decide +kernel, hreported⟩

end Machine

end ProcessorCores.Romp

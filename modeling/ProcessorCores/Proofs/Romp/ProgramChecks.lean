import ProcessorCores.Proofs.Romp.Entry

/-!
# Program checks are precise

An instruction that cannot be carried out is given up as a whole. `Fault` lists what can stop one, and
`Machine.fault?` tells from the registers and the storage whether the next step meets such a fault,
without taking the step.

A step reports a program check exactly when it meets a fault. The machine it leaves is then the one
before the step with its status swapped through block 8 and the kind of fault noted in the check
status, and nothing that the instruction would have done is done.
-/

namespace ProcessorCores.Romp

/-- What stops an instruction. -/
inductive Fault
  /-- The operation is undefined. -/
  | undefined
  /-- The operation is of the branch class and stands in a delay slot. -/
  | delaySlot
  /-- The port is outside the window. -/
  | port
  /-- The operands spring the trap. -/
  | trap
  deriving DecidableEq, Repr

/-- The check status that a fault is reported with. -/
def Fault.status : Fault → Word
  | .trap => Mpcs.knownOrigin ||| Mpcs.trap
  | .undefined | .delaySlot | .port => Mpcs.knownOrigin ||| Mpcs.illegalOp

/-- The fault that stops an operation where a branch may stand. -/
def Op.fault? (op : Op) (instruction : Instruction) (regs : Registers) : Option Fault :=
  match op with
  | .illegal => some .undefined
  | .port _ => if unsignedAddress instruction regs < portLimit then none else some .port
  | .trap op => if op.springs instruction regs then some .trap else none
  | _ => none

/-- The program checks reported so far, the latest first: the address of each faulting instruction
and the status it was given. -/
def Core.programChecks (core : Core) : List (Word × Word) :=
  core.journal.filterMap fun
    | .programCheck iar status => some (iar, status)
    | _ => none

/-- The reports of one kind, the latest first: those of which `select` keeps something. -/
def Core.reports {α : Type} (select : Event → Option α) (core : Core) : List α :=
  core.journal.filterMap select

variable {α : Type} {select : Event → Option α}

/-- A kind of reports that leaves out what many operations report on their way: the writes of control
registers and the changes of the translate line. -/
structure Event.Notable (select : Event → Option α) : Prop where
  scrWritten : ∀ r value, select (.scrWritten r value) = none
  translateMode : ∀ enabled, select (.translateMode enabled) = none

namespace Core

/-! ## What a core reports -/

/-- A report is added to those selected if it is one of them. -/
@[simp] theorem report_reports (core : Core) (event : Event) :
    (core.report event).reports select = (select event).toList ++ core.reports select := by
  rw [reports, report, List.filterMap_cons]
  cases select event <;> rfl

/-- A change of the translate mode reports nothing of note. -/
theorem setTranslateMode_reports (h : Event.Notable select) (core : Core) (enabled : Bool) :
    (core.setTranslateMode enabled).reports select = core.reports select := by
  unfold setTranslateMode
  split
  · exact (core.report_reports _).trans (by rw [h.translateMode, Option.toList_none, List.nil_append])
  · rfl

/-- Writing a control register reports nothing of note. -/
theorem writeScr_reports (h : Event.Notable select) (core : Core) (r : Reg) (value : Word) :
    (core.writeScr r value).reports select = core.reports select := by
  have hwritten : (core.report (.scrWritten r value)).reports select = core.reports select := by
    simp [h.scrWritten]
  unfold writeScr
  split
  · exact (setTranslateMode_reports h _ _).trans hwritten
  · exact hwritten

/-- The control operations report nothing of note. -/
theorem control_reports (h : Event.Notable select) (core : Core) (op : ControlOp)
    (instruction : Instruction) (next : Word) :
    (core.control op instruction next).reports select = core.reports select := by
  cases op with
  | mfs => rfl
  | mts => exact writeScr_reports h core _ _
  | clrsb => exact writeScr_reports h core _ _
  | setsb => exact writeScr_reports h core _ _

/-- The end of a step reports nothing. -/
@[simp] theorem endStep_reports (core : Core) (next : Word) :
    (core.endStep next).reports select = core.reports select := by
  unfold endStep
  split <;> rfl

end Core

namespace Machine

/-- A load reports nothing. -/
theorem load_reports (machine : Machine) (op : LoadOp) (instruction : Instruction) :
    (machine.load op instruction).core.reports select = machine.core.reports select := by
  cases op <;> rfl

/-- A multiple load reports nothing. -/
theorem loadRegisters_reports (machine : Machine) (r : Reg) (address : Word) (count : Nat) :
    (machine.loadRegisters r address count).core.reports select = machine.core.reports select := by
  obtain ⟨_, hloaded⟩ := machine.loadRegisters_core r address count
  rw [hloaded]
  rfl

/-- An entry reports nothing else by itself. -/
theorem enter_reports (h : Event.Notable select) (machine : Machine) (cause : Exception) :
    (machine.enter cause).core.reports select = machine.core.reports select := by
  rw [enter_eq]
  exact (Core.setTranslateMode_reports h _ _).trans (Core.setTranslateMode_reports h _ _)

/-- What is reported at a boundary where something is pending. -/
def boundaryEvent? (machine : Machine) : Option Event :=
  if machine.core.flow = .normal then
    match machine.core.pendingMachineCheck with
    | some status => some (.machineCheck status)
    | none => machine.core.regs.requestedLevel?.map fun level => .interrupt level.val
  else none

/-- What is pending is reported when it is entered. -/
theorem entered_reports (h : Event.Notable select) {machine entered : Machine}
    (hentry : machine.entered? = some entered) :
    entered.core.reports select =
      (machine.boundaryEvent?.bind select).toList ++ machine.core.reports select := by
  rw [entered?] at hentry
  rw [boundaryEvent?]
  split at hentry
  · next hflow =>
    rw [if_pos hflow]
    unfold takePending? at hentry
    cases hcheck : machine.core.pendingMachineCheck with
    | some status =>
      rw [hcheck] at hentry
      rw [← Option.some.inj hentry]
      exact (enter_reports h _ .machineCheck).trans (Core.report_reports _ (.machineCheck status))
    | none =>
      rw [hcheck] at hentry
      obtain ⟨level, hlevel, hlevelEntry⟩ := Option.map_eq_some_iff.mp hentry
      rw [← hlevelEntry, hlevel]
      exact (enter_reports h _ (.interrupt level)).trans (Core.report_reports _ (.interrupt level.val))
  · contradiction

/-! ## Faults -/

/-- The machine once a program check is reported and its status noted. -/
def noteProgramCheck (machine : Machine) (status : Word) : Machine :=
  machine.noteCheck (.programCheck machine.core.regs.iar status) Mpcs.programAll status

/-- A program check is noted and then entered. -/
theorem programCheck_eq (machine : Machine) (status : Word) :
    machine.programCheck status = (machine.noteProgramCheck status).enter .programCheck := rfl

/-- What is reported is the address of the fault and its status. -/
theorem noteProgramCheck_reports (machine : Machine) (status : Word) :
    (machine.noteProgramCheck status).core.reports select =
      (select (.programCheck machine.core.regs.iar status)).toList ++ machine.core.reports select :=
  Core.report_reports _ _

/-- The fault that the next step meets, if it enters nothing that is pending. -/
def fault? (machine : Machine) : Option Fault :=
  let op := (decode machine.current.word).handler
  if machine.entered?.isSome then none
  else if machine.core.flow = .branchPending ∧ op.isBranchClass then some .delaySlot
  else op.fault? machine.current machine.core.regs

/-- An operation that a fault stops is a program check and nothing else. -/
theorem execute_of_fault {machine : Machine} {op : Op} {instruction : Instruction} {fault : Fault}
    (next : Word) (h : op.fault? instruction machine.core.regs = some fault) :
    (machine.execute op instruction next).1 = machine.programCheck fault.status := by
  cases op with
  | illegal =>
    obtain rfl : Fault.undefined = fault := Option.some.inj h
    rfl
  | port op =>
    simp only [Op.fault?] at h
    split at h
    · contradiction
    · next hport =>
      obtain rfl : Fault.port = fault := Option.some.inj h
      simp only [execute, accessPort, if_neg hport]
      rfl
  | trap op =>
    simp only [Op.fault?] at h
    split at h
    · next hsprings =>
      obtain rfl : Fault.trap = fault := Option.some.inj h
      simp only [execute, if_pos hsprings]
      rfl
    · contradiction
  | compute _ | load _ | store _ | tsh | lm | stm | branch _ | control _ | svc | lps => contradiction

/-- An operation that no fault stops reports nothing else. -/
theorem execute_reports (h : Event.Notable select) {machine : Machine} {op : Op}
    {instruction : Instruction} (next : Word)
    (hfault : op.fault? instruction machine.core.regs = none) :
    (machine.execute op instruction next).1.core.reports select = machine.core.reports select := by
  cases op with
  | compute op => rfl
  | load op => exact machine.load_reports op instruction
  | store op => exact congrArg (Core.reports select) (machine.store_core op instruction)
  | tsh => rfl
  | lm => exact machine.loadRegisters_reports _ _ _
  | stm => exact congrArg (Core.reports select) (machine.storeRegisters_core _ _ _)
  | port op =>
    simp only [Op.fault?] at hfault
    split at hfault
    · next hport =>
      simp only [execute, accessPort, if_pos hport]
      cases op <;> rfl
    · contradiction
  | trap op =>
    simp only [Op.fault?] at hfault
    split at hfault
    · contradiction
    · next hsprings =>
      simp only [execute, if_neg hsprings]
  | branch op =>
    simp only [execute, Core.branch]
    split <;> rfl
  | control op => exact Core.control_reports h machine.core op instruction next
  | svc => exact enter_reports h machine _
  | lps => exact Core.writeScr_reports h (machine.core.latch _ false) _ _
  | illegal => contradiction

/-- A step that meets a fault fetches its instruction, makes the program check and ends. -/
theorem step_of_fault {machine : Machine} {fault : Fault} (h : machine.fault? = some fault) :
    machine.step.1 =
      ((machine.fetch.2.2.noteProgramCheck fault.status).enter .programCheck).mapCore
        (·.endStep machine.following) := by
  simp only [fault?] at h
  cases hentry : machine.entered? with
  | some entered =>
    rw [hentry] at h
    contradiction
  | none =>
    rw [step_eq, hentry]
    dsimp only
    rw [executeNext_eq, ← programCheck_eq, executed]
    rw [hentry, Option.isSome_none, if_neg Bool.false_ne_true] at h
    -- A branch in a delay slot is stopped before it is executed, the other faults by their operation.
    split at h
    · next hslot =>
      obtain rfl : Fault.delaySlot = fault := Option.some.inj h
      rw [if_pos hslot]
      rfl
    · next hslot =>
      rw [← machine.fetch_core] at h
      rw [if_neg hslot, execute_of_fault _ h]

/-- An instruction reports at most the fault that stops it. -/
theorem executeNext_reports (h : Event.Notable select) {machine : Machine}
    (hentry : machine.entered? = none) :
    machine.executeNext.1.core.reports select =
      (machine.fault?.bind fun fault =>
          select (.programCheck machine.core.regs.iar fault.status)).toList ++
        machine.core.reports select := by
  cases hfault : machine.fault? with
  | some fault =>
    have hstep := step_of_fault hfault
    rw [step_eq, hentry] at hstep
    dsimp only at hstep
    rw [hstep, mapCore, Core.endStep_reports, enter_reports h, noteProgramCheck_reports, fetch_core]
    rfl
  | none =>
    simp only [fault?] at hfault
    rw [hentry, Option.isSome_none, if_neg Bool.false_ne_true] at hfault
    rw [executeNext_eq, mapCore, Core.endStep_reports, executed]
    split at hfault
    · contradiction
    · next hslot =>
      rw [← machine.fetch_core] at hfault
      rw [if_neg hslot, execute_reports h _ hfault, fetch_core]
      rfl

/-- A step reports a program check exactly when it meets a fault. -/
theorem step_programChecks_eq (machine : Machine) :
    machine.step.1.core.programChecks =
      (machine.fault?.map fun fault => (machine.core.regs.iar, fault.status)).toList ++
        machine.core.programChecks := by
  let select : Event → Option (Word × Word)
    | .programCheck iar status => some (iar, status)
    | _ => none
  have hselect : Event.Notable select := ⟨fun _ _ => rfl, fun _ => rfl⟩
  rw [step_eq]
  cases hentry : machine.entered? with
  | some entered =>
    have hfault : machine.fault? = none := by
      rw [fault?, hentry]
      rfl
    -- What is pending at a boundary is never a program check.
    have hboundary : machine.boundaryEvent?.bind select = none := by
      unfold boundaryEvent?
      split
      · cases machine.core.pendingMachineCheck with
        | some status => rfl
        | none => cases machine.core.regs.requestedLevel? <;> rfl
      · rfl
    have hentered := entered_reports hselect hentry
    rw [hboundary] at hentered
    rw [hfault]
    exact (Core.endStep_reports _ _).trans hentered
  | none =>
    have hexecuted := executeNext_reports hselect hentry
    rw [Option.map_eq_bind]
    exact hexecuted

/-! ## What a program check leaves -/

/-- What a program check makes of a machine. -/
structure ProgramChecked (before : Machine) (fault : Fault) (after : Machine) : Prop where
  gpr : after.core.regs.gpr = before.core.regs.gpr
  scr : ∀ r, r ≠ Scr.iar → r ≠ Scr.ics → r ≠ Scr.mpcs →
    after.core.regs.scr.get r = before.core.regs.scr.get r
  cs : after.core.regs.cs = before.core.regs.cs
  branchTarget : after.core.branchTarget = before.core.branchTarget
  ports : after.bus.accesses .io = before.bus.accesses .io
  bytes : ∀ space address, (space = .program → address < 0x180 ∨ 0x187 < address) →
    after.bus.peek8 space address = before.bus.peek8 space address
  savedIar : after.bus.peek32 .program 0x180 = before.core.regs.iar
  savedIcs : after.bus.peek16 .program 0x184 = lowHalf before.core.regs.ics
  savedCs : after.bus.peek16 .program 0x186 = lowHalf before.core.regs.cs
  mpcsKept : after.core.regs.scr.get Scr.mpcs &&& ~~~0xFE = before.core.regs.scr.get Scr.mpcs &&& ~~~0xFE
  mpcsStatus : after.core.regs.scr.get Scr.mpcs &&& 0xFE = if fault = .trap then 0x60 else 0x48
  iar : after.core.regs.iar = before.bus.peek32 .program 0x188
  ics : after.core.regs.ics = (before.bus.peek16 .program 0x18C).setWidth 32
  translateMode : after.core.translateMode = after.core.regs.ics.getLsbD 8
  flow : after.core.flow = .normal

/-- Replacing the bits of a field leaves the others and puts the new ones in it. -/
theorem replace_field (before status field : Word) :
    ((before &&& ~~~field) ||| (status &&& field)) &&& ~~~field = before &&& ~~~field ∧
      ((before &&& ~~~field) ||| (status &&& field)) &&& field = status &&& field := by
  constructor
  · ext i
    simp only [BitVec.getElem_and, BitVec.getElem_or, BitVec.getElem_not]
    cases field[i] <;> simp
  · ext i
    simp only [BitVec.getElem_and, BitVec.getElem_or, BitVec.getElem_not]
    cases field[i] <;> simp

/-- A fault replaces the bits of a program check by those of its kind. -/
theorem noteProgramCheck_mpcs (machine : Machine) (fault : Fault) :
    let before := machine.core.regs.scr.get Scr.mpcs
    let after := (machine.noteProgramCheck fault.status).core.regs.scr.get Scr.mpcs
    after &&& ~~~0xFE = before &&& ~~~0xFE ∧
      after &&& 0xFE = if fault = .trap then 0x60 else 0x48 := by
  have hafter : (machine.noteProgramCheck fault.status).core.regs.scr.get Scr.mpcs =
      (machine.core.regs.scr.get Scr.mpcs &&& ~~~Mpcs.programAll) |||
        (fault.status &&& Mpcs.programAll) := Bank.get_set_self _ _ _
  have hstatus : fault.status = if fault = .trap then 0x60 else 0x48 := by
    cases fault <;> decide
  have hwithin : (if fault = .trap then 0x60 else 0x48) &&& Mpcs.programAll =
      if fault = .trap then 0x60 else 0x48 := by
    split <;> decide
  obtain ⟨hkept, hfield⟩ :=
    replace_field (machine.core.regs.scr.get Scr.mpcs) fault.status Mpcs.programAll
  dsimp only
  rw [hafter]
  exact ⟨hkept, hfield.trans (by rw [hstatus, hwithin])⟩

/-- A step that meets a fault enters its program check. -/
theorem enteredTo_of_fault {machine : Machine} {fault : Fault} (h : machine.fault? = some fault) :
    machine.EnteredTo .programCheck machine.step.1 := by
  have hnoted := machine.fetch_noted.trans (machine.fetch.2.2.noteCheck_noted
    (.programCheck machine.fetch.2.2.core.regs.iar fault.status) Mpcs.programAll fault.status)
  rw [step_of_fault h]
  exact hnoted.enteredTo .programCheck machine.following

/-- A step that meets a fault leaves nothing of its instruction behind. -/
theorem step_programChecked {machine : Machine} {fault : Fault} (h : machine.fault? = some fault) :
    machine.ProgramChecked fault machine.step.1 := by
  have hentered := enteredTo_of_fault h
  have hmpcs := machine.fetch.2.2.noteProgramCheck_mpcs fault
  have hloaded := enter_endStep_mpcs (machine.fetch.2.2.noteProgramCheck fault.status) .programCheck
    machine.following
  rw [← step_of_fault h] at hloaded
  rw [← hloaded, fetch_core] at hmpcs
  constructor
  case gpr => exact hentered.gpr
  case scr =>
    intro r hiar hics hmpcs
    exact hentered.scr r hmpcs hiar hics fun _ => rfl
  case cs => exact hentered.scr Scr.cs (by decide) (by decide) (by decide) fun _ => rfl
  case branchTarget => exact hentered.branchTarget
  case ports => exact hentered.ports
  case bytes =>
    intro space address hapart
    refine hentered.bytes space address fun hprogram => ?_
    have hblock : Exception.programCheck.block = 0x180 := by decide
    -- Only a supervisor call saves more than the eight bytes of the status.
    rintro (hlow | ⟨⟨code, hcode⟩, -⟩)
    · have hoffset := hapart hprogram
      rw [hblock] at hlow
      bv_omega
    · contradiction
  case savedIar => exact hentered.savedIar
  case savedIcs => exact hentered.savedIcs
  case savedCs => exact hentered.savedCs
  case mpcsKept => exact hmpcs.1
  case mpcsStatus => exact hmpcs.2
  case iar => exact hentered.iar
  case ics => exact hentered.ics
  case translateMode => exact hentered.translateMode
  case flow => exact hentered.flow

/-- Program checks are precise. A step reports one exactly when the operation is undefined, is of the
branch class in a delay slot, accesses a port outside the window or springs a trap. It then leaves the
general registers, the latched target, the ports and all control registers but three as they were,
and every byte but the eight in which the old status is saved. -/
theorem step_programCheck (machine : Machine) :
    machine.step.1.core.programChecks =
        (machine.fault?.map fun fault => (machine.core.regs.iar, fault.status)).toList ++
          machine.core.programChecks ∧
      ∀ fault, machine.fault? = some fault → machine.ProgramChecked fault machine.step.1 :=
  ⟨machine.step_programChecks_eq, fun _ h => step_programChecked h⟩

/-- A trap in the delay slot of an absolute branch is stopped there, and the branch stays latched. -/
theorem programChecked_delaySlot :
    let machine := (started [0x8B, 0x00, 0x00, 0x10, 0xBD, 0x00]).step.1
    machine.core.flow = .branchPending ∧ machine.fault? = some .delaySlot ∧
      machine.ProgramChecked .delaySlot machine.step.1 := by
  intro machine
  have hfault : machine.fault? = some .delaySlot := by decide +kernel
  exact ⟨by decide +kernel, hfault, machine.step_programCheck.2 .delaySlot hfault⟩

end Machine

end ProcessorCores.Romp

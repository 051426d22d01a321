import ProcessorCores.Proofs.Romp.ProgramChecks

/-!
# Returning from an exception

A handler returns by loading the program status that its entry saved. The two transfers lie far
apart: the entry writes a word and two halfwords through the block of its level, and the load latches
the word as a branch target and puts the halfwords in the control registers.

Between them nothing is lost. Whatever led to the entry, the instruction that loads the status back
from the block leaves the interrupted program where it was, the check status apart.
-/

namespace ProcessorCores.Romp

/-- The exception that an instruction raises, if it raises one. -/
def Transfer.exception? : Transfer → Option Exception
  | .exception cause => some cause
  | .sequential | .branch _ _ => none

/-- An operation raises a program check for a fault, and otherwise only a supervisor call raises
anything. -/
theorem Op.fault_or_svc {op : Op} {machine : Machine} {instruction : Instruction} {next : Word}
    {cause : Exception} (h : op.transfer machine instruction next = .exception cause) :
    (∃ fault, op.fault? instruction machine.core.regs = some fault) ∧ cause = .programCheck ∨
      op = .svc ∧
        cause = .supervisorCall (lowHalf (unsignedAddress instruction machine.core.regs)) := by
  cases op with
  | illegal =>
    rw [Op.transfer] at h
    injection h with hcause
    exact .inl ⟨⟨_, rfl⟩, hcause.symm⟩
  | port op =>
    simp only [Op.transfer] at h
    split at h
    · contradiction
    · next hport =>
      injection h with hcause
      exact .inl ⟨⟨_, if_neg hport⟩, hcause.symm⟩
  | trap op =>
    simp only [Op.transfer] at h
    split at h
    · next hsprings =>
      injection h with hcause
      exact .inl ⟨⟨_, if_pos hsprings⟩, hcause.symm⟩
    · contradiction
  | svc =>
    rw [Op.transfer] at h
    injection h with hcause
    exact .inr ⟨rfl, hcause.symm⟩
  | branch op =>
    simp only [Op.transfer] at h
    split at h <;> contradiction
  | compute _ | load _ | store _ | tsh | lm | stm | control _ | lps => contradiction

/-- A written system control register holds its value, and the others are as before. -/
theorem Core.writeScr_regs (core : Core) (r : Reg) (value : Word) :
    (core.writeScr r value).regs = core.regs.setScr r value := by
  unfold writeScr
  split
  · exact congrArg (fun regs : Registers => regs.setScr r value)
      ((core.report _).setTranslateMode_regs _)
  · rfl

namespace Machine

/-! ## The exception that a step enters -/

/-- The exception that is taken at a boundary, before any instruction. -/
def pendingException? (machine : Machine) : Option Exception :=
  if machine.core.flow = .normal then
    match machine.core.pendingMachineCheck with
    | some _ => some .machineCheck
    | none => machine.core.regs.requestedLevel?.map .interrupt
  else none

/-- The exception that the next step enters: one that is pending, or else the one that its
instruction raises. -/
def exception? (machine : Machine) : Option Exception :=
  machine.pendingException?.or machine.transfer.exception?

/-- The machine once a signalled machine check is taken up and its status bits are noted. -/
def noteMachineCheck (machine : Machine) (status : Word) : Machine :=
  (machine.mapCore fun core => { core with pendingMachineCheck := none }).noteCheck
    (.machineCheck status) Mpcs.machineAll status

/-- A noted machine check leaves everything but its status. -/
theorem noteMachineCheck_noted (machine : Machine) (status : Word) :
    machine.NotedTo (machine.noteMachineCheck status) :=
  (machine.mapCore_noted rfl rfl).trans (noteCheck_noted _ _ _ _)

/-- A signalled machine check is entered first. -/
theorem entered_of_check {machine : Machine} {status : Word} (hflow : machine.core.flow = .normal)
    (hcheck : machine.core.pendingMachineCheck = some status) :
    machine.entered? = some ((machine.noteMachineCheck status).enter .machineCheck) := by
  rw [entered?, if_pos hflow, takePending?, hcheck]
  rfl

/-- Without one, a requested level is entered. -/
theorem entered_of_requested {machine : Machine} {level : Fin 7}
    (hflow : machine.core.flow = .normal) (hcheck : machine.core.pendingMachineCheck = none)
    (hlevel : machine.core.regs.requestedLevel? = some level) :
    machine.entered? =
      some ((machine.mapCore (·.report (.interrupt level.val))).enter (.interrupt level)) := by
  rw [entered?, if_pos hflow, takePending?, hcheck]
  dsimp only
  rw [hlevel]
  rfl

/-- What is pending is entered with at most the check status noted before. -/
theorem entered_of_pending {machine : Machine} {cause : Exception}
    (h : machine.pendingException? = some cause) :
    ∃ noted, machine.NotedTo noted ∧ machine.entered? = some (noted.enter cause) := by
  rw [pendingException?] at h
  split at h
  · next hflow =>
    cases hcheck : machine.core.pendingMachineCheck with
    | some status =>
      rw [hcheck] at h
      obtain rfl : Exception.machineCheck = cause := Option.some.inj h
      exact ⟨_, machine.noteMachineCheck_noted status, entered_of_check hflow hcheck⟩
    | none =>
      rw [hcheck] at h
      obtain ⟨level, hlevel, rfl⟩ := Option.map_eq_some_iff.mp h
      exact ⟨_, machine.mapCore_noted rfl rfl, entered_of_requested hflow hcheck hlevel⟩
  · contradiction

/-- With nothing pending, nothing is entered at the boundary. -/
theorem entered_of_not_pending {machine : Machine} (h : machine.pendingException? = none) :
    machine.entered? = none := by
  rw [pendingException?] at h
  rw [entered?, takePending?]
  split at h
  · next hflow =>
    rw [if_pos hflow]
    cases hcheck : machine.core.pendingMachineCheck with
    | some status =>
      rw [hcheck] at h
      contradiction
    | none =>
      rw [hcheck, Option.map_eq_none_iff] at h
      dsimp only
      rw [h]
      rfl
  · next hflow => exact if_neg hflow

/-- The operation of the instruction that the next step executes, unless it takes what is pending. -/
def operation? (machine : Machine) : Option Op :=
  if machine.pendingException?.isSome then none else some (decode machine.current.word).handler

/-- The next step executes an operation when no exception is pending and the word decodes to it. -/
theorem operation?_eq_some_iff {machine : Machine} {op : Op} :
    machine.operation? = some op ↔
      machine.pendingException? = none ∧ (decode machine.current.word).handler = op := by
  unfold operation?
  cases machine.pendingException? <;> simp

/-- An instruction that raises an exception does nothing but enter it. -/
theorem step_of_raised {machine : Machine} {cause : Exception}
    (hpending : machine.pendingException? = none) (h : machine.transfer = .exception cause) :
    machine.EnteredTo cause machine.step.1 := by
  have hentry := entered_of_not_pending hpending
  have hfaulted {fault : Fault} (hfault : machine.fault? = some fault)
      (hcause : cause = .programCheck) : machine.EnteredTo cause machine.step.1 :=
    hcause ▸ enteredTo_of_fault hfault
  rw [transfer] at h
  split at h
  · next hslot =>
    injection h with hcause
    have hfault : machine.fault? = some .delaySlot := by
      rw [fault?, hentry]
      exact if_pos hslot
    exact hfaulted hfault hcause.symm
  · next hslot =>
    rcases Op.fault_or_svc h with ⟨⟨fault, hfault⟩, hcause⟩ | ⟨hop, rfl⟩
    · have hmet : machine.fault? = some fault := by
        rw [fault?, hentry]
        exact (if_neg hslot).trans hfault
      exact hfaulted hmet hcause
    · have hexecuted : machine.executed = machine.fetch.2.2.enter
          (.supervisorCall (lowHalf (unsignedAddress machine.current machine.core.regs))) := by
        rw [executed, if_neg hslot, hop, ← machine.fetch_core]
        rfl
      rw [step_eq, hentry]
      dsimp only
      rw [executeNext_eq, hexecuted]
      exact machine.fetch_noted.enteredTo _ _

/-- A step that enters an exception does nothing else. -/
theorem step_enteredTo {machine : Machine} {cause : Exception} (h : machine.exception? = some cause) :
    machine.EnteredTo cause machine.step.1 := by
  rw [exception?] at h
  cases hpending : machine.pendingException? with
  | some pending =>
    rw [hpending] at h
    obtain rfl : pending = cause := Option.some.inj h
    obtain ⟨noted, hnoted, hentry⟩ := entered_of_pending hpending
    rw [step_eq, hentry]
    exact hnoted.enteredTo pending _
  | none =>
    rw [hpending, Option.none_or] at h
    cases htransfer : machine.transfer with
    | exception raised =>
      rw [htransfer] at h
      obtain rfl : raised = cause := Option.some.inj h
      exact step_of_raised hpending htransfer
    | sequential | branch _ _ =>
      rw [htransfer] at h
      contradiction

/-! ## Loading a program status -/

/-- What a step that loads the program status from an address makes of a machine. -/
structure LoadedFrom (before : Machine) (address : Word) (after : Machine) : Prop where
  flow : after.core.flow = .normal
  gpr : after.core.regs.gpr = before.core.regs.gpr
  scr : ∀ r, r ≠ Scr.mpcs → r ≠ Scr.iar → r ≠ Scr.ics → r ≠ Scr.cs →
    after.core.regs.scr.get r = before.core.regs.scr.get r
  iar : after.core.regs.iar = before.bus.peek32 .program address
  ics : after.core.regs.ics = (before.bus.peek16 .program (address + 4)).setWidth 32
  cs : after.core.regs.cs = (before.bus.peek16 .program (address + 6)).setWidth 32
  mpcs : after.core.regs.scr.get Scr.mpcs = before.core.regs.scr.get Scr.mpcs &&& 0xFFFF0000
  translateMode : after.core.translateMode = after.core.regs.ics.getLsbD 8

/-- The system control registers once a program status is loaded from an address. -/
def statusLoaded (machine : Machine) (address : Word) : Bank :=
  let scr := machine.core.regs.scr
  let ics := (machine.bus.peek16 .program (address + 4)).setWidth 32
  let cs := (machine.bus.peek16 .program (address + 6)).setWidth 32
  ((scr.set Scr.ics ics).set Scr.cs cs).set Scr.mpcs (scr.get Scr.mpcs &&& 0xFFFF0000)

/-- ICS is loaded from the third halfword. -/
theorem statusLoaded_ics (machine : Machine) (address : Word) :
    (machine.statusLoaded address).get Scr.ics =
      (machine.bus.peek16 .program (address + 4)).setWidth 32 := by
  rw [statusLoaded, Bank.get_set, if_neg (by decide), Bank.get_set, if_neg (by decide),
    Bank.get_set_self]

/-- The condition status is loaded from the fourth halfword. -/
theorem statusLoaded_cs (machine : Machine) (address : Word) :
    (machine.statusLoaded address).get Scr.cs =
      (machine.bus.peek16 .program (address + 6)).setWidth 32 := by
  rw [statusLoaded, Bank.get_set, if_neg (by decide), Bank.get_set_self]

/-- The other control registers are as before. -/
theorem statusLoaded_of_ne (machine : Machine) (address : Word) {r : Reg} (hmpcs : r ≠ Scr.mpcs)
    (hics : r ≠ Scr.ics) (hcs : r ≠ Scr.cs) :
    (machine.statusLoaded address).get r = machine.core.regs.scr.get r := by
  rw [statusLoaded, Bank.get_set, if_neg hmpcs, Bank.get_set, if_neg hcs, Bank.get_set, if_neg hics]

/-- A load of the program status changes control registers only. -/
theorem loadProgramStatus_regs (machine : Machine) (instruction : Instruction) :
    (machine.loadProgramStatus instruction).core.regs =
      { machine.core.regs with
        scr := machine.statusLoaded (displacedAddress instruction machine.core.regs) } := by
  have hmpcs : Scr.mpcs ≠ Scr.ics ∧ Scr.mpcs ≠ Scr.cs := by decide
  simp only [loadProgramStatus, read32, read16, Bus.read32, Bus.read16, mapCore, setScr,
    Core.withRegs, Core.writeScr_regs, Registers.setScr, Bus.peek16_record, Bank.get_set,
    if_neg hmpcs.1, if_neg hmpcs.2, statusLoaded]
  rfl

/-- The load ends its step at the word that it found. -/
theorem loadProgramStatus_loadedFrom (machine : Machine) (instruction : Instruction) (next : Word) :
    machine.LoadedFrom (displacedAddress instruction machine.core.regs)
      ((machine.loadProgramStatus instruction).mapCore (·.endStep next)) := by
  obtain ⟨hflow, htarget⟩ := machine.loadProgramStatus_latched instruction
  have hregs := machine.loadProgramStatus_regs instruction
  have hline : (machine.loadProgramStatus instruction).core.translateMode =
      meets (machine.loadProgramStatus instruction).core.regs.ics Ics.translate := by
    rw [hregs, Registers.ics, statusLoaded_ics]
    rfl
  -- The new address is latched as the target of a branch, which the end of the step arrives at.
  have hend : (machine.loadProgramStatus instruction).core.endStep next =
      { (machine.loadProgramStatus instruction).core with
        regs := (machine.loadProgramStatus instruction).core.regs.setScr Scr.iar
          (machine.loadProgramStatus instruction).core.branchTarget
        flow := .normal } := by
    rw [Core.endStep, hflow]
    rfl
  rw [mapCore, hend]
  have hscr {r : Reg} (hiar : r ≠ Scr.iar) :
      ((machine.loadProgramStatus instruction).core.regs.setScr Scr.iar
        (machine.loadProgramStatus instruction).core.branchTarget).scr.get r =
        (machine.statusLoaded (displacedAddress instruction machine.core.regs)).get r := by
    rw [Registers.setScr, Bank.get_set, if_neg hiar, hregs]
  have hgpr : (machine.loadProgramStatus instruction).core.regs.gpr = machine.core.regs.gpr := by
    rw [hregs]
  have hics := hscr (r := Scr.ics) (by decide)
  constructor
  case flow => rfl
  case gpr => exact hgpr
  case scr =>
    intro r hmpcs hiar hics hcs
    exact (hscr hiar).trans (machine.statusLoaded_of_ne _ hmpcs hics hcs)
  case iar => exact (Bank.get_set_self _ _ _).trans htarget
  case ics => exact hics.trans (machine.statusLoaded_ics _)
  case cs => exact (hscr (by decide)).trans (machine.statusLoaded_cs _)
  case mpcs => exact (hscr (by decide)).trans (Bank.get_set_self _ _ _)
  case translateMode =>
    have hloaded := congrArg (fun regs : Registers => regs.scr.get Scr.ics) hregs
    rw [Ics.meets_translate] at hline
    exact hline.trans (congrArg (·.getLsbD 8) (hloaded.trans hics.symm))

/-- A load of the program status that no exception comes before. -/
theorem step_of_lps {machine : Machine} (hflow : machine.core.flow = .normal)
    (hentry : machine.entered? = none) (hop : (decode machine.current.word).handler = .lps) :
    machine.LoadedFrom (displacedAddress machine.current machine.core.regs) machine.step.1 := by
  have hslot : ¬ (machine.core.flow = .branchPending ∧
      (decode machine.current.word).handler.isBranchClass) := by
    rw [hflow]
    exact fun h => Flow.noConfusion h.1
  have hexecuted : machine.executed = machine.fetch.2.2.loadProgramStatus machine.current := by
    rw [executed, if_neg hslot, hop]
    rfl
  have hloaded := machine.fetch.2.2.loadProgramStatus_loadedFrom machine.current machine.following
  rw [← hexecuted, ← executeNext_eq, fetch_core] at hloaded
  have hstep : machine.step.1 = machine.executeNext.1 := by
    rw [step_eq, hentry]
  have hbytes := machine.fetch_noted.bytes .program
  rw [hstep]
  constructor
  case flow => exact hloaded.flow
  case gpr => exact hloaded.gpr.trans machine.fetch_noted.gpr
  case scr =>
    intro r hmpcs hiar hics hcs
    exact (hloaded.scr r hmpcs hiar hics hcs).trans (machine.fetch_noted.scr r hmpcs)
  case iar => exact hloaded.iar.trans (Bus.peek32_of_peek8 hbytes _)
  case ics =>
    exact hloaded.ics.trans (congrArg _ (Bus.peek16_congr (hbytes _) (hbytes _)))
  case cs =>
    exact hloaded.cs.trans (congrArg _ (Bus.peek16_congr (hbytes _) (hbytes _)))
  case mpcs =>
    rw [← machine.fetch_core]
    exact hloaded.mpcs
  case translateMode => exact hloaded.translateMode

/-! ## There and back -/

/-- A step from the normal token leaves no signalled fault: one that was pending is taken. -/
theorem step_pendingMachineCheck {machine : Machine} (hflow : machine.core.flow = .normal) :
    machine.step.1.core.pendingMachineCheck = none := by
  have hended (entered : Machine) (next : Word) :
      (entered.mapCore (·.endStep next)).core.pendingMachineCheck =
        entered.core.pendingMachineCheck := by
    rw [mapCore, Core.endStep]
    dsimp only
    split <;> rfl
  have hentered (noted : Machine) (cause : Exception) :
      (noted.enter cause).core.pendingMachineCheck = noted.core.pendingMachineCheck :=
    congrArg (·.2.2) (noted.enter_sequencing cause)
  rw [step_eq, entered?, if_pos hflow, takePending?]
  cases hcheck : machine.core.pendingMachineCheck with
  -- The entry itself clears the fault before it saves anything.
  | some status => exact (hended _ _).trans (hentered _ .machineCheck)
  | none =>
    dsimp only
    cases hlevel : machine.core.regs.requestedLevel? with
    | some level => exact (hended _ _).trans ((hentered _ (.interrupt level)).trans hcheck)
    | none => exact machine.executeNext_pendingMachineCheck.trans hcheck

/-- With external levels masked and no fault signalled, nothing is entered. -/
theorem entered_of_masked {machine : Machine} (hcheck : machine.core.pendingMachineCheck = none)
    (hmask : meets machine.core.regs.ics Ics.mask = true) : machine.entered? = none := by
  refine entered_of_not_pending ?_
  rw [pendingException?, hcheck]
  dsimp only
  rw [Registers.requestedLevel?, if_pos hmask, Option.map_none, ite_self]

end Machine

/-- There are ten levels. -/
theorem Exception.level_lt (cause : Exception) : cause.level < 10 := by
  cases cause with
  | interrupt level => exact Nat.lt_trans level.isLt (by decide)
  | machineCheck => decide
  | programCheck => decide
  | supervisorCall code => exact (by decide : 9 < 10)

/-- A displacement reaches the block of every level. -/
theorem Exception.block_eq (cause : Exception) :
    (0x100 + 16 * BitVec.ofNat 16 cause.level : Half).signExtend 32 = cause.block := by
  have hall : ∀ level < 10, (0x100 + 16 * BitVec.ofNat 16 level : Half).signExtend 32 =
      (0x100 + BitVec.ofNat 32 level * 16 : Word) := by decide
  exact hall _ cause.level_lt

namespace Machine

/-- A word that fits a halfword is saved whole. -/
theorem setWidth_lowHalf {value : Word} (h : value < 0x10000) :
    (lowHalf value).setWidth 32 = value := by
  have hfits : value.toNat < 2 ^ 16 := h
  apply BitVec.eq_of_toNat_eq
  rw [lowHalf, BitVec.toNat_setWidth, BitVec.extractLsb'_toNat, Nat.shiftRight_zero,
    Nat.mod_eq_of_lt hfits, Nat.mod_eq_of_lt value.isLt]

/-- The interrupted program goes on as if nothing had happened, the check status apart. -/
structure Resumed (before after : Machine) : Prop where
  iar : after.core.regs.iar = before.core.regs.iar
  ics : after.core.regs.ics = before.core.regs.ics
  cs : after.core.regs.cs = before.core.regs.cs
  translateMode : after.core.translateMode = before.core.translateMode
  flow : after.core.flow = before.core.flow
  gpr : after.core.regs.gpr = before.core.regs.gpr
  scr : ∀ r, r ≠ Scr.mpcs → after.core.regs.scr.get r = before.core.regs.scr.get r
  mpcs : lowHalf (after.core.regs.scr.get Scr.mpcs) = 0

/-- Entering an exception and loading the program status back from its block are inverse. -/
theorem resumed_of_return {machine : Machine} {cause : Exception}
    (hflow : machine.core.flow = .normal) (hics : machine.core.regs.ics < 0x10000)
    (hcs : machine.core.regs.cs < 0x10000)
    (hline : machine.core.translateMode = machine.core.regs.ics.getLsbD 8)
    (hentry : machine.exception? = some cause)
    (hop : (decode machine.step.1.current.word).handler = .lps)
    (hbase : machine.step.1.current.r3 = 0)
    (hblock : machine.step.1.current.extension = 0x100 + 16 * BitVec.ofNat 16 cause.level)
    (hmask : meets machine.step.1.core.regs.ics Ics.mask = true) :
    machine.Resumed machine.step.1.step.1 := by
  have hentered := step_enteredTo hentry
  -- A fault that was signalled before the entry is the one entered, so that none is left to come
  -- between the entry and the load.
  have hloaded := step_of_lps hentered.flow
    (entered_of_masked (step_pendingMachineCheck hflow) hmask) hop
  have haddress : displacedAddress machine.step.1.current machine.step.1.core.regs = cause.block := by
    rw [displacedAddress, Registers.base, if_pos hbase, Instruction.immediate, hblock,
      cause.block_eq]
    exact BitVec.zero_add _
  rw [haddress] at hloaded
  have hiar := hloaded.iar.trans hentered.savedIar
  have hback := hloaded.ics.trans ((congrArg _ hentered.savedIcs).trans (setWidth_lowHalf hics))
  have hcond := hloaded.cs.trans ((congrArg _ hentered.savedCs).trans (setWidth_lowHalf hcs))
  constructor
  case iar => exact hiar
  case ics => exact hback
  case cs => exact hcond
  case translateMode => rw [hloaded.translateMode, hback, hline]
  case flow => rw [hloaded.flow, hflow]
  case gpr => exact hloaded.gpr.trans hentered.gpr
  case scr =>
    intro r hmpcs
    -- The three that hold the status are replaced twice, the others never.
    by_cases hr : r = Scr.iar ∨ r = Scr.ics ∨ r = Scr.cs
    · obtain rfl | rfl | rfl := hr
      · exact hiar
      · exact hback
      · exact hcond
    · simp only [not_or] at hr
      obtain ⟨hriar, hrics, hrcs⟩ := hr
      exact (hloaded.scr r hmpcs hriar hrics hrcs).trans
        (hentered.scr r hmpcs hriar hrics fun h => absurd h hrcs)
  case mpcs =>
    have hmask : lowHalf 0xFFFF0000 = 0 := by decide
    rw [hloaded.mpcs, lowHalf, BitVec.extractLsb'_and, ← lowHalf, ← lowHalf, hmask]
    exact BitVec.and_zero

/-- A program at address 0x200, translated and with every level enabled, that level 2 interrupts; the
handler of the level returns at once. -/
def interrupted : Machine where
  core := { Core.new with
    regs := (((Registers.zero.setScr Scr.iar 0x200).setScr Scr.ics 0x107).setScr Scr.cs 0x40).setScr
      Scr.irb (Irb.request 2)
    translateMode := true }
  bus := (Bus.empty.load .program 0x128 [0x00, 0x00, 0x04, 0x00, 0x10, 0x00, 0x00, 0x41]).load
    .program 0x400 [0xD0, 0x00, 0x01, 0x20]

/-- The interrupted program resumes two steps later. -/
theorem resumed_interrupted :
    interrupted.exception? = some (.interrupt 2) ∧ interrupted.Resumed interrupted.step.1.step.1 := by
  have hentry : interrupted.exception? = some (.interrupt 2) := by decide +kernel
  exact ⟨hentry, resumed_of_return (by decide +kernel) (by decide +kernel) (by decide +kernel)
    (by decide +kernel) hentry (by decide +kernel) (by decide +kernel) (by decide +kernel)
    (by decide +kernel)⟩

end Machine

end ProcessorCores.Romp

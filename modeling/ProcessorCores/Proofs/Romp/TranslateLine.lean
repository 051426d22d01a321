import ProcessorCores.Proofs.Romp.Patches
import ProcessorCores.Proofs.Romp.Return

/-!
# The translate line of the ROMP

The line shows a bit of the interrupt control status. Three things write that register: a write by an
instruction drives the line first, an exception entry drops the line, loads the register and drives the
line as the register asks, and a patch writes the register alone. Everything else an instruction does
leaves the control registers but for the condition status, and the line with them. So the line follows
the register as long as nobody patches it.
-/

namespace ProcessorCores.Romp

namespace Core

variable {before after core : Core}

/-- The line shows the translate bit of the interrupt control status. -/
def LineFollows (core : Core) : Prop := core.translateMode = core.regs.ics.getLsbD 8

/-- Whether the line follows the mode is decided by comparing the two. -/
instance (core : Core) : Decidable core.LineFollows := inferInstanceAs (Decidable (_ = _))

/-- Work that leaves the line and every control register but the condition status. -/
structure ControlsKept (before after : Core) : Prop where
  translateMode : after.translateMode = before.translateMode
  scr : ∀ r, r ≠ Scr.cs → after.regs.scr.get r = before.regs.scr.get r

/-- Nothing at all keeps the controls. -/
theorem ControlsKept.refl (core : Core) : core.ControlsKept core := ⟨rfl, fun _ _ => rfl⟩

/-- Keeping the controls is transitive. -/
theorem ControlsKept.trans {third : Core} (h : before.ControlsKept after)
    (h' : after.ControlsKept third) : before.ControlsKept third :=
  ⟨h'.translateMode.trans h.translateMode, fun r hr => (h'.scr r hr).trans (h.scr r hr)⟩

/-- Where the controls are kept, the line still follows. -/
theorem ControlsKept.lineFollows (h : before.ControlsKept after) (hline : before.LineFollows) :
    after.LineFollows := by
  rw [LineFollows, h.translateMode, hline, Registers.ics, Registers.ics, h.scr Scr.ics (by decide)]

/-! ## Parts of an instruction -/

/-- An operation on registers keeps the controls. -/
theorem compute_controlsKept (core : Core) (outcome : Outcome) :
    core.ControlsKept (core.withRegs (outcome.apply core.regs)) := by
  refine ⟨rfl, fun r hr => ?_⟩
  obtain ⟨write, effect⟩ := outcome
  cases write with
  | none => exact (Bank.get_set ..).trans (if_neg hr)
  | some write => exact (Bank.get_set ..).trans (if_neg hr)

/-- A branch keeps the controls. -/
theorem branch_controlsKept (core : Core) (op : BranchOp) (instruction : Instruction) (next : Word) :
    core.ControlsKept (core.branch op instruction next).1 := by
  unfold branch
  split
  · cases op.link? instruction <;> exact ⟨rfl, fun _ _ => rfl⟩
  · exact .refl core

/-- A write of another control register leaves the line and the register it follows. -/
theorem LineFollows.setScr (h : core.LineFollows) {r : Reg} (hr : r ≠ Scr.ics) (value : Word) :
    (core.withRegs (core.regs.setScr r value)).LineFollows := by
  have hics : (core.regs.scr.set r value).get Scr.ics = core.regs.scr.get Scr.ics := by
    rw [Bank.get_set, if_neg hr.symm]
  rw [LineFollows, Registers.ics]
  exact h.trans (congrArg (·.getLsbD 8) hics.symm)

/-- An instruction that writes the register drives the line. -/
theorem LineFollows.writeScr (h : core.LineFollows) (r : Reg) (value : Word) :
    (core.writeScr r value).LineFollows := by
  by_cases hr : r = Scr.ics
  · subst hr
    have hics : (core.regs.scr.set Scr.ics value).get Scr.ics = value := Bank.get_set_self _ _ _
    rw [LineFollows, writeScr_regs, Registers.ics, Registers.setScr, hics, ← Ics.meets_translate]
    rfl
  · unfold Core.writeScr
    dsimp only
    rw [if_neg hr]
    have hreported : (core.report (.scrWritten r value)).LineFollows := h
    exact hreported.setScr hr value

/-- The control operations leave the line following the mode. -/
theorem LineFollows.control (h : core.LineFollows) (op : ControlOp) (instruction : Instruction)
    (next : Word) : (core.control op instruction next).LineFollows := by
  cases op with
  | mfs => exact h
  | mts => exact h.writeScr _ _
  | clrsb => exact h.writeScr _ _
  | setsb => exact h.writeScr _ _

/-- The end of a step writes the instruction address at most. -/
theorem LineFollows.endStep (h : core.LineFollows) (next : Word) : (core.endStep next).LineFollows := by
  have hiar (address : Word) : (core.withRegs (core.regs.setScr Scr.iar address)).LineFollows :=
    h.setScr (by decide) address
  unfold Core.endStep
  split
  · exact hiar next
  · exact hiar core.branchTarget
  · exact hiar next
  · exact h

end Core

namespace Machine

variable {machine : Machine}

/-- A load keeps the controls. -/
theorem load_controlsKept (machine : Machine) (op : LoadOp) (instruction : Instruction) :
    machine.core.ControlsKept (machine.load op instruction).core := by
  cases op <;> exact ⟨rfl, fun _ _ => rfl⟩

/-- A multiple load keeps the controls. -/
theorem loadRegisters_controlsKept (machine : Machine) (r : Reg) (address : Word) (count : Nat) :
    machine.core.ControlsKept (machine.loadRegisters r address count).core := by
  obtain ⟨_, hloaded⟩ := machine.loadRegisters_core r address count
  rw [hloaded]
  exact ⟨rfl, fun _ _ => rfl⟩

/-- An entry drives the line as the status that it loads asks. -/
theorem lineFollows_enter (machine : Machine) (cause : Exception) :
    (machine.enter cause).core.LineFollows :=
  machine.enter_translateMode cause

/-- So does a load of the program status, which writes two more control registers. -/
theorem lineFollows_loadProgramStatus (h : machine.core.LineFollows) (instruction : Instruction) :
    (machine.loadProgramStatus instruction).core.LineFollows := by
  have hlatched (target : Word) : (machine.core.latch target false).LineFollows := h
  exact (((hlatched _).writeScr Scr.ics _).setScr (by decide) _).setScr (by decide) _

/-! ## Steps and runs -/

/-- Whatever an operation does, the line follows. -/
theorem lineFollows_execute (h : machine.core.LineFollows) (op : Op) (instruction : Instruction)
    (next : Word) : (machine.execute op instruction next).1.core.LineFollows := by
  cases op with
  | compute op => exact (machine.core.compute_controlsKept _).lineFollows h
  | load op => exact (machine.load_controlsKept op instruction).lineFollows h
  | store op =>
    change (machine.store op instruction).core.LineFollows
    rw [store_core]
    exact h
  | tsh => exact h
  | lm => exact (machine.loadRegisters_controlsKept _ _ _).lineFollows h
  | stm =>
    change (machine.storeRegisters _ _ _).core.LineFollows
    rw [storeRegisters_core]
    exact h
  | port op =>
    change (machine.accessPort op instruction).core.LineFollows
    unfold accessPort
    dsimp only
    split
    · cases op <;> exact h
    · exact lineFollows_enter _ _
  | trap op =>
    unfold execute
    dsimp only
    split
    · exact lineFollows_enter _ _
    · exact h
  | branch op => exact (machine.core.branch_controlsKept op instruction next).lineFollows h
  | control op => exact h.control op instruction next
  | svc => exact lineFollows_enter _ _
  | lps => exact lineFollows_loadProgramStatus h instruction
  | illegal => exact lineFollows_enter _ _

/-- A step that enters something ends the entry; any other executes an instruction and ends. -/
theorem lineFollows_step (h : machine.core.LineFollows) : machine.step.1.core.LineFollows := by
  rw [step_eq]
  cases hentry : machine.entered? with
  | some entered =>
    obtain ⟨noted, cause, rfl⟩ := entry_eq_some hentry
    exact (lineFollows_enter noted cause).endStep (noted.enter cause).core.regs.iar
  | none =>
    have hexecuted : machine.executed.core.LineFollows := by
      unfold executed
      dsimp only
      split
      · exact lineFollows_enter _ _
      · refine lineFollows_execute ?_ _ _ _
        rw [fetch_core]
        exact h
    dsimp only
    rw [executeNext_eq]
    exact hexecuted.endStep _

/-- The steps of a run leave the line following the mode. -/
theorem lineFollows_runSteps (h : machine.core.LineFollows) (budget : Budget) (count : Nat) :
    (machine.runSteps budget count).1.core.LineFollows := by
  induction count generalizing machine budget with
  | zero => exact h
  | succ count ih =>
    rw [runSteps]
    split
    · exact h
    · have hstepped : (machine.step.1.mapCore fun core =>
          { core with totalCycles := core.totalCycles + BitVec.ofNat 64 machine.step.2 }).core.LineFollows :=
        lineFollows_step h
      exact ih hstepped _

/-! ## Hosts -/

/-- What a host can bring a machine to without patching the paths that are barred: from a new core, or
from a reset of any, by steps and runs over any storage, interrupt lines, signals of a machine check,
patches, and restores of what it has brought some core to. A run may be cut off between any two
steps. -/
inductive Hosted (barred : String → Prop) : Machine → Prop
  | new (bus : Bus) : Hosted barred ⟨.new, bus⟩
  | reset (machine : Machine) : Hosted barred machine.reset
  | storage {machine : Machine} (bus : Bus) :
    Hosted barred machine → Hosted barred { machine with bus := bus }
  | step {machine : Machine} : Hosted barred machine → Hosted barred machine.step.1
  | run {machine : Machine} (budget : Budget) (count : Nat) :
    Hosted barred machine → Hosted barred (machine.runSteps budget count).1
  | line {machine : Machine} (line : Nat) (asserted : Bool) :
    Hosted barred machine → Hosted barred (machine.mapCore (·.setInputLine line asserted))
  | machineCheck {machine : Machine} (status : Word) :
    Hosted barred machine → Hosted barred (machine.mapCore (·.signalMachineCheck status))
  | poke {machine : Machine} {path : String} (value : Value) : ¬ barred path →
    Hosted barred machine → Hosted barred (machine.mapCore fun core => (core.poke path value).state)
  | restore {machine other : Machine} : Hosted barred machine → Hosted barred other →
    Hosted barred (machine.mapCore (·.restore other.core.snapshot))

/-- After a reset the line follows the mode. -/
theorem lineFollows_reset (machine : Machine) : machine.reset.core.LineFollows := by
  have hzero : Core.LineFollows { (machine.core.withRegs .zero).setTranslateMode false with
      flow := .normal
      branchTarget := 0
      pendingMachineCheck := none } := by
    rw [Core.LineFollows, Core.setTranslateMode_regs]
    change false = (Bank.get .zero Scr.ics).getLsbD 8
    rw [Bank.get_zero]
    rfl
  exact hzero.setScr (by decide) _

/-- A change of an input line leaves the line following the mode. -/
theorem lineFollows_setInputLine {core : Core} (h : core.LineFollows) (line : Nat) (asserted : Bool) :
    (core.setInputLine line asserted).LineFollows := by
  unfold Core.setInputLine
  split
  · cases asserted with
    | true =>
      have hreported : (core.report (.lineAsserted line)).LineFollows := h
      exact hreported.setScr (by decide) _
    | false => exact h.setScr (by decide) _
  · exact h

/-- A patch by another path than that of the register leaves the line and the bit it follows. -/
theorem lineFollows_poke {core : Core} (h : core.LineFollows) {path : String}
    (hpath : path ≠ Scr.name Scr.ics) (value : Value) : (core.poke path value).state.LineFollows := by
  cases hpoke : core.poke path value with
  | refused error left =>
    obtain rfl := core.atomic_poke path value error left hpoke
    exact h
  | done after =>
    obtain ⟨place, hplace, hwrite⟩ := Core.write_of_poke hpoke
    have hics : Place.register (.scr Scr.ics) ≠ place.register := by
      cases place with
      | scr r =>
        intro hsame
        obtain rfl : Scr.ics = r := by injection hsame
        exact hpath (Place.ofPath?_eq_scr_iff.mp hplace)
      | flag flag =>
        intro hsame
        injection hsame with hsame
        contradiction
      | gpr | flow | branchTarget | translateMode | cycles => exact Place.noConfusion
    have hline : Place.register .translateMode ≠ place.register := by
      cases place with
      | translateMode => contradiction
      | gpr | scr | flag | flow | branchTarget | cycles => exact Place.noConfusion
    have hregister := Core.read_write_other hwrite hics
    have hshown := Core.read_write_other hwrite hline
    injection hregister with hregister
    injection hshown with hshown
    change after.LineFollows
    rw [Core.LineFollows, hshown, h]
    exact congrArg (·.getLsbD 8) hregister.symm

/-- As long as nobody patches the register by its path, the line shows bit 8 of it. -/
theorem Hosted.translate_line (h : Hosted (· = "ics") machine) :
    machine.core.translateMode = true ↔ machine.core.regs.ics.getLsbD 8 = true := by
  have hfollows : machine.core.LineFollows := by
    induction h with
    | new bus => exact (congrArg (·.getLsbD 8) (Bank.get_zero Scr.ics)).symm
    | reset machine => exact lineFollows_reset machine
    | storage _ _ ih => exact ih
    | step _ ih => exact lineFollows_step ih
    | run budget count _ ih => exact lineFollows_runSteps ih budget count
    | line line asserted _ ih => exact lineFollows_setInputLine ih line asserted
    | machineCheck _ _ ih => exact ih
    | poke value hpath _ ih => exact lineFollows_poke ih hpath value
    | restore _ _ _ ih => exact ih
  rw [hfollows]

/-- SETSB sets the bit; a patch of another register follows, and a restore. -/
theorem translate_line_setsb :
    let started : Machine := ⟨.new, Bus.empty.loadHalves .program 0 [0x97E7]⟩
    let machine := (started.step.1.mapCore fun core => (core.poke "irb" (.half 0x8000)).state).mapCore
      (·.restore started.step.1.core.snapshot)
    Hosted (· = "ics") machine ∧ machine.core.translateMode = true ∧
      machine.core.regs.ics.getLsbD 8 = true := by
  intro started machine
  have hstepped : Hosted (· = "ics") started.step.1 := (Hosted.new _).step
  have hhosted : Hosted (· = "ics") machine := (hstepped.poke (.half 0x8000) (by decide)).restore hstepped
  have hline : machine.core.translateMode = true := by decide +kernel
  exact ⟨hhosted, hline, hhosted.translate_line.mp hline⟩

-- A patch of the register itself leaves the line behind.
example : ¬ (Core.new.poke "ics" (.half 0x0100)).state.LineFollows := by decide +kernel

end Machine

end ProcessorCores.Romp

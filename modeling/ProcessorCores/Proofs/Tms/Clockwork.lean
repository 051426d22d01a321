import ProcessorCores.Proofs.Tms.Executions
import ProcessorCores.Proofs.Tms.Frames

/-!
# What steps leave to the clocks

No clock passes within a step. The timer phase, the count of all clocks, the number of reloads and
the hold input stay as they are, whatever the step executes; the timer register stays unless the
program writes it. All of these change between the steps only, where clocks pass and the hold input
is sampled.
-/

namespace ProcessorCores.Tms

/-- True for the report of a reload. -/
def Event.isReload : Event → Bool
  | .timerReload _ => true
  | _ => false

/-- The part of a core that changes between steps only. -/
structure Clockwork where
  hold : Bool
  holdLine : Bool
  timerPhase : Nat
  totalCycles : Long
  /-- How often the timer has been reloaded. -/
  reloads : Nat

/-- All of it is part of the frame. -/
def Frame.clockwork (frame : Frame) : Clockwork where
  hold := frame.hold
  holdLine := frame.holdLine
  timerPhase := frame.timerPhase
  totalCycles := frame.totalCycles
  reloads := frame.journal.countP Event.isReload

/-- True for an execution that leaves the timer register. -/
def KeepsTim (execution : Machine × Op) : Prop :=
  (execution.1.execute execution.2).1.core.ram.tim = execution.1.core.ram.tim

/-- Whether an execution keeps the timer is decided by comparing it. -/
instance : DecidablePred KeepsTim := fun _ => inferInstanceAs (Decidable (_ = _))

namespace Core

/-- The clockwork of a core. -/
def clockwork (core : Core) : Clockwork := core.frame.clockwork

/-- How often the timer has been reloaded. -/
def reloads (core : Core) : Nat := core.clockwork.reloads

/-- A service leaves the clockwork. -/
theorem service_clockwork (core : Core) : core.service.1.clockwork = core.clockwork := by
  unfold service
  split
  · next source _ => cases source <;> rfl
  · rfl

/-- A service leaves the timer. -/
theorem service_tim (core : Core) : core.service.1.ram.tim = core.ram.tim := by
  obtain ⟨_, _, _, _, _, _, _, _, hserved⟩ := core.service_eq
  rw [hserved]

/-- Moving a block takes no clocks. -/
theorem mapBlock_clockwork (core : Core) (index : Nat) (program : Bool) :
    (core.mapBlock index program).clockwork = core.clockwork := by
  unfold mapBlock
  cases core.ram.movedBlock? index program <;> rfl

/-- No operation changes the clockwork. -/
theorem keptByOps_clockwork :
    KeptByOps fun before after => after.clockwork = before.clockwork where
  trans h h' := h'.trans h
  edited h := congrArg Frame.clockwork h.frame
  status _ _ := rfl
  armRepeat _ _ := rfl
  doze _ := rfl
  driveXf _ _ := rfl
  mapBlock := mapBlock_clockwork
  illegal _ _ := rfl

/-- The bookkeeping of a step takes no clocks. -/
theorem keptWithinSteps_clockwork (clockwork : Clockwork) :
    KeptWithinSteps fun core => core.clockwork = clockwork where
  service core h := core.service_clockwork.trans h
  fetch _ _ h := h
  repeated _ _ _ h := h
  countPass _ h := h
  endBlock _ h := h

/-- Nor does it touch the timer register. -/
theorem keptWithinSteps_tim (tim : Half) : KeptWithinSteps fun core => core.ram.tim = tim where
  service core h := core.service_tim.trans h
  fetch _ _ h := h
  repeated _ _ _ h := h
  countPass _ h := h
  endBlock _ h := h

end Core

namespace Machine

/-- A step takes no clocks by itself. -/
theorem step_clockwork (machine : Machine) : machine.step.1.core.clockwork = machine.core.clockwork :=
  (Core.keptWithinSteps_clockwork _).step rfl fun e _ h =>
    (Core.keptByOps_clockwork.execute e.1 e.2).trans h

/-- A step whose executions leave the timer register leaves it. -/
theorem step_tim {machine : Machine} (h : ∀ e ∈ machine.executions, KeepsTim e) :
    machine.step.1.core.ram.tim = machine.core.ram.tim :=
  (Core.keptWithinSteps_tim _).step rfl fun e he hbefore => (h e he).trans hbefore

end Machine

end ProcessorCores.Tms

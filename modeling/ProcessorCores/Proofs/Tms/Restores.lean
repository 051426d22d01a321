import ProcessorCores.Proofs.Tms.CheckedTimer
import ProcessorCores.Proofs.Tms.Patches
import ProcessorCores.Proofs.Tms.Turns

/-!
# Restores of a TMS3202x core

A state comes from outside and can be anything. A restore takes it exactly when its timer phase is
below a machine cycle and its blocks have the layout of its model, and otherwise leaves the core
alone. This is all that needs to be checked: the two facts are kept by everything that a program or
a host can do from then on, and from them follow the bounds of every index into on-chip storage and
of every difference that the timer takes. So the snapshot of such a core can be restored as well.

What decides the layout is the extent of the storage, which no execution changes: moving a block
sets a flag, and leaves how many flags there are.
-/

namespace ProcessorCores.Tms

namespace OnChipRam

/-! ## Layouts -/

/-- Storage laid out as a model says: one flag for each of its blocks, and its words. -/
structure HasLayout (ram : OnChipRam) (model : Model) : Prop where
  part : ram.model = model
  flags : ram.inProgram.size = model.blocks.length
  blocks : ram.blocks.size = model.blocks.length
  sizes : ∀ (index : Nat) (words : Array Half) (block : Block), ram.blocks[index]? = some words →
    model.blocks[index]? = some block → words.size = block.size.toNat

/-- The check of a restore accepts exactly the layout of the part. -/
theorem fits_iff_hasLayout (ram : OnChipRam) (model : Model) :
    ram.fits model = true ↔ ram.HasLayout model := by
  simp only [fits, Bool.and_eq_true, beq_iff_eq]
  constructor
  · rintro ⟨⟨hmodel, hflags⟩, hsizes⟩
    refine ⟨hmodel, hflags, ?_, fun index words block hwords hblock => ?_⟩
    · simpa using congrArg List.length hsizes
    · have hsize := congrArg (·[index]?) hsizes
      simpa only [List.getElem?_map, Array.getElem?_toList, hwords, hblock, Option.map_some,
        Option.some.injEq] using hsize
  · intro h
    refine ⟨⟨h.part, h.flags⟩, List.ext_getElem (by simpa using h.blocks) fun index hleft hright => ?_⟩
    simp only [List.getElem_map, Array.getElem_toList]
    exact h.sizes index _ _ (Array.getElem?_eq_getElem _) (List.getElem?_eq_getElem _)

/-- The storage of a new core is laid out as its model says. -/
theorem hasLayout_new (model : Model) : (new model).HasLayout model := by
  rw [← fits_iff_hasLayout]
  cases model <;> decide +kernel

/-- Storage in which no access is out of bounds: there is a flag for each block that a search asks
for, and a word in each cell that it finds. -/
structure InBounds (ram : OnChipRam) : Prop where
  flags : ram.inProgram.size = ram.model.blocks.length
  cells : ∀ address cell,
    ram.dataCell? address = some cell ∨ ram.programCell? address = some cell → ram.Holds cell

/-- In memory with the layout of a part no access is out of bounds. -/
theorem HasLayout.inBounds {ram : OnChipRam} {model : Model} (h : ram.HasLayout model) :
    ram.InBounds where
  flags := by rw [h.flags, h.part]
  cells address cell hcell := by
    have hfits := (ram.fits_iff_hasLayout model).mpr h
    rcases hcell with hcell | hcell
    · exact holds_of_dataCell? hfits hcell
    · rw [programCell?_eq] at hcell
      exact holds_of_windowCell? hfits hcell

/-- The model, how many blocks have a flag, and how many words each block has. -/
def extent (ram : OnChipRam) : Model × Nat × List Nat :=
  (ram.model, ram.inProgram.size, ram.blocks.toList.map Array.size)

/-- The shape decides the extent. -/
theorem extent_of_shape {ram other : OnChipRam} (hshape : ram.shape = other.shape) :
    ram.extent = other.extent :=
  congrArg (fun shape => (shape.1.1, shape.1.2.size, shape.2)) hshape

/-- The extent decides the layout. -/
theorem HasLayout.of_extent {ram other : OnChipRam} {model : Model} (h : ram.HasLayout model)
    (hextent : other.extent = ram.extent) : other.HasLayout model := by
  obtain ⟨hmodel, hrest⟩ := Prod.mk.inj hextent
  obtain ⟨hflags, hsizes⟩ := Prod.mk.inj hrest
  rw [← fits_iff_hasLayout, fits] at h ⊢
  rw [hmodel, hflags, hsizes]
  exact h

/-- Moving a block leaves the extent. -/
theorem extent_mapBlock (ram : OnChipRam) (index : Nat) (program : Bool) :
    (ram.mapBlock index program).extent = ram.extent := by
  simp only [extent, mapBlock, Array.size_setIfInBounds]

end OnChipRam

/-! ## The gate -/

/-- A state that a restore takes. -/
structure State.Restorable (state : State) : Prop where
  timerPhase : state.timerPhase < clk
  layout : state.ram.HasLayout state.model

namespace Core

/-- A restore puts the state in place, and does so for no other states than these. -/
theorem restore_eq_done_iff (core after : Core) (state : State) :
    core.restore state = .done after ↔ state.Restorable ∧ after = { core with toState := state } := by
  unfold restore
  split
  · next hphase =>
    exact ⟨fun h => by contradiction, fun h => absurd h.1.timerPhase (Nat.not_lt.mpr hphase)⟩
  · next hphase =>
    rw [Nat.not_le] at hphase
    split
    · next hfits =>
      rw [OnChipRam.fits_iff_hasLayout] at hfits
      rw [Attempt.done.injEq]
      exact ⟨fun h => ⟨⟨hphase, hfits⟩, h.symm⟩, fun h => h.2.symm⟩
    · next hfits =>
      rw [OnChipRam.fits_iff_hasLayout] at hfits
      exact ⟨fun h => by contradiction, fun h => absurd h.1.layout hfits⟩

/-- A restore that is refused leaves the core as it was. -/
theorem atomic_restore (core : Core) (state : State) : Attempt.Atomic core (core.restore state) := by
  unfold restore
  split
  · exact Attempt.atomic_refused _ _
  · split
    · exact Attempt.atomic_done _ _
    · exact Attempt.atomic_refused _ _

/-! ## Extents -/

/-- The model of a core and the extent of its storage. -/
def extent (core : Core) : Model × Model × Nat × List Nat := (core.model, core.ram.extent)

/-- The frame decides both. -/
theorem extent_of_frame {before after : Core} (hframe : after.frame = before.frame) :
    after.extent = before.extent := by
  have hram : after.ram.extent = before.ram.extent :=
    OnChipRam.extent_of_shape (congrArg Frame.shape hframe)
  exact congrArg₂ Prod.mk (congrArg Frame.model hframe) hram

/-- Storage of the same extent in place of the old one. -/
theorem extent_of_ram {before after : Core} (hmodel : after.model = before.model)
    (hram : after.ram.extent = before.ram.extent) : after.extent = before.extent :=
  congrArg₂ Prod.mk hmodel hram

/-- Writing a mapped register changes no extent. -/
theorem setRegister_extent (core : Core) (register : MappedRegister) (value : Half) :
    (core.mapRam (·.setRegister register value)).extent = core.extent :=
  extent_of_ram rfl (OnChipRam.extent_of_shape (core.ram.shape_setRegister register value))

/-- Mapping a block changes no extent. -/
theorem mapBlock_extent (core : Core) (index : Nat) (program : Bool) :
    (core.mapBlock index program).extent = core.extent := by
  obtain ⟨journal, hmoved⟩ := core.mapBlock_eq index program
  rw [hmoved]
  exact extent_of_ram rfl (core.ram.extent_mapBlock index program)

/-- No operation changes the extent. -/
theorem keptByOps_extent : KeptByOps fun before after => after.extent = before.extent where
  trans h h' := h'.trans h
  edited h := extent_of_frame h.frame
  status _ _ := rfl
  armRepeat _ _ := rfl
  doze _ := rfl
  driveXf _ _ := rfl
  mapBlock := mapBlock_extent
  illegal _ _ := rfl

/-- The storage after a reset has one flag for each that there was. -/
theorem resetRam_extent (core : Core) :
    (core.unmapBlocks.mapRam (·.reset)).extent = core.extent := by
  obtain ⟨flags, journal, hsize, hunmapped⟩ := core.unmapBlocks_eq
  have hram : ({ core.ram with inProgram := flags } : OnChipRam).reset.extent = core.ram.extent := by
    simp only [OnChipRam.extent, OnChipRam.reset, Array.size_map, hsize]
  rw [hunmapped]
  exact extent_of_ram rfl hram

/-- The bookkeeping of a run leaves the extent. -/
theorem kept_extent (extent : Model × Model × Nat × List Nat) :
    Kept fun core => core.extent = extent where
  service core h := core.holds_service (P := fun core => core.extent = extent) fun _ _ _ _ _ _ _ _ => h
  countClocks core budget clocks h :=
    core.holds_countClocks (P := fun core => core.extent = extent) budget clocks fun _ _ _ _ _ => h
  fetch _ _ h := h
  report _ _ h := h
  countPass _ h := h
  endBlock _ h := h
  spend _ _ h := h
  hold _ _ h := h

end Core

namespace Machine

/-- No execution changes the extent. -/
theorem keeps_extent (extent : Model × Model × Nat × List Nat) (execution : Machine × Op) :
    Keeps (fun core => core.extent = extent) execution :=
  fun h => (Core.keptByOps_extent.execute execution.1 execution.2).trans h

/-- No step changes the extent. -/
theorem keptBySteps_extent (extent : Model × Model × Nat × List Nat) :
    KeptBySteps (fun core => core.extent = extent) fun _ => True :=
  fun h _ => (Core.kept_extent extent).step h fun e _ => keeps_extent extent e

/-- Where a step stands between its accesses: at its start, and before and after each of its
executions. -/
def stages (machine : Machine) : List Machine :=
  machine :: machine.executions.flatMap fun e => [e.1, (e.1.execute e.2).1]

/-- What the bookkeeping of a step and all its executions keep holds all through the step. -/
theorem stages_of_kept {P : Core → Prop} (hkept : KeptWithinSteps P) {machine : Machine}
    (hexecutions : ∀ e ∈ machine.executions, Keeps P e) (hmachine : P machine.core) :
    ∀ stage ∈ machine.stages, P stage.core := by
  intro stage hstage
  rw [stages, List.mem_cons, List.mem_flatMap] at hstage
  rcases hstage with rfl | ⟨e, he, hstage⟩
  · exact hmachine
  · have hbefore := hkept.before_executions hmachine hexecutions e he
    rw [List.mem_cons, List.mem_singleton] at hstage
    rcases hstage with rfl | rfl
    · exact hbefore
    · exact hexecutions e he hbefore

/-- The extent stays all through a step. -/
theorem stages_extent {machine stage : Machine} (hstage : stage ∈ machine.stages) :
    stage.core.extent = machine.core.extent :=
  stages_of_kept (Core.kept_extent machine.core.extent).withinSteps
    (fun e _ => keeps_extent machine.core.extent e) rfl stage hstage

end Machine

/-! ## After a restore -/

/-- A change that leaves the extent and keeps the timer phase below a machine cycle. -/
theorem State.Restorable.of_extent {before after : Core} (h : before.Restorable)
    (hextent : after.extent = before.extent) (hphase : after.timerPhase < clk) :
    after.Restorable where
  timerPhase := hphase
  layout := by
    obtain ⟨hmodel, hram⟩ := Prod.mk.inj hextent
    rw [hmodel]
    exact h.layout.of_extent hram

/-- One thing that a host does to a core: a reset, a pin, a line, a serial word, a patch or a restore,
refused or not, or an operation on the on-chip memory. -/
inductive Core.HostAct (core : Core) : Core → Prop
  | reset : HostAct core core.reset
  | line (line : Nat) (asserted : Bool) : HostAct core (core.setInputLine line asserted)
  | bio (asserted : Bool) : HostAct core (core.setBio asserted)
  | hold (asserted : Bool) : HostAct core (core.setHold asserted)
  | serialInput (word : Half) : HostAct core (core.setSerialInput word)
  | serialOutput : HostAct core core.takeSerialOutput.2
  | poke (path : String) (value : Value) : HostAct core (core.poke path value).state
  | restore (state : State) : HostAct core (core.restore state).state
  | mapBlock (index : Nat) (program : Bool) : HostAct core (core.mapBlock index program)
  | resetRam : HostAct core (core.unmapBlocks.mapRam (·.reset))
  | pokeData {address value : Half} {ram : OnChipRam} :
    core.ram.pokeData address value = some ram → HostAct core { core with ram := ram }
  | setRegister (register : MappedRegister) (value : Half) :
    HostAct core (core.mapRam (·.setRegister register value))

/-- What a machine can come to: by steps, by runs, whether they return or not, and by what a host
does to its core and its bus. -/
inductive Later (start : Machine) : Machine → Prop
  | refl : Later start start
  | step {machine : Machine} : Later start machine → Later start machine.step.1
  | run {machine other : Machine} {budget left : Budget} : Later start machine →
    Boundary (fun _ => True) machine budget other left → Later start other
  | host {machine : Machine} {core : Core} : Later start machine → machine.core.HostAct core →
    Later start { machine with core := core }
  | bus {machine : Machine} (bus : Bus) : Later start machine →
    Later start { machine with bus := bus }

/-- Whatever a host does to it, a core that could be restored can be restored still. -/
theorem Core.HostAct.restorable {core after : Core} (hact : core.HostAct after)
    (h : core.Restorable) : after.Restorable := by
  cases hact with
  | reset => exact h.of_extent core.resetRam_extent (Nat.zero_lt_succ _)
  | line line asserted =>
    apply core.holds_setInputLine (P := fun core => core.Restorable) line asserted
    exact fun _ _ _ => h.of_extent rfl h.timerPhase
  | bio _ | hold _ | serialInput _ | serialOutput => exact h.of_extent rfl h.timerPhase
  | poke path value =>
    apply core.holds_poke (P := fun core => core.Restorable) path value
    · exact fun _ _ => h.of_extent rfl h.timerPhase
    · exact fun register word => h.of_extent (core.setRegister_extent register word) h.timerPhase
  | restore state =>
    cases hrestore : core.restore state with
    | done after =>
      obtain ⟨hstate, rfl⟩ := (core.restore_eq_done_iff _ _).mp hrestore
      exact hstate
    | refused error left =>
      obtain rfl := core.atomic_restore state error left hrestore
      exact h
  | mapBlock index program =>
    obtain ⟨journal, hmoved⟩ := core.mapBlock_eq index program
    have hextent := core.mapBlock_extent index program
    rw [hmoved] at hextent ⊢
    exact h.of_extent hextent h.timerPhase
  | resetRam =>
    obtain ⟨flags, journal, -, hunmapped⟩ := core.unmapBlocks_eq
    have hextent := core.resetRam_extent
    rw [hunmapped] at hextent ⊢
    exact h.of_extent hextent h.timerPhase
  | @pokeData _ value _ hpoke =>
    obtain ⟨cell, -, rfl⟩ := Option.map_eq_some_iff.mp hpoke
    have hram := OnChipRam.extent_of_shape (core.ram.shape_set cell value)
    exact h.of_extent (extent_of_ram rfl hram) h.timerPhase
  | setRegister register value =>
    exact h.of_extent (core.setRegister_extent register value) h.timerPhase

/-- So it is after anything that can happen to the machine. -/
theorem Later.restorable {start machine : Machine} (hlater : Later start machine)
    (h : start.core.Restorable) : machine.core.Restorable := by
  induction hlater with
  | refl => exact h
  | @step machine _ ih =>
    have hextent := Machine.keptBySteps_extent machine.core.extent rfl fun _ _ => trivial
    exact ih.of_extent hextent (Machine.steady_of_step ih.timerPhase).timerPhase
  | run _ hboundary ih =>
    refine ih.of_extent ?_ ?_
    · exact hboundary.invariant (Core.kept_extent _) (Machine.keptBySteps_extent _) rfl
    · exact hboundary.invariant Core.kept_timerPhase (keptBySteps_timerPhase _) ih.timerPhase
  | host _ hact ih => exact hact.restorable ih
  | bus _ _ ih => exact ih

/-- What a restorable core is safe from: a timer phase out of a machine cycle, an index out of the
storage it goes into, a difference of the timer below zero, and a snapshot that is refused or comes
back changed. -/
structure Machine.Safe (machine : Machine) : Prop where
  timerPhase : machine.core.timerPhase < clk
  /-- At every stage of a step, whatever words it has stored by then. -/
  inBounds : ∀ stage ∈ machine.stages, ∀ ram : OnChipRam, ram.shape = stage.core.ram.shape →
    ram.InBounds
  /-- Before the first step of a run. -/
  beginRun : ∀ budget, machine.core.beginRun? budget = some (machine.core.beginRun budget)
  /-- After every step of a run. -/
  settle : ∀ budget, machine.step.1.core.settle? budget machine.step.2 =
    some (machine.step.1.core.settle budget machine.step.2)
  /-- Its own snapshot puts the core back as it is. -/
  resumes : machine.core.restore machine.core.snapshot = .done machine.core
  /-- On any other core it gives the same snapshot. -/
  copies : ∀ other : Core, ∃ copy, other.restore machine.core.snapshot = .done copy ∧
    copy.snapshot = machine.core.snapshot

/-- A machine whose core can be restored is safe. -/
theorem Machine.safe_of_restorable {machine : Machine} (h : machine.core.Restorable) :
    machine.Safe where
  timerPhase := h.timerPhase
  inBounds stage hstage ram hshape := by
    have hstages := (Prod.mk.inj (stages_extent hstage)).2
    have hram := (OnChipRam.extent_of_shape hshape).trans hstages
    exact (h.layout.of_extent hram).inBounds
  beginRun budget := Core.beginRun?_eq budget h.timerPhase
  settle budget := Core.settle?_eq budget (steady_of_step h.timerPhase).timerPhase _
  resumes := (machine.core.restore_eq_done_iff _ _).mpr ⟨h, rfl⟩
  copies other := ⟨_, (other.restore_eq_done_iff _ _).mpr ⟨h, rfl⟩, rfl⟩

/-- A restore takes the states with a timer phase below a machine cycle and the layout of their
model, and no others; one that it refuses leaves the core as it was. After a restore the machine is
safe, whatever the bus holds, and stays so whatever happens to it. -/
theorem Core.restore_gate (core : Core) (state : State) :
    ((∃ after, core.restore state = .done after) ↔
        state.timerPhase < clk ∧ state.ram.HasLayout state.model) ∧
      (∀ error left, core.restore state = .refused error left → left = core) ∧
      ∀ after, core.restore state = .done after →
        after.snapshot = state ∧ ∀ bus machine, Later ⟨after, bus⟩ machine → machine.Safe := by
  refine ⟨⟨?_, ?_⟩, core.atomic_restore state, fun after hrestored => ⟨?_, ?_⟩⟩
  · rintro ⟨after, hrestored⟩
    obtain ⟨hstate, -⟩ := (core.restore_eq_done_iff _ _).mp hrestored
    exact ⟨hstate.timerPhase, hstate.layout⟩
  · rintro ⟨hphase, hlayout⟩
    exact ⟨_, (core.restore_eq_done_iff _ _).mpr ⟨⟨hphase, hlayout⟩, rfl⟩⟩
  · obtain ⟨-, rfl⟩ := (core.restore_eq_done_iff _ _).mp hrestored
    rfl
  · intro bus machine hlater
    obtain ⟨hstate, rfl⟩ := (core.restore_eq_done_iff _ _).mp hrestored
    exact Machine.safe_of_restorable (hlater.restorable hstate)

/-- A state of the larger part, at the last clock of a machine cycle and within a repeat block. -/
def State.midBlock : State := { State.initial .tms32026 with timerPhase := 3, flow := .repeatBlock }

/-- A core of the smaller part takes it, and is safe after a step with a block moved by hand. -/
theorem restore_gate_midBlock :
    let after : Core := { Core.new .tms32025 with toState := .midBlock }
    (Core.new .tms32025).restore .midBlock = .done after ∧
      ({ core := after.mapBlock 2 true, bus := .empty } : Machine).step.1.Safe := by
  intro after
  have hgate := (Core.new .tms32025).restore_gate .midBlock
  have hdone : (Core.new .tms32025).restore .midBlock = .done after :=
    (Core.restore_eq_done_iff _ _ _).mpr ⟨⟨by decide, OnChipRam.hasLayout_new _⟩, rfl⟩
  obtain ⟨-, hsafe⟩ := hgate.2.2 after hdone
  exact ⟨hdone, hsafe .empty _ ((Later.refl.host (.mapBlock 2 true)).step)⟩

end ProcessorCores.Tms

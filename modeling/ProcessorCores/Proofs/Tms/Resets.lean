import ProcessorCores.Proofs.Tms.Restores

/-!
# What a reset forgets

A reset brings a core back to its power-on state, the words of the blocks and the count of clocks
apart. Two registers of the serial port are not covered by it: the receive word and the transmit word
stay as the program left them, while the other mapped registers take their power-on values.

So much holds of any core whose storage is laid out as its model says. This is what a core that a
host can reach has in common with a new one: the extent of its storage, which is decided when it is
made and which nothing changes.
-/

namespace ProcessorCores.Tms

namespace OnChipRam

/-- The storage of a model in its power-on state, but for the words of the blocks and the serial
registers of `ram`. -/
def powerOn (model : Model) (ram : OnChipRam) : OnChipRam :=
  { new model with b2 := ram.b2, blocks := ram.blocks, drr := ram.drr, dxr := ram.dxr }

/-- The layout decides the extent. -/
theorem HasLayout.extent_eq {ram : OnChipRam} {model : Model} (h : ram.HasLayout model) :
    ram.extent =
      (model, model.blocks.length, model.blocks.map fun block => block.size.toNat) := by
  rw [← fits_iff_hasLayout] at h
  simp only [fits, Bool.and_eq_true, beq_iff_eq] at h
  obtain ⟨⟨hmodel, hflags⟩, hsizes⟩ := h
  rw [extent, hmodel, hflags, hsizes]

/-- Storage that is laid out as its model says is brought back to power-on by a reset, whichever of
its blocks answer in program space. -/
theorem reset_eq_powerOn {ram : OnChipRam} {model : Model} (h : ram.HasLayout model)
    {flags : Array Bool} (hflags : flags.size = ram.inProgram.size) :
    ({ ram with inProgram := flags } : OnChipRam).reset = powerOn model ram := by
  have hcleared : flags.map (fun _ => false) = Array.replicate model.blocks.length false := by
    rw [Array.map_const', hflags, h.flags]
  simp [reset, powerOn, new, hcleared, h.part]

end OnChipRam

namespace Core

/-- A core whose storage is laid out as its model says is brought back to power-on by a reset. -/
theorem reset_toState {core : Core} (h : core.ram.HasLayout core.model) :
    core.reset.toState =
      { State.initial core.model with
        ram := OnChipRam.powerOn core.model core.ram
        totalCycles := core.totalCycles } := by
  obtain ⟨flags, journal, hsize, hunmapped⟩ := core.unmapBlocks_eq
  unfold reset
  rw [hunmapped]
  simp only [mapRam, OnChipRam.reset_eq_powerOn h hsize]
  rfl

/-! ## Extents that a host leaves -/

/-- Whatever a host does to a core, short of putting a state in place, leaves the extent. -/
theorem keptByHost_extent (extent : Model × Model × Nat × List Nat) :
    KeptByHost fun core => core.extent = extent where
  reset core h := core.resetRam_extent.trans h
  line core line asserted h :=
    core.holds_setInputLine (P := fun core => core.extent = extent) line asserted fun _ _ _ => h
  bio _ _ h := h
  hold _ _ h := h
  serialInput _ _ h := h
  serialOutput _ h := h
  poke core path value h := by
    refine core.holds_poke (P := fun core => core.extent = extent) path value (fun _ _ => h) ?_
    exact fun register word => (core.setRegister_extent register word).trans h

/-- The extent of a new core. -/
theorem extent_of_layout {core : Core} {model : Model} (hmodel : core.model = model)
    (h : core.ram.HasLayout model) : core.extent = (new model).extent := by
  have hnew := (OnChipRam.hasLayout_new model).extent_eq
  exact congrArg₂ Prod.mk hmodel (h.extent_eq.trans hnew.symm)

end Core

/-- A core that a host can reach has the model that it was made with, and storage laid out for it. -/
theorem Reached.layout {model : Model} {fair : Machine × Op → Prop} {machine : Machine}
    (h : Reached model fair machine) :
    machine.core.model = model ∧ machine.core.ram.HasLayout model := by
  have hextent : machine.core.extent = (Core.new model).extent := by
    apply h.invariant (Core.kept_extent _) (Core.keptByHost_extent _)
    · intro machine hmachine _
      exact Machine.keptBySteps_extent _ hmachine fun _ _ => trivial
    · rfl
    · intro core hmodel hfits
      rw [OnChipRam.fits_iff_hasLayout] at hfits
      exact core.resetRam_extent.trans (Core.extent_of_layout hmodel hfits)
  obtain ⟨hmodel, hram⟩ := Prod.mk.inj hextent
  exact ⟨hmodel, (OnChipRam.hasLayout_new model).of_extent hram⟩

/-- Whatever a host has done to a core, a reset leaves it in its power-on state but for the words of
the blocks, the serial registers and the count of clocks. So every register is that of a new core
exactly when the two serial registers are clear before the reset. -/
theorem Reached.reset_forgets {model : Model} {machine : Machine}
    (h : Reached model (fun _ => True) machine) :
    machine.core.reset.toState =
        { State.initial model with
          ram := OnChipRam.powerOn model machine.core.ram
          totalCycles := machine.core.totalCycles } ∧
      (∀ cell, machine.core.reset.ram.get cell = machine.core.ram.get cell) ∧
      ((∀ register, machine.core.reset.ram.getRegister register =
          (Core.new model).ram.getRegister register) ↔
        machine.core.ram.drr = 0 ∧ machine.core.ram.dxr = 0) := by
  obtain ⟨hmodel, hlayout⟩ := h.layout
  have hreset := Core.reset_toState (hmodel ▸ hlayout)
  rw [hmodel] at hreset
  have hram := congrArg State.ram hreset
  dsimp only at hram
  rw [hram]
  refine ⟨hreset, fun cell => by cases cell <;> rfl, ?_⟩
  constructor
  · intro hregisters
    exact ⟨hregisters .drr, hregisters .dxr⟩
  · rintro ⟨hdrr, hdxr⟩ register
    cases register with
    | drr => exact hdrr
    | dxr => exact hdxr
    | tim | prd | imr | greg => rfl

/-- A new TMS32025 over a program. -/
def overProgram (program : List Half) : Machine :=
  ⟨.new .tms32025, Bus.empty.loadHalves .program 0 program⟩

/-- A block moved to program space and a loaded accumulator are forgotten. -/
theorem reset_forgets_cnfp :
    let machine := (overProgram [0xCE05, 0xCA2A]).step.1.step.1
    machine.core.ram.isProgram 0 = true ∧ machine.core.reset.ram.isProgram 0 = false ∧
      ∀ register, machine.core.reset.ram.getRegister register =
        (Core.new .tms32025).ram.getRegister register := by
  intro machine
  have hreached : Reached .tms32025 (fun _ => True) machine :=
    ((Reached.new _).step fun _ _ => trivial).step fun _ _ => trivial
  obtain ⟨hreset, -, hregisters⟩ := hreached.reset_forgets
  refine ⟨by decide +kernel, ?_, hregisters.mpr (by decide +kernel)⟩
  rw [congrArg State.ram hreset]
  rfl

/-- A word stored in both serial registers is still there after a reset, where a new core has
zero. -/
theorem serial_registers_survive_reset :
    ¬ ∀ machine, Reached .tms32025 (fun _ => True) machine →
      machine.core.reset.ram.drr = (Core.new .tms32025).ram.drr ∧
        machine.core.reset.ram.dxr = (Core.new .tms32025).ram.dxr := by
  intro hall
  let machine := (overProgram [0xCA2A, 0x6000, 0x6001]).step.1.step.1.step.1
  have hreached : Reached .tms32025 (fun _ => True) machine :=
    (((Reached.new _).step fun _ _ => trivial).step fun _ _ => trivial).step fun _ _ => trivial
  have hdrr : machine.core.reset.ram.drr = 0x2A := by decide +kernel
  have hcleared := (hall machine hreached).1
  rw [hdrr] at hcleared
  exact absurd hcleared (by decide)

end ProcessorCores.Tms

import ProcessorCores.Proofs.Tms.BlockLayout
import ProcessorCores.Proofs.Tms.Resets

/-!
# Blocks that never move

Block B0 of the TMS32025 is the only block that an instruction can bring into program space. CNFP needs
a part with the pair of instructions, and names this block alone; CONF only takes blocks out of program
space, where on its own part none ever is, and does nothing at all on the other. So the status bits that
CONF compares do not matter, nor what has changed them.

Whichever way the blocks are told to move, a change of layout touches flags of the storage and never a
word of it.
-/

namespace ProcessorCores.Tms

namespace OnChipRam

variable {ram : OnChipRam}

/-- With every block in data space no program address is on chip. -/
theorem isOnChipProgram_of_data (h : ∀ index, ram.isProgram index = false) (address : Half) :
    ram.isOnChipProgram address = false := by
  rw [isOnChipProgram, programCell?, findBlock?]
  have hnone : (ram.model.blocks.zipIdx.find? fun entry =>
      ram.isProgram entry.2 && entry.1.inProgramWindow address) = none := by
    simp [h]
  rw [hnone]
  rfl

/-- A block is in program space after a move only if it was before, or was moved there. -/
theorem isProgram_of_mapBlock {index other : Nat} {program : Bool}
    (h : (ram.mapBlock index program).isProgram other = true) :
    ram.isProgram other = true ∨ other = index ∧ program = true := by
  by_cases hindex : index < ram.inProgram.size
  · rw [isProgram_mapBlock hindex] at h
    split at h
    · next hother => exact .inr ⟨hother, h⟩
    · exact .inl h
  · have hsame : (ram.mapBlock index program).inProgram = ram.inProgram :=
      Array.setIfInBounds_eq_of_size_le (Nat.le_of_not_lt hindex)
    rw [isProgram, hsame] at h
    exact .inl h

/-- Flags that are all clear put every block in data space. -/
theorem isProgram_of_clear {flags : Array Bool} (hflags : ∀ flag ∈ flags, flag = false) (index : Nat) :
    flags.getD index false = false := by
  rw [Array.getD_eq_getD_getElem?]
  cases hflag : flags[index]? with
  | none => rfl
  | some flag => exact hflags flag (Array.mem_of_getElem? hflag)

end OnChipRam

namespace Core

variable {core : Core}

/-- Nothing is in program space but block B0 of a part that can bring it there. -/
def MovesB0Only (core : Core) : Prop :=
  ∀ index, core.ram.isProgram index = true → core.model.hasCnfPair = true ∧ index = 0

/-! ## Operations -/

/-- A relation that holds of a change which leaves the part, and moves block B0 only. -/
def MovesAtMostB0 (before after : Core) : Prop :=
  after.model = before.model ∧ (before.MovesB0Only → after.MovesB0Only)

/-- Where part and shape are the same, no block has been moved. -/
theorem movesAtMostB0_of_shape {before after : Core} (hmodel : after.model = before.model)
    (hshape : after.ram.shape = before.ram.shape) : before.MovesAtMostB0 after := by
  refine ⟨hmodel, fun h index hindex => ?_⟩
  rw [hmodel]
  exact h index ((isProgram_of_shape hshape index).symm.trans hindex)

/-- All work moves at most block B0. -/
theorem keptByWork_movesAtMostB0 : KeptByWork MovesAtMostB0 where
  trans h h' := ⟨h'.1.trans h.1, fun hfirst => h'.2 (h.2 hfirst)⟩
  edited h := movesAtMostB0_of_shape (congrArg Frame.model h.frame) (congrArg Frame.shape h.frame)
  status _ _ := ⟨rfl, id⟩
  armRepeat _ _ := ⟨rfl, id⟩
  doze _ := ⟨rfl, id⟩
  driveXf _ _ := ⟨rfl, id⟩
  illegal _ _ := ⟨rfl, id⟩

/-- A move of block B0 by a part that can make it, or of any block to data space. -/
theorem movesAtMostB0_mapBlock (core : Core) {index : Nat} {program : Bool}
    (h : program = true → core.model.hasCnfPair = true ∧ index = 0) :
    core.MovesAtMostB0 (core.mapBlock index program) := by
  obtain ⟨journal, hmoved⟩ := core.mapBlock_eq index program
  rw [hmoved]
  refine ⟨rfl, fun hcore other hother => ?_⟩
  rcases OnChipRam.isProgram_of_mapBlock hother with hbefore | ⟨rfl, hprogram⟩
  · exact hcore other hbefore
  · exact h hprogram

/-- Configuring block B0 moves at most that block. -/
theorem movesAtMostB0_configureB0 (core : Core) (program : Bool) :
    core.MovesAtMostB0 (core.configureB0 program) := by
  unfold configureB0
  split
  · next hmoves =>
    have hpair := (Bool.and_eq_true_iff.mp hmoves).1
    exact core.movesAtMostB0_mapBlock fun _ => ⟨hpair, rfl⟩
  · exact keptByWork_movesAtMostB0.refl core

/-- Choosing one of the layouts moves blocks to data space only, whatever the status says. -/
theorem movesAtMostB0_configureBlocks (core : Core) : core.MovesAtMostB0 core.configureBlocks := by
  have hkept := keptByWork_movesAtMostB0
  refine configureBlocks_keeps (P := core.MovesAtMostB0) (fun moved flag on _ h => ?_)
    (fun moved index h => ?_) (hkept.refl core)
  · exact hkept.trans h (hkept.status moved (.put flag on))
  · exact hkept.trans h (moved.movesAtMostB0_mapBlock fun h => absurd h Bool.false_ne_true)

/-- An execution brings no other block to program space. -/
theorem keeps_movesB0Only (execution : Machine × Op) : Keeps MovesB0Only execution :=
  (keptByWork_movesAtMostB0.execute execution.1 execution.2 (movesAtMostB0_configureB0 _)
    (movesAtMostB0_configureBlocks _)).2

/-- A part without CONF takes no notice of it. -/
theorem configureBlocks_of_tms32025 (h : core.model = .tms32025) : core.configureBlocks = core := by
  rw [configureBlocks, h]
  rfl

/-- A change of layout leaves every word where it is stored. -/
theorem RelaidTo.words {before after : Core} (h : before.RelaidTo after) :
    after.ram.b2 = before.ram.b2 ∧ after.ram.blocks = before.ram.blocks := by
  obtain ⟨status, flags, journal, rfl⟩ := h
  exact ⟨rfl, rfl⟩

/-! ## Everything else -/

/-- Neither does anything that happens between executions. -/
theorem kept_movesB0Only : Kept MovesB0Only where
  service core h := core.holds_service fun _ _ _ _ _ _ _ _ => h
  countClocks core budget clocks h :=
    core.holds_countClocks budget clocks fun _ _ _ _ _ => h
  fetch _ _ h := h
  report _ _ h := h
  countPass _ h := h
  endBlock _ h := h
  spend _ _ h := h
  hold _ _ h := h

/-- At power on every block is in data space. -/
theorem movesB0Only_new (model : Model) : (new model).MovesB0Only := by
  intro index hindex
  have hclear : (OnChipRam.new model).isProgram index = false :=
    OnChipRam.isProgram_of_clear (by simp [OnChipRam.new]) index
  exact absurd (hclear.symm.trans hindex) Bool.false_ne_true

/-- A reset brings every block back to data space. -/
theorem movesB0Only_reset (core : Core) : core.reset.MovesB0Only := by
  intro index hindex
  have hclear : core.reset.ram.isProgram index = false := by
    unfold reset
    exact OnChipRam.isProgram_of_clear (by simp [mapRam, OnChipRam.reset]) index
  exact absurd (hclear.symm.trans hindex) Bool.false_ne_true

/-- No host action brings another block to program space. -/
theorem keptByHost_movesB0Only : KeptByHost MovesB0Only where
  reset core _ := core.movesB0Only_reset
  line core line asserted h := core.holds_setInputLine line asserted fun _ _ _ => h
  bio _ _ h := h
  hold _ _ h := h
  serialInput _ _ h := h
  serialOutput _ h := h
  poke core path value h := by
    refine core.holds_poke path value (fun _ _ => h) fun register word => ?_
    have hstored : core.MovesAtMostB0 (core.mapRam (·.setRegister register word)) :=
      movesAtMostB0_of_shape rfl (core.ram.shape_setRegister register word)
    exact hstored.2 h

end Core

/-! ## Histories -/

/-- All through the next step of whatever a host can reach, block B0 of the TMS32025 is the only one
that may be in program space. -/
theorem Reached.movesB0Only {model : Model} {fair : Machine × Op → Prop} {machine stage : Machine}
    (h : Reached model fair machine) (hstage : stage ∈ machine.stages) :
    stage.core.model = model ∧ stage.core.MovesB0Only := by
  have hmodel := (Prod.mk.inj (Machine.stages_extent hstage)).1.trans h.layout.1
  have hmachine : machine.core.MovesB0Only :=
    h.invariant Core.kept_movesB0Only Core.keptByHost_movesB0Only
      (Core.kept_movesB0Only.keptBySteps fun e _ => Core.keeps_movesB0Only e)
      (Core.movesB0Only_new model) fun core _ _ => core.movesB0Only_reset
  exact ⟨hmodel, Machine.stages_of_kept Core.kept_movesB0Only.withinSteps
    (fun e _ => Core.keeps_movesB0Only e) hmachine stage hstage⟩

/-- An operation that changes the layout leaves every word where it is stored. -/
theorem words_of_layout_change (machine : Machine) {op : Op} (hop : op ∈ [Op.conf, .cnfd, .cnfp]) :
    (machine.execute op).1.core.ram.b2 = machine.core.ram.b2 ∧
      (machine.execute op).1.core.ram.blocks = machine.core.ram.blocks := by
  simp only [List.mem_cons, List.not_mem_nil, or_false] at hop
  obtain rfl | rfl | rfl := hop
  · exact machine.core.relaidTo_configureBlocks.words
  · exact (machine.core.relaidTo_configureB0 false).words
  · exact (machine.core.relaidTo_configureB0 true).words

/-- CONF is executed by a TMS32025 without a trace. -/
theorem execute_conf {machine : Machine} (h : machine.core.model = .tms32025) :
    (machine.execute .conf).1 = machine := by
  change machine.mapCore (·.configureBlocks) = machine
  rw [Machine.mapCore, Core.configureBlocks_of_tms32025 h]

/-- Whatever a host does and a program executes, on the TMS32026 every block stays in data space and no
program address is on chip. On the TMS32025 only block B0 can be in program space, and CONF leaves the
machine as it is, so that a step over it does no more than fetch its word. No change of layout changes a
stored word. -/
theorem Reached.blocks_fixed {model : Model} {machine : Machine}
    (h : Reached model (fun _ => True) machine) :
    (model = .tms32026 → ∀ stage ∈ machine.stages,
      (∀ index, stage.core.ram.isProgram index = false) ∧
        ∀ address, stage.core.ram.isOnChipProgram address = false) ∧
    (model = .tms32025 →
      (∀ stage ∈ machine.stages, ∀ index, stage.core.ram.isProgram index = true → index = 0) ∧
      (∀ e ∈ machine.executions, e.2 = .conf → (e.1.execute e.2).1 = e.1) ∧
      (machine.ready.op = .conf → machine.step.1 = machine.ready ∧
        machine.ready.core =
          { machine.served.core with
            regs := { machine.served.core.regs with pc := machine.served.core.regs.pc + 1 }
            prevPc := machine.served.core.regs.pc
            opcode := (machine.served.readProgram machine.served.core.regs.pc).1 })) ∧
    ∀ e ∈ machine.executions, e.2 ∈ [Op.conf, .cnfd, .cnfp] →
      (e.1.execute e.2).1.core.ram.b2 = e.1.core.ram.b2 ∧
        (e.1.execute e.2).1.core.ram.blocks = e.1.core.ram.blocks := by
  have hbefore {e : Machine × Op} (he : e ∈ machine.executions) : e.1.core.model = model :=
    (h.movesB0Only (List.mem_cons_of_mem _ (List.mem_flatMap.mpr ⟨e, he, List.mem_cons_self⟩))).1
  refine ⟨?_, ?_, fun e _ hop => words_of_layout_change e.1 hop⟩
  · rintro rfl stage hstage
    obtain ⟨hmodel, hmoves⟩ := h.movesB0Only hstage
    have hdata (index : Nat) : stage.core.ram.isProgram index = false := by
      refine Bool.eq_false_iff.mpr fun hindex => ?_
      have hpair := (hmoves index hindex).1
      rw [hmodel] at hpair
      contradiction
    exact ⟨hdata, OnChipRam.isOnChipProgram_of_data hdata⟩
  · rintro rfl
    refine ⟨fun stage hstage index hindex => ((h.movesB0Only hstage).2 index hindex).2,
      fun e he hop => ?_, fun hop => ⟨?_, machine.served.fetch_core⟩⟩
    · rw [hop]
      exact execute_conf (hbefore he)
    · have hready : (machine.ready.execute machine.ready.op).1 = machine.ready := by
        rw [hop]
        exact execute_conf (hbefore List.mem_cons_self)
      have hflow : machine.ready.core.flow = .normal := by
        change machine.served.fetch.core.flow = .normal
        rw [Machine.fetch_core]
        exact machine.core.service_flow.trans h.steady.flow
      rw [Machine.step_machine]
      dsimp only
      rw [hready, hflow]

/-- After CONF 3 and CONF 0 nothing of a TMS32026 is in program space. After CNFP and CONF 3 block B0 of
a TMS32025 is, and block B1 is not. -/
theorem blocks_fixed_conf :
    let larger := (⟨.new .tms32026, Bus.empty.loadHalves .program 0 [0xCE3F, 0xCE3C]⟩ : Machine)
    let smaller := (overProgram [0xCE05, 0xCE3F]).step.1
    (Reached .tms32026 (fun _ => True) larger.step.1.step.1 ∧
      ∀ address, larger.step.1.step.1.core.ram.isOnChipProgram address = false) ∧
    Reached .tms32025 (fun _ => True) smaller ∧ smaller.step.1 = smaller.ready ∧
      smaller.core.ram.isProgram 0 = true ∧
      ∀ index, smaller.core.ram.isProgram index = true → index = 0 := by
  intro larger smaller
  have hlarger : Reached .tms32026 (fun _ => True) larger.step.1.step.1 :=
    ((Reached.new _).step fun _ _ => trivial).step fun _ _ => trivial
  have hsmaller : Reached .tms32025 (fun _ => True) smaller := (Reached.new _).step fun _ _ => trivial
  obtain ⟨hblocks, -, hconf⟩ := hsmaller.blocks_fixed.2.1 rfl
  exact ⟨⟨hlarger, (hlarger.blocks_fixed.1 rfl _ List.mem_cons_self).2⟩, hsmaller,
    (hconf (by decide +kernel)).1, by decide +kernel, hblocks smaller List.mem_cons_self⟩

end ProcessorCores.Tms

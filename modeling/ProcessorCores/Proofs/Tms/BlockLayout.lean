import ProcessorCores.Proofs.Tms.Executions
import ProcessorCores.Proofs.Tms.Frames
import ProcessorCores.Proofs.Tms.Patches

/-!
# The layout flag and the place of block B0

On the TMS32025 a flag of ST1 says where block B0 answers, and CNFD and CNFP move the block only when
the flag says that it is elsewhere. Everything that a host or a program can do keeps the two in
agreement, except a load of ST1 from memory: that one takes the flag from the word it loads and
leaves the block where it is. A word that holds the flag as it stands does no harm; any other breaks
the agreement at once.
-/

namespace ProcessorCores.Tms

/-! ## Settled cores -/

/-- A core of a TMS32025, whatever the flag says. -/
structure Core.IsTms32025 (core : Core) : Prop where
  model : core.model = .tms32025
  fits : core.ram.fits .tms32025 = true
  free : core.regs.status.FreesLayout

/-- The flag says where block B0 answers. -/
def Core.B0Agrees (core : Core) : Prop := core.ram.isProgram 0 = core.regs.has .cnf0

/-- A core of a TMS32025 whose flag says where block B0 answers. -/
structure Core.Settled (core : Core) : Prop extends core.IsTms32025 where
  agrees : core.B0Agrees

namespace Core

variable {core after : Core}

/-- The shape of the storage decides which blocks are in program space. -/
theorem isProgram_of_shape (hshape : after.ram.shape = core.ram.shape) (index : Nat) :
    after.ram.isProgram index = core.ram.isProgram index :=
  congrArg (fun shape => shape.1.2.getD index false) hshape

/-- A change that leaves the model, the shape and the fixed bits. -/
theorem IsTms32025.of_eq (h : core.IsTms32025) (hmodel : after.model = core.model)
    (hshape : after.ram.shape = core.ram.shape)
    (hfixed : after.regs.status.st1Fixed = core.regs.status.st1Fixed) : after.IsTms32025 where
  model := hmodel.trans h.model
  fits := (OnChipRam.fits_of_shape hshape).trans h.fits
  free := by
    have hfree := h.free
    rw [Status.FreesLayout] at hfree ⊢
    rw [hfixed, hfree]

/-- A change that leaves the flag as well. -/
theorem Settled.of_eq (h : core.Settled) (hmodel : after.model = core.model)
    (hshape : after.ram.shape = core.ram.shape)
    (hstatus : core.regs.status.SameLayout after.regs.status) : after.Settled where
  toIsTms32025 := h.toIsTms32025.of_eq hmodel hshape hstatus.1
  agrees := (isProgram_of_shape hshape 0).trans (h.agrees.trans (hstatus.2 h.free).symm)

/-- A change of anything but the model, the storage and the status. -/
theorem Settled.of_rest (h : core.Settled) (hmodel : after.model = core.model)
    (hram : after.ram = core.ram) (hstatus : after.regs.status = core.regs.status) :
    after.Settled :=
  h.of_eq hmodel (congrArg OnChipRam.shape hram) ⟨congrArg (·.st1Fixed) hstatus, fun _ =>
    congrArg (·.has .cnf0) hstatus⟩

/-- Masking interrupts is no matter of the layout. -/
theorem sameLayout_intm (status : Status) (on : Bool) : status.SameLayout (status.put .intm on) :=
  Status.sameLayout_apply (.put .intm on) rfl status

/-- Serving a source leaves the layout settled. -/
theorem Settled.serve (h : core.Settled) (source : Source) : (core.serve source).Settled := by
  have hintm := sameLayout_intm core.regs.status true
  cases source with
  | rint | xint | int0 | int1 | int2 | tint => exact h.of_eq rfl rfl hintm

/-- Counting clocks leaves the layout settled. -/
theorem Settled.countClocks (h : core.Settled) (budget : Budget) (clocks : Nat) :
    (core.countClocks budget clocks).1.Settled :=
  core.holds_countClocks budget clocks fun _ _ _ _ _ => h.of_eq rfl rfl ⟨rfl, fun _ => rfl⟩

/-- Between the executions nothing moves a block or touches the flag. -/
theorem kept_settled : Kept Settled where
  service core h := by
    unfold service
    split
    · exact h.serve _
    · exact h
  fetch _ _ h := h.of_rest rfl rfl rfl
  report _ _ h := h.of_rest rfl rfl rfl
  countPass _ h := h.of_rest rfl rfl rfl
  endBlock _ h := h.of_rest rfl rfl rfl
  spend _ _ h := h.of_rest rfl rfl rfl
  countClocks _ budget clocks h := h.countClocks budget clocks
  hold _ _ h := h.of_rest rfl rfl rfl

/-! ## What the host does -/

/-- A new core has every block in data space and the flag clear. -/
theorem settled_new : (new .tms32025).Settled where
  model := rfl
  fits := by decide +kernel
  free := by
    change (Model.tms32025.st1Fixed).getLsbD 12 = false
    decide
  agrees := by
    change (OnChipRam.new .tms32025).isProgram 0 = (Registers.new Model.tms32025.st1Fixed).has .cnf0
    decide

/-- A reset brings every block back to data space and clears the flag. -/
theorem settled_reset (hmodel : core.model = .tms32025) (hfits : core.ram.fits .tms32025 = true) :
    core.reset.Settled := by
  obtain ⟨flags, journal, hsize, hunmapped⟩ := core.unmapBlocks_eq
  unfold reset
  rw [hunmapped]
  dsimp only [mapRam]
  rw [hmodel]
  have hfree : Model.tms32025.st1Fixed.getLsbD 12 = false := by decide
  refine ⟨⟨rfl, ?_, hfree⟩, ?_⟩
  · simp only [OnChipRam.fits, OnChipRam.reset, Array.size_map, hsize] at hfits ⊢
    exact hfits
  · have hflag : (flags.map fun _ => false).getD 0 false = false := by
      rw [Array.getD_eq_getD_getElem?, Array.getElem?_map]
      cases flags[0]? <;> rfl
    have hnew : (Registers.new Model.tms32025.st1Fixed).has .cnf0 = false := by decide
    exact hflag.trans hnew.symm

/-- A change of an input line leaves the layout settled. -/
theorem Settled.setInputLine (h : core.Settled) (line : Nat) (asserted : Bool) :
    (core.setInputLine line asserted).Settled :=
  core.holds_setInputLine line asserted fun _ _ _ => h.of_rest rfl rfl rfl

/-- A patch reaches neither a block nor the flag. -/
theorem Settled.poke (h : core.Settled) (path : String) (value : Value) :
    (core.poke path value).state.Settled := by
  refine core.holds_poke path value (fun _ hstatus => h.of_eq rfl rfl hstatus.sameLayout) ?_
  exact fun register word => h.of_eq rfl (core.ram.shape_setRegister register word) ⟨rfl, fun _ => rfl⟩

/-- No host moves a block or touches the flag, but by a reset, which does both. -/
theorem keptByHost_settled : KeptByHost Settled where
  reset _ h := settled_reset h.model h.fits
  line _ line asserted h := h.setInputLine line asserted
  bio _ _ h := h.of_rest rfl rfl rfl
  hold _ _ h := h.of_rest rfl rfl rfl
  serialInput _ _ h := h.of_rest rfl rfl rfl
  serialOutput _ h := h.of_rest rfl rfl rfl
  poke _ path value h := h.poke path value

/-! ## What the executions do -/

/-- Ordinary work on a machine. -/
theorem Settled.editedTo {before after : Machine} (h : before.core.Settled)
    (hedited : before.EditedTo after) : after.core.Settled := by
  refine h.of_eq (congrArg Frame.model hedited.frame) (congrArg Frame.shape hedited.frame) ?_
  obtain ⟨hfixed, hflag⟩ := hedited.status.layout h.free
  exact ⟨hfixed, fun _ => hflag⟩

/-- Once told where block B0 belongs, the flag and the block both say so, and no word is lost. -/
theorem Settled.configureB0 (h : core.Settled) (program : Bool) :
    (core.configureB0 program).Settled ∧
      (core.configureB0 program).ram.isProgram 0 = program ∧
      (core.configureB0 program).ram.get = core.ram.get := by
  have hpair : core.model.hasCnfPair = true := by
    rw [h.model]
    rfl
  have hagrees := h.agrees
  rw [B0Agrees] at hagrees
  unfold Core.configureB0
  split
  · obtain ⟨journal, hmoved⟩ := core.mapBlock_eq 0 program
    have hsize : 0 < core.ram.inProgram.size := by
      have hfits := h.fits
      simp only [OnChipRam.fits, Bool.and_eq_true, beq_iff_eq] at hfits
      rw [hfits.1.2]
      decide
    have hflag : (core.ram.mapBlock 0 program).isProgram 0 = program := by
      rw [OnChipRam.isProgram_mapBlock hsize, if_pos rfl]
    have hput : (core.regs.put .cnf0 program).has .cnf0 = program :=
      Status.has_put_cnf0 h.free program
    rw [hmoved]
    refine ⟨⟨⟨h.model, ?_, h.free⟩, hflag.trans hput.symm⟩, hflag, ?_⟩
    · have hfits := h.fits
      simp only [OnChipRam.fits, mapRegs, OnChipRam.mapBlock, Array.size_setIfInBounds] at hfits ⊢
      exact hfits
    · exact funext (core.ram.get_mapBlock 0 program)
  · next hsame =>
    rw [hpair, Bool.true_and, bne_iff_ne, ne_eq, Classical.not_not] at hsame
    exact ⟨h, hagrees.trans hsame, rfl⟩

end Core

/-- True for an execution that is no load of ST1, or loads the layout flag as it stands. -/
def KeepsLayoutFlag (execution : Machine × Op) : Prop :=
  execution.2 = .operand .lst1 →
    (execution.1.fetchOperand false).1.getLsbD 12 = execution.1.core.regs.has .cnf0

namespace Core

variable {core : Core} {machine : Machine}

/-- After a load of ST1 the flag is that of the word, and the block is where it was. -/
theorem Settled.lst1 (h : machine.core.Settled) :
    (machine.execute (.operand .lst1)).1.core.IsTms32025 ∧
      ((machine.execute (.operand .lst1)).1.core.B0Agrees ↔
        (machine.fetchOperand false).1.getLsbD 12 = machine.core.regs.has .cnf0) := by
  have hedited := machine.editedTo_fetchOperand false
  have hfetched := h.editedTo hedited
  have hflag : (machine.execute (.operand .lst1)).1.core.regs.has .cnf0 =
      (machine.fetchOperand false).1.getLsbD 12 :=
    Status.has_loadSt1_cnf0 hfetched.free _
  have hblock := isProgram_of_shape (congrArg Frame.shape hedited.frame) 0
  have hplace : (machine.execute (.operand .lst1)).1.core.ram.isProgram 0 =
      machine.core.regs.has .cnf0 := hblock.trans h.agrees
  refine ⟨hfetched.toIsTms32025.of_eq rfl rfl rfl, ?_⟩
  rw [B0Agrees, hplace, hflag]
  exact eq_comm

/-- An execution that is no load of ST1 keeps the agreement. -/
theorem Settled.execute (h : machine.core.Settled) {op : Op} (hload : op ≠ .operand .lst1) :
    (machine.execute op).1.core.Settled := by
  by_cases hordinary : op.isOrdinary = true
  · exact h.editedTo (machine.editedTo_execute hordinary)
  -- What is left are the operations with an effect of their own on the sequencing or the layout.
  cases op with
  | operand op => cases op <;> first | exact absurd rfl hload | exact absurd rfl hordinary
  | flag op =>
    refine h.of_eq rfl rfl (Status.sameLayout_apply (.put op.change.1 op.change.2) ?_ _)
    cases op <;> rfl
  | rpt => exact (h.editedTo (machine.editedTo_fetchOperand true)).of_rest rfl rfl rfl
  | rptk => exact h.of_rest rfl rfl rfl
  | idle => exact h.of_eq rfl rfl (sameLayout_intm _ false)
  | rxf => exact h.of_eq rfl rfl (Status.sameLayout_apply (.put .xf false) rfl _)
  | sxf => exact h.of_eq rfl rfl (Status.sameLayout_apply (.put .xf true) rfl _)
  | cnfd => exact (h.configureB0 false).1
  | cnfp => exact (h.configureB0 true).1
  | conf =>
    have hconf : machine.core.configureBlocks = machine.core := by
      rw [configureBlocks, h.model]
      rfl
    change machine.core.configureBlocks.Settled
    rw [hconf]
    exact h
  | illegal => exact h.of_rest rfl rfl rfl
  | store _ | long _ | register _ | branch _ | move _ | call => exact absurd rfl hordinary

/-- An execution keeps the agreement exactly when it is no load of ST1 that changes the flag. -/
theorem Settled.execute_iff (h : machine.core.Settled) (op : Op) :
    (machine.execute op).1.core.IsTms32025 ∧
      ((machine.execute op).1.core.B0Agrees ↔ KeepsLayoutFlag (machine, op)) := by
  by_cases hload : op = .operand .lst1
  · subst hload
    obtain ⟨hpart, hword⟩ := h.lst1
    exact ⟨hpart, hword.trans ⟨fun hkept _ => hkept, fun hkept => hkept rfl⟩⟩
  · have hafter := h.execute hload
    exact ⟨hafter.toIsTms32025, fun _ hop => absurd hop hload, fun _ => hafter.agrees⟩

/-- Executions that keep the flag keep the agreement. -/
theorem keeps_settled (execution : Machine × Op) (hkeeps : KeepsLayoutFlag execution) :
    Keeps Settled execution := by
  intro h
  obtain ⟨hpart, hagrees⟩ := h.execute_iff execution.2
  exact ⟨hpart, hagrees.mpr hkeeps⟩

/-- Where block B0 is, its words answer. -/
theorem Settled.words (h : core.Settled) (offset : Nat) (hoffset : offset < 256) :
    core.ram.onChip? (core.ram.isProgram 0)
        ((if core.ram.isProgram 0 then 0xFF00 else 0x0200) + BitVec.ofNat 16 offset) =
      some (core.ram.get (.block 0 offset)) := by
  have hmodel : core.ram.model = .tms32025 := by
    have hfits := h.fits
    simp only [OnChipRam.fits, Bool.and_eq_true, beq_iff_eq] at hfits
    exact hfits.1.1
  apply OnChipRam.onChip?_of_cellAt?
  rw [OnChipRam.cellAt?_eq_some_block_iff, hmodel]
  exact ⟨⟨"B0", 0x100, 0x0200, 0xFF00⟩, rfl, rfl, hoffset, by cases core.ram.isProgram 0 <;> rfl⟩

/-- Once told where block B0 belongs, its words answer there. -/
theorem Settled.words_configureB0 (h : core.Settled) (program : Bool) (offset : Nat)
    (hoffset : offset < 256) :
    (core.configureB0 program).ram.onChip? program
        ((if program then 0xFF00 else 0x0200) + BitVec.ofNat 16 offset) =
      some (core.ram.get (.block 0 offset)) := by
  obtain ⟨hafter, hplace, hwords⟩ := h.configureB0 program
  have hword := hafter.words offset hoffset
  rw [hplace, hwords] at hword
  exact hword

end Core

/-! ## Histories -/

/-- As long as no load of ST1 changes the layout flag, the flag says where block B0 is. Any execution
keeps it so unless it is such a load, and one that is breaks it at once. After CNFP the words of the
block answer in program space, and after CNFD in data space. -/
theorem Reached.b0_follows_flag {machine : Machine} (h : Reached .tms32025 KeepsLayoutFlag machine) :
    (machine.core.ram.isProgram 0 = true ↔ machine.core.regs.has .cnf0 = true) ∧
      ∀ before execution rest, machine.executions = before ++ execution :: rest →
        (∀ earlier ∈ before, KeepsLayoutFlag earlier) →
        let after := (execution.1.execute execution.2).1.core
        ((after.ram.isProgram 0 = true ↔ after.regs.has .cnf0 = true) ↔
            KeepsLayoutFlag execution) ∧
          (execution.2 = .cnfp → ∀ offset < 256,
            after.ram.program (0xFF00 + BitVec.ofNat 16 offset) =
              some (execution.1.core.ram.get (.block 0 offset))) ∧
          (execution.2 = .cnfd → ∀ offset < 256,
            after.ram.data (0x0200 + BitVec.ofNat 16 offset) =
              some (execution.1.core.ram.get (.block 0 offset))) := by
  have hsettled : machine.core.Settled := by
    refine h.invariant Core.kept_settled Core.keptByHost_settled
      (Core.kept_settled.keptBySteps Core.keeps_settled) ?_ ?_
    · exact Core.settled_new
    · exact fun core hmodel hfits => Core.settled_reset hmodel hfits
  refine ⟨?_, fun before execution rest hsplit hbefore => ?_⟩
  · rw [hsettled.agrees]
  · have hexecution : execution.1.core.Settled := Core.kept_settled.before_execution hsettled hsplit
      fun earlier hearlier => Core.keeps_settled _ (hbefore earlier hearlier)
    intro after
    refine ⟨?_, fun hop offset hoffset => ?_, fun hop offset hoffset => ?_⟩
    · rw [← Bool.eq_iff_iff]
      exact (hexecution.execute_iff execution.2).2
    · have hcore : after = execution.1.core.configureB0 true := by
        change (execution.1.execute execution.2).1.core = _
        rw [hop]
        rfl
      rw [hcore]
      exact hexecution.words_configureB0 true offset hoffset
    · have hcore : after = execution.1.core.configureB0 false := by
        change (execution.1.execute execution.2).1.core = _
        rw [hop]
        rfl
      rw [hcore]
      exact hexecution.words_configureB0 false offset hoffset

/-- A new TMS32025 over a program and, at address 6 off chip, one data word. -/
def loaded (program : List Half) (word : Half) : Machine :=
  ⟨.new .tms32025, (Bus.empty.loadHalves .program 0 program).loadHalves .data 12 [word]⟩

/-- After CNFP a load of ST1 with the flag set leaves everything in agreement. -/
theorem b0_follows_flag_after_lst1 :
    let machine := (loaded [0xCE05, 0x5106] 0x1000).step.1.step.1
    (machine.core.ram.isProgram 0 = true ↔ machine.core.regs.has .cnf0 = true) ∧
      machine.core.regs.has .cnf0 = true := by
  intro machine
  have hexecutions (start : Machine)
      (hflow : (start.ready.execute start.ready.op).1.core.flow = .normal) :
      start.executions = [(start.ready, start.ready.op)] := by
    rw [Machine.executions, Machine.blockExecutions, hflow]
  have hfirst : ∀ e ∈ (loaded [0xCE05, 0x5106] 0x1000).executions, KeepsLayoutFlag e := by
    rw [hexecutions _ (by decide +kernel)]
    intro e he hop
    obtain rfl := List.mem_singleton.mp he
    exact absurd hop (by decide +kernel)
  have hsecond : ∀ e ∈ (loaded [0xCE05, 0x5106] 0x1000).step.1.executions, KeepsLayoutFlag e := by
    rw [hexecutions _ (by decide +kernel)]
    intro e he hop
    obtain rfl := List.mem_singleton.mp he
    decide +kernel
  have hreached : Reached .tms32025 KeepsLayoutFlag machine :=
    ((Reached.new _).step hfirst).step hsecond
  exact ⟨hreached.b0_follows_flag.1, by decide +kernel⟩

/-- Without the condition the agreement fails: a load of ST1 with the flag set in a new core leaves
block B0 in data space. -/
theorem b0_left_behind_by_lst1 :
    ¬ ∀ machine, Reached .tms32025 (fun _ => True) machine →
      (machine.core.ram.isProgram 0 = true ↔ machine.core.regs.has .cnf0 = true) := by
  intro hall
  let start := loaded [0x5106] 0x1000
  have hreached : Reached .tms32025 (fun _ => True) start.step.1 :=
    (Reached.new _).step fun _ _ => trivial
  have hflag : start.step.1.core.regs.has .cnf0 = true := by decide +kernel
  have hplace : start.step.1.core.ram.isProgram 0 = false := by decide +kernel
  rw [(hall _ hreached).mpr hflag] at hplace
  contradiction

end ProcessorCores.Tms

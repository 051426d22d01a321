import ProcessorCores.Proofs.Tms.OnChipMemory
import ProcessorCores.Proofs.Tms.StatusEdits
import ProcessorCores.Tms.Run

/-!
# What executing an instruction leaves alone

An ordinary operation works on registers, on memory and on the bus. Everything else of the core is
its frame, and stays: the sequencing, the pins, the timer phase, the repeat counter, and where the
blocks of the on-chip memory answer. The status comes out by ordinary edits, and of the requests
some may be raised but none is dropped.

The few other operations are those that arm a repeat block, wait, drive XF, mask interrupts, load
ST1, move blocks or are undefined. What each does beyond the frame is stated by itself. A relation
that ordinary work and each of these keep is kept by every operation: `KeptByOps` names what there is
to show.
-/

namespace ProcessorCores.Tms

/-- Where the blocks answer, and how many words each of them has. -/
def OnChipRam.shape (ram : OnChipRam) : (Model × Array Bool) × List Nat :=
  (ram.layout, ram.blocks.toList.map Array.size)

/-- What an ordinary operation leaves alone. -/
structure Frame where
  model : Model
  flow : Flow
  firstPass : Bool
  opcode : Half
  prevPc : Half
  idle : Bool
  hold : Bool
  xfPin : Bool
  timerPhase : Nat
  totalCycles : Long
  bio : Bool
  holdLine : Bool
  serialIn : Half
  serialOut : List Half
  journal : List Event
  rptc : Byte
  shape : (Model × Array Bool) × List Nat

/-- The frame of a core. -/
def Core.frame (core : Core) : Frame where
  model := core.model
  flow := core.flow
  firstPass := core.firstPass
  opcode := core.opcode
  prevPc := core.prevPc
  idle := core.idle
  hold := core.hold
  xfPin := core.xfPin
  timerPhase := core.timerPhase
  totalCycles := core.totalCycles
  bio := core.bio
  holdLine := core.holdLine
  serialIn := core.serialIn
  serialOut := core.serialOut
  journal := core.journal
  rptc := core.regs.rptc
  shape := core.ram.shape

namespace OnChipRam

/-- Storing into a cell leaves the shape. -/
theorem shape_set (ram : OnChipRam) (cell : Cell) (value : Half) :
    (ram.set cell value).shape = ram.shape := by
  cases cell with
  | b2 offset => rfl
  | block index offset =>
    have hsizes : ((ram.set (.block index offset) value).blocks.toList.map Array.size) =
        ram.blocks.toList.map Array.size := by
      apply List.ext_getElem?
      intro other
      simp only [set, List.getElem?_map, Array.getElem?_toList, Array.getElem?_modify]
      by_cases hother : index = other
      · subst hother
        rw [if_pos rfl]
        cases ram.blocks[index]? with
        | none => rfl
        | some words => exact congrArg some Array.size_setIfInBounds
      · rw [if_neg hother]
    exact congrArg (Prod.mk ram.layout) hsizes

/-- Storing into a mapped register leaves the shape. -/
theorem shape_setRegister (ram : OnChipRam) (register : MappedRegister) (value : Half) :
    (ram.setRegister register value).shape = ram.shape := by
  cases register <;> rfl

/-- The shape decides whether the storage fits a model. -/
theorem fits_of_shape {ram other : OnChipRam} {model : Model} (hshape : ram.shape = other.shape) :
    ram.fits model = other.fits model := by
  obtain ⟨hlayout, hsizes⟩ := Prod.mk.inj hshape
  obtain ⟨hmodel, hflags⟩ := Prod.mk.inj hlayout
  rw [fits, fits, hmodel, hflags, hsizes]

end OnChipRam

namespace Core

/-! ## Moves of blocks -/

/-- Moving a block changes flags of the storage and the journal only. -/
theorem mapBlock_eq (core : Core) (index : Nat) (program : Bool) :
    ∃ journal, core.mapBlock index program =
      { core with ram := core.ram.mapBlock index program, journal := journal } := by
  unfold mapBlock
  cases core.ram.movedBlock? index program with
  | some block => exact ⟨_, rfl⟩
  | none => exact ⟨_, rfl⟩

/-- Bringing the blocks back changes flags of the storage and the journal only. -/
theorem unmapBlocks_eq (core : Core) :
    ∃ flags journal, flags.size = core.ram.inProgram.size ∧
      core.unmapBlocks =
        { core with ram := { core.ram with inProgram := flags }, journal := journal } := by
  unfold unmapBlocks
  generalize List.range core.ram.inProgram.size = indices
  induction indices generalizing core with
  | nil => exact ⟨_, _, rfl, rfl⟩
  | cons index indices ih =>
    obtain ⟨journal, hmoved⟩ := core.mapBlock_eq index false
    obtain ⟨flags, journal', hsize, hrest⟩ := ih (core.mapBlock index false)
    refine ⟨flags, journal', ?_, ?_⟩
    · rw [hsize, hmoved]
      exact Array.size_setIfInBounds
    · rw [List.foldl_cons, hrest, hmoved]
      rfl

/-- What setting the layout flags and moving blocks back keep, choosing one of the layouts keeps. -/
theorem configureBlocks_keeps {P : Core → Prop} {core : Core}
    (hput : ∀ core flag on, flag = .cnf0 ∨ flag = .cnf1 → P core → P (core.mapRegs (·.put flag on)))
    (hmove : ∀ core index, P core → P (core.mapBlock index false)) (h : P core) :
    P core.configureBlocks := by
  have hmoves (indices : List Nat) (moves : Nat → Prop) [DecidablePred moves] {core : Core}
      (h : P core) :
      P (indices.foldl (fun core index => if moves index then core.mapBlock index false else core)
        core) := by
    induction indices generalizing core with
    | nil => exact h
    | cons index indices ih =>
      rw [List.foldl_cons]
      split
      · exact ih (hmove core index h)
      · exact ih h
  unfold configureBlocks
  split
  · exact hmoves _ (fun index => (core.opcode.extractLsb' 0 2).toNat < index + 1 ∧
      index + 1 ≤ 2 * (core.regs.has .cnf1).toNat + (core.regs.has .cnf0).toNat)
      (hput _ .cnf1 _ (.inr rfl) (hput _ .cnf0 _ (.inl rfl) h))
  · exact h

/-- A change of layout: the status, the flags of the storage and the journal may differ. -/
def RelaidTo (before after : Core) : Prop :=
  ∃ status flags journal, after =
    { before with
      regs := { before.regs with status := status }
      ram := { before.ram with inProgram := flags }
      journal := journal }

/-- Choosing one of the layouts is such a change. -/
theorem relaidTo_configureBlocks (core : Core) : core.RelaidTo core.configureBlocks := by
  refine configureBlocks_keeps (P := core.RelaidTo) ?_ ?_ ⟨_, _, _, rfl⟩
  · rintro _ flag on - ⟨status, flags, journal, rfl⟩
    exact ⟨_, _, _, rfl⟩
  · rintro _ index ⟨status, flags, journal, rfl⟩
    obtain ⟨journal', hmoved⟩ := mapBlock_eq _ index false
    rw [hmoved]
    exact ⟨_, _, _, rfl⟩

/-- So is putting block B0 in its place. -/
theorem relaidTo_configureB0 (core : Core) (program : Bool) :
    core.RelaidTo (core.configureB0 program) := by
  obtain ⟨journal, hmoved⟩ := core.mapBlock_eq 0 program
  unfold configureB0
  split
  · rw [hmoved]
    exact ⟨_, _, journal, rfl⟩
  · exact ⟨_, _, _, rfl⟩

/-- A change of layout takes no time. -/
theorem RelaidTo.timing {before after : Core} (h : before.RelaidTo after) :
    after.timerPhase = before.timerPhase ∧ after.regs.rptc = before.regs.rptc ∧
      after.flow = before.flow := by
  obtain ⟨status, flags, journal, rfl⟩ := h
  exact ⟨rfl, rfl, rfl⟩

end Core

/-! ## Requests -/

/-- Requests of one core and of another that is reached without a service: sources may have raised
theirs in between, and none is dropped. -/
def RaisedTo (before after : Half) : Prop :=
  ∃ bits, bits &&& ~~~Source.allBits = 0 ∧ after = before ||| bits

namespace RaisedTo

/-- Requests that stay are raised to themselves. -/
theorem refl (requests : Half) : RaisedTo requests requests :=
  ⟨0, BitVec.zero_and, BitVec.or_zero.symm⟩

/-- So are requests that are equal. -/
theorem of_eq {before after : Half} (h : after = before) : RaisedTo before after := h ▸ refl _

/-- Each source has a bit among those of all. -/
theorem request (requests : Half) (source : Source) : RaisedTo requests (requests ||| source.bit) :=
  ⟨source.bit, by cases source <;> decide, rfl⟩

/-- Requests raised twice are raised. -/
theorem trans {first second third : Half} (h : RaisedTo first second) (h' : RaisedTo second third) :
    RaisedTo first third := by
  obtain ⟨bits, hbits, rfl⟩ := h
  obtain ⟨more, hmore, rfl⟩ := h'
  have hsplit : (bits ||| more) &&& ~~~Source.allBits =
      (bits &&& ~~~Source.allBits) ||| (more &&& ~~~Source.allBits) := by
    ext i
    simp only [BitVec.getElem_and, BitVec.getElem_or, Bool.and_or_distrib_right]
  refine ⟨bits ||| more, ?_, BitVec.or_assoc ..⟩
  rw [hsplit, hbits, hmore]
  exact BitVec.or_zero

end RaisedTo

namespace Machine

/-- A machine that has done ordinary work: its frame stays, its status is edited, and no request is
dropped. -/
structure EditedTo (before after : Machine) : Prop where
  frame : after.core.frame = before.core.frame
  status : before.core.regs.status.EditedTo after.core.regs.status
  requests : RaisedTo before.core.regs.ifr after.core.regs.ifr

/-- Nothing done to the core. -/
theorem editedTo_of_core {before after : Machine} (hcore : after.core = before.core) :
    before.EditedTo after :=
  ⟨congrArg Core.frame hcore, hcore ▸ .refl, hcore ▸ .refl _⟩

/-- One thing done after another. -/
theorem EditedTo.trans {first second third : Machine} (h : first.EditedTo second)
    (h' : second.EditedTo third) : first.EditedTo third :=
  ⟨h'.frame.trans h.frame, h.status.trans h'.status, h.requests.trans h'.requests⟩

/-- One of two things done. -/
theorem EditedTo.ite {machine yes no : Machine} {condition : Prop} [Decidable condition]
    (hyes : machine.EditedTo yes) (hno : machine.EditedTo no) :
    machine.EditedTo (if condition then yes else no) := by
  split
  · exact hyes
  · exact hno

/-- Ordinary work on the register file. -/
theorem editedTo_mapRegs (machine : Machine) {f : Registers → Registers}
    (h : machine.core.regs.EditedTo (f machine.core.regs)) : machine.EditedTo (machine.mapRegs f) := by
  refine ⟨?_, h.status, .of_eq h.ifr⟩
  simp only [mapRegs, mapCore, Core.mapRegs, Core.frame, h.rptc]

/-- Work on registers other than the repeat counter, the request bits and the status. -/
theorem editedTo_mapRegs_of_eq (machine : Machine) {f : Registers → Registers}
    (hrptc : (f machine.core.regs).rptc = machine.core.regs.rptc)
    (hifr : (f machine.core.regs).ifr = machine.core.regs.ifr)
    (hstatus : (f machine.core.regs).status = machine.core.regs.status) :
    machine.EditedTo (machine.mapRegs f) :=
  machine.editedTo_mapRegs (Registers.editedTo_of_eq hrptc hifr hstatus)

/-! ## Accesses -/

/-- A read of data space leaves the core. -/
theorem readData_core (machine : Machine) (address : Half) :
    (machine.readData address).2.core = machine.core := by
  unfold readData
  split <;> rfl

/-- So does a read of program space. -/
theorem readProgram_core (machine : Machine) (address : Half) :
    (machine.readProgram address).2.core = machine.core := by
  unfold readProgram
  split <;> rfl

/-- A write to any home is ordinary work: a transmit request is a request bit. -/
theorem editedTo_putWord (machine : Machine) (home : Home) (value : Half) :
    machine.EditedTo (machine.putWord home value) := by
  cases home with
  | register register =>
    have hshape := machine.core.ram.shape_setRegister register value
    have hstored : machine.EditedTo (machine.mapCore (·.mapRam (·.setRegister register value))) := by
      refine ⟨?_, .refl, .refl _⟩
      simp only [mapCore, Core.mapRam, Core.frame, hshape]
    cases register with
    | dxr =>
      refine hstored.trans ?_
      simp only [putWord, mapCore, Core.writeRegister]
      split
      · split
        · exact ⟨rfl, .refl, .refl _⟩
        · exact ⟨rfl, .refl, .request _ .xint⟩
      · exact ⟨rfl, .refl, .refl _⟩
    | drr | tim | prd | imr | greg => exact hstored
  | cell cell =>
    refine ⟨?_, .refl, .refl _⟩
    have hshape := machine.core.ram.shape_set cell value
    simp only [putWord, mapCore, Core.mapRam, Core.frame, hshape]
  | offChip space address => exact editedTo_of_core rfl

/-- A write to data space is an edit, whatever lies at its address. -/
theorem editedTo_writeData (machine : Machine) (address value : Half) :
    machine.EditedTo (machine.writeData address value) := by
  rw [writeData_eq_putWord]
  exact machine.editedTo_putWord _ value

/-- So is a write to program space. -/
theorem editedTo_writeProgram (machine : Machine) (address value : Half) :
    machine.EditedTo (machine.writeProgram address value) := by
  rw [writeProgram_eq_putWord]
  exact machine.editedTo_putWord _ value

/-- A read of data space is an edit of nothing but the bus. -/
theorem editedTo_readData (machine : Machine) (address : Half) :
    machine.EditedTo (machine.readData address).2 :=
  editedTo_of_core (machine.readData_core address)

/-- So is a read of program space. -/
theorem editedTo_readProgram (machine : Machine) (address : Half) :
    machine.EditedTo (machine.readProgram address).2 :=
  editedTo_of_core (machine.readProgram_core address)

/-- The fetch of a second word is an edit. -/
theorem editedTo_fetchWord (machine : Machine) : machine.EditedTo machine.fetchWord.2 :=
  (machine.editedTo_readProgram _).trans (editedTo_mapRegs_of_eq _ rfl rfl rfl)

/-- Noting where an operand lies is one. -/
theorem editedTo_noteOperand (machine : Machine) (address : Half) :
    machine.EditedTo (machine.noteOperand address) :=
  ⟨rfl, .refl, .refl _⟩

/-- The fetch of an operand is one. -/
theorem editedTo_fetchOperand (machine : Machine) (movesPointer : Bool) :
    machine.EditedTo (machine.fetchOperand movesPointer).2 := by
  refine .trans ?_ (editedTo_mapRegs _ (Registers.editedTo_afterOperand _ _ _))
  exact (machine.editedTo_noteOperand _).trans (editedTo_readData _ _)

/-- Storing a result is one. -/
theorem editedTo_storeOperand (machine : Machine) (value : Half) :
    machine.EditedTo (machine.storeOperand value) :=
  ((machine.editedTo_noteOperand _).trans (editedTo_writeData _ _ _)).trans
    (editedTo_mapRegs _ (Registers.editedTo_afterOperand _ _ _))

/-- Storing a status word is one. -/
theorem editedTo_storeStatus (machine : Machine) (value : Half) :
    machine.EditedTo (machine.storeStatus value) :=
  ((machine.editedTo_noteOperand _).trans
    (editedTo_mapRegs _ (Registers.editedTo_afterOperand _ _ _))).trans (editedTo_writeData _ _ _)

/-! ## Branches and moves -/

/-- A branch is one, taken or not. -/
theorem editedTo_branch (machine : Machine) (op : BranchOp) : machine.EditedTo (machine.branch op) := by
  have hsettle (regs : Registers) (word : Half) :
      regs.EditedTo (op.settle (regs.modifyAr word true)) :=
    (regs.editedTo_modifyAr word true).trans (op.editedTo_settle _)
  refine .trans ?_ (editedTo_mapRegs _ (hsettle _ _))
  refine .ite ?_ (editedTo_mapRegs_of_eq _ rfl rfl rfl)
  exact (machine.editedTo_readProgram _).trans (editedTo_mapRegs_of_eq _ rfl rfl rfl)

/-- A call is one. -/
theorem editedTo_call (machine : Machine) : machine.EditedTo machine.call := by
  have hjump (regs : Registers) (target word : Half) :
      regs.EditedTo ({ regs with pc := target }.modifyAr word true) := by
    have hpc : regs.EditedTo { regs with pc := target } := Registers.editedTo_of_eq rfl rfl rfl
    exact hpc.trans (Registers.editedTo_modifyAr _ word true)
  refine .trans ?_ (editedTo_mapRegs _ (hjump _ _ _))
  have hpush : machine.EditedTo (machine.mapRegs fun regs =>
      { regs.push (machine.core.regs.pc + 1) with pc := machine.core.regs.pc + 1 }) :=
    editedTo_mapRegs_of_eq _ rfl rfl rfl
  exact hpush.trans (editedTo_readProgram _ _)

/-- Setting the prefetch counter is one. -/
theorem editedTo_setPfc (machine : Machine) (pfc : Half) : machine.EditedTo (machine.setPfc pfc) :=
  editedTo_mapRegs_of_eq _ rfl rfl rfl

/-- Loading it from a second word is one. -/
theorem editedTo_loadPfc (machine : Machine) : machine.EditedTo machine.loadPfc :=
  .ite (machine.editedTo_fetchWord.trans (editedTo_setPfc _ _)) (editedTo_of_core rfl)

/-- Loading it from the accumulator is one. -/
theorem editedTo_pfcFromAcc (machine : Machine) : machine.EditedTo machine.pfcFromAcc :=
  .ite (machine.editedTo_setPfc _) (editedTo_of_core rfl)

/-- A product with a coefficient is one, with the move of its operand or without. -/
theorem editedTo_multiplyAccumulate (machine : Machine) (moves : Bool) :
    machine.EditedTo (machine.multiplyAccumulate moves) := by
  refine .trans ?_ (editedTo_mapRegs_of_eq _ rfl rfl rfl)
  refine .trans ?_ (editedTo_readProgram _ _)
  refine .trans ?_ (editedTo_mapRegs_of_eq _ rfl rfl rfl)
  have hsum : machine.loadPfc.EditedTo
      (machine.loadPfc.mapRegs fun regs => regs.addAcc regs.shiftedProduct) :=
    editedTo_mapRegs _ (Registers.keptByArithmetic_editedTo.addAcc _ _)
  have hfetched := (machine.editedTo_loadPfc.trans hsum).trans (editedTo_fetchOperand _ true)
  exact .ite (hfetched.trans (editedTo_writeData _ _ _)) hfetched

/-- A move from data space is one. -/
theorem editedTo_moveFromData (machine : Machine) : machine.EditedTo machine.moveFromData :=
  ((machine.editedTo_loadPfc.trans (editedTo_readData _ _)).trans (editedTo_storeOperand _ _)).trans
    (editedTo_setPfc _ _)

/-- A move from program space is one. -/
theorem editedTo_moveFromProgram (machine : Machine) : machine.EditedTo machine.moveFromProgram :=
  ((machine.editedTo_readProgram _).trans (editedTo_storeOperand _ _)).trans (editedTo_setPfc _ _)

/-- A move to program space is one. -/
theorem editedTo_moveToProgram (machine : Machine) : machine.EditedTo machine.moveToProgram :=
  ((machine.editedTo_fetchOperand true).trans (editedTo_writeProgram _ _ _)).trans
    (editedTo_setPfc _ _)

/-- So every operation that moves words is one. -/
theorem editedTo_move (machine : Machine) (op : MoveOp) : machine.EditedTo (machine.move op).1 := by
  cases op with
  | dmov => exact (machine.editedTo_fetchOperand true).trans (editedTo_writeData _ _ _)
  | ltd =>
    refine .trans ?_ (editedTo_mapRegs _ (Registers.keptByArithmetic_editedTo.addAcc _ _))
    refine .trans ?_ (editedTo_writeData _ _ _)
    exact (machine.editedTo_fetchOperand true).trans (editedTo_mapRegs_of_eq _ rfl rfl rfl)
  | mac => exact machine.editedTo_multiplyAccumulate false
  | macd => exact machine.editedTo_multiplyAccumulate true
  | blkd => exact machine.editedTo_moveFromData
  | blkp => exact machine.editedTo_loadPfc.trans (editedTo_moveFromProgram _)
  | tblr => exact machine.editedTo_pfcFromAcc.trans (editedTo_moveFromProgram _)
  | tblw => exact machine.editedTo_pfcFromAcc.trans (editedTo_moveToProgram _)
  | input =>
    refine .trans ?_ (editedTo_storeOperand _ _)
    exact editedTo_of_core rfl
  | output => exact (machine.editedTo_fetchOperand true).trans (editedTo_of_core rfl)

end Machine

/-! ## Operations -/

/-- True for the operations whose effect is ordinary work. -/
def Op.isOrdinary : Op → Bool
  | .operand .lst1 | .flag .eint | .flag .dint => false
  | .rpt | .rptk | .idle | .rxf | .sxf | .cnfd | .cnfp | .conf | .illegal => false
  | _ => true

/-- Executing an ordinary operation leaves the frame. -/
theorem Machine.editedTo_execute (machine : Machine) {op : Op} (hop : op.isOrdinary = true) :
    machine.EditedTo (machine.execute op).1 := by
  have harithmetic := Registers.keptByArithmetic_editedTo
  cases op with
  | operand op =>
    have hlst1 : op ≠ .lst1 := by
      intro h
      subst h
      contradiction
    refine .trans ?_ (editedTo_mapRegs _ (op.editedTo_finish _ _ _ hlst1))
    exact (editedTo_mapRegs _ (harithmetic.prepare op _)).trans (editedTo_fetchOperand _ _)
  | store op =>
    refine (editedTo_mapRegs _ (harithmetic.prepareStore op _)).trans ?_
    exact .ite (editedTo_storeStatus _ _) (editedTo_storeOperand _ _)
  | long op => exact machine.editedTo_fetchWord.trans (editedTo_mapRegs _ (op.editedTo_apply _ _ _))
  | register op => exact editedTo_mapRegs _ (op.editedTo_apply _ _)
  | flag op =>
    refine editedTo_mapRegs _ (Registers.editedTo_edit _ (.put op.change.1 op.change.2) ?_)
    cases op <;> first | contradiction | rfl
  | branch op => exact machine.editedTo_branch op
  | move op => exact machine.editedTo_move op
  | call => exact machine.editedTo_call
  | rpt | rptk | idle | rxf | sxf | cnfd | cnfp | conf | illegal => contradiction

namespace Machine

/-- What no operation but a repeat touches: the timer phase, the repeat counter and the flow. -/
theorem execute_timing (machine : Machine) {op : Op} (hrpt : op ≠ .rpt) (hrptk : op ≠ .rptk) :
    (machine.execute op).1.core.timerPhase = machine.core.timerPhase ∧
      (machine.execute op).1.core.regs.rptc = machine.core.regs.rptc ∧
      (machine.execute op).1.core.flow = machine.core.flow := by
  by_cases hordinary : op.isOrdinary = true
  · have hframe := (machine.editedTo_execute hordinary).frame
    exact ⟨congrArg Frame.timerPhase hframe, congrArg Frame.rptc hframe, congrArg Frame.flow hframe⟩
  cases op with
  | operand op =>
    have hframe := (machine.mapRegs op.prepare).editedTo_fetchOperand op.movesPointer |>.frame
    cases op <;> first
      | exact absurd rfl hordinary
      | exact ⟨congrArg Frame.timerPhase hframe, congrArg Frame.rptc hframe,
          congrArg Frame.flow hframe⟩
  | flag _ | idle | rxf | sxf | illegal => exact ⟨rfl, rfl, rfl⟩
  | rpt | rptk => contradiction
  | cnfd => exact (machine.core.relaidTo_configureB0 false).timing
  | cnfp => exact (machine.core.relaidTo_configureB0 true).timing
  | conf => exact machine.core.relaidTo_configureBlocks.timing
  | store _ | long _ | register _ | branch _ | move _ | call => exact absurd rfl hordinary

end Machine

/-! ## What every operation keeps -/

/-- A relation between cores that ordinary work keeps, and each thing that an operation can do beyond
it, short of moving blocks, keeps as well. -/
structure KeptByWork (R : Core → Core → Prop) : Prop where
  trans : ∀ {first second third : Core}, R first second → R second third → R first third
  edited : ∀ {before after : Machine}, before.EditedTo after → R before.core after.core
  status : ∀ (core : Core) (edit : StatusEdit),
    R core { core with regs := { core.regs with status := edit.apply core.regs.status } }
  armRepeat : ∀ (core : Core) (count : Byte), R core (core.armRepeat count)
  doze : ∀ core : Core,
    R core ({ core with regs := core.regs.put .intm false, idle := true }.report (.idle core.prevPc))
  driveXf : ∀ (core : Core) (on : Bool), R core (core.driveXf on)
  illegal : ∀ (core : Core) (word : Half), R core (core.report (.illegal core.prevPc word))

/-- Such a relation that every move of a block keeps, too. -/
structure KeptByOps (R : Core → Core → Prop) : Prop extends KeptByWork R where
  mapBlock : ∀ (core : Core) (index : Nat) (program : Bool), R core (core.mapBlock index program)

namespace KeptByWork

variable {R : Core → Core → Prop}

/-- A relation that all work keeps holds of what does nothing. -/
theorem refl (h : KeptByWork R) (core : Core) : R core core := by
  have hidle : Machine.EditedTo ⟨core, .empty⟩ ⟨core, .empty⟩ := Machine.editedTo_of_core rfl
  exact h.edited hidle

/-- Every operation keeps it, if the changes of layout do. -/
theorem execute (h : KeptByWork R) (machine : Machine) (op : Op)
    (hB0 : ∀ program, R machine.core (machine.core.configureB0 program))
    (hblocks : R machine.core machine.core.configureBlocks) :
    R machine.core (machine.execute op).1.core := by
  by_cases hordinary : op.isOrdinary = true
  · exact h.edited (machine.editedTo_execute hordinary)
  cases op with
  | operand op =>
    cases op <;> first
      | exact absurd rfl hordinary
      | exact h.trans (h.edited (machine.editedTo_fetchOperand false)) (h.status _ (.st1 _))
  | flag op => exact h.status _ (.put op.change.1 op.change.2)
  | rpt => exact h.trans (h.edited (machine.editedTo_fetchOperand true)) (h.armRepeat _ _)
  | rptk => exact h.armRepeat _ _
  | idle => exact h.doze _
  | rxf => exact h.driveXf _ false
  | sxf => exact h.driveXf _ true
  | cnfd => exact hB0 false
  | cnfp => exact hB0 true
  | conf => exact hblocks
  | illegal => exact h.illegal _ _
  | store _ | long _ | register _ | branch _ | move _ | call => exact absurd rfl hordinary

end KeptByWork

namespace KeptByOps

variable {R : Core → Core → Prop}

/-- It holds of a choice of the layout of block B0. -/
theorem configureB0 (h : KeptByOps R) (core : Core) (program : Bool) :
    R core (core.configureB0 program) := by
  unfold Core.configureB0
  split
  · exact h.trans (h.mapBlock core 0 program) (h.status _ (.put .cnf0 program))
  · exact h.refl core

/-- It holds of a choice of the layout of all blocks. -/
theorem configureBlocks (h : KeptByOps R) (core : Core) : R core core.configureBlocks :=
  Core.configureBlocks_keeps (P := R core)
    (fun moved flag on _ hmoved => h.trans hmoved (h.status moved (.put flag on)))
    (fun moved index hmoved => h.trans hmoved (h.mapBlock moved index false)) (h.refl core)

/-- Every operation keeps it. -/
theorem execute (h : KeptByOps R) (machine : Machine) (op : Op) :
    R machine.core (machine.execute op).1.core :=
  h.toKeptByWork.execute machine op (h.configureB0 machine.core) (h.configureBlocks machine.core)

end KeptByOps

/-- No operation moves the timer within its tick. -/
theorem keptByOps_timerPhase :
    KeptByOps fun before after => after.timerPhase = before.timerPhase where
  trans h h' := h'.trans h
  edited h := congrArg Frame.timerPhase h.frame
  status _ _ := rfl
  armRepeat _ _ := rfl
  doze _ := rfl
  driveXf _ _ := rfl
  mapBlock core index program := by
    obtain ⟨journal, hmoved⟩ := core.mapBlock_eq index program
    rw [hmoved]
  illegal _ _ := rfl

/-- No operation lets clocks pass on the timer. -/
theorem Machine.execute_timerPhase (machine : Machine) (op : Op) :
    (machine.execute op).1.core.timerPhase = machine.core.timerPhase :=
  keptByOps_timerPhase.execute machine op

end ProcessorCores.Tms

import ProcessorCores.Proofs.Tms.Holds
import ProcessorCores.Proofs.Tms.Operands

/-!
# Operands off chip

Two decoders judge the address of an operand. The access itself asks the on-chip memory, and goes to
the bus where nothing answers. The flag that a held core stops for only compares the address with
`externalFrom`. From there up nothing on chip ever answers, so the flag is never set for an operand on
chip; below it there are gaps, and an operand in one of them uses the bus while the flag is clear.
-/

namespace ProcessorCores.Tms

/-! ## Where nothing answers -/

/-- Every data window ends below the addresses taken to be off chip. -/
theorem Model.dataBase_add_size_le (model : Model) :
    ∀ block ∈ model.blocks, (block.base false).toNat + block.size.toNat ≤ externalFrom.toNat := by
  cases model <;> decide

namespace OnChipRam

/-- Nothing on chip answers at a data address, though it is below those taken to be off chip. -/
def Gap (ram : OnChipRam) (address : Half) : Prop :=
  address < externalFrom ∧ ram.data address = none

/-- Whether an address is in a gap is decided by a search for its home. -/
instance (ram : OnChipRam) (address : Half) : Decidable (ram.Gap address) :=
  inferInstanceAs (Decidable (_ ∧ _))

/-- A data address is off chip if it is that of no mapped register and of no cell. -/
theorem data_eq_none_iff {ram : OnChipRam} {address : Half} :
    ram.data address = none ↔
      MappedRegister.ofAddress? address = none ∧ ram.dataCell? address = none := by
  unfold data
  cases MappedRegister.ofAddress? address with
  | some register => simp
  | none => simp

/-- Above the mapped registers, block B2 and every data window nothing answers. -/
theorem data_of_externalFrom_le (ram : OnChipRam) {address : Half} (h : externalFrom ≤ address) :
    ram.data address = none := by
  have habove : externalFrom.toNat ≤ address.toNat := h
  have hbound : externalFrom.toNat = 0x800 := rfl
  rw [data_eq_none_iff, Option.eq_none_iff_forall_ne_some, Option.eq_none_iff_forall_ne_some]
  constructor
  · intro register hregister
    have hlow := register.address_lt
    rw [MappedRegister.ofAddress?_eq_some hregister] at habove
    omega
  · intro cell hcell
    rcases (ram.dataCell?_eq_some_iff _ _).mp hcell with hb2 | hwindow
    · obtain ⟨offset, hoffset, -⟩ := (b2Cell?_eq_some_iff _ _).mp hb2
      have := offset.isLt
      omega
    · obtain ⟨index, block, offset, hblock, -, hoffset, rfl, -⟩ :=
        (ram.windowCell?_eq_some_iff _ _ _).mp hwindow
      have hmem := List.mem_of_getElem? hblock
      have hend := ram.model.dataBase_add_size_le block hmem
      rw [toNat_base_add (ram.model.base_add_size_le false block hmem) hoffset] at habove
      omega

/-- The layout decides which addresses are off chip. -/
theorem data_eq_none_of_layout {ram other : OnChipRam} (h : other.layout = ram.layout)
    (address : Half) : other.data address = none ↔ ram.data address = none := by
  have hcell : other.dataCell? address = ram.dataCell? address := by
    cases ram
    cases other
    obtain ⟨rfl, rfl⟩ := Prod.mk.inj h
    rfl
  rw [data_eq_none_iff, data_eq_none_iff, hcell]

end OnChipRam

/-! ## Accesses -/

/-- The access to the operand goes over the bus. -/
def OperandStep.UsesBus (step : OperandStep) : Prop :=
  step.accessed.bus.trace ≠ step.before.bus.trace

/-- True for the operations that read or write a data operand. -/
def Op.accessesOperand (op : Op) : Bool := op.hasOperand && op != .register .mar

namespace OperandUse

/-- Touching an operand leaves a trace on the bus exactly when nothing on chip answers. -/
theorem touch_trace (machine : Machine) {use : OperandUse} (huse : use ≠ .modify) (address : Half) :
    (use.touch machine address).2.bus.trace ≠ machine.bus.trace ↔
      machine.core.ram.data address = none := by
  have hrouting := machine.data_routing address
  cases hdata : machine.core.ram.data address with
  | some word =>
    rw [hdata] at hrouting
    obtain ⟨hread, hwrite⟩ := hrouting
    have hbus : (use.touch machine address).2.bus = machine.bus := by
      cases use with
      | read _ => exact congrArg (·.2.bus) hread
      | write value | writeStatus value => exact hwrite value
      | modify => contradiction
    simp [hbus]
  | none =>
    rw [hdata] at hrouting
    obtain ⟨hread, hwrite⟩ := hrouting
    have htrace : ∃ access, (use.touch machine address).2.bus.trace = access :: machine.bus.trace := by
      cases use with
      | read _ => exact ⟨_, congrArg (·.2.bus.trace) hread⟩
      | write value | writeStatus value => exact ⟨_, congrArg (·.bus.trace) (hwrite value)⟩
      | modify => contradiction
    obtain ⟨access, haccess⟩ := htrace
    simp [haccess]

end OperandUse

namespace Machine

variable {machine : Machine} {op : Op} {step : OperandStep}

/-- An operation that accesses its operand makes a use of it that does. -/
theorem CutAt.use_ne_modify (h : machine.CutAt op step) (hop : op.accessesOperand = true) :
    step.use ≠ .modify := by
  cases h with
  | mar => contradiction
  | operand | store | storeStatus | rpt => nofun
  | move op => cases op <;> nofun

/-- What an operation leaves of the place of its operand. -/
structure NotesOperand (machine : Machine) (op : Op) (step : OperandStep) (address : Half) : Prop where
  accessed : step.accessed.core.memAddress = address ∧
    step.accessed.core.externalAccess = decide (externalFrom ≤ address)
  executed : (machine.execute op).1.core.memAddress = address ∧
    (machine.execute op).1.core.externalAccess = decide (externalFrom ≤ address)
  /-- The bus serves an operand that nothing on chip answers for. -/
  usesBus : step.UsesBus ↔ machine.core.ram.data address = none
  /-- The flag is never set for an operand on chip. -/
  sound : externalFrom ≤ address → step.UsesBus
  /-- The flag tells who served the operand, but in a gap. -/
  agrees : (step.accessed.core.externalAccess = true ↔ step.UsesBus) ↔
    ¬ machine.core.ram.Gap address

/-- Every operation that accesses a data operand notes its place so. -/
theorem CutAt.notesOperand (h : machine.CutAt op step) (hop : op.accessesOperand = true) :
    machine.NotesOperand op step (step.use.address machine.core.regs machine.core.opcode) := by
  have huse := h.use_ne_modify hop
  have hbefore := h.before
  have haddress : step.use.address step.before.core.regs step.before.core.opcode =
      step.use.address machine.core.regs machine.core.opcode := by
    simp only [OperandUse.address, hbefore.opcode, hbefore.regs.getAr, hbefore.regs.status.arp,
      hbefore.regs.status.dp]
  have haccessed := step.before.accessedTo_access step.use
  rw [haddress] at haccessed
  generalize step.use.address machine.core.regs machine.core.opcode = address at haccessed ⊢
  have hrest := h.rest_notes step.value step.accessed
  have hbus : step.UsesBus ↔ machine.core.ram.data address = none := by
    rw [OperandStep.UsesBus, OperandStep.accessed, haccessed.bus,
      step.use.touch_trace step.before huse, OnChipRam.data_eq_none_of_layout hbefore.layout]
  have hmemAddress := haccessed.memAddress huse
  have hexternal := haccessed.externalAccess huse
  constructor
  case accessed => exact ⟨hmemAddress, hexternal⟩
  case executed =>
    rw [h.execute_eq]
    exact ⟨hrest.1.trans hmemAddress, hrest.2.trans hexternal⟩
  case usesBus => exact hbus
  case sound => exact fun habove => hbus.mpr (OnChipRam.data_of_externalFrom_le _ habove)
  case agrees =>
    have hflag : step.accessed.core.externalAccess = true ↔ externalFrom ≤ address := by
      rw [OperandStep.accessed, hexternal, decide_eq_true_iff]
    rw [hflag, hbus, OnChipRam.Gap, ← BitVec.not_le]
    have hsound (h : externalFrom ≤ address) := machine.core.ram.data_of_externalFrom_le h
    constructor
    · exact fun hagrees hgap => hgap.1 (hagrees.mpr hgap.2)
    · refine fun hgap => ⟨hsound, fun hnone => ?_⟩
      exact Decidable.byContradiction fun hbelow => hgap ⟨hbelow, hnone⟩

/-! ## The last operand of a step -/

/-- An operation without a data operand leaves the flag. -/
theorem execute_externalAccess (machine : Machine) (hop : op.accessesOperand = false) :
    (machine.execute op).1.core.externalAccess = machine.core.externalAccess := by
  have hread (machine : Machine) (address : Half) :
      (machine.readProgram address).2.core.externalAccess = machine.core.externalAccess :=
    congrArg (·.externalAccess) (machine.readProgram_core address)
  have hrelaid {core after : Core} (h : core.RelaidTo after) :
      after.externalAccess = core.externalAccess := by
    obtain ⟨_, _, _, rfl⟩ := h
    rfl
  cases op with
  | operand _ | store _ | move _ | rpt => contradiction
  | long op => exact hread machine _
  | register _ | flag _ | rptk | idle | rxf | sxf | illegal => rfl
  | branch op =>
    simp only [execute, branch, mapRegs, mapCore, Core.mapRegs]
    split
    · exact hread machine _
    · rfl
  | call => exact hread _ _
  | cnfd => exact hrelaid (machine.core.relaidTo_configureB0 false)
  | cnfp => exact hrelaid (machine.core.relaidTo_configureB0 true)
  | conf => exact hrelaid machine.core.relaidTo_configureBlocks

/-- Within a step only its execution notes an external access. -/
theorem keptWithinSteps_externalAccess (external : Bool) :
    KeptWithinSteps fun core => core.externalAccess = external where
  service core h :=
    core.holds_service (P := fun core => core.externalAccess = external) fun _ _ _ _ _ _ _ _ => h
  fetch _ _ h := h
  repeated _ _ _ h := h
  countPass _ h := h
  endBlock _ h := h

/-- The last of the executions of a step that access an operand. -/
structure LastOperand (machine executing : Machine) (op : Op) (step : OperandStep) : Prop where
  accesses : op.accessesOperand = true
  cut : executing.CutAt op step
  last : ∃ before after, machine.executions = before ++ (executing, op) :: after ∧
    ∀ e ∈ after, e.2.accessesOperand = false

/-- An instruction that arms no repeat block accesses the last operand of its step. -/
theorem lastOperand_of_normal (hop : machine.ready.op.accessesOperand = true)
    (hcut : machine.ready.CutAt machine.ready.op step)
    (hflow : (machine.ready.execute machine.ready.op).1.core.flow = .normal) :
    machine.LastOperand machine.ready machine.ready.op step := by
  refine ⟨hop, hcut, [], [], ?_, fun _ he => absurd he List.not_mem_nil⟩
  rw [executions, blockExecutions_of_normal hflow]
  rfl

/-- The last operand of a step leaves the flag. -/
theorem LastOperand.externalAccess {executing : Machine}
    (h : machine.LastOperand executing op step) :
    machine.step.1.core.externalAccess = (executing.execute op).1.core.externalAccess := by
  obtain ⟨before, after, hsplit, hlast⟩ := h.last
  refine (keptWithinSteps_externalAccess _).after_execution hsplit rfl fun e he hkept => ?_
  exact (e.1.execute_externalAccess (hlast e he)).trans hkept

/-- The flag tells whether the bus served an operand, but in a gap on chip. So a held core executes
nothing after a step whose last operand used the bus, but in a gap. -/
theorem off_chip_operand (budget : Budget) (hphase : machine.core.timerPhase < clk) :
    (∀ (executing : Machine) (op : Op), op.accessesOperand = true →
      ∃ step, executing.CutAt op step ∧ executing.NotesOperand op step
        (step.use.address executing.core.regs executing.core.opcode)) ∧
      (machine.core.holdLine = true →
        ∀ reached left, Boundary (fun _ => True) machine budget reached left →
          left.isExhausted = false → ∀ executing op step,
            reached.LastOperand executing op step → step.UsesBus →
              ¬ executing.core.ram.Gap
                  (step.use.address executing.core.regs executing.core.opcode) →
                machine.run budget = some (reached.turn left) ∧
                  (reached.turn left).2.isExhausted = true ∧
                  ∀ count, (reached.turn left).1.turnsMoments (reached.turn left).2 count = []) := by
  constructor
  · intro executing op hop
    obtain ⟨step, hcut⟩ := executing.cutAt_of_hasOperand (Bool.and_eq_true_iff.mp hop).1
    exact ⟨step, hcut, hcut.notesOperand hop⟩
  · intro hline reached left hreached hleft executing op step hlast hbus hgap
    have hnotes := hlast.cut.notesOperand hlast.accesses
    have hexternal : reached.step.1.core.externalAccess = true := by
      rw [hlast.externalAccess, hnotes.executed.2, ← hnotes.accessed.2]
      exact (hnotes.agrees.mpr hgap).mpr hbus
    obtain ⟨hrun, hexhausted⟩ := run_of_stops hphase hline hreached hleft (.inl hexternal)
    exact ⟨hrun, hexhausted, turnsMoments_of_exhausted _ hexhausted⟩

/-- A load from above the gaps ends a held run. -/
theorem off_chip_operand_lac :
    let machine := heldOver [0x2080, 0xCA05]
    (machine.core.timerPhase < clk ∧ machine.core.holdLine = true) ∧
      ∃ other left, machine.run ⟨100⟩ = some (other, left) ∧ left.isExhausted = true ∧
        other.core.memAddress = 0x0900 ∧ other.core.regs.acc = 0 := by
  intro machine
  let begun := (machine.beginRun ⟨100⟩).1
  have hphase : machine.core.timerPhase < clk := by decide
  have hline : machine.core.holdLine = true := rfl
  have hleft : (machine.beginRun ⟨100⟩).2.isExhausted = false := by decide +kernel
  have hop : begun.ready.op = .operand .lac := by decide +kernel
  have hflow : (begun.ready.execute begun.ready.op).1.core.flow = .normal := by decide +kernel
  obtain ⟨hnoted, hheld⟩ := off_chip_operand ⟨100⟩ hphase
  obtain ⟨step, hcut, hnotes⟩ := hnoted begun.ready begun.ready.op (hop ▸ rfl)
  have haddress : step.use.address begun.ready.core.regs begun.ready.core.opcode = 0x0900 := by
    rw [hop] at hcut
    cases hcut
    decide +kernel
  have hlast := lastOperand_of_normal (hop ▸ rfl) hcut hflow
  have hbus : step.UsesBus := hnotes.sound (haddress ▸ by decide)
  have hgap : ¬ begun.ready.core.ram.Gap
      (step.use.address begun.ready.core.regs begun.ready.core.opcode) := by
    rw [haddress]
    exact fun hgap => absurd hgap.1 (by decide)
  obtain ⟨hrun, hexhausted, -⟩ := hheld hline begun _ .start hleft _ _ _ hlast hbus hgap
  exact ⟨⟨hphase, hline⟩, _, _, hrun, hexhausted, by decide +kernel, by decide +kernel⟩

/-- Word 6 is in a gap: a load from there uses the bus, and leaves the flag clear. -/
theorem gap_unflagged :
    ¬ ∀ (machine : Machine) (op : Op) (step : OperandStep), op.accessesOperand = true →
        machine.CutAt op step → (step.accessed.core.externalAccess = true ↔ step.UsesBus) := by
  intro hall
  let machine : Machine :=
    (⟨.new .tms32025, Bus.empty.loadHalves .program 0 [0x2006]⟩ : Machine).fetch
  have hcut : machine.CutAt (.operand .lac) _ := .operand .lac
  have hnotes := hcut.notesOperand rfl
  have hgap : machine.core.ram.Gap
      (OperandUse.address (.read true) machine.core.regs machine.core.opcode) := by
    decide +kernel
  exact hnotes.agrees.mp (hall machine _ _ rfl hcut) hgap

end Machine

end ProcessorCores.Tms

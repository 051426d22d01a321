import ProcessorCores.Proofs.BusBytes
import ProcessorCores.Romp.Run

/-!
# How a ROMP instruction passes control on

An instruction ends in one of three ways: control goes to the following instruction, to a latched
branch target, or to the handler of an exception. `Op.transfer` says which, from the registers, the
condition status and the storage that the instruction reads, and without executing it. The lemmas
below tie it to the execution of every operation and to the flow token that the end of the step
consumes, so that arguments about control flow need no case split over the operations.

Loads, stores and transfers of several registers matter here only in what they leave alone.
-/

namespace ProcessorCores.Romp

/-- How an instruction passes control on. -/
inductive Transfer
  /-- To the following instruction. -/
  | sequential
  /-- To a target, one more instruction running first in a branch with execute. -/
  | branch (target : Word) (withExecute : Bool)
  /-- To the handler of an exception. -/
  | exception (cause : Exception)
  deriving DecidableEq, Repr

/-- The registers of a branch once its link is written, `next` being the address of the following
instruction. -/
def BranchOp.linked (op : BranchOp) (instruction : Instruction) (next : Word) (regs : Registers) :
    Registers :=
  match op.link? instruction with
  | some r => regs.setGpr r (if op.withExecute then next + 4 else next)
  | none => regs

/-- How an operation passes control on when it is executed. -/
def Op.transfer (op : Op) (machine : Machine) (instruction : Instruction) (next : Word) : Transfer :=
  let regs := machine.core.regs
  match op with
  | .branch op =>
    if op.taken instruction regs.condition then
      .branch (op.target instruction (op.linked instruction next regs)) op.withExecute
    else .sequential
  | .lps => .branch (machine.bus.peek32 .program (displacedAddress instruction regs)) false
  | .port _ =>
    if unsignedAddress instruction regs < portLimit then .sequential else .exception .programCheck
  | .trap op => if op.springs instruction regs then .exception .programCheck else .sequential
  | .svc => .exception (.supervisorCall (lowHalf (unsignedAddress instruction regs)))
  | .illegal => .exception .programCheck
  | .compute _ | .load _ | .store _ | .tsh | .lm | .stm | .control _ => .sequential

/-- What executing an instruction leaves for the end of the step. -/
def Transfer.Latched (transfer : Transfer) (before after : Machine) : Prop :=
  match transfer with
  | .sequential =>
    after.core.flow = before.core.flow ∧ after.core.branchTarget = before.core.branchTarget
  | .branch target withExecute =>
    after.core.flow = (if withExecute then .delaySlotPending else .branchPending) ∧
      after.core.branchTarget = target
  | .exception cause =>
    after.core.flow = .exceptionEntered ∧ after.core.branchTarget = before.core.branchTarget ∧
      after.core.regs.iar = before.bus.peek32 .program (cause.block + 8)

namespace Core

/-! ## What the parts of a step leave alone -/

/-- What decides where the next step goes on, the registers apart. -/
def sequencing (core : Core) : Flow × Word × Option Word :=
  (core.flow, core.branchTarget, core.pendingMachineCheck)

/-- A change of the translate mode leaves the registers. -/
@[simp] theorem setTranslateMode_regs (core : Core) (enabled : Bool) :
    (core.setTranslateMode enabled).regs = core.regs := by
  unfold setTranslateMode
  split <;> rfl

/-- A change of the translate mode leaves the sequencing. -/
@[simp] theorem setTranslateMode_sequencing (core : Core) (enabled : Bool) :
    (core.setTranslateMode enabled).sequencing = core.sequencing := by
  unfold setTranslateMode
  split <;> rfl

/-- Writing a system control register moves at most the translate line besides. -/
@[simp] theorem writeScr_sequencing (core : Core) (r : Reg) (value : Word) :
    (core.writeScr r value).sequencing = core.sequencing := by
  unfold writeScr
  split
  · exact (core.report _).setTranslateMode_sequencing _
  · rfl

/-- Moves between the banks are no branches, even those that name the instruction address. -/
theorem control_sequencing (core : Core) (op : ControlOp) (instruction : Instruction) (next : Word) :
    (core.control op instruction next).sequencing = core.sequencing := by
  cases op with
  | mfs => rfl
  | mts => exact core.writeScr_sequencing _ _
  | clrsb => exact core.writeScr_sequencing _ _
  | setsb => exact core.writeScr_sequencing _ _

end Core

namespace Machine

/-- A load leaves the sequencing. -/
theorem load_sequencing (machine : Machine) (op : LoadOp) (instruction : Instruction) :
    (machine.load op instruction).core.sequencing = machine.core.sequencing := by
  cases op <;> rfl

/-- A store leaves the core. -/
theorem store_core (machine : Machine) (op : StoreOp) (instruction : Instruction) :
    (machine.store op instruction).core = machine.core := by
  cases op <;> rfl

/-- A multiple load changes general registers, and nothing else of the core. -/
theorem loadRegisters_core (machine : Machine) (r : Reg) (address : Word) (count : Nat) :
    ∃ gpr, (machine.loadRegisters r address count).core =
      machine.core.withRegs { machine.core.regs with gpr := gpr } := by
  induction count generalizing machine r address with
  | zero => exact ⟨_, rfl⟩
  | succ count ih => exact ih ((machine.read32 .program address).2.setGpr r _) _ _

/-- A multiple load leaves the sequencing. -/
theorem loadRegisters_sequencing (machine : Machine) (r : Reg) (address : Word) (count : Nat) :
    (machine.loadRegisters r address count).core.sequencing = machine.core.sequencing := by
  obtain ⟨_, hloaded⟩ := machine.loadRegisters_core r address count
  rw [hloaded]
  rfl

/-- A multiple store leaves the core. -/
theorem storeRegisters_core (machine : Machine) (r : Reg) (address : Word) (count : Nat) :
    (machine.storeRegisters r address count).core = machine.core := by
  induction count generalizing machine r address with
  | zero => rfl
  | succ count ih => exact ih _ _ _

end Machine

/-! ## Exception entries -/

namespace Exception

/-- The bus once an entry has saved the old status in the block. -/
def save (cause : Exception) (bus : Bus) (old : Registers) : Bus :=
  let bus := bus.write32 .program cause.block old.iar
  let bus := bus.write16 .program (cause.block + 4) (lowHalf old.ics)
  let bus := bus.write16 .program (cause.block + 6) (lowHalf old.cs)
  match cause with
  | .supervisorCall code => bus.write16 .program (cause.block + 14) code
  | _ => bus

/-- The system control registers once an entry has loaded the new status from the block. -/
def load (cause : Exception) (bus : Bus) (scr : Bank) : Bank :=
  let scr := scr.set Scr.iar (bus.peek32 .program (cause.block + 8))
  let scr := scr.set Scr.ics ((bus.peek16 .program (cause.block + 12)).setWidth 32)
  if cause.loadsCondition then
    scr.set Scr.cs ((bus.peek16 .program (cause.block + 14)).setWidth 32)
  else scr

/-- The bus once an entry has read the new status in the block. -/
def readNew (cause : Exception) (bus : Bus) : Bus :=
  let bus := (bus.read32 .program (cause.block + 8)).2
  let bus := (bus.read16 .program (cause.block + 12)).2
  if cause.loadsCondition then (bus.read16 .program (cause.block + 14)).2 else bus

/-- The new status of a block is apart from the bytes that an entry saves in it. -/
theorem peek8_save (cause : Exception) (bus : Bus) (old : Registers) (offset : Nat)
    (hlow : 8 ≤ offset) (hhigh : offset < if cause.loadsCondition then 16 else 14) :
    (cause.save bus old).peek8 .program (cause.block + BitVec.ofNat 32 offset) =
      bus.peek8 .program (cause.block + BitVec.ofNat 32 offset) := by
  have hsmall : offset < 16 := by split at hhigh <;> omega
  have hfirst (value : Word) (ics cs : Half) :
      ((((bus.write32 .program cause.block value).write16 .program (cause.block + 4) ics).write16
        .program (cause.block + 6) cs)).peek8 .program (cause.block + BitVec.ofNat 32 offset) =
      bus.peek8 .program (cause.block + BitVec.ofNat 32 offset) := by
    rw [Bus.peek8_write16_of_ne (by bv_omega) (by bv_omega),
      Bus.peek8_write16_of_ne (by bv_omega) (by bv_omega), Bus.write32,
      Bus.peek8_write16_of_ne (by bv_omega) (by bv_omega),
      Bus.peek8_write16_of_ne (by bv_omega) (by bv_omega)]
  cases cause with
  | supervisorCall code =>
    have hcode : offset < 14 := hhigh
    rw [← hfirst old.iar (lowHalf old.ics) (lowHalf old.cs)]
    exact Bus.peek8_write16_of_ne (by bv_omega) (by bv_omega)
  | interrupt level => exact hfirst _ _ _
  | machineCheck => exact hfirst _ _ _
  | programCheck => exact hfirst _ _ _

/-- Each halfword of the new status is read as the block was before the old one was saved. -/
private theorem peek16_save (cause : Exception) (bus : Bus) (old : Registers) (offset : Nat)
    (hlow : 8 ≤ offset) (hhigh : offset + 1 < if cause.loadsCondition then 16 else 14) :
    (cause.save bus old).peek16 .program (cause.block + BitVec.ofNat 32 offset) =
      bus.peek16 .program (cause.block + BitVec.ofNat 32 offset) := by
  have hsecond : cause.block + BitVec.ofNat 32 offset + 1 =
      cause.block + BitVec.ofNat 32 (offset + 1) := by
    rw [BitVec.add_assoc]
    exact congrArg _ (BitVec.ofNat_add_ofNat offset 1)
  rw [Bus.peek16, Bus.peek16, hsecond, cause.peek8_save bus old offset hlow (by omega),
    cause.peek8_save bus old (offset + 1) (by omega) hhigh]

/-- Saving the old status first makes no difference to the new one. -/
theorem load_save (cause : Exception) (bus : Bus) (old : Registers) (scr : Bank) :
    cause.load (cause.save bus old) scr = cause.load bus scr := by
  have hiar : (cause.save bus old).peek32 .program (cause.block + 8) =
      bus.peek32 .program (cause.block + 8) := by
    have hsecond : cause.block + 8 + 2 = cause.block + BitVec.ofNat 32 10 := by
      rw [BitVec.add_assoc]
      rfl
    have hhigh := cause.peek16_save bus old 8 (by omega) (by split <;> omega)
    have hlow := cause.peek16_save bus old 10 (by omega) (by split <;> omega)
    rw [← hsecond] at hlow
    rw [Bus.peek32, Bus.peek32]
    exact congr (congrArg joinHalves hhigh) hlow
  have hics := cause.peek16_save bus old 12 (by omega) (by split <;> omega)
  have hnew : (cause.save bus old).peek16 .program (cause.block + 12) =
      bus.peek16 .program (cause.block + 12) := hics
  unfold load
  rw [hiar, hnew]
  split
  · next hloads =>
    have hcs := cause.peek16_save bus old 14 (by omega) (by simp [hloads])
    exact congrArg (fun half : Half => Bank.set _ Scr.cs (half.setWidth 32)) hcs
  · rfl

/-- The new instruction address is the word at offset 8 of the block. -/
theorem load_iar (cause : Exception) (bus : Bus) (scr : Bank) :
    (cause.load bus scr).get Scr.iar = bus.peek32 .program (cause.block + 8) := by
  have hics : Scr.iar ≠ Scr.ics := by decide
  have hcs : Scr.iar ≠ Scr.cs := by decide
  unfold load
  split
  · rw [Bank.get_set, if_neg hcs, Bank.get_set, if_neg hics, Bank.get_set_self]
  · rw [Bank.get_set, if_neg hics, Bank.get_set_self]

end Exception

namespace Machine

/-- An entry drops translation, swaps the status through its block and translates as the new status
asks. -/
theorem enter_eq (machine : Machine) (cause : Exception) :
    machine.enter cause =
      let bus := cause.save machine.bus machine.core.regs
      let regs := { machine.core.regs with scr := cause.load bus machine.core.regs.scr }
      let ics := (bus.peek16 .program (cause.block + 12)).setWidth 32
      { core :=
          { ((machine.core.setTranslateMode false).withRegs regs).setTranslateMode
              (meets ics Ics.translate) with
            flow := .exceptionEntered }
        bus := cause.readNew bus } := by
  have hregs := machine.core.setTranslateMode_regs false
  simp only [enter, mapCore]
  rw [← hregs]
  generalize machine.core.setTranslateMode false = core
  cases cause with
  | supervisorCall code =>
    simp only [Exception.load, Exception.save, Exception.readNew, Exception.loadsCondition,
      Bool.false_eq_true, reduceIte, write32, write16, read32, read16, Bus.read32, Bus.read16,
      Bus.peek32, Bus.peek16_record]
    rfl
  | interrupt level => rfl
  | machineCheck => rfl
  | programCheck => rfl

/-- An entry replaces the instruction address, the interrupt control status and, for an external
interrupt, the condition status by those that its block held before; every other register stays. -/
theorem enter_regs (machine : Machine) (cause : Exception) :
    (machine.enter cause).core.regs =
      { machine.core.regs with scr := cause.load machine.bus machine.core.regs.scr } := by
  rw [← cause.load_save machine.bus machine.core.regs, enter_eq]
  exact Core.setTranslateMode_regs _ _

/-- An entry leaves the latched target and a signalled fault as they are. -/
theorem enter_sequencing (machine : Machine) (cause : Exception) :
    (machine.enter cause).core.sequencing =
      (.exceptionEntered, machine.core.branchTarget, machine.core.pendingMachineCheck) := by
  rw [enter_eq]
  have hbefore := machine.core.setTranslateMode_sequencing false
  have hafter (core : Core) (enabled : Bool) := core.setTranslateMode_sequencing enabled
  simp only [Core.sequencing, Prod.mk.injEq] at hbefore hafter ⊢
  exact ⟨trivial, (hafter _ _).2.1.trans hbefore.2.1, (hafter _ _).2.2.trans hbefore.2.2⟩

/-- An entry leaves the flow token marked and the instruction address loaded. -/
theorem enter_latched (machine : Machine) (cause : Exception) :
    (Transfer.exception cause).Latched machine (machine.enter cause) := by
  have hsequencing := machine.enter_sequencing cause
  simp only [Core.sequencing, Prod.mk.injEq] at hsequencing
  refine ⟨hsequencing.1, hsequencing.2.1, ?_⟩
  rw [Registers.iar, enter_regs]
  exact cause.load_iar machine.bus _

/-- A program check is an entry that first notes its status. -/
theorem programCheck_latched (machine : Machine) (status : Word) :
    (Transfer.exception .programCheck).Latched machine (machine.programCheck status) := by
  unfold programCheck
  have hnoted (noted : Machine) (htarget : noted.core.branchTarget = machine.core.branchTarget)
      (hbus : noted.bus = machine.bus) :
      (Transfer.exception .programCheck).Latched machine (noted.enter .programCheck) := by
    obtain ⟨hflow, htarget', hiar⟩ := noted.enter_latched .programCheck
    exact ⟨hflow, htarget'.trans htarget, hbus ▸ hiar⟩
  exact hnoted _ rfl rfl

/-! ## Executing an instruction -/

/-- Where the sequencing is as before, control goes to the following instruction. -/
theorem latched_of_sequencing {before after : Machine}
    (h : after.core.sequencing = before.core.sequencing) : Transfer.sequential.Latched before after := by
  simp only [Core.sequencing, Prod.mk.injEq] at h
  exact ⟨h.1, h.2.1⟩

/-- A branch that is taken latches its target, and one that is not leaves everything. -/
theorem branch_latched (machine : Machine) (op : BranchOp) (instruction : Instruction) (next : Word) :
    ((Op.branch op).transfer machine instruction next).Latched machine
      (machine.execute (.branch op) instruction next).1 := by
  simp only [Op.transfer, execute, Core.branch]
  split
  · exact ⟨rfl, rfl⟩
  · exact ⟨rfl, rfl⟩

/-- A load of the program status latches the word it finds as a branch target. -/
theorem loadProgramStatus_latched (machine : Machine) (instruction : Instruction) :
    (Transfer.branch (machine.bus.peek32 .program (displacedAddress instruction machine.core.regs))
      false).Latched machine (machine.loadProgramStatus instruction) := by
  have hlatched (core : Core) (target value : Word) :
      ((core.latch target false).writeScr Scr.ics value).sequencing =
        (.branchPending, target, core.pendingMachineCheck) :=
    (core.latch target false).writeScr_sequencing _ _
  simp only [Core.sequencing, Prod.mk.injEq] at hlatched
  simp only [Transfer.Latched, loadProgramStatus, mapCore, setScr, Core.withRegs, read32, read16,
    Bus.read32, Bus.read16, Bus.peek32, Bus.peek16_record]
  exact ⟨(hlatched machine.core _ _).1, (hlatched machine.core _ _).2.1⟩

/-- Executing an instruction leaves for the end of the step what its transfer says. -/
theorem execute_latched (machine : Machine) (op : Op) (instruction : Instruction) (next : Word) :
    (op.transfer machine instruction next).Latched machine
      (machine.execute op instruction next).1 := by
  cases op with
  | compute op => exact ⟨rfl, rfl⟩
  | load op => exact latched_of_sequencing (machine.load_sequencing op instruction)
  | store op => exact latched_of_sequencing (congrArg _ (machine.store_core op instruction))
  | tsh => exact ⟨rfl, rfl⟩
  | lm => exact latched_of_sequencing (machine.loadRegisters_sequencing _ _ _)
  | stm => exact latched_of_sequencing (congrArg _ (machine.storeRegisters_core _ _ _))
  | port op =>
    simp only [Op.transfer, execute, accessPort]
    split
    · cases op <;> exact ⟨rfl, rfl⟩
    · exact machine.programCheck_latched _
  | trap op =>
    simp only [Op.transfer, execute]
    split
    · exact machine.programCheck_latched _
    · exact ⟨rfl, rfl⟩
  | branch op => exact machine.branch_latched op instruction next
  | control op => exact latched_of_sequencing (machine.core.control_sequencing op instruction next)
  | svc => exact machine.enter_latched _
  | lps => exact machine.loadProgramStatus_latched instruction
  | illegal => exact machine.programCheck_latched _

/-- Only an exception that the host signalled is ever pending, and executing takes none. -/
theorem execute_pendingMachineCheck (machine : Machine) (op : Op) (instruction : Instruction)
    (next : Word) :
    (machine.execute op instruction next).1.core.pendingMachineCheck =
      machine.core.pendingMachineCheck := by
  have hcheck (status : Word) :
      (machine.programCheck status).core.pendingMachineCheck = machine.core.pendingMachineCheck :=
    congrArg (·.2.2) (enter_sequencing _ .programCheck)
  cases op with
  | compute op => rfl
  | load op => exact congrArg (·.2.2) (machine.load_sequencing op instruction)
  | store op => exact congrArg (·.pendingMachineCheck) (machine.store_core op instruction)
  | tsh => rfl
  | lm => exact congrArg (·.2.2) (machine.loadRegisters_sequencing _ _ _)
  | stm => exact congrArg (·.pendingMachineCheck) (machine.storeRegisters_core _ _ _)
  | port op =>
    simp only [execute, accessPort]
    split
    · cases op <;> rfl
    · exact hcheck _
  | trap op =>
    simp only [execute]
    split
    · exact hcheck _
    · rfl
  | branch op =>
    simp only [execute, Core.branch]
    split <;> rfl
  | control op => exact congrArg (·.2.2) (machine.core.control_sequencing op instruction next)
  | svc => exact congrArg (·.2.2) (machine.enter_sequencing _)
  | lps => exact congrArg (·.2.2) (Core.writeScr_sequencing (machine.core.latch _ false) _ _)
  | illegal => exact hcheck _

/-! ## The instruction at the instruction address -/

/-- The instruction at the instruction address. -/
def current (machine : Machine) : Instruction := machine.fetch.1

/-- The address of the instruction that follows. -/
def following (machine : Machine) : Word := machine.fetch.2.1

/-- A fetch reads one halfword, or two where the first one asks for it. -/
private theorem fetch_eq (machine : Machine) :
    machine.fetch =
      let iar := machine.core.regs.iar
      let first := machine.read16 .program iar
      let second := first.2.read16 .program (iar + 2)
      if hasExtension first.1 then (⟨first.1, second.1⟩, iar + 4, second.2)
      else (⟨first.1, 0⟩, iar + 2, first.2) := rfl

/-- A fetch leaves the core as it is. -/
theorem fetch_core (machine : Machine) : machine.fetch.2.2.core = machine.core := by
  rw [fetch_eq]
  dsimp only
  split <;> rfl

/-- A fetch leaves the storage as it is. -/
theorem fetch_peek32 (machine : Machine) (space : Space) (address : Word) :
    machine.fetch.2.2.bus.peek32 space address = machine.bus.peek32 space address := by
  rw [fetch_eq]
  dsimp only
  split <;> rfl

/-- The formats of two halfwords are four bytes long and the others two. -/
theorem following_eq (machine : Machine) :
    machine.following =
      machine.core.regs.iar + (if hasExtension machine.current.word then 4 else 2) := by
  rw [following, current, fetch_eq]
  dsimp only
  split <;> rfl

/-- How the instruction at the instruction address passes control on. In a delay slot a
branch-class instruction is a program check. -/
def transfer (machine : Machine) : Transfer :=
  let op := (decode machine.current.word).handler
  if machine.core.flow = .branchPending ∧ op.isBranchClass then .exception .programCheck
  else op.transfer machine machine.current machine.following

/-- A transfer depends on the core and on the words in storage, not on the accesses made so far. -/
private theorem transfer_congr {machine other : Machine} (op : Op) (instruction : Instruction)
    (next : Word) (hcore : machine.core = other.core)
    (hbus : ∀ address, machine.bus.peek32 .program address = other.bus.peek32 .program address) :
    op.transfer machine instruction next = op.transfer other instruction next := by
  cases op <;> simp only [Op.transfer, hcore, hbus]

/-- The machine once the instruction at the instruction address is executed, before the flow token
is consumed. -/
def executed (machine : Machine) : Machine :=
  let op := (decode machine.current.word).handler
  if machine.core.flow = .branchPending ∧ op.isBranchClass then machine.fetch.2.2.illegal
  else (machine.fetch.2.2.execute op machine.current machine.following).1

/-- A step that enters nothing executes one instruction and then consumes the flow token. -/
theorem executeNext_eq (machine : Machine) :
    machine.executeNext.1 = machine.executed.mapCore (·.endStep machine.following) := by
  rw [executed, ← machine.fetch_core]
  unfold executeNext
  dsimp only
  split
  · next h => exact congrArg (mapCore · (·.endStep machine.following)) (if_pos h).symm
  · next h => exact congrArg (mapCore · (·.endStep machine.following)) (if_neg h).symm

/-- An instruction of no branch class is executed in a delay slot as anywhere else. -/
theorem executed_of_handler {machine : Machine} {op : Op}
    (hop : (decode machine.current.word).handler = op) (hclass : op.isBranchClass = false) :
    machine.executed = (machine.fetch.2.2.execute op machine.current machine.following).1 := by
  have hslot : ¬ (machine.core.flow = .branchPending ∧ op.isBranchClass) :=
    fun h => Bool.false_ne_true (hclass.symm.trans h.2)
  rw [executed, hop, if_neg hslot]

/-- Executing the instruction at the instruction address leaves what its transfer says. -/
theorem executed_latched (machine : Machine) : machine.transfer.Latched machine machine.executed := by
  have hfetched {transfer : Transfer} {after : Machine}
      (h : transfer.Latched machine.fetch.2.2 after) : transfer.Latched machine after := by
    cases transfer <;> simpa only [Transfer.Latched, fetch_core, fetch_peek32] using h
  unfold transfer executed
  dsimp only
  split
  · exact hfetched (programCheck_latched _ _)
  · rw [← transfer_congr _ _ _ machine.fetch_core (machine.fetch_peek32 .program)]
    exact hfetched (execute_latched _ _ _ _)

/-- Executing the instruction at the instruction address takes no signalled fault. -/
theorem executed_pendingMachineCheck (machine : Machine) :
    machine.executed.core.pendingMachineCheck = machine.core.pendingMachineCheck := by
  rw [← machine.fetch_core]
  unfold executed
  dsimp only
  split
  · exact congrArg (·.2.2) (enter_sequencing _ .programCheck)
  · exact execute_pendingMachineCheck _ _ _ _

/-! ## The end of the step -/

/-- With nothing latched, the step goes on to the following instruction. -/
theorem executeNext_sequential {machine : Machine} (htransfer : machine.transfer = .sequential)
    (hflow : machine.core.flow = .normal) :
    machine.executeNext.1.core.flow = .normal ∧
      machine.executeNext.1.core.regs.iar = machine.following := by
  have hlatched := machine.executed_latched
  rw [htransfer] at hlatched
  have hexecuted : machine.executed.core.flow = .normal := hlatched.1.trans hflow
  rw [executeNext_eq, mapCore, Core.endStep, hexecuted]
  exact ⟨hexecuted, Bank.get_set_self _ _ _⟩

/-- In a delay slot an instruction that passes control on in sequence is followed by the latched
target. -/
theorem executeNext_delaySlot {machine : Machine} (htransfer : machine.transfer = .sequential)
    (hflow : machine.core.flow = .branchPending) :
    machine.executeNext.1.core.flow = .normal ∧
      machine.executeNext.1.core.regs.iar = machine.core.branchTarget := by
  have hlatched := machine.executed_latched
  rw [htransfer] at hlatched
  have hexecuted : machine.executed.core.flow = .branchPending := hlatched.1.trans hflow
  rw [executeNext_eq, mapCore, Core.endStep, hexecuted]
  exact ⟨rfl, (Bank.get_set_self _ _ _).trans hlatched.2⟩

/-- A branch is pending after a step that takes a branch with execute, and no other. -/
theorem executeNext_branch {machine : Machine} {target : Word} {withExecute : Bool}
    (htransfer : machine.transfer = .branch target withExecute) :
    machine.executeNext.1.core.flow = if withExecute then .branchPending else .normal := by
  have hlatched := machine.executed_latched
  rw [htransfer] at hlatched
  rw [executeNext_eq, mapCore, Core.endStep, hlatched.1]
  cases withExecute <;> rfl

/-- An exception raised by an instruction ends the step at the handler, the latched target staying
what it was. -/
theorem executeNext_exception {machine : Machine} {cause : Exception}
    (htransfer : machine.transfer = .exception cause) :
    machine.executeNext.1.core.flow = .normal ∧
      machine.executeNext.1.core.branchTarget = machine.core.branchTarget ∧
      machine.executeNext.1.core.regs.iar = machine.bus.peek32 .program (cause.block + 8) := by
  have hlatched := machine.executed_latched
  rw [htransfer] at hlatched
  obtain ⟨hexecuted, htarget, hiar⟩ := hlatched
  rw [executeNext_eq, mapCore, Core.endStep, hexecuted]
  exact ⟨rfl, htarget, hiar⟩

/-- A step that enters nothing takes no signalled fault. -/
theorem executeNext_pendingMachineCheck (machine : Machine) :
    machine.executeNext.1.core.pendingMachineCheck = machine.core.pendingMachineCheck := by
  rw [← machine.executed_pendingMachineCheck, executeNext_eq, mapCore, Core.endStep]
  dsimp only
  split <;> rfl

end Machine

end ProcessorCores.Romp

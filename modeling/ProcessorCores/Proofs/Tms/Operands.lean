import ProcessorCores.Proofs.Tms.Pointers

/-!
# Operands of the TMS3202x

Every operation with a data operand comes to it in the same way. First it does what precedes the
access, which leaves all that addressing depends on. Then it accesses the operand and modifies the
auxiliary register in use. The rest of the operation works on what it has by then, and leaves the
auxiliary registers and the pointers, unless to load them is what the operation is for.

`CutAt` cuts an operation in these three. Lemmas about each part make the one statement about all
operations: through which address the operand is accessed, and what becomes of the auxiliary registers,
the pointers and the rest of the status.
-/

namespace ProcessorCores.Tms

/-- How an operation uses its data operand. -/
inductive OperandUse
  /-- It reads it. -/
  | read (movesPointer : Bool)
  /-- It writes a word to it. -/
  | write (value : Half)
  /-- It writes a status word to it, where direct addresses are on page 0. -/
  | writeStatus (value : Half)
  /-- It only modifies the auxiliary register that addresses it. -/
  | modify
  deriving DecidableEq, Repr

namespace OperandUse

/-- True when the modification that goes with a use may choose another auxiliary register. -/
def movesPointer : OperandUse → Bool
  | .read movesPointer => movesPointer
  | .write _ | .modify => true
  | .writeStatus _ => false

/-- The address of the operand: where the auxiliary register in use points, or a word of the page. -/
def address (use : OperandUse) (regs : Registers) (word : Half) : Half :=
  if isIndirect word then regs.getAr regs.status.arp
  else match use with
    | .writeStatus _ => word &&& 0x7F
    | _ => regs.status.dp * 128 + (word &&& 0x7F)

/-- The access to memory, and nothing else. -/
def touch (use : OperandUse) (machine : Machine) (address : Half) : Half × Machine :=
  match use with
  | .read _ => machine.readData address
  | .write value | .writeStatus value => (value, machine.writeData address value)
  | .modify => (0, machine)

end OperandUse

/-- An operation with a data operand: the machine before the access, what use it makes of the
operand, and the rest of the operation. -/
structure OperandStep where
  before : Machine
  use : OperandUse
  rest : Half → Machine → Machine

namespace Machine

/-- Access the operand of the current instruction. -/
def access (machine : Machine) (use : OperandUse) : Half × Machine :=
  match use with
  | .read movesPointer => machine.fetchOperand movesPointer
  | .write value => (value, machine.storeOperand value)
  | .writeStatus value => (value, machine.storeStatus value)
  | .modify => (0, machine.mapRegs (·.afterOperand machine.core.opcode true))

/-- What is left of a product with a coefficient once its operand is read. -/
def multiplyOperand (machine : Machine) (moves : Bool) (value : Half) : Machine :=
  let machine :=
    if moves && (isIndirect machine.core.opcode || machine.core.firstPass) then
      machine.writeNext value
    else machine
  let machine := machine.mapRegs fun regs => { regs with t := value }
  let (coefficient, machine) := machine.readProgram machine.core.regs.pfc
  machine.mapRegs fun regs =>
    { regs with p := signedProduct value coefficient, pfc := regs.pfc + 1 }

/-- A product with a coefficient. -/
def multiplyStep (machine : Machine) (moves : Bool) : OperandStep where
  before := machine.loadPfc.mapRegs fun regs => regs.addAcc regs.shiftedProduct
  use := .read true
  rest value machine := machine.multiplyOperand moves value

/-- A store of the program word at the prefetch counter. -/
def programStep (machine : Machine) : OperandStep where
  before := (machine.readProgram machine.core.regs.pfc).2
  use := .write (machine.readProgram machine.core.regs.pfc).1
  rest _ after := after.setPfc (machine.core.regs.pfc + 1)

/-- A move of a word. -/
def moveStep (machine : Machine) : MoveOp → OperandStep
  | .dmov => ⟨machine, .read true, fun value machine => machine.writeNext value⟩
  | .ltd =>
    ⟨machine, .read true, fun value machine =>
      ((machine.mapRegs fun regs => { regs with t := value }).writeNext value).mapRegs fun regs =>
        regs.addAcc regs.shiftedProduct⟩
  | .mac => machine.multiplyStep false
  | .macd => machine.multiplyStep true
  | .blkd =>
    let source := machine.loadPfc.core.regs.pfc
    let read := machine.loadPfc.readData source
    ⟨read.2, .write read.1, fun _ machine => machine.setPfc (source + 1)⟩
  | .blkp => machine.loadPfc.programStep
  | .tblr => machine.pfcFromAcc.programStep
  | .tblw =>
    ⟨machine.pfcFromAcc, .read true, fun value machine =>
      let target := machine.core.regs.pfc
      (machine.writeProgram target value).setPfc (target + 1)⟩
  | .input =>
    let read := machine.bus.read16 .io machine.portAddress
    ⟨{ machine with bus := read.2 }, .write read.1, fun _ machine => machine⟩
  | .output =>
    ⟨machine, .read true, fun value machine =>
      { machine with bus := machine.bus.write16 .io machine.portAddress value }⟩

/-- The operations with a data operand, each cut at it, and the one that modifies as if it had
one. -/
inductive CutAt (machine : Machine) : Op → OperandStep → Prop
  | operand (op : OperandOp) : CutAt machine (.operand op)
      ⟨machine.mapRegs op.prepare, .read op.movesPointer,
        fun value accessed => accessed.mapRegs (op.finish machine.core.opcode value)⟩
  | store (op : StoreOp) (hop : op.ofStatus = false) : CutAt machine (.store op)
      ⟨machine.mapRegs op.prepare, .write (op.value machine.core.opcode machine.core.regs),
        fun _ accessed => accessed⟩
  | storeStatus (op : StoreOp) (hop : op.ofStatus = true) : CutAt machine (.store op)
      ⟨machine.mapRegs op.prepare, .writeStatus (op.value machine.core.opcode machine.core.regs),
        fun _ accessed => accessed⟩
  | move (op : MoveOp) : CutAt machine (.move op) (machine.moveStep op)
  | rpt : CutAt machine .rpt
      ⟨machine, .read true, fun value accessed => accessed.mapCore (·.armRepeat (lowByte value))⟩
  | mar : CutAt machine (.register .mar) ⟨machine, .modify, fun _ accessed => accessed⟩

end Machine

namespace OperandStep

/-- The word that is read or written. -/
def value (step : OperandStep) : Half := (step.before.access step.use).1

/-- The machine right after the access. -/
def accessed (step : OperandStep) : Machine := (step.before.access step.use).2

/-- The machine once the operation is over. -/
def after (step : OperandStep) : Machine := step.rest step.value step.accessed

end OperandStep

/-- True for the operations with a data operand, and for the one that modifies as if it had one. -/
def Op.hasOperand : Op → Bool
  | .operand _ | .store _ | .move _ | .rpt | .register .mar => true
  | _ => false

/-- True for the loads and stores of the status, whose addressing leaves the pointer alone. -/
def Op.keepsPointer : Op → Bool
  | .operand .lst | .operand .lst1 | .store .sst | .store .sst1 => true
  | _ => false

/-! ## The access -/

/-- The page and the offset in it, put side by side, are the word of that number. -/
theorem page_address {page offset : Half} (hpage : page.toNat < 512) (hoffset : offset.toNat < 128) :
    (page <<< 7) ||| offset = page * 128 + offset := by
  have hshifted : page.toNat <<< 7 = page.toNat * 128 := Nat.shiftLeft_eq _ _
  have hword : page.toNat * 128 + offset.toNat < 2 ^ 16 := by omega
  apply BitVec.eq_of_toNat_eq
  rw [BitVec.toNat_or, BitVec.toNat_shiftLeft, hshifted, Nat.mod_eq_of_lt (by omega), ← hshifted,
    ← Nat.shiftLeft_add_eq_or_of_lt (by omega), hshifted, BitVec.toNat_add, BitVec.toNat_mul]
  change _ = (page.toNat * 128 % 2 ^ 16 + offset.toNat) % 2 ^ 16
  omega

/-- The address of an operand is the number of its word in data memory. -/
theorem Registers.operandAddress_eq (regs : Registers) (word : Half) :
    regs.operandAddress word =
      if isIndirect word then regs.getAr regs.status.arp
      else regs.status.dp * 128 + (word &&& 0x7F) := by
  have hpage : regs.status.dp.toNat < 512 :=
    Nat.lt_of_le_of_lt Nat.and_le_right (by decide : St0.dp.toNat < 512)
  have hoffset : (word &&& 0x7F).toNat < 128 :=
    Nat.lt_of_le_of_lt Nat.and_le_right (by decide : (0x7F : Half).toNat < 128)
  rw [operandAddress, page_address hpage hoffset]
  rfl

namespace Machine

/-- A read changes no word of memory. -/
theorem readData_keeps (machine : Machine) (address : Half) :
    (machine.readData address).2.bus.memory = machine.bus.memory := by
  unfold readData
  split <;> rfl

/-- A read of program memory writes nothing. -/
theorem readProgram_keeps (machine : Machine) (address : Half) :
    (machine.readProgram address).2.bus.memory = machine.bus.memory := by
  unfold readProgram
  split <;> rfl

/-- The words depend on the on-chip memory and the bytes behind the bus alone. -/
theorem word_of_memory {machine other : Machine} (hram : other.core.ram = machine.core.ram)
    (hmemory : other.bus.memory = machine.bus.memory) (home : Home) :
    other.word home = machine.word home := by
  cases home with
  | register register => exact congrArg (·.getRegister register) hram
  | cell cell => exact congrArg (·.get cell) hram
  | offChip space address =>
    change other.bus.peek16 space (byteAddress address) = machine.bus.peek16 space (byteAddress address)
    simp only [Bus.peek16, Bus.peek8, hmemory]

/-- So do the reads. -/
theorem readData_of_memory {machine other : Machine} (hram : other.core.ram = machine.core.ram)
    (hmemory : other.bus.memory = machine.bus.memory) (address : Half) :
    (other.readData address).1 = (machine.readData address).1 := by
  rw [readData_eq_word, readData_eq_word, hram, word_of_memory hram hmemory]

/-- What is read from program memory depends on the memories alone. -/
theorem readProgram_of_memory {machine other : Machine} (hram : other.core.ram = machine.core.ram)
    (hmemory : other.bus.memory = machine.bus.memory) (address : Half) :
    (other.readProgram address).1 = (machine.readProgram address).1 := by
  rw [readProgram_eq_word, readProgram_eq_word, hram, word_of_memory hram hmemory]

/-- A fetch of an operand, all at once. -/
theorem fetchOperand_eq (machine : Machine) (movesPointer : Bool) :
    let address := machine.core.regs.operandAddress machine.core.opcode
    machine.fetchOperand movesPointer =
      ((machine.readData address).1,
        { core := { machine.core with
            regs := machine.core.regs.afterOperand machine.core.opcode movesPointer
            memAddress := address
            externalAccess := externalFrom ≤ address }
          bus := (machine.readData address).2.bus }) := by
  dsimp only
  unfold fetchOperand readData
  cases hdata : machine.core.ram.data (machine.core.regs.operandAddress machine.core.opcode) with
  | some value => simp only [noteOperand, mapRegs, mapCore, Core.mapRegs, hdata]
  | none => simp only [noteOperand, mapRegs, mapCore, Core.mapRegs, hdata]

/-- What a write does to memory depends on the memory alone. -/
theorem writeData_memory {machine other : Machine} (hram : other.core.ram = machine.core.ram)
    (hbus : other.bus = machine.bus) (address value : Half) :
    (other.writeData address value).bus = (machine.writeData address value).bus ∧
      (other.writeData address value).core.ram = (machine.writeData address value).core.ram := by
  rw [writeData_eq_putWord, writeData_eq_putWord, hram]
  cases machine.core.ram.dataHome address with
  | register register =>
    refine ⟨hbus, ?_⟩
    simp only [putWord, mapCore, Core.writeRegister_ram, hram]
  | cell cell =>
    refine ⟨hbus, ?_⟩
    simp only [putWord, mapCore, Core.mapRam, hram]
  | offChip space address =>
    refine ⟨?_, hram⟩
    simp only [putWord, hbus]

/-- What an access comes to in memory: the word is at the address of the operand, which is noted. -/
structure AccessedTo (before : Machine) (use : OperandUse) (address : Half)
    (accessed : Half × Machine) : Prop where
  value : accessed.1 = (use.touch before address).1
  bus : accessed.2.bus = (use.touch before address).2.bus
  ram : accessed.2.core.ram = (use.touch before address).2.core.ram
  memAddress : use ≠ .modify → accessed.2.core.memAddress = address
  externalAccess : use ≠ .modify →
    accessed.2.core.externalAccess = decide (externalFrom ≤ address)

/-- Fetching an operand reads at its address. -/
theorem accessedTo_fetchOperand (machine : Machine) (movesPointer : Bool) :
    machine.AccessedTo (.read movesPointer)
      (machine.core.regs.operandAddress machine.core.opcode)
      (machine.fetchOperand movesPointer) := by
  have hcore := machine.readData_core (machine.core.regs.operandAddress machine.core.opcode)
  rw [fetchOperand_eq]
  exact ⟨rfl, rfl, (congrArg (·.ram) hcore).symm, fun _ => rfl, fun _ => rfl⟩

/-- Storing an operand writes at its address. -/
theorem accessedTo_storeOperand (machine : Machine) (value : Half) :
    machine.AccessedTo (.write value) (machine.core.regs.operandAddress machine.core.opcode)
      (value, machine.storeOperand value) := by
  rw [storeOperand]
  generalize machine.core.regs.operandAddress machine.core.opcode = address
  have hram : (machine.noteOperand address).core.ram = machine.core.ram := rfl
  have hsteers := (machine.noteOperand address).steersAs_writeData address value
  obtain ⟨hbus, hram⟩ := writeData_memory hram rfl address value
  exact ⟨rfl, hbus, hram, fun _ => hsteers.memAddress, fun _ => hsteers.externalAccess⟩

/-- Storing a status word writes at its page zero address. -/
theorem accessedTo_storeStatus (machine : Machine) (value : Half) :
    machine.AccessedTo (.writeStatus value)
      (machine.core.regs.pageZeroAddress machine.core.opcode)
      (value, machine.storeStatus value) := by
  rw [storeStatus]
  generalize machine.core.regs.pageZeroAddress machine.core.opcode = address
  have hram : ((machine.noteOperand address).mapRegs
    (·.afterOperand machine.core.opcode false)).core.ram = machine.core.ram := rfl
  have hsteers := ((machine.noteOperand address).mapRegs
    (·.afterOperand machine.core.opcode false)).steersAs_writeData address value
  obtain ⟨hbus, hram⟩ := writeData_memory hram rfl address value
  exact ⟨rfl, hbus, hram, fun _ => hsteers.memAddress, fun _ => hsteers.externalAccess⟩

/-- Every use of an operand accesses it so. -/
theorem accessedTo_access (machine : Machine) (use : OperandUse) :
    machine.AccessedTo use (use.address machine.core.regs machine.core.opcode)
      (machine.access use) := by
  have haddress := machine.core.regs.operandAddress_eq machine.core.opcode
  cases use with
  | read movesPointer =>
    have haccessed := machine.accessedTo_fetchOperand movesPointer
    rw [haddress] at haccessed
    exact haccessed
  | write value =>
    have haccessed := machine.accessedTo_storeOperand value
    rw [haddress] at haccessed
    exact haccessed
  | writeStatus value => exact machine.accessedTo_storeStatus value
  | modify => exact ⟨rfl, rfl, rfl, fun h => absurd rfl h, fun h => absurd rfl h⟩

/-- Of the registers a write reaches the requests only. -/
theorem writeData_regs (machine : Machine) (address value : Half) :
    ∃ requests, (machine.writeData address value).core.regs =
      { machine.core.regs with ifr := requests } := by
  rw [writeData_eq_putWord]
  cases machine.core.ram.dataHome address with
  | register register =>
    cases register with
    | dxr =>
      simp only [putWord, mapCore, Core.writeRegister]
      split
      · split
        · exact ⟨_, rfl⟩
        · exact ⟨_, rfl⟩
      · exact ⟨_, rfl⟩
    | drr | tim | prd | imr | greg => exact ⟨_, rfl⟩
  | cell cell => exact ⟨_, rfl⟩
  | offChip space address => exact ⟨_, rfl⟩

/-- Every use of an operand modifies the auxiliary register in use. -/
theorem modifiedTo_access {machine : Machine} {model : Model}
    (h : machine.core.regs.status.InPlace model) (use : OperandUse) :
    machine.core.regs.ModifiedTo machine.core.opcode use.movesPointer
      (machine.access use).2.core.regs := by
  have hmodified (movesPointer : Bool) := Registers.modifiedTo_afterOperand h machine.core.opcode
    movesPointer
  cases use with
  | read movesPointer =>
    rw [access, fetchOperand_eq]
    exact hmodified movesPointer
  | write value =>
    obtain ⟨requests, hregs⟩ := (machine.noteOperand
      (machine.core.regs.operandAddress machine.core.opcode)).writeData_regs
        (machine.core.regs.operandAddress machine.core.opcode) value
    have hwritten : ({ machine.core.regs with ifr := requests } : Registers).status.InPlace model :=
      h
    have hafter := Registers.modifiedTo_afterOperand hwritten machine.core.opcode true
    dsimp only [access, storeOperand, mapRegs, mapCore, Core.mapRegs]
    rw [hregs]
    exact ⟨hafter.ar, hafter.arp, hafter.arb, hafter.st0, hafter.st1, hafter.part⟩
  | writeStatus value =>
    obtain ⟨requests, hregs⟩ := ((machine.noteOperand
      (machine.core.regs.pageZeroAddress machine.core.opcode)).mapRegs
        (·.afterOperand machine.core.opcode false)).writeData_regs
          (machine.core.regs.pageZeroAddress machine.core.opcode) value
    have hafter := hmodified false
    dsimp only [access, storeStatus]
    rw [hregs]
    exact ⟨hafter.ar, hafter.arp, hafter.arb, hafter.st0, hafter.st1, hafter.part⟩
  | modify => exact hmodified true

variable {machine : Machine} {op : Op} {step : OperandStep} {model : Model}

/-! ## Before and after the access -/

/-- Every operation of the class can be cut. -/
theorem cutAt_of_hasOperand (machine : Machine) (hop : op.hasOperand = true) :
    ∃ step, machine.CutAt op step := by
  cases op with
  | operand op => exact ⟨_, .operand op⟩
  | store op =>
    cases hstatus : op.ofStatus with
    | true => exact ⟨_, .storeStatus op hstatus⟩
    | false => exact ⟨_, .store op hstatus⟩
  | move op => exact ⟨_, .move op⟩
  | rpt => exact ⟨_, .rpt⟩
  | register op => cases op <;> first | contradiction | exact ⟨_, .mar⟩
  | long _ | flag _ | branch _ | call | rptk | idle | rxf | sxf | cnfd | cnfp | conf | illegal =>
    contradiction

namespace CutAt

/-- An operation is what it is cut in. -/
theorem execute_eq (h : machine.CutAt op step) : (machine.execute op).1 = step.after := by
  cases h with
  | operand op => rfl
  | store op hop => exact if_neg (Bool.eq_false_iff.mp hop)
  | storeStatus op hop => exact if_pos hop
  | move op => cases op <;> rfl
  | rpt => rfl
  | mar => rfl

/-- The use of an operand moves the pointer unless the operation is on the status. -/
theorem movesPointer (h : machine.CutAt op step) : step.use.movesPointer = !op.keepsPointer := by
  cases h with
  | operand op => cases op <;> rfl
  | store op hop => cases op <;> first | contradiction | rfl
  | storeStatus op hop => cases op <;> first | contradiction | rfl
  | move op => cases op <;> rfl
  | rpt => rfl
  | mar => rfl

/-- What precedes the access steers nothing. -/
theorem before (h : machine.CutAt op step) : machine.SteersAs step.before := by
  have harithmetic := Registers.keptByArithmetic_steersAs
  have hproducts (machine : Machine) :
      machine.SteersAs (machine.mapRegs fun regs => regs.addAcc regs.shiftedProduct) :=
    machine.steersAs_mapRegs (harithmetic.addAcc _ _)
  cases h with
  | operand op => exact machine.steersAs_mapRegs (harithmetic.prepare op _)
  | store op | storeStatus op => exact machine.steersAs_mapRegs (harithmetic.prepareStore op _)
  | move op =>
    cases op with
    | dmov | ltd | input | output => exact steersAs_of_core rfl
    | mac | macd => exact machine.steersAs_loadPfc.trans (hproducts _)
    | blkd => exact machine.steersAs_loadPfc.trans (steersAs_readData _ _)
    | blkp => exact machine.steersAs_loadPfc.trans (steersAs_readProgram _ _)
    | tblr => exact machine.steersAs_pfcFromAcc.trans (steersAs_readProgram _ _)
    | tblw => exact machine.steersAs_pfcFromAcc
  | rpt | mar => exact steersAs_of_core rfl

end CutAt

/-- What is left of a product once its operand is read steers nothing. -/
theorem steersAs_multiplyOperand (machine : Machine) (moves : Bool) (value : Half) :
    machine.SteersAs (machine.multiplyOperand moves value) := by
  have ht (machine : Machine) :
      machine.SteersAs (machine.mapRegs fun regs => { regs with t := value }) :=
    machine.steersAs_mapRegs ⟨rfl, .refl _⟩
  refine .trans ?_ (steersAs_mapRegs _ ⟨rfl, .refl _⟩)
  refine .trans ?_ (steersAs_readProgram _ _)
  exact .trans (.ite (machine.steersAs_writeData _ _) (steersAs_of_core rfl)) (ht _)

namespace CutAt

/-- What follows it steers nothing, unless it loads an auxiliary register, the page or the status. -/
theorem rest (h : machine.CutAt op step)
    (hop : ∀ operation, op = .operand operation → operation.steers = false) (value : Half)
    (accessed : Machine) : accessed.SteersAs (step.rest value accessed) := by
  have harithmetic := Registers.keptByArithmetic_steersAs
  cases h with
  | operand op => exact accessed.steersAs_mapRegs (harithmetic.finish (hop op rfl) _ value _)
  | store | storeStatus | mar => exact steersAs_of_core rfl
  | move op =>
    cases op with
    | dmov => exact accessed.steersAs_writeData _ value
    | ltd =>
      refine .trans ?_ (steersAs_mapRegs _ (harithmetic.addAcc _ _))
      exact (accessed.steersAs_mapRegs (harithmetic.t _ value)).trans (steersAs_writeData _ _ _)
    | mac => exact accessed.steersAs_multiplyOperand false value
    | macd => exact accessed.steersAs_multiplyOperand true value
    | blkd | blkp | tblr => exact accessed.steersAs_setPfc _
    | tblw => exact (accessed.steersAs_writeProgram _ value).trans (steersAs_setPfc _ _)
    | input | output => exact steersAs_of_core rfl
  | rpt => exact ⟨⟨rfl, .refl _⟩, rfl, rfl, rfl, rfl⟩

end CutAt

/-- What follows never notes another operand. -/
theorem CutAt.rest_notes (h : machine.CutAt op step) (value : Half) (accessed : Machine) :
    (step.rest value accessed).core.memAddress = accessed.core.memAddress ∧
      (step.rest value accessed).core.externalAccess = accessed.core.externalAccess := by
  by_cases hop : ∀ operation, op = .operand operation → operation.steers = false
  · have hrest := h.rest hop value accessed
    exact ⟨hrest.memAddress, hrest.externalAccess⟩
  · obtain ⟨operation, hloads⟩ := Classical.not_forall.mp hop
    obtain ⟨rfl, -⟩ := Classical.not_imp.mp hloads
    cases h
    exact ⟨rfl, rfl⟩

/-- What the rest of an operation may load: an auxiliary register, or the pointers. -/
structure LoadedTo (accessed : Machine) (op : Op) (word value : Half) (after : Machine) : Prop where
  ar : ∀ pointer, after.core.regs.getAr pointer =
    if op = .operand .lar ∧ pointer = pointerField word then value
    else accessed.core.regs.getAr pointer
  arp : after.core.regs.status.arp =
    if op = .operand .lst ∨ op = .operand .lst1 then value.extractLsb' 13 3
    else accessed.core.regs.status.arp
  arb : after.core.regs.status.arb =
    if op = .operand .lst1 then value.extractLsb' 13 3 else accessed.core.regs.status.arb

/-- An operation that does not steer is loaded without a change of pointers. -/
theorem SteersAs.loadedTo {accessed after : Machine} (h : accessed.SteersAs after)
    (hfree : accessed.core.regs.status.FreesPointer) {op : Op} (word value : Half)
    (hop : ∀ operation, op = .operand operation → operation.steers = false) :
    accessed.LoadedTo op word value after := by
  have hne (operation : OperandOp) (hsteers : operation.steers = true) : op ≠ .operand operation := by
    intro heq
    rw [hop operation heq] at hsteers
    contradiction
  have hlst := hne .lst rfl
  have hlst1 := hne .lst1 rfl
  refine ⟨fun pointer => ?_, ?_, ?_⟩
  · rw [if_neg fun heq => hne .lar rfl heq.1, h.regs.getAr]
  · rw [if_neg fun heq => heq.elim hlst hlst1, h.regs.status.arp]
  · rw [if_neg hlst1, h.regs.status.arb hfree]

/-- The rest of every operation loads no more. -/
theorem CutAt.loadedTo (h : machine.CutAt op step) (value : Half) {accessed : Machine}
    (hfree : accessed.core.regs.status.FreesPointer) :
    accessed.LoadedTo op machine.core.opcode value (step.rest value accessed) := by
  by_cases hop : ∀ operation, op = .operand operation → operation.steers = false
  · exact (h.rest hop value accessed).loadedTo hfree _ value hop
  · obtain ⟨operation, hloads⟩ := Classical.not_forall.mp hop
    obtain ⟨rfl, hsteers⟩ := Classical.not_imp.mp hloads
    cases h
    cases operation with
    | lar =>
      refine ⟨fun pointer => ?_, rfl, rfl⟩
      simp only [true_and]
      exact accessed.core.regs.getAr_setAr _ pointer value
    | ldp => exact ⟨fun _ => rfl, Status.setDp_arp _ value, rfl⟩
    | lst => exact ⟨fun _ => rfl, Status.loadSt0_arp _ value, rfl⟩
    | lst1 =>
      obtain ⟨harp, harb⟩ := Status.loadSt1_pointers hfree value
      exact ⟨fun _ => rfl, harp, harb⟩
    | _ => exact absurd rfl hsteers

/-! ## Addressing -/

/-- All that executing an operation has to do with its data operand. -/
structure Addresses (machine : Machine) (op : Op) (step : OperandStep) : Prop where
  executed : (machine.execute op).1 = step.after
  /-- Up to the access the word and what addresses by it are as they were. -/
  prepared : step.before.core.opcode = machine.core.opcode ∧
    step.before.core.regs.ar = machine.core.regs.ar ∧
    step.before.core.regs.status.arp = machine.core.regs.status.arp ∧
    step.before.core.regs.status.arb = machine.core.regs.status.arb ∧
    step.before.core.regs.status.dp = machine.core.regs.status.dp
  /-- The access is to the address of the operand. -/
  value : step.value = (step.use.touch step.before
    (step.use.address machine.core.regs machine.core.opcode)).1
  bus : step.accessed.bus = (step.use.touch step.before
    (step.use.address machine.core.regs machine.core.opcode)).2.bus
  ram : step.accessed.core.ram = (step.use.touch step.before
    (step.use.address machine.core.regs machine.core.opcode)).2.core.ram
  memAddress : step.use ≠ .modify → step.after.core.memAddress =
    step.use.address machine.core.regs machine.core.opcode
  /-- The auxiliary register in use is modified once, from what it and AR0 were. -/
  ar : ∀ pointer, step.after.core.regs.getAr pointer =
    if op = .operand .lar ∧ pointer = pointerField machine.core.opcode then step.value
    else if isIndirect machine.core.opcode = true ∧ pointer = machine.core.regs.status.arp then
      modifiedAr machine.core.opcode (machine.core.regs.getAr machine.core.regs.status.arp)
        (machine.core.regs.getAr 0)
    else machine.core.regs.getAr pointer
  arp : step.after.core.regs.status.arp =
    if op = .operand .lst ∨ op = .operand .lst1 then step.value.extractLsb' 13 3
    else if isIndirect machine.core.opcode = true ∧ machine.core.opcode.getLsbD 3 = true ∧
        op.keepsPointer = false then
      machine.core.opcode.extractLsb' 0 3
    else machine.core.regs.status.arp
  arb : step.after.core.regs.status.arb =
    if op = .operand .lst1 then step.value.extractLsb' 13 3
    else if isIndirect machine.core.opcode = true ∧ machine.core.opcode.getLsbD 3 = true ∧
        op.keepsPointer = false then
      machine.core.regs.status.arp
    else machine.core.regs.status.arb
  /-- The addressing changes no other bit of the status. -/
  st0 : step.accessed.core.regs.status.st0 &&& ~~~St0.arp =
    step.before.core.regs.status.st0 &&& ~~~St0.arp
  st1 : step.accessed.core.regs.status.st1 &&& ~~~St1.arb =
    step.before.core.regs.status.st1 &&& ~~~St1.arb

/-- Every operation with a data operand comes to it in the same way: through the auxiliary register in
use, which is then modified as the word prescribes, or through the page, which modifies nothing. -/
theorem operand_addressing (h : machine.core.regs.status.InPlace model)
    (hop : op.hasOperand = true) :
    ∃ step, machine.CutAt op step ∧ machine.Addresses op step := by
  obtain ⟨step, hcut⟩ := machine.cutAt_of_hasOperand hop
  have hbefore := hcut.before
  have haccessed := step.before.accessedTo_access step.use
  have hmodified := modifiedTo_access (hbefore.regs.status.inPlace model h) step.use
  -- The rest of the operation leaves ARB readable only if no fixed bit lies in its field.
  have hfree : step.accessed.core.regs.status.FreesPointer := by
    have hpart := hmodified.part.trans hbefore.regs.status.part
    exact (congrArg (· &&& St1.arb) hpart).trans h.freesPointer
  have hloaded := hcut.loadedTo step.value hfree
  have haddress : step.use.address step.before.core.regs step.before.core.opcode =
      step.use.address machine.core.regs machine.core.opcode := by
    simp only [OperandUse.address, hbefore.opcode, hbefore.regs.getAr, hbefore.regs.status.arp,
      hbefore.regs.status.dp]
  have hswitches : Registers.switches machine.core.opcode step.use.movesPointer = true ↔
      isIndirect machine.core.opcode = true ∧ machine.core.opcode.getLsbD 3 = true ∧
        op.keepsPointer = false := by
    rw [hcut.movesPointer, Registers.switches, Bool.and_eq_true, Bool.and_eq_true,
      Bool.not_eq_true', and_comm (a := op.keepsPointer = false)]
  rw [haddress] at haccessed
  refine ⟨step, hcut, ?_⟩
  exact {
    executed := hcut.execute_eq
    prepared := ⟨hbefore.opcode, hbefore.regs.ar, hbefore.regs.status.arp,
      hbefore.regs.status.arb h.freesPointer, hbefore.regs.status.dp⟩
    value := haccessed.value
    bus := haccessed.bus
    ram := haccessed.ram
    memAddress := fun huse => (hcut.rest_notes _ _).1.trans (haccessed.memAddress huse)
    ar := fun pointer => by
      have har := hmodified.ar pointer
      simp only [hbefore.opcode, hbefore.regs.getAr, hbefore.regs.status.arp] at har
      rw [← har]
      exact hloaded.ar pointer
    arp := by
      have harp := hmodified.arp
      simp only [hbefore.opcode, hbefore.regs.status.arp, hswitches] at harp
      rw [← harp]
      exact hloaded.arp
    arb := by
      have harb := hmodified.arb
      simp only [hbefore.opcode, hbefore.regs.status.arp, hbefore.regs.status.arb h.freesPointer,
        hswitches] at harb
      rw [← harb]
      exact hloaded.arb
    st0 := hmodified.st0
    st1 := hmodified.st1 }

/-- A load of AR3 through AR1, which adds AR0 to it and goes on to AR2. -/
theorem operand_addressing_lar :
    let regs := ((Registers.new Model.tms32025.st1Fixed).setAr 0 2).setAr 1 0x60
    let machine : Machine :=
      ⟨{ Core.new .tms32025 with
          regs := { regs with status := regs.status.setArp 1 }
          opcode := 0x33EA }, .empty⟩
    ∃ step, machine.CutAt (.operand .lar) step ∧ machine.Addresses (.operand .lar) step ∧
      step.after.core.memAddress = 0x60 ∧ step.after.core.regs.getAr 1 = 0x62 ∧
      step.after.core.regs.getAr 3 = step.value ∧ step.after.core.regs.status.arp = 2 ∧
      step.after.core.regs.status.arb = 1 := by
  intro regs machine
  have hbits : machine.core.regs.status.InPlace .tms32025 :=
    (Status.inPlace_new .tms32025).apply (.arp 1)
  have hop : (Op.operand .lar).hasOperand = true := rfl
  obtain ⟨step, hcut, h⟩ := operand_addressing hbits hop
  refine ⟨step, hcut, h, ?_⟩
  cases hcut
  exact ⟨(h.memAddress nofun).trans (by decide +kernel), (h.ar 1).trans (by decide +kernel),
    (h.ar 3).trans (if_pos (by decide +kernel)), h.arp.trans (by decide +kernel),
    h.arb.trans (by decide +kernel)⟩

end Machine

end ProcessorCores.Tms

import ProcessorCores.Tms.Model

/-!
# On-chip memory of the TMS3202x

Six mapped registers stand at the bottom of data space and block B2 at 0x60. The configurable blocks
of the model answer in their data window or, once moved, in their program window. Every other
address is off chip.

The block storage has no fixed shape, because it can come from outside. `fits` says when it has the
shape that a model lays out; a core never holds one that does not.
-/

namespace ProcessorCores.Tms

/-- The registers mapped into data space. -/
inductive MappedRegister
  /-- Serial receive data. -/
  | drr
  /-- Serial transmit data. -/
  | dxr
  /-- Timer counter. -/
  | tim
  /-- Timer period. -/
  | prd
  /-- Interrupt mask. -/
  | imr
  /-- Global memory allocation. -/
  | greg
  deriving DecidableEq, Repr

namespace MappedRegister

/-- The address of a mapped register. -/
def address : MappedRegister → Half
  | .drr => 0
  | .dxr => 1
  | .tim => 2
  | .prd => 3
  | .imr => 4
  | .greg => 5

/-- The mapped register at an address. -/
def ofAddress? (address : Half) : Option MappedRegister :=
  match address with
  | 0 => some .drr
  | 1 => some .dxr
  | 2 => some .tim
  | 3 => some .prd
  | 4 => some .imr
  | 5 => some .greg
  | _ => none

end MappedRegister

/-- Where an on-chip word is stored. -/
inductive Cell
  /-- A word of block B2. -/
  | b2 (offset : Fin 32)
  /-- A word of a configurable block. -/
  | block (index offset : Nat)
  deriving DecidableEq, Repr

/-- The on-chip blocks and the mapped registers. -/
structure OnChipRam where
  model : Model
  b2 : Vector Half 32
  /-- The words of each configurable block, in the order of the model. -/
  blocks : Array (Array Half)
  /-- Which blocks answer in program space. -/
  inProgram : Array Bool
  drr : Half
  dxr : Half
  tim : Half
  prd : Half
  imr : Half
  greg : Half
  deriving DecidableEq, Repr

namespace OnChipRam

/-- Cleared memory with every block in data space. -/
def new (model : Model) : OnChipRam where
  model := model
  b2 := Vector.replicate 32 0
  blocks := (model.blocks.map fun block => Array.replicate block.size.toNat 0).toArray
  inProgram := Array.replicate model.blocks.length false
  drr := 0
  dxr := 0
  tim := 0xFFFF
  prd := 0xFFFF
  imr := 0xFFC0
  greg := 0

/-- True when the block storage has the shape that a model lays out. -/
def fits (ram : OnChipRam) (model : Model) : Bool :=
  ram.model == model &&
    ram.inProgram.size == model.blocks.length &&
    ram.blocks.toList.map Array.size == model.blocks.map fun block => block.size.toNat

/-- True when a block answers in program space; there is none past the last. -/
def isProgram (ram : OnChipRam) (index : Nat) : Bool := ram.inProgram.getD index false

/-- Let a block answer in program space, or in data space. -/
def mapBlock (ram : OnChipRam) (index : Nat) (program : Bool) : OnChipRam :=
  { ram with inProgram := ram.inProgram.setIfInBounds index program }

/-- The block that `mapBlock` would move to the other space. -/
def movedBlock? (ram : OnChipRam) (index : Nat) (program : Bool) : Option Block :=
  match ram.inProgram[index]? with
  | some current => if current != program then ram.model.blocks[index]? else none
  | none => none

/-! ## Mapped registers -/

/-- Read a mapped register. -/
def getRegister (ram : OnChipRam) : MappedRegister → Half
  | .drr => ram.drr
  | .dxr => ram.dxr
  | .tim => ram.tim
  | .prd => ram.prd
  | .imr => ram.imr
  | .greg => ram.greg

/-- Store into a mapped register. -/
def setRegister (ram : OnChipRam) (register : MappedRegister) (value : Half) : OnChipRam :=
  match register with
  | .drr => { ram with drr := value }
  | .dxr => { ram with dxr := value }
  | .tim => { ram with tim := value }
  | .prd => { ram with prd := value }
  | .imr => { ram with imr := value }
  | .greg => { ram with greg := value }

/-! ## Cells -/

/-- The word in a cell. -/
def get (ram : OnChipRam) : Cell → Half
  | .b2 offset => ram.b2.get offset
  | .block index offset => (ram.blocks.getD index #[]).getD offset 0

/-- Store into a cell. -/
def set (ram : OnChipRam) (cell : Cell) (value : Half) : OnChipRam :=
  match cell with
  | .b2 offset => { ram with b2 := ram.b2.set offset.val value offset.isLt }
  | .block index offset =>
    { ram with blocks := ram.blocks.modify index fun words => words.setIfInBounds offset value }

/-- The first configurable block for which `answers` holds, with its number. -/
def findBlock? (ram : OnChipRam) (answers : Nat → Block → Bool) : Option (Nat × Block) :=
  (ram.model.blocks.zipIdx.find? fun entry => answers entry.2 entry.1).map fun entry =>
    (entry.2, entry.1)

/-- The cell of block B2 at a data address. -/
def b2Cell? (address : Half) : Option Cell :=
  if h : 0x60 ≤ address.toNat ∧ address.toNat < 0x80 then
    some (.b2 ⟨address.toNat - 0x60, by omega⟩)
  else none

/-- The cell that answers at a data address. -/
def dataCell? (ram : OnChipRam) (address : Half) : Option Cell :=
  match b2Cell? address with
  | some cell => some cell
  | none =>
    (ram.findBlock? fun index block => !ram.isProgram index && block.inDataWindow address).map
      fun (index, block) => .block index (address - block.dataBase).toNat

/-- The cell that answers at a program address. -/
def programCell? (ram : OnChipRam) (address : Half) : Option Cell :=
  (ram.findBlock? fun index block => ram.isProgram index && block.inProgramWindow address).map
    fun (index, block) => .block index (address - block.programBase).toNat

/-! ## Words by address -/

/-- The on-chip data word at an address, if it is on chip. -/
def data (ram : OnChipRam) (address : Half) : Option Half :=
  match MappedRegister.ofAddress? address with
  | some register => some (ram.getRegister register)
  | none => (ram.dataCell? address).map ram.get

/-- The on-chip program word at an address, if it is on chip. -/
def program (ram : OnChipRam) (address : Half) : Option Half :=
  (ram.programCell? address).map ram.get

/-- True when a program address is on chip. -/
def isOnChipProgram (ram : OnChipRam) (address : Half) : Bool := (ram.programCell? address).isSome

/-- Store a data word that is on chip and no mapped register. -/
def pokeData (ram : OnChipRam) (address : Half) (value : Half) : Option OnChipRam :=
  (ram.dataCell? address).map fun cell => ram.set cell value

/-- Values after a reset. Every block returns to data space; words are kept, and so are the serial
registers. -/
def reset (ram : OnChipRam) : OnChipRam :=
  { ram with
    inProgram := ram.inProgram.map fun _ => false
    tim := 0xFFFF
    prd := 0xFFFF
    imr := 0xFFC0
    greg := 0 }

/-- A mapped register is found at its address. -/
@[simp] theorem ofAddress?_address (register : MappedRegister) :
    MappedRegister.ofAddress? register.address = some register := by
  cases register <;> rfl

/-- Reading a mapped register after a write. -/
theorem getRegister_setRegister (ram : OnChipRam) (register other : MappedRegister) (value : Half) :
    (ram.setRegister register value).getRegister other =
      if other = register then value else ram.getRegister other := by
  cases register <;> cases other <;> rfl

end OnChipRam

end ProcessorCores.Tms

import Std.Data.TreeMap
import ProcessorCores.Word

/-!
# The bus

Three address spaces of bytes, a byte address being a word that wraps. Multi-byte values are
big-endian, and a 32-bit access is two 16-bit accesses, the high half first. Bytes that were never
stored read as zero.

An access by a core is recorded in the trace; a host that loads or peeks leaves no record. The
access counts are read off the trace.
-/

namespace ProcessorCores

/-- The address spaces a core can reach. -/
inductive Space
  /-- Instruction fetches and program-memory operands. -/
  | program
  /-- Data memory. -/
  | data
  /-- Input and output ports. -/
  | io
  deriving DecidableEq, Repr

/-- One value for each address space. -/
structure PerSpace (α : Type) where
  program : α
  data : α
  io : α

namespace PerSpace

variable {α : Type}

/-- The value kept for a space. -/
def get (values : PerSpace α) : Space → α
  | .program => values.program
  | .data => values.data
  | .io => values.io

/-- Replace the value kept for one space. -/
def set (values : PerSpace α) (space : Space) (value : α) : PerSpace α :=
  match space with
  | .program => { values with program := value }
  | .data => { values with data := value }
  | .io => { values with io := value }

/-- Reading one value per space after a set. -/
theorem get_set (values : PerSpace α) (space other : Space) (value : α) :
    (values.set space value).get other = if other = space then value else values.get other := by
  cases space <;> cases other <;> rfl

end PerSpace

/-- The stored bytes of one space, by address. -/
structure Memory where
  cells : Std.TreeMap Nat Byte

namespace Memory

/-- A memory in which nothing has been stored. -/
def empty : Memory := ⟨∅⟩

/-- The byte at an address, zero where none was stored. -/
def read (memory : Memory) (address : Word) : Byte :=
  memory.cells.getD address.toNat 0

/-- Store one byte. -/
def store (memory : Memory) (address : Word) (value : Byte) : Memory :=
  ⟨memory.cells.insert address.toNat value⟩

/-- The empty memory reads zero. -/
@[simp] theorem read_empty (address : Word) : empty.read address = 0 := by
  simp [read, empty]

/-- A read sees the last byte stored at its address. -/
theorem read_store (memory : Memory) (address other : Word) (value : Byte) :
    (memory.store address value).read other = if other = address then value else memory.read other := by
  simp only [read, store, Std.TreeMap.getD_insert, Nat.compare_eq_eq, BitVec.toNat_inj]
  by_cases h : other = address
  · simp [h]
  · simp [h, Ne.symm h]

end Memory

/-- Which way an access goes, seen from the core. -/
inductive Direction
  | read
  | write
  deriving DecidableEq, Repr

/-- What an access transfers. -/
inductive Datum
  | byte (value : Byte)
  | half (value : Half)
  deriving DecidableEq, Repr

/-- One transfer between a core and the bus. -/
structure Access where
  direction : Direction
  space : Space
  address : Word
  datum : Datum
  deriving DecidableEq, Repr

/-- Memory for all three spaces, and every access made to it, the latest first. -/
structure Bus where
  memory : PerSpace Memory
  trace : List Access

namespace Bus

/-- A bus on which nothing has been stored and no access made. -/
def empty : Bus := ⟨⟨.empty, .empty, .empty⟩, []⟩

/-! ## Host side -/

/-- The byte at an address. -/
def peek8 (bus : Bus) (space : Space) (address : Word) : Byte :=
  (bus.memory.get space).read address

/-- The halfword whose high byte stands at an address. -/
def peek16 (bus : Bus) (space : Space) (address : Word) : Half :=
  joinBytes (bus.peek8 space address) (bus.peek8 space (address + 1))

/-- The word whose high halfword stands at an address. -/
def peek32 (bus : Bus) (space : Space) (address : Word) : Word :=
  joinHalves (bus.peek16 space address) (bus.peek16 space (address + 2))

/-- Store one byte without recording an access. -/
def store8 (bus : Bus) (space : Space) (address : Word) (value : Byte) : Bus :=
  { bus with memory := bus.memory.set space ((bus.memory.get space).store address value) }

/-- Store a halfword without recording an access. -/
def store16 (bus : Bus) (space : Space) (address : Word) (value : Half) : Bus :=
  (bus.store8 space address (highByte value)).store8 space (address + 1) (lowByte value)

/-- Copy bytes into a space from an address upwards. -/
def load (bus : Bus) (space : Space) (address : Word) : List Byte → Bus
  | [] => bus
  | byte :: rest => (bus.store8 space address byte).load space (address + 1) rest

/-- Copy halfwords into a space from an address upwards. -/
def loadHalves (bus : Bus) (space : Space) (address : Word) : List Half → Bus
  | [] => bus
  | half :: rest => (bus.store16 space address half).loadHalves space (address + 2) rest

/-! ## Core side -/

/-- Add an access to the trace. -/
def record (bus : Bus) (access : Access) : Bus :=
  { bus with trace := access :: bus.trace }

/-- Read a byte. -/
def read8 (bus : Bus) (space : Space) (address : Word) : Byte × Bus :=
  let value := bus.peek8 space address
  (value, bus.record ⟨.read, space, address, .byte value⟩)

/-- Read a halfword. -/
def read16 (bus : Bus) (space : Space) (address : Word) : Half × Bus :=
  let value := bus.peek16 space address
  (value, bus.record ⟨.read, space, address, .half value⟩)

/-- Read a word as two halfwords. -/
def read32 (bus : Bus) (space : Space) (address : Word) : Word × Bus :=
  let (high, bus) := bus.read16 space address
  let (low, bus) := bus.read16 space (address + 2)
  (joinHalves high low, bus)

/-- Write a byte. -/
def write8 (bus : Bus) (space : Space) (address : Word) (value : Byte) : Bus :=
  (bus.store8 space address value).record ⟨.write, space, address, .byte value⟩

/-- Write a halfword. -/
def write16 (bus : Bus) (space : Space) (address : Word) (value : Half) : Bus :=
  (bus.store16 space address value).record ⟨.write, space, address, .half value⟩

/-- Write a word as two halfwords. -/
def write32 (bus : Bus) (space : Space) (address : Word) (value : Word) : Bus :=
  (bus.write16 space address (highHalf value)).write16 space (address + 2) (lowHalf value)

/-- How many accesses of one direction a space has seen. -/
def accessCount (bus : Bus) (direction : Direction) (space : Space) : Nat :=
  bus.trace.countP fun access => access.direction == direction && access.space == space

/-! ## What a peek sees -/

/-- A peek after a store of a byte. -/
theorem peek8_store8 (bus : Bus) (space other : Space) (address spot : Word) (value : Byte) :
    (bus.store8 space address value).peek8 other spot =
      if other = space ∧ spot = address then value else bus.peek8 other spot := by
  by_cases hs : other = space
  · subst hs
    simp [peek8, store8, PerSpace.get_set, Memory.read_store]
  · simp [peek8, store8, PerSpace.get_set, hs]

/-- Recording an access leaves every byte. -/
@[simp] theorem peek8_record (bus : Bus) (access : Access) (space : Space) (address : Word) :
    (bus.record access).peek8 space address = bus.peek8 space address := rfl

/-- Recording an access leaves every halfword. -/
@[simp] theorem peek16_record (bus : Bus) (access : Access) (space : Space) (address : Word) :
    (bus.record access).peek16 space address = bus.peek16 space address := rfl

/-- The bytes of an empty bus are zero. -/
@[simp] theorem peek8_empty (space : Space) (address : Word) : empty.peek8 space address = 0 := by
  cases space <;> exact Memory.read_empty address

end Bus

end ProcessorCores

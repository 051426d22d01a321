import ProcessorCores.Proofs.BusBytes

/-!
# A bus as byte memory

What a bus holds after any sequence of requests is told by the requests alone: at each place of each space
the last byte that came there, and where none came what was there before. A request is a run of bytes from an
address upwards, or it looks and stores nothing. Runs may overlap, be of any length and go across the end of
a space, also around it and over themselves.

What a read or a peek answers is the number with the bytes at that address as its digits, the most
significant one first. Only the accesses of a core are counted, those of a word as two.
-/

namespace ProcessorCores

/-! ## Requests -/

/-- The sizes of an access. -/
inductive Width
  | byte
  | half
  | word
  deriving DecidableEq, Repr

namespace Width

/-- The number of bytes. -/
def size : Width → Nat
  | .byte => 1
  | .half => 2
  | .word => 4

/-- The number of accesses that it counts for. -/
def accesses : Width → Nat
  | .byte | .half => 1
  | .word => 2

end Width

/-- What can be asked of a bus: a host loads and peeks, a core writes and reads. -/
inductive BusRequest
  | load (space : Space) (address : Word) (bytes : List Byte)
  | loadHalves (space : Space) (address : Word) (halves : List Half)
  | write8 (space : Space) (address : Word) (value : Byte)
  | write16 (space : Space) (address : Word) (value : Half)
  | write32 (space : Space) (address : Word) (value : Word)
  | read (width : Width) (space : Space) (address : Word)
  | peek (width : Width) (space : Space) (address : Word)
  deriving DecidableEq, Repr

/-- Halfwords laid out as bytes take two each. -/
theorem Bus.length_flatMap_halfBytes (halves : List Half) :
    (halves.flatMap halfBytes).length = halves.length * 2 := by
  induction halves with
  | nil => rfl
  | cons half rest ih =>
    rw [List.flatMap_cons, List.length_append, ih, List.length_cons, Nat.succ_mul, Nat.add_comm]
    rfl

/-- The byte of a run that is the last one to come to a place. -/
def lastByteAt (address : Word) : List Byte → Word → Option Byte
  | [], _ => none
  | byte :: rest, spot =>
    (lastByteAt (address + 1) rest spot).or (if spot = address then some byte else none)

namespace BusRequest

/-- The space that a request is for. -/
def space : BusRequest → Space
  | .load space _ _ | .loadHalves space _ _ | .write8 space _ _ | .write16 space _ _
  | .write32 space _ _ | .read _ space _ | .peek _ space _ => space

/-- The address from which it goes upwards. -/
def address : BusRequest → Word
  | .load _ address _ | .loadHalves _ address _ | .write8 _ address _ | .write16 _ address _
  | .write32 _ address _ | .read _ _ address | .peek _ _ address => address

/-- The bytes that it stores. -/
def bytes : BusRequest → List Byte
  | .load _ _ bytes => bytes
  | .loadHalves _ _ halves => halves.flatMap Bus.halfBytes
  | .write8 _ _ value => [value]
  | .write16 _ _ value => Bus.halfBytes value
  | .write32 _ _ value => Bus.wordBytes value
  | .read _ _ _ | .peek _ _ _ => []

/-- How many bytes these are. -/
def size : BusRequest → Nat
  | .load _ _ bytes => bytes.length
  | .loadHalves _ _ halves => halves.length * 2
  | .write8 _ _ _ => 1
  | .write16 _ _ _ => 2
  | .write32 _ _ _ => 4
  | .read _ _ _ | .peek _ _ _ => 0

/-- The access that a core makes by it. -/
def access? : BusRequest → Option (Direction × Width)
  | .load _ _ _ | .loadHalves _ _ _ | .peek _ _ _ => none
  | .write8 _ _ _ => some (.write, .byte)
  | .write16 _ _ _ => some (.write, .half)
  | .write32 _ _ _ => some (.write, .word)
  | .read width _ _ => some (.read, width)

/-- The byte that it leaves at a place, if it covers that. -/
def leaves? (request : BusRequest) (space : Space) (spot : Word) : Option Byte :=
  if space = request.space then lastByteAt request.address request.bytes spot else none

/-- How many accesses of a direction to a space it makes. -/
def counts (request : BusRequest) (direction : Direction) (space : Space) : Nat :=
  match request.access? with
  | some (way, width) => if way = direction ∧ request.space = space then width.accesses else 0
  | none => 0

/-- A request moves as many bytes as its size says. -/
theorem length_bytes (request : BusRequest) : request.bytes.length = request.size := by
  cases request with
  | loadHalves space address halves => exact Bus.length_flatMap_halfBytes halves
  | _ => rfl

end BusRequest

/-- The byte that the last request to cover a place left there. -/
def lastLeft? (requests : List BusRequest) (space : Space) (spot : Word) : Option Byte :=
  requests.reverse.findSome? (·.leaves? space spot)

/-- How many accesses of a direction to a space requests make. -/
def countAll : List BusRequest → Direction → Space → Nat
  | [], _, _ => 0
  | request :: rest, direction, space => request.counts direction space + countAll rest direction space

/-- The number whose digits are these bytes, the most significant one first. -/
def bigEndian (bytes : List Byte) : Nat := bytes.foldl (fun value byte => value * 0x100 + byte.toNat) 0

namespace Bus

/-- The bus once a request is done. -/
def perform (bus : Bus) : BusRequest → Bus
  | .load space address bytes => bus.load space address bytes
  | .loadHalves space address halves => bus.loadHalves space address halves
  | .write8 space address value => bus.write8 space address value
  | .write16 space address value => bus.write16 space address value
  | .write32 space address value => bus.write32 space address value
  | .read .byte space address => (bus.read8 space address).2
  | .read .half space address => (bus.read16 space address).2
  | .read .word space address => (bus.read32 space address).2
  | .peek _ _ _ => bus

/-- The number that a request answers. -/
def answer? (bus : Bus) : BusRequest → Option Nat
  | .read .byte space address => some (bus.read8 space address).1.toNat
  | .read .half space address => some (bus.read16 space address).1.toNat
  | .read .word space address => some (bus.read32 space address).1.toNat
  | .peek .byte space address => some (bus.peek8 space address).toNat
  | .peek .half space address => some (bus.peek16 space address).toNat
  | .peek .word space address => some (bus.peek32 space address).toNat
  | _ => none

/-- The bus once requests are done, the first one first. -/
def performAll (bus : Bus) : List BusRequest → Bus
  | [] => bus
  | request :: rest => (bus.perform request).performAll rest

end Bus

/-! ## Runs of any length -/

/-- A run leaves a byte at just the places that it reaches. -/
theorem lastByteAt_eq_none_iff {address spot : Word} {bytes : List Byte} :
    lastByteAt address bytes spot = none ↔
      ∀ i < bytes.length, spot ≠ address + BitVec.ofNat 32 i := by
  induction bytes generalizing address with
  | nil => exact iff_of_true rfl fun i hi => absurd hi (Nat.not_lt_zero i)
  | cons byte rest ih =>
    simp only [lastByteAt, Option.or_eq_none_iff, ih, Nat.forall_lt_succ_left, List.length_cons,
      Bus.add_one_add_ofNat, BitVec.add_zero]
    rw [and_comm]
    simp only [ite_eq_right_iff, reduceCtorEq, imp_false, ne_eq]

/-- Of several of its bytes that come to one place, the run having gone around the whole space, it leaves
the last one. -/
theorem lastByteAt_eq_some_iff {address spot : Word} {bytes : List Byte} {byte : Byte} :
    lastByteAt address bytes spot = some byte ↔
      ∃ i, bytes[i]? = some byte ∧ spot = address + BitVec.ofNat 32 i ∧
        ∀ j, i < j → j < bytes.length → spot ≠ address + BitVec.ofNat 32 j := by
  induction bytes generalizing address with
  | nil => simp [lastByteAt]
  | cons first rest ih =>
    rw [lastByteAt, Option.or_eq_some_iff, ih, lastByteAt_eq_none_iff]
    simp only [Bus.add_one_add_ofNat]
    constructor
    · rintro (⟨i, hbyte, hspot, hlater⟩ | ⟨hrest, hfirst⟩)
      · refine ⟨i + 1, hbyte, hspot, fun j hj hlength => ?_⟩
        obtain ⟨k, rfl⟩ := Nat.exists_eq_add_one_of_ne_zero (Nat.ne_zero_of_lt hj)
        exact hlater k (Nat.lt_of_succ_lt_succ hj) (Nat.lt_of_succ_lt_succ hlength)
      · obtain ⟨hspot, hbyte⟩ := Option.ite_none_right_eq_some.mp hfirst
        refine ⟨0, hbyte, hspot.trans (BitVec.add_zero address).symm, fun j hj hlength => ?_⟩
        obtain ⟨k, rfl⟩ := Nat.exists_eq_add_one_of_ne_zero (Nat.ne_zero_of_lt hj)
        exact hrest k (Nat.lt_of_succ_lt_succ hlength)
    · rintro ⟨_ | i, hbyte, hspot, hlater⟩
      · rw [BitVec.add_zero] at hspot
        refine .inr ⟨fun i hi => hlater (i + 1) (Nat.succ_pos i) (Nat.succ_lt_succ hi), ?_⟩
        rw [if_pos hspot]
        exact hbyte
      · exact .inl ⟨i, hbyte, hspot, fun j hj hlength =>
          hlater (j + 1) (Nat.succ_lt_succ hj) (Nat.succ_lt_succ hlength)⟩

namespace Bus

/-- A load leaves the last of its bytes that comes to a place. -/
theorem peek8_load_any (bus : Bus) (space other : Space) (address spot : Word) (bytes : List Byte) :
    (bus.load space address bytes).peek8 other spot =
      (if other = space then lastByteAt address bytes spot else none).getD (bus.peek8 other spot) := by
  induction bytes generalizing bus address with
  | nil => rw [load, lastByteAt, ite_self, Option.getD_none]
  | cons byte rest ih =>
    rw [load, ih, peek8_store8, lastByteAt]
    by_cases hspace : other = space
    · by_cases hspot : spot = address <;>
        cases lastByteAt (address + 1) rest spot <;> simp [hspace, hspot]
    · simp only [if_neg hspace, if_neg fun h : other = space ∧ spot = address => hspace h.1]

/-- Loading halfwords is loading their bytes. -/
theorem loadHalves_eq_load (bus : Bus) (space : Space) (address : Word) (halves : List Half) :
    bus.loadHalves space address halves = bus.load space address (halves.flatMap halfBytes) := by
  induction halves generalizing bus address with
  | nil => rfl
  | cons half rest ih =>
    have hnext : address + 2 = address + 1 + 1 := (BitVec.add_assoc address 1 1).symm
    rw [loadHalves, ih, hnext]
    rfl

/-! ## What a request stores -/

/-- Accesses are recorded beside the memory: a core that writes stores what a host would load. -/
theorem perform_memory (bus : Bus) (request : BusRequest) :
    (bus.perform request).memory = (bus.load request.space request.address request.bytes).memory := by
  cases request with
  | loadHalves space address halves => exact congrArg memory (bus.loadHalves_eq_load space address halves)
  | write32 space address value =>
    have hmemory : (bus.write32 space address value).memory =
        (bus.loadHalves space address [highHalf value, lowHalf value]).memory := rfl
    rw [loadHalves_eq_load] at hmemory
    exact hmemory
  | read width space address => cases width <;> rfl
  | _ => rfl

/-- A peeked byte depends on the memory alone. -/
theorem peek8_of_memory {bus other : Bus} (h : bus.memory = other.memory) (space : Space) (spot : Word) :
    bus.peek8 space spot = other.peek8 space spot := by
  rw [peek8, peek8, h]

/-- A request leaves its byte at each place that it covers, and every other place as it was. -/
theorem peek8_perform (bus : Bus) (request : BusRequest) (space : Space) (spot : Word) :
    (bus.perform request).peek8 space spot = (request.leaves? space spot).getD (bus.peek8 space spot) :=
  (peek8_of_memory (bus.perform_memory request) space spot).trans (peek8_load_any bus _ _ _ _ _)

/-- So does a sequence of them: what counts is the last one that covers the place. -/
theorem peek8_performAll (bus : Bus) (requests : List BusRequest) (space : Space) (spot : Word) :
    (bus.performAll requests).peek8 space spot =
      (lastLeft? requests space spot).getD (bus.peek8 space spot) := by
  induction requests generalizing bus with
  | nil => rfl
  | cons request rest ih =>
    rw [performAll, ih, peek8_perform, lastLeft?, lastLeft?, List.reverse_cons, List.findSome?_append,
      List.findSome?_singleton, Option.getD_or]

/-- The places that a request covers are those of so many bytes from its address upwards. -/
theorem covers_or_keeps (bus : Bus) (request : BusRequest) (space : Space) (spot : Word) :
    (space = request.space ∧ ∃ i < request.size, spot = request.address + BitVec.ofNat 32 i) ∨
      (bus.perform request).peek8 space spot = bus.peek8 space spot := by
  rw [peek8_perform, ← request.length_bytes]
  cases hleft : request.leaves? space spot with
  | none => exact .inr rfl
  | some byte =>
    obtain ⟨hspace, hbyte⟩ := Option.ite_none_right_eq_some.mp hleft
    obtain ⟨i, hi, hspot, -⟩ := lastByteAt_eq_some_iff.mp hbyte
    exact .inl ⟨hspace, i, (List.getElem?_eq_some_iff.mp hi).1, hspot⟩

/-! ## What a request counts -/

/-- A recorded access counts once, in its own direction and space. -/
theorem accessCount_record (bus : Bus) (access : Access) (direction : Direction) (space : Space) :
    (bus.record access).accessCount direction space =
      bus.accessCount direction space +
        if access.direction = direction ∧ access.space = space then 1 else 0 := by
  simp [accessCount, record, List.countP_cons]

/-- A read of a halfword counts once. -/
theorem accessCount_read16 (bus : Bus) (target : Space) (address : Word) (direction : Direction)
    (space : Space) :
    (bus.read16 target address).2.accessCount direction space =
      bus.accessCount direction space + if .read = direction ∧ target = space then 1 else 0 :=
  bus.accessCount_record _ direction space

/-- A write of a halfword counts once. -/
theorem accessCount_write16 (bus : Bus) (target : Space) (address : Word) (value : Half)
    (direction : Direction) (space : Space) :
    (bus.write16 target address value).accessCount direction space =
      bus.accessCount direction space + if .write = direction ∧ target = space then 1 else 0 :=
  (bus.store16 target address value).accessCount_record _ direction space

/-- A load by the host counts nothing. -/
theorem accessCount_load (bus : Bus) (target : Space) (address : Word) (bytes : List Byte)
    (direction : Direction) (space : Space) :
    (bus.load target address bytes).accessCount direction space = bus.accessCount direction space := by
  induction bytes generalizing bus address with
  | nil => rfl
  | cons byte rest ih => exact ih (bus.store8 target address byte) (address + 1)

/-- A word is accessed once for each of its halves. -/
theorem one_for_each_half (p : Prop) [Decidable p] :
    (if p then 1 else 0) + (if p then 1 else 0) = if p then Width.word.accesses else 0 := by
  split <;> rfl

/-- A word counts as the two halfwords that it is moved in. -/
theorem accessCount_perform (bus : Bus) (request : BusRequest) (direction : Direction) (space : Space) :
    (bus.perform request).accessCount direction space =
      bus.accessCount direction space + request.counts direction space := by
  cases request with
  | load target address bytes => exact bus.accessCount_load target address bytes direction space
  | loadHalves target address halves =>
    rw [perform, loadHalves_eq_load]
    exact bus.accessCount_load target address _ direction space
  | write8 target address value =>
    exact (bus.store8 target address value).accessCount_record _ direction space
  | write16 target address value => exact bus.accessCount_write16 target address value direction space
  | write32 target address value =>
    rw [perform, write32, accessCount_write16, accessCount_write16, Nat.add_assoc, one_for_each_half]
    rfl
  | read width target address =>
    cases width with
    | byte => exact bus.accessCount_record _ direction space
    | half => exact bus.accessCount_read16 target address direction space
    | word =>
      have hread : (bus.read32 target address).2 =
          ((bus.read16 target address).2.read16 target (address + 2)).2 := rfl
      rw [perform, hread, accessCount_read16, accessCount_read16, Nat.add_assoc, one_for_each_half]
      rfl
  | peek width target address => rfl

/-- The requests of a list are counted one by one. -/
theorem accessCount_performAll (bus : Bus) (requests : List BusRequest) (direction : Direction)
    (space : Space) :
    (bus.performAll requests).accessCount direction space =
      bus.accessCount direction space + countAll requests direction space := by
  induction requests generalizing bus with
  | nil => rfl
  | cons request rest ih =>
    rw [performAll, ih, accessCount_perform, countAll, Nat.add_assoc]

/-! ## What a request answers -/

/-- The bytes of a halfword spell its value. -/
theorem bigEndian_halfBytes (value : Half) : bigEndian (halfBytes value) = value.toNat := by
  have hjoined := joinBytes_toNat (highByte value) (lowByte value)
  rw [joinBytes_split] at hjoined
  simp [bigEndian, halfBytes, hjoined]

/-- The bytes of a word spell its value. -/
theorem bigEndian_wordBytes (value : Word) : bigEndian (wordBytes value) = value.toNat := by
  have hhalves := joinHalves_toNat (highHalf value) (lowHalf value)
  rw [joinHalves_split, ← bigEndian_halfBytes, ← bigEndian_halfBytes] at hhalves
  rw [hhalves]
  simp only [bigEndian, wordBytes, halfBytes, List.cons_append, List.nil_append, List.foldl_cons,
    List.foldl_nil]
  omega

/-- Two bytes peeked are those of the halfword there. -/
theorem peekBytes_half (bus : Bus) (space : Space) (address : Word) :
    bus.peekBytes space address 2 = halfBytes (bus.peek16 space address) := by
  rw [halfBytes, peek16, highByte_joinBytes, lowByte_joinBytes]
  rfl

/-- Four bytes peeked are those of the word there. -/
theorem peekBytes_word (bus : Bus) (space : Space) (address : Word) :
    bus.peekBytes space address 4 = wordBytes (bus.peek32 space address) := by
  rw [wordBytes, peek32, highHalf_joinHalves, lowHalf_joinHalves, ← peekBytes_half, ← peekBytes_half]
  exact bus.peekBytes_add space address 2 2

/-- A core reads what a host peeks. -/
theorem answer_read (bus : Bus) (width : Width) (space : Space) (address : Word) :
    bus.answer? (.read width space address) = bus.answer? (.peek width space address) := by
  cases width <;> rfl

/-- A peek answers with the value that the bytes there spell. -/
theorem answer_peek (bus : Bus) (width : Width) (space : Space) (address : Word) :
    bus.answer? (.peek width space address) =
      some (bigEndian (bus.peekBytes space address width.size)) := by
  cases width with
  | byte => simp [answer?, bigEndian, Width.size, peekBytes]
  | half => rw [Width.size, peekBytes_half, bigEndian_halfBytes, answer?]
  | word => rw [Width.size, peekBytes_word, bigEndian_wordBytes, answer?]

/-! ## Sequences of requests -/

/-- A bus is big-endian byte memory with counted accesses. After any requests each place of each space holds
the byte that the last of them to cover it left there, or else what it held before, which is zero on an empty
bus. A further request covers the places of so many bytes from its address upwards, in its own space, or
leaves a place as it is. Reads and peeks of every width answer with the bytes that stand there, the most
significant one first, and only the accesses of a core are counted. -/
theorem performAll_is_byte_memory (bus : Bus) (requests : List BusRequest) (space : Space) (spot : Word) :
    (bus.performAll requests).peek8 space spot =
        (lastLeft? requests space spot).getD (bus.peek8 space spot) ∧
      (empty.performAll requests).peek8 space spot = (lastLeft? requests space spot).getD 0 ∧
      (∀ request : BusRequest,
        (space = request.space ∧ ∃ i < request.size, spot = request.address + BitVec.ofNat 32 i) ∨
          ((bus.performAll requests).perform request).peek8 space spot =
            (bus.performAll requests).peek8 space spot) ∧
      (∀ width : Width,
        (bus.performAll requests).answer? (.peek width space spot) =
            some (bigEndian ((bus.performAll requests).peekBytes space spot width.size)) ∧
          (bus.performAll requests).answer? (.read width space spot) =
            some (bigEndian ((bus.performAll requests).peekBytes space spot width.size))) ∧
      ∀ direction : Direction,
        (bus.performAll requests).accessCount direction space =
          bus.accessCount direction space + countAll requests direction space := by
  refine ⟨bus.peek8_performAll requests space spot, ?_, fun request => covers_or_keeps _ request space spot,
    fun width => ⟨answer_peek _ width space spot, ?_⟩,
    fun direction => bus.accessCount_performAll requests direction space⟩
  · rw [peek8_performAll, peek8_empty]
  · rw [answer_read, answer_peek]

/-- A word that goes across the end of a space, and a byte loaded over its third one. -/
example :
    let bus := empty.performAll [.write32 .data 0xFFFFFFFE 0x01020304, .load .data 0 [9]]
    bus.peek32 .data 0xFFFFFFFE = 0x01020904 ∧ bus.accessCount .write .data = 2 := by
  decide +kernel

end Bus
end ProcessorCores

import ProcessorCores.Bus

/-!
# Bytes behind the accesses of a bus

Every multi-byte access is a sequence of byte accesses, so what a later read sees is settled byte by
byte. Recording an access changes no byte. The lemmas below say which bytes a store of a halfword
covers and which bytes a load does, and that every other byte of every space is left as it was.

Writes of any size put a run of bytes from an address upwards, across the end of the space if need be.
Runs that follow one another are one run, and a run is found again by looking at as many bytes.
-/

namespace ProcessorCores

namespace Bus

/-- A stored halfword covers two bytes, the more significant one first. -/
theorem peek8_store16 (bus : Bus) (space other : Space) (address spot : Word) (value : Half) :
    (bus.store16 space address value).peek8 other spot =
      if other = space ∧ spot = address + 1 then lowByte value
      else if other = space ∧ spot = address then highByte value
      else bus.peek8 other spot := by
  rw [store16, peek8_store8, peek8_store8]

/-- A halfword written by a core is stored like one loaded by the host. -/
theorem peek8_write16 (bus : Bus) (space other : Space) (address spot : Word) (value : Half) :
    (bus.write16 space address value).peek8 other spot =
      (bus.store16 space address value).peek8 other spot := rfl

/-- Bytes apart from the two that a halfword covers keep their value when it is written. -/
theorem peek8_write16_of_ne {bus : Bus} {space other : Space} {address spot : Word} {value : Half}
    (hhigh : spot ≠ address) (hlow : spot ≠ address + 1) :
    (bus.write16 space address value).peek8 other spot = bus.peek8 other spot := by
  rw [peek8_write16, peek8_store16, if_neg fun h => hlow h.2, if_neg fun h => hhigh h.2]

/-- A halfword reads back as it was written. -/
theorem peek16_write16_self (bus : Bus) (space : Space) (address : Word) (value : Half) :
    (bus.write16 space address value).peek16 space address = value := by
  have hapart : address ≠ address + 1 := by bv_omega
  rw [peek16, peek8_write16, peek8_write16, peek8_store16, peek8_store16,
    if_neg fun h => hapart h.2, if_pos ⟨rfl, rfl⟩, if_pos ⟨rfl, rfl⟩]
  exact joinBytes_split value

/-- A halfword reads as before when one that shares no byte with it is written. -/
theorem peek16_write16_of_ne {bus : Bus} {space other : Space} {address spot : Word} {value : Half}
    (hfirst : spot ≠ address) (hsecond : spot ≠ address + 1) (hthird : spot + 1 ≠ address) :
    (bus.write16 space address value).peek16 other spot = bus.peek16 other spot := by
  have hfourth : spot + 1 ≠ address + 1 := by bv_omega
  rw [peek16, peek16, peek8_write16_of_ne hfirst hsecond, peek8_write16_of_ne hthird hfourth]

/-- Bytes keep their value when a halfword of another space is written. -/
theorem peek8_write16_of_space_ne {bus : Bus} {space other : Space} {address spot : Word}
    {value : Half} (hspace : other ≠ space) :
    (bus.write16 space address value).peek8 other spot = bus.peek8 other spot := by
  rw [peek8_write16, peek8_store16, if_neg fun h => hspace h.1, if_neg fun h => hspace h.1]

/-- Halfwords are made of bytes. -/
theorem peek16_congr {bus other : Bus} {space : Space} {address : Word}
    (hfirst : bus.peek8 space address = other.peek8 space address)
    (hsecond : bus.peek8 space (address + 1) = other.peek8 space (address + 1)) :
    bus.peek16 space address = other.peek16 space address := by
  rw [peek16, peek16, hfirst, hsecond]

/-- So are words: buses that agree on the bytes of a space agree on its words. -/
theorem peek32_of_peek8 {bus other : Bus} {space : Space}
    (h : ∀ address, bus.peek8 space address = other.peek8 space address) (address : Word) :
    bus.peek32 space address = other.peek32 space address := by
  rw [peek32, peek32, peek16_congr (h _) (h _), peek16_congr (h _) (h _)]

/-- A halfword reads as before when one of another space is written. -/
theorem peek16_write16_of_space_ne {bus : Bus} {space other : Space} {address spot : Word}
    {value : Half} (hspace : other ≠ space) :
    (bus.write16 space address value).peek16 other spot = bus.peek16 other spot :=
  peek16_congr (peek8_write16_of_space_ne hspace) (peek8_write16_of_space_ne hspace)

/-- A word reads as before when a halfword that shares no byte with it is written. -/
theorem peek32_write16_of_le {bus : Bus} {space other : Space} {address spot : Word} {value : Half}
    (hbefore : 4 ≤ (address - spot).toNat) (hafter : 2 ≤ (spot - address).toNat) :
    (bus.write16 space address value).peek32 other spot = bus.peek32 other spot := by
  rw [peek32, peek32, peek16_write16_of_ne (by bv_omega) (by bv_omega) (by bv_omega),
    peek16_write16_of_ne (by bv_omega) (by bv_omega) (by bv_omega)]

/-- A word reads back as it was written. -/
theorem peek32_write32_self (bus : Bus) (space : Space) (address value : Word) :
    (bus.write32 space address value).peek32 space address = value := by
  rw [peek32, write32, peek16_write16_self,
    peek16_write16_of_ne (by bv_omega) (by bv_omega) (by bv_omega), peek16_write16_self]
  exact joinHalves_split value

/-- After a load a byte is the loaded one where the bytes reach, and as before elsewhere. -/
theorem peek8_load (bus : Bus) (space : Space) (address spot : Word) (bytes : List Byte)
    (hlength : bytes.length ≤ 0x100000000) :
    (bus.load space address bytes).peek8 space spot =
      bytes.getD (spot - address).toNat (bus.peek8 space spot) := by
  induction bytes generalizing bus address with
  | nil => rfl
  | cons byte rest ih =>
    rw [List.length_cons] at hlength
    rw [load, ih _ _ (Nat.le_of_succ_le hlength), peek8_store8]
    by_cases hspot : spot = address
    · have hbeyond : rest.length ≤ (spot - (address + 1)).toNat := by bv_omega
      rw [List.getD_eq_getElem?_getD, List.getElem?_eq_none hbeyond, if_pos ⟨rfl, hspot⟩, hspot,
        BitVec.sub_self]
      rfl
    · have hoffset : (spot - address).toNat = (spot - (address + 1)).toNat + 1 := by bv_omega
      rw [if_neg fun h => hspot h.2, hoffset, List.getD_cons_succ]

/-! ## Runs of bytes -/

/-- So many bytes of a space, from an address upwards. -/
def peekBytes (bus : Bus) (space : Space) (address : Word) : Nat → List Byte
  | 0 => []
  | count + 1 => bus.peek8 space address :: bus.peekBytes space (address + 1) count

/-- One address further and then some more. -/
theorem add_one_add_ofNat (address : Word) (n : Nat) :
    address + 1 + BitVec.ofNat 32 n = address + BitVec.ofNat 32 (n + 1) := by
  rw [BitVec.ofNat_add, BitVec.add_assoc, BitVec.add_comm (BitVec.ofNat 32 n)]
  rfl

/-- As many bytes are peeked as are asked for. -/
theorem length_peekBytes (bus : Bus) (space : Space) (address : Word) (count : Nat) :
    (bus.peekBytes space address count).length = count := by
  induction count generalizing address with
  | zero => rfl
  | succ count ih => rw [peekBytes, List.length_cons, ih]

/-- A peek can be made in two parts. -/
theorem peekBytes_add (bus : Bus) (space : Space) (address : Word) (m n : Nat) :
    bus.peekBytes space address (m + n) =
      bus.peekBytes space address m ++ bus.peekBytes space (address + BitVec.ofNat 32 m) n := by
  induction m generalizing address with
  | zero => rw [Nat.zero_add, BitVec.add_zero, peekBytes, List.nil_append]
  | succ m ih =>
    rw [Nat.succ_add, peekBytes, peekBytes, ih, add_one_add_ofNat, List.cons_append]

/-- Buses that agree on the bytes of a space agree on every peek into it. -/
theorem peekBytes_congr {bus other : Bus} {space : Space}
    (h : ∀ address, bus.peek8 space address = other.peek8 space address) (address : Word) (count : Nat) :
    bus.peekBytes space address count = other.peekBytes space address count := by
  induction count generalizing address with
  | zero => rfl
  | succ count ih => rw [peekBytes, peekBytes, h, ih]

/-- A peek is known from each of its bytes. -/
theorem peekBytes_eq_of_forall {bus : Bus} {space : Space} {address : Word} {bytes : List Byte}
    (h : ∀ i (hi : i < bytes.length), bus.peek8 space (address + BitVec.ofNat 32 i) = bytes[i]) :
    bus.peekBytes space address bytes.length = bytes := by
  induction bytes generalizing address with
  | nil => rfl
  | cons byte rest ih =>
    have hfirst : bus.peek8 space address = byte := by
      have hzero := h 0 (Nat.succ_pos _)
      rwa [BitVec.add_zero] at hzero
    rw [List.length_cons, peekBytes, hfirst, ih]
    intro i hi
    rw [add_one_add_ofNat, h (i + 1) (Nat.succ_lt_succ hi), List.getElem_cons_succ]

/-- The bytes of a halfword, the more significant one first. -/
def halfBytes (value : Half) : List Byte := [highByte value, lowByte value]

/-- The bytes of a word, the most significant one first. -/
def wordBytes (value : Word) : List Byte := halfBytes (highHalf value) ++ halfBytes (lowHalf value)

/-- A word is four bytes. -/
theorem length_wordBytes (value : Word) : (wordBytes value).length = 4 := rfl

/-- A halfword is peeked where its bytes are. -/
theorem peek16_of_peekBytes {bus : Bus} {space : Space} {address : Word} {value : Half}
    (h : bus.peekBytes space address 2 = halfBytes value) : bus.peek16 space address = value := by
  obtain ⟨hhigh, hrest⟩ := List.cons.inj h
  rw [peek16, hhigh, (List.cons.inj hrest).1, joinBytes_split]

/-- A word is peeked where its bytes are. -/
theorem peek32_of_peekBytes {bus : Bus} {space : Space} {address value : Word}
    (h : bus.peekBytes space address 4 = wordBytes value) : bus.peek32 space address = value := by
  obtain ⟨hhigh, hlow⟩ := List.append_inj ((bus.peekBytes_add space address 2 2).symm.trans h)
    (bus.length_peekBytes space address 2)
  have hlow : bus.peek16 space (address + 2) = lowHalf value := peek16_of_peekBytes hlow
  rw [peek32, peek16_of_peekBytes hhigh, hlow, joinHalves_split]

/-- One bus becomes another one by bytes that are put into a space from an address upwards. -/
def Puts (before : Bus) (space : Space) (address : Word) (bytes : List Byte) (after : Bus) : Prop :=
  ∀ other spot, after.peek8 other spot =
    if other = space then bytes.getD (spot - address).toNat (before.peek8 other spot)
    else before.peek8 other spot

section Puts

variable {before middle after : Bus} {space : Space} {address : Word} {bytes rest : List Byte}

/-- No bytes are put by doing nothing. -/
theorem Puts.nil (bus : Bus) (space : Space) (address : Word) : bus.Puts space address [] bus := by
  intro other spot
  split <;> rfl

/-- A stored byte is put. -/
theorem Puts.store8 (bus : Bus) (space : Space) (address : Word) (value : Byte) :
    bus.Puts space address [value] (bus.store8 space address value) := by
  intro other spot
  rw [peek8_store8]
  by_cases hspace : other = space
  · by_cases hspot : spot = address
    · rw [if_pos ⟨hspace, hspot⟩, if_pos hspace, hspot, BitVec.sub_self]
      rfl
    · have hbeyond : [value].length ≤ (spot - address).toNat := by
        rw [List.length_singleton]
        bv_omega
      rw [if_neg fun h => hspot h.2, if_pos hspace, List.getD_eq_getElem?_getD,
        List.getElem?_eq_none hbeyond, Option.getD_none]
  · rw [if_neg fun h => hspace h.1, if_neg hspace]

/-- Bytes put behind others make one run with them, as long as the run does not meet itself. -/
theorem Puts.append (h : before.Puts space address bytes middle)
    (hrest : middle.Puts space (address + BitVec.ofNat 32 bytes.length) rest after)
    (hlength : bytes.length + rest.length ≤ 0x100000000) :
    before.Puts space address (bytes ++ rest) after := by
  intro other spot
  rw [hrest other spot, h other spot]
  by_cases hspace : other = space
  · simp only [if_pos hspace, List.getD_eq_getElem?_getD]
    by_cases hspot : (spot - address).toNat < bytes.length
    · have hbeyond : rest.length ≤ (spot - (address + BitVec.ofNat 32 bytes.length)).toNat := by
        bv_omega
      rw [List.getElem?_eq_none hbeyond, List.getElem?_append_left hspot, Option.getD_none]
    · have hoffset : (spot - (address + BitVec.ofNat 32 bytes.length)).toNat =
          (spot - address).toNat - bytes.length := by
        bv_omega
      rw [hoffset, List.getElem?_append_right (Nat.le_of_not_lt hspot),
        List.getElem?_eq_none (Nat.le_of_not_lt hspot), Option.getD_none]
  · simp only [if_neg hspace]

/-- A written halfword is put as its two bytes. -/
theorem Puts.write16 (bus : Bus) (space : Space) (address : Word) (value : Half) :
    bus.Puts space address (halfBytes value) (bus.write16 space address value) :=
  (Puts.store8 bus space address (highByte value)).append
    (Puts.store8 _ space (address + 1) (lowByte value)) (by simp)

/-- A written word is put as its four bytes. -/
theorem Puts.write32 (bus : Bus) (space : Space) (address value : Word) :
    bus.Puts space address (wordBytes value) (bus.write32 space address value) :=
  (Puts.write16 bus space address (highHalf value)).append
    (Puts.write16 _ space (address + 2) (lowHalf value)) (by simp [halfBytes])

/-- What has been put is found. -/
theorem Puts.peekBytes (h : before.Puts space address bytes after)
    (hlength : bytes.length ≤ 0x100000000) :
    after.peekBytes space address bytes.length = bytes := by
  apply peekBytes_eq_of_forall
  intro i hi
  have hoffset : (address + BitVec.ofNat 32 i - address).toNat = i := by bv_omega
  rw [h, if_pos rfl, hoffset, List.getD_eq_getElem?_getD, List.getElem?_eq_getElem hi, Option.getD_some]

end Puts

/-! ## Accesses to one space -/

/-- The accesses that a space has seen, the latest first. -/
def accesses (bus : Bus) (space : Space) : List Access := bus.trace.filter (·.space == space)

/-- An access to another space is none of these. -/
theorem accesses_record_of_ne (bus : Bus) {access : Access} {space : Space}
    (h : access.space ≠ space) : (bus.record access).accesses space = bus.accesses space :=
  List.filter_cons_of_neg (by rw [beq_iff_eq]; exact h)

/-- Reading a halfword elsewhere is no access to a space. -/
theorem accesses_read16_of_ne (bus : Bus) {space other : Space} (address : Word)
    (h : other ≠ space) : (bus.read16 other address).2.accesses space = bus.accesses space := by
  rw [read16]
  exact bus.accesses_record_of_ne h

/-- Reading a word elsewhere is no access to a space. -/
theorem accesses_read32_of_ne (bus : Bus) {space other : Space} (address : Word)
    (h : other ≠ space) : (bus.read32 other address).2.accesses space = bus.accesses space := by
  have hread : (bus.read32 other address).2 =
      ((bus.read16 other address).2.read16 other (address + 2)).2 := rfl
  rw [hread, accesses_read16_of_ne _ _ h, accesses_read16_of_ne _ _ h]

/-- Writing a halfword elsewhere is no access to a space. -/
theorem accesses_write16_of_ne (bus : Bus) {space other : Space} (address : Word) (value : Half)
    (h : other ≠ space) : (bus.write16 other address value).accesses space = bus.accesses space := by
  rw [write16]
  exact (bus.store16 other address value).accesses_record_of_ne h

/-- Writing a word elsewhere is no access to a space. -/
theorem accesses_write32_of_ne (bus : Bus) {space other : Space} (address value : Word)
    (h : other ≠ space) : (bus.write32 other address value).accesses space = bus.accesses space := by
  rw [write32, accesses_write16_of_ne _ _ _ h, accesses_write16_of_ne _ _ _ h]

end Bus

end ProcessorCores

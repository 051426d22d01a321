import ProcessorCores.Proofs.BusBytes
import ProcessorCores.Proofs.Tms.Windows
import ProcessorCores.Tms.Access

/-!
# Which word an address of the TMS3202x stands for

Mapped registers, block B2, the windows of the configurable blocks and the bus share the two address
spaces between them. Every address has one home, and no two addresses have the same one, whichever
blocks answer in program space. From this it follows that a write is seen at its own address and
nowhere else.

The block storage is assumed to have the shape that its model lays out. Nothing is assumed of the
bus.
-/

namespace ProcessorCores.Tms

/-! ## Homes -/

/-- Where the word at an address is kept. -/
inductive Home
  | register (register : MappedRegister)
  | cell (cell : Cell)
  | offChip (space : Space) (address : Half)
  deriving DecidableEq, Repr

namespace OnChipRam

/-- The home of a data address. -/
def dataHome (ram : OnChipRam) (address : Half) : Home :=
  match MappedRegister.ofAddress? address with
  | some register => .register register
  | none =>
    match ram.dataCell? address with
    | some cell => .cell cell
    | none => .offChip .data address

/-- The home of a program address. -/
def programHome (ram : OnChipRam) (address : Half) : Home :=
  match ram.programCell? address with
  | some cell => .cell cell
  | none => .offChip .program address

/-- The layout decides the homes. -/
theorem homes_of_layout {ram other : OnChipRam} (h : ram.layout = other.layout) :
    ram.dataHome = other.dataHome ∧ ram.programHome = other.programHome := by
  cases ram
  cases other
  obtain ⟨rfl, rfl⟩ := Prod.mk.inj h
  exact ⟨rfl, rfl⟩

/-- No two data addresses share a home. -/
theorem dataHome_inj {ram : OnChipRam} {address spot : Half}
    (h : ram.dataHome address = ram.dataHome spot) : address = spot := by
  unfold dataHome at h
  split at h
  · next register hregister =>
    split at h
    · next register' hregister' =>
      obtain rfl := Home.register.inj h
      rw [MappedRegister.ofAddress?_eq_some hregister, MappedRegister.ofAddress?_eq_some hregister']
    · split at h <;> contradiction
  · split at h
    · next cell hcell =>
      split at h
      · contradiction
      · split at h
        · next cell' hcell' =>
          obtain rfl := Home.cell.inj h
          exact dataCell?_inj hcell hcell'
        · contradiction
    · split at h
      · contradiction
      · split at h
        · contradiction
        · exact (Home.offChip.inj h).2

/-- No two program addresses share a home. -/
theorem programHome_inj {ram : OnChipRam} {address spot : Half}
    (h : ram.programHome address = ram.programHome spot) : address = spot := by
  unfold programHome at h
  split at h
  · next cell hcell =>
    split at h
    · next cell' hcell' =>
      obtain rfl := Home.cell.inj h
      exact programCell?_inj hcell hcell'
    · contradiction
  · split at h
    · contradiction
    · exact (Home.offChip.inj h).2

/-- No data address shares a home with a program address. -/
theorem dataHome_ne_programHome (ram : OnChipRam) (address spot : Half) :
    ram.dataHome address ≠ ram.programHome spot := by
  intro h
  unfold dataHome programHome at h
  split at h
  · split at h <;> contradiction
  · split at h
    · next cell hcell =>
      split at h
      · next cell' hcell' =>
        obtain rfl := Home.cell.inj h
        exact dataCell?_ne_programCell? hcell hcell'
      · contradiction
    · split at h
      · contradiction
      · exact Space.noConfusion (Home.offChip.inj h).1

end OnChipRam

/-! ## Bus addresses -/

/-- A word stands at twice its address. -/
theorem byteAddress_toNat (address : Half) : (byteAddress address).toNat = 2 * address.toNat := by
  rw [byteAddress, BitVec.toNat_shiftLeft, BitVec.toNat_setWidth, Nat.shiftLeft_eq]
  omega

/-- Words of different addresses share no byte of a bus. -/
theorem byteAddress_apart {address spot : Half} (hne : spot ≠ address) :
    byteAddress spot ≠ byteAddress address ∧ byteAddress spot ≠ byteAddress address + 1 ∧
      byteAddress spot + 1 ≠ byteAddress address := by
  have haddress := byteAddress_toNat address
  have hspot := byteAddress_toNat spot
  have hne' : spot.toNat ≠ address.toNat := fun h => hne (BitVec.eq_of_toNat_eq h)
  refine ⟨?_, ?_, ?_⟩ <;> bv_omega

/-! ## Accesses -/

/-- A write to a mapped register stores it, whatever else it sets off. -/
theorem Core.writeRegister_ram (core : Core) (register : MappedRegister) (value : Half) :
    (core.writeRegister register value).ram = core.ram.setRegister register value := by
  unfold writeRegister
  cases register with
  | dxr =>
    dsimp only
    split
    · split <;> rfl
    · rfl
  | drr => rfl
  | tim => rfl
  | prd => rfl
  | imr => rfl
  | greg => rfl

namespace Machine

/-- The word that a home keeps. -/
def word (machine : Machine) : Home → Half
  | .register register => machine.core.ram.getRegister register
  | .cell cell => machine.core.ram.get cell
  | .offChip space address => machine.bus.peek16 space (byteAddress address)

/-- A data read gives the word of the home. -/
theorem readData_eq_word (machine : Machine) (address : Half) :
    (machine.readData address).1 = machine.word (machine.core.ram.dataHome address) := by
  unfold readData OnChipRam.data OnChipRam.dataHome
  cases MappedRegister.ofAddress? address with
  | some register => rfl
  | none => cases machine.core.ram.dataCell? address <;> rfl

/-- A program read gives the word of the home. -/
theorem readProgram_eq_word (machine : Machine) (address : Half) :
    (machine.readProgram address).1 = machine.word (machine.core.ram.programHome address) := by
  unfold readProgram OnChipRam.program OnChipRam.programHome
  cases machine.core.ram.programCell? address <;> rfl

/-- Write the word that a home keeps. -/
def putWord (machine : Machine) (home : Home) (value : Half) : Machine :=
  match home with
  | .register register => machine.mapCore (·.writeRegister register value)
  | .cell cell => machine.mapCore (·.mapRam (·.set cell value))
  | .offChip space address =>
    { machine with bus := machine.bus.write16 space (byteAddress address) value }

/-- A data write goes to the home of its address. -/
theorem writeData_eq_putWord (machine : Machine) (address value : Half) :
    machine.writeData address value = machine.putWord (machine.core.ram.dataHome address) value := by
  unfold writeData OnChipRam.dataHome
  cases MappedRegister.ofAddress? address with
  | some register => rfl
  | none => cases machine.core.ram.dataCell? address <;> rfl

/-- A program write goes to the home of its address. -/
theorem writeProgram_eq_putWord (machine : Machine) (address value : Half) :
    machine.writeProgram address value =
      machine.putWord (machine.core.ram.programHome address) value := by
  unfold writeProgram OnChipRam.programHome
  cases machine.core.ram.programCell? address <;> rfl

/-- No write changes the layout. -/
theorem putWord_layout (machine : Machine) (home : Home) (value : Half) :
    (machine.putWord home value).core.ram.layout = machine.core.ram.layout := by
  cases home with
  | register register =>
    rw [putWord, mapCore, Core.writeRegister_ram]
    exact machine.core.ram.layout_setRegister register value
  | cell cell => exact machine.core.ram.layout_set cell value
  | offChip space address => rfl

/-- A write is seen at its own home and at no other. -/
theorem word_putWord {machine : Machine} {home : Home}
    (hholds : ∀ cell, home = .cell cell → machine.core.ram.Holds cell) (value : Half)
    (other : Home) :
    (machine.putWord home value).word other = if other = home then value else machine.word other := by
  -- Homes of different kinds have nothing in common, so only those of one kind are compared.
  cases home with
  | register register =>
    have hram := machine.core.writeRegister_ram register value
    cases other with
    | register other =>
      rw [putWord, word, mapCore, hram]
      simp only [Home.register.injEq]
      exact OnChipRam.getRegister_setRegister _ _ _ _
    | cell cell =>
      rw [putWord, word, mapCore, hram]
      exact OnChipRam.get_setRegister _ _ _ _
    | offChip space spot => rfl
  | cell cell =>
    cases other with
    | register register => exact machine.core.ram.getRegister_set cell value register
    | cell other =>
      simp only [Home.cell.injEq]
      exact OnChipRam.get_set (hholds cell rfl) other value
    | offChip space address => rfl
  | offChip space address =>
    cases other with
    | register register => rfl
    | cell cell => rfl
    | offChip other spot =>
      by_cases hspace : other = space
      · subst hspace
        by_cases haddress : spot = address
        · subst haddress
          rw [if_pos rfl]
          exact machine.bus.peek16_write16_self _ _ _
        · rw [if_neg fun h => haddress (Home.offChip.inj h).2]
          obtain ⟨hfirst, hsecond, hthird⟩ := byteAddress_apart haddress
          exact Bus.peek16_write16_of_ne hfirst hsecond hthird
      · rw [if_neg fun h => hspace (Home.offChip.inj h).1]
        exact Bus.peek16_write16_of_space_ne hspace

/-! ## A write and the reads after it -/

variable {machine : Machine} {model : Model}

/-- Storage that fits keeps the words of all data addresses. -/
theorem holds_of_dataHome (hfits : machine.core.ram.fits model = true) (address : Half) (cell : Cell)
    (hhome : machine.core.ram.dataHome address = .cell cell) : machine.core.ram.Holds cell := by
  unfold OnChipRam.dataHome at hhome
  split at hhome
  · contradiction
  · split at hhome
    · next found hfound =>
      obtain rfl := Home.cell.inj hhome
      exact OnChipRam.holds_of_dataCell? hfits hfound
    · contradiction

/-- Storage that fits keeps the words of all program addresses. -/
theorem holds_of_programHome (hfits : machine.core.ram.fits model = true) (address : Half)
    (cell : Cell) (hhome : machine.core.ram.programHome address = .cell cell) :
    machine.core.ram.Holds cell := by
  unfold OnChipRam.programHome at hhome
  split at hhome
  · next found hfound =>
    obtain rfl := Home.cell.inj hhome
    rw [OnChipRam.programCell?_eq] at hfound
    exact OnChipRam.holds_of_windowCell? hfits hfound
  · contradiction

/-- After a write to a home, an address reads as written exactly when it has that home. -/
theorem readData_putWord {home : Home}
    (hholds : ∀ cell, home = .cell cell → machine.core.ram.Holds cell) (value address : Half) :
    ((machine.putWord home value).readData address).1 =
      if machine.core.ram.dataHome address = home then value else (machine.readData address).1 := by
  rw [readData_eq_word, (OnChipRam.homes_of_layout (machine.putWord_layout home value)).1,
    word_putWord hholds, readData_eq_word]

/-- The same for program addresses. -/
theorem readProgram_putWord {home : Home}
    (hholds : ∀ cell, home = .cell cell → machine.core.ram.Holds cell) (value address : Half) :
    ((machine.putWord home value).readProgram address).1 =
      if machine.core.ram.programHome address = home then value
      else (machine.readProgram address).1 := by
  rw [readProgram_eq_word, (OnChipRam.homes_of_layout (machine.putWord_layout home value)).2,
    word_putWord hholds, readProgram_eq_word]

/-! ## Routing -/

/-- A data word that is on chip never reaches the bus, and one that is not goes there in full. -/
theorem data_routing (machine : Machine) (address : Half) :
    match machine.core.ram.data address with
    | some word =>
      machine.readData address = (word, machine) ∧
        ∀ value, (machine.writeData address value).bus = machine.bus
    | none =>
      machine.readData address =
          ((machine.bus.read16 .data (byteAddress address)).1,
            { machine with bus := (machine.bus.read16 .data (byteAddress address)).2 }) ∧
        ∀ value, machine.writeData address value =
          { machine with bus := machine.bus.write16 .data (byteAddress address) value } := by
  unfold readData writeData OnChipRam.data
  cases MappedRegister.ofAddress? address with
  | some register => exact ⟨rfl, fun value => rfl⟩
  | none =>
    cases machine.core.ram.dataCell? address with
    | some cell => exact ⟨rfl, fun value => rfl⟩
    | none => exact ⟨rfl, fun value => rfl⟩

/-- The same for program words. -/
theorem program_routing (machine : Machine) (address : Half) :
    match machine.core.ram.program address with
    | some word =>
      machine.readProgram address = (word, machine) ∧
        ∀ value, (machine.writeProgram address value).bus = machine.bus
    | none =>
      machine.readProgram address =
          ((machine.bus.read16 .program (byteAddress address)).1,
            { machine with bus := (machine.bus.read16 .program (byteAddress address)).2 }) ∧
        ∀ value, machine.writeProgram address value =
          { machine with bus := machine.bus.write16 .program (byteAddress address) value } := by
  unfold readProgram writeProgram OnChipRam.program
  cases machine.core.ram.programCell? address with
  | some cell => exact ⟨rfl, fun value => rfl⟩
  | none => exact ⟨rfl, fun value => rfl⟩

/-- Whatever the model and wherever its blocks are, a write is read back at its own address, and no
other address of either space reads differently afterwards. An access goes to the bus, at twice its
address, exactly when the on-chip memory has no answer. A block that moves takes each of its words
to the same offset in its other window, where alone on chip it answers. -/
theorem memory_of_fits {machine : Machine} {model : Model}
    (hfits : machine.core.ram.fits model = true) :
    let ram := machine.core.ram
    (∀ address value,
      let after := machine.writeData address value
      (after.readData address).1 = value ∧
        (∀ other, other ≠ address → (after.readData other).1 = (machine.readData other).1) ∧
        ∀ other, (after.readProgram other).1 = (machine.readProgram other).1) ∧
      (∀ address value,
        let after := machine.writeProgram address value
        (after.readProgram address).1 = value ∧
          (∀ other, other ≠ address →
            (after.readProgram other).1 = (machine.readProgram other).1) ∧
          ∀ other, (after.readData other).1 = (machine.readData other).1) ∧
      (∀ address,
        (byteAddress address).toNat = 2 * address.toNat ∧
          (match ram.data address with
            | some word =>
              machine.readData address = (word, machine) ∧
                ∀ value, (machine.writeData address value).bus = machine.bus
            | none =>
              machine.readData address =
                  ((machine.bus.read16 .data (byteAddress address)).1,
                    { machine with bus := (machine.bus.read16 .data (byteAddress address)).2 }) ∧
                ∀ value, machine.writeData address value =
                  { machine with bus := machine.bus.write16 .data (byteAddress address) value }) ∧
          match ram.program address with
          | some word =>
            machine.readProgram address = (word, machine) ∧
              ∀ value, (machine.writeProgram address value).bus = machine.bus
          | none =>
            machine.readProgram address =
                ((machine.bus.read16 .program (byteAddress address)).1,
                  { machine with bus := (machine.bus.read16 .program (byteAddress address)).2 }) ∧
              ∀ value, machine.writeProgram address value =
                { machine with bus := machine.bus.write16 .program (byteAddress address) value }) ∧
      ∀ index block program, model.blocks[index]? = some block →
        ram.isProgram index = !program →
        let moved := ram.mapBlock index program
        (∀ offset < block.size.toNat,
          moved.onChip? program (block.base program + BitVec.ofNat 16 offset) =
              ram.onChip? (!program) (block.base (!program) + BitVec.ofNat 16 offset) ∧
            ram.onChip? (!program) (block.base (!program) + BitVec.ofNat 16 offset) =
              some (ram.get (.block index offset)) ∧
            ∀ space address, moved.cellAt? space address = some (.block index offset) ↔
              space = program ∧ address = block.base program + BitVec.ofNat 16 offset) ∧
          ∀ space address, inWindow (block.base space) block.size address = false →
            moved.onChip? space address = ram.onChip? space address := by
  intro ram
  refine ⟨fun address value => ?_, fun address value => ?_, fun address => ?_,
    fun index block program hblock hprogram => ?_⟩
  · rw [writeData_eq_putWord]
    have hholds := holds_of_dataHome hfits address
    refine ⟨?_, fun other hother => ?_, fun other => ?_⟩
    · rw [readData_putWord hholds, if_pos rfl]
    · rw [readData_putWord hholds, if_neg fun h => hother (OnChipRam.dataHome_inj h)]
    · rw [readProgram_putWord hholds,
        if_neg fun h => ram.dataHome_ne_programHome address other h.symm]
  · rw [writeProgram_eq_putWord]
    have hholds := holds_of_programHome hfits address
    refine ⟨?_, fun other hother => ?_, fun other => ?_⟩
    · rw [readProgram_putWord hholds, if_pos rfl]
    · rw [readProgram_putWord hholds, if_neg fun h => hother (OnChipRam.programHome_inj h)]
    · rw [readData_putWord hholds, if_neg (ram.dataHome_ne_programHome other address)]
  · exact ⟨byteAddress_toNat address, machine.data_routing address, machine.program_routing address⟩
  · exact OnChipRam.onChip?_mapBlock hfits hblock hprogram

/-- With every block of the larger part in program space, a word written at the last program address
is there, and is at the last data address of its block once that block is moved back. -/
theorem memory_of_fits_tms32026 :
    let core := (((Core.new .tms32026).mapBlock 0 true).mapBlock 1 true).mapBlock 2 true
    let machine : Machine := ⟨core, .empty⟩
    let after := machine.writeProgram 0xFFFF 0x1234
    (after.readProgram 0xFFFF).1 = 0x1234 ∧
      (after.readData 0x07FF).1 = (machine.readData 0x07FF).1 ∧
      (after.core.ram.mapBlock 2 false).onChip? false 0x07FF =
        after.core.ram.onChip? true 0xFFFF := by
  intro core machine after
  have hfits : machine.core.ram.fits .tms32026 = true := by decide +kernel
  have hfits' : after.core.ram.fits .tms32026 = true := by decide +kernel
  obtain ⟨-, hprogram, -⟩ := memory_of_fits hfits
  obtain ⟨-, -, -, hmove⟩ := memory_of_fits hfits'
  obtain ⟨hself, -, hdata⟩ := hprogram 0xFFFF 0x1234
  have hword := (hmove 2 ⟨"B3", 0x200, 0x0600, 0xFE00⟩ false rfl (by decide +kernel)).1 511 (by decide)
  exact ⟨hself, hdata 0x07FF, hword.1⟩

end Machine

end ProcessorCores.Tms

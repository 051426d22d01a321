import ProcessorCores.Tms.OnChipRam

/-!
# Windows of the on-chip blocks

A configurable block answers in one window of data space or in one window of program space, as its
flag says. The windows of a space are apart from each other and from everything else on chip. So an
address stands for at most one cell, a cell answers at one address at most, and moving a block moves
its words as a whole.
-/

namespace ProcessorCores.Tms

/-! ## Windows -/

/-- The first word of the window that a block has in program space, or in data space. -/
def Block.base (block : Block) (program : Bool) : Half :=
  if program then block.programBase else block.dataBase

/-- An address lies in a window when it is a word of it counted from the base. -/
theorem inWindow_iff {base size address : Half} (hend : base.toNat + size.toNat ≤ 0x10000) :
    inWindow base size address = true ↔
      ∃ offset < size.toNat, address = base + BitVec.ofNat 16 offset := by
  simp only [inWindow, Bool.and_eq_true, decide_eq_true_eq]
  constructor
  · rintro ⟨hbase, hsize⟩
    refine ⟨(address - base).toNat, BitVec.lt_def.mp hsize, ?_⟩
    rw [BitVec.ofNat_toNat, BitVec.setWidth_eq]
    bv_omega
  · rintro ⟨offset, hoffset, rfl⟩
    constructor
    · bv_omega
    · bv_omega

/-- Every window ends within its space. -/
theorem Model.base_add_size_le (model : Model) (program : Bool) :
    ∀ block ∈ model.blocks, (block.base program).toNat + block.size.toNat ≤ 0x10000 := by
  cases model <;> cases program <;> decide

/-- The windows of a space are apart from each other. -/
theorem Model.windows_apart (model : Model) (program : Bool) :
    ∀ entry ∈ model.blocks.zipIdx, ∀ other ∈ model.blocks.zipIdx, entry = other ∨
      (entry.1.base program).toNat + entry.1.size.toNat ≤ (other.1.base program).toNat ∨
      (other.1.base program).toNat + other.1.size.toNat ≤ (entry.1.base program).toNat := by
  cases model <;> cases program <;> decide

/-- The data windows are above the mapped registers and block B2. -/
theorem Model.le_dataBase (model : Model) : ∀ block ∈ model.blocks, 0x80 ≤ block.dataBase.toNat := by
  cases model <;> decide

/-- The mapped registers are at the bottom of data space. -/
theorem MappedRegister.address_lt (register : MappedRegister) : register.address.toNat < 6 := by
  cases register <;> decide

/-- A mapped register answers at its own address. -/
theorem MappedRegister.ofAddress?_eq_some {address : Half} {register : MappedRegister}
    (hregister : ofAddress? address = some register) : address = register.address := by
  unfold ofAddress? at hregister
  split at hregister <;> first | contradiction | (obtain rfl := Option.some.inj hregister; rfl)

/-- No window wraps. -/
theorem toNat_base_add {base size : Half} {offset : Nat}
    (hend : base.toNat + size.toNat ≤ 0x10000) (hoffset : offset < size.toNat) :
    (base + BitVec.ofNat 16 offset).toNat = base.toNat + offset := by
  rw [BitVec.toNat_add, BitVec.toNat_ofNat]
  omega

/-- An address is a word of at most one window of a space. -/
theorem Model.index_unique {model : Model} {program : Bool} {index index' offset offset' : Nat}
    {block block' : Block} (hblock : model.blocks[index]? = some block)
    (hblock' : model.blocks[index']? = some block') (hoffset : offset < block.size.toNat)
    (hoffset' : offset' < block'.size.toNat)
    (hsame : block.base program + BitVec.ofNat 16 offset =
      block'.base program + BitVec.ofNat 16 offset') : index = index' := by
  have hsum := toNat_base_add (model.base_add_size_le program _ (List.mem_of_getElem? hblock)) hoffset
  have hsum' :=
    toNat_base_add (model.base_add_size_le program _ (List.mem_of_getElem? hblock')) hoffset'
  rw [hsame] at hsum
  rcases model.windows_apart program (block, index) (List.mk_mem_zipIdx_iff_getElem?.mpr hblock)
    (block', index') (List.mk_mem_zipIdx_iff_getElem?.mpr hblock') with heq | hapart | hapart
  · exact congrArg Prod.snd heq
  · dsimp only at hapart
    omega
  · dsimp only at hapart
    omega

namespace OnChipRam

/-! ## Cells -/

/-- The block that answers at an address of program space, or of data space. -/
def windowCell? (ram : OnChipRam) (program : Bool) (address : Half) : Option Cell :=
  (ram.findBlock? fun index block =>
    ram.isProgram index == program && inWindow (block.base program) block.size address).map
      fun (index, block) => .block index (address - block.base program).toNat

/-- Program addresses reach blocks only. -/
theorem programCell?_eq (ram : OnChipRam) (address : Half) :
    ram.programCell? address = ram.windowCell? true address := by
  unfold programCell? windowCell?
  simp only [beq_true]
  rfl

/-- Data addresses reach block B2 besides the other blocks. -/
theorem dataCell?_eq (ram : OnChipRam) (address : Half) :
    ram.dataCell? address = (b2Cell? address <|> ram.windowCell? false address) := by
  unfold dataCell? windowCell?
  simp only [beq_false]
  cases b2Cell? address <;> rfl

/-- A block that is found is a block of the model, and answers. -/
theorem findBlock?_eq_some {ram : OnChipRam} {answers : Nat → Block → Bool} {index : Nat}
    {block : Block} (hfind : ram.findBlock? answers = some (index, block)) :
    ram.model.blocks[index]? = some block ∧ answers index block = true := by
  obtain ⟨entry, hentry, hswap⟩ := Option.map_eq_some_iff.mp hfind
  obtain ⟨rfl, rfl⟩ := Prod.mk.inj hswap
  have hanswers := List.find?_some hentry
  exact ⟨List.mem_zipIdx_iff_getElem?.mp (List.mem_of_find?_eq_some hentry), hanswers⟩

/-- The only block that answers is the one that is found. -/
theorem findBlock?_of_unique {ram : OnChipRam} {answers : Nat → Block → Bool} {index : Nat}
    {block : Block} (hblock : ram.model.blocks[index]? = some block)
    (hanswers : answers index block = true)
    (hunique : ∀ entry ∈ ram.model.blocks.zipIdx, answers entry.2 entry.1 = true →
      entry = (block, index)) :
    ram.findBlock? answers = some (index, block) := by
  have hmem : (block, index) ∈ ram.model.blocks.zipIdx := List.mk_mem_zipIdx_iff_getElem?.mpr hblock
  have hsome : (ram.model.blocks.zipIdx.find? fun entry => answers entry.2 entry.1).isSome = true :=
    List.find?_isSome.mpr ⟨_, hmem, hanswers⟩
  obtain ⟨entry, hentry⟩ := Option.isSome_iff_exists.mp hsome
  have hfound := List.find?_some hentry
  have hsame := hunique entry (List.mem_of_find?_eq_some hentry) hfound
  rw [findBlock?, hentry, hsame]
  rfl

/-- A block answers at an address exactly when it is in that space and the address is a word of its
window. -/
theorem windowCell?_eq_some_iff (ram : OnChipRam) (program : Bool) (address : Half) (cell : Cell) :
    ram.windowCell? program address = some cell ↔
      ∃ index block offset, ram.model.blocks[index]? = some block ∧ ram.isProgram index = program ∧
        offset < block.size.toNat ∧ address = block.base program + BitVec.ofNat 16 offset ∧
        cell = .block index offset := by
  have hend := ram.model.base_add_size_le program
  constructor
  · intro hcell
    obtain ⟨⟨index, block⟩, hfind, rfl⟩ := Option.map_eq_some_iff.mp hcell
    obtain ⟨hblock, hanswers⟩ := findBlock?_eq_some hfind
    have hblockEnd := hend block (List.mem_of_getElem? hblock)
    rw [Bool.and_eq_true, beq_iff_eq, inWindow_iff hblockEnd] at hanswers
    obtain ⟨hspace, offset, hoffset, rfl⟩ := hanswers
    refine ⟨index, block, offset, hblock, hspace, hoffset, rfl, ?_⟩
    have hsum := toNat_base_add hblockEnd hoffset
    exact congrArg (Cell.block index) (by bv_omega)
  · rintro ⟨index, block, offset, hblock, hspace, hoffset, rfl, rfl⟩
    have hblockEnd := hend block (List.mem_of_getElem? hblock)
    have hsum := toNat_base_add hblockEnd hoffset
    rw [windowCell?, findBlock?_of_unique hblock]
    · exact congrArg (fun k => some (Cell.block index k)) (by bv_omega)
    · rw [hspace, beq_self_eq_true, Bool.true_and, inWindow_iff hblockEnd]
      exact ⟨offset, hoffset, rfl⟩
    · intro entry hentry hanswers
      have hother := List.mem_zipIdx_iff_getElem?.mp hentry
      rw [Bool.and_eq_true, inWindow_iff (hend entry.1 (List.mem_of_getElem? hother))] at hanswers
      obtain ⟨-, offset', hoffset', hsame⟩ := hanswers
      have hindex := Model.index_unique hblock hother hoffset hoffset' hsame
      rw [← hindex, hblock] at hother
      exact Prod.ext (Option.some.inj hother).symm hindex.symm

/-- The address of block B2's words. -/
theorem b2Cell?_eq_some_iff (address : Half) (cell : Cell) :
    b2Cell? address = some cell ↔
      ∃ offset : Fin 32, address.toNat = 0x60 + offset.val ∧ cell = .b2 offset := by
  unfold b2Cell?
  split
  · next hin =>
    constructor
    · intro hcell
      refine ⟨_, ?_, (Option.some.inj hcell).symm⟩
      dsimp only
      omega
    · rintro ⟨offset, hoffset, rfl⟩
      have hsame : address.toNat - 0x60 = offset.val := by omega
      simp only [hsame]
  · next hout =>
    constructor
    · exact fun hcell => Option.noConfusion rfl (heq_of_eq hcell)
    · rintro ⟨offset, hoffset, -⟩
      have := offset.isLt
      omega

/-- A data cell is a word of block B2 or of a block in data space, never both. -/
theorem dataCell?_eq_some_iff (ram : OnChipRam) (address : Half) (cell : Cell) :
    ram.dataCell? address = some cell ↔
      b2Cell? address = some cell ∨ ram.windowCell? false address = some cell := by
  rw [dataCell?_eq]
  cases hb2 : b2Cell? address with
  | none => simp only [Option.orElse_eq_orElse, Option.orElse_none, reduceCtorEq, false_or]
  | some low =>
    have hwindow : ram.windowCell? false address = none := by
      rw [Option.eq_none_iff_forall_ne_some]
      intro cell hcell
      obtain ⟨index, block, offset, hblock, -, hoffset, haddress, -⟩ :=
        (ram.windowCell?_eq_some_iff _ _ _).mp hcell
      obtain ⟨place, hplace, -⟩ := (b2Cell?_eq_some_iff _ _).mp hb2
      have hmem := List.mem_of_getElem? hblock
      have hsum := toNat_base_add (ram.model.base_add_size_le false block hmem) hoffset
      have hlow := ram.model.le_dataBase block hmem
      have hbase : (block.base false).toNat = block.dataBase.toNat := rfl
      rw [← haddress] at hsum
      have := place.isLt
      omega
    simp only [Option.orElse_eq_orElse, Option.orElse_some, hwindow, reduceCtorEq, or_false]

/-- A word of a configurable block answers at one address of the space that the block is in. -/
theorem windowCell?_inj {ram : OnChipRam} {program other : Bool} {address spot : Half} {cell : Cell}
    (hcell : ram.windowCell? program address = some cell)
    (hspot : ram.windowCell? other spot = some cell) : program = other ∧ address = spot := by
  obtain ⟨index, block, offset, hblock, hspace, -, rfl, rfl⟩ :=
    (ram.windowCell?_eq_some_iff _ _ _).mp hcell
  obtain ⟨index', block', offset', hblock', hspace', -, rfl, hsame⟩ :=
    (ram.windowCell?_eq_some_iff _ _ _).mp hspot
  obtain ⟨rfl, rfl⟩ := Cell.block.inj hsame
  obtain rfl : block = block' := Option.some.inj (hblock.symm.trans hblock')
  obtain rfl : program = other := hspace.symm.trans hspace'
  exact ⟨rfl, rfl⟩

/-- Words of block B2 are words of no configurable block. -/
theorem b2Cell?_ne_windowCell? {ram : OnChipRam} {program : Bool} {address spot : Half} {cell : Cell}
    (hcell : b2Cell? address = some cell) : ram.windowCell? program spot ≠ some cell := by
  intro hspot
  obtain ⟨offset, -, rfl⟩ := (b2Cell?_eq_some_iff _ _).mp hcell
  obtain ⟨_, _, _, -, -, -, -, hsame⟩ := (ram.windowCell?_eq_some_iff _ _ _).mp hspot
  contradiction

/-- No two data addresses share a cell. -/
theorem dataCell?_inj {ram : OnChipRam} {address spot : Half} {cell : Cell}
    (hcell : ram.dataCell? address = some cell) (hspot : ram.dataCell? spot = some cell) :
    address = spot := by
  rw [dataCell?_eq_some_iff] at hcell hspot
  rcases hcell with hcell | hcell
  · rcases hspot with hspot | hspot
    · obtain ⟨offset, haddress, rfl⟩ := (b2Cell?_eq_some_iff _ _).mp hcell
      obtain ⟨offset', haddress', hsame⟩ := (b2Cell?_eq_some_iff _ _).mp hspot
      obtain rfl := Cell.b2.inj hsame
      exact BitVec.eq_of_toNat_eq (haddress.trans haddress'.symm)
    · exact absurd hspot (b2Cell?_ne_windowCell? hcell)
  · rcases hspot with hspot | hspot
    · exact absurd hcell (b2Cell?_ne_windowCell? hspot)
    · exact (windowCell?_inj hcell hspot).2

/-- No two program addresses share a cell. -/
theorem programCell?_inj {ram : OnChipRam} {address spot : Half} {cell : Cell}
    (hcell : ram.programCell? address = some cell) (hspot : ram.programCell? spot = some cell) :
    address = spot := by
  rw [programCell?_eq] at hcell hspot
  exact (windowCell?_inj hcell hspot).2

/-- No cell answers in both spaces. -/
theorem dataCell?_ne_programCell? {ram : OnChipRam} {address spot : Half} {cell : Cell}
    (hcell : ram.dataCell? address = some cell) : ram.programCell? spot ≠ some cell := by
  rw [programCell?_eq]
  rcases (ram.dataCell?_eq_some_iff _ _).mp hcell with hcell | hcell
  · exact b2Cell?_ne_windowCell? hcell
  · exact fun hspot => Bool.noConfusion (windowCell?_inj hcell hspot).1

/-! ## Storage of the cells -/

/-- A cell that the block storage has room for. -/
def Holds (ram : OnChipRam) : Cell → Prop
  | .b2 _ => True
  | .block index offset => ∃ words, ram.blocks[index]? = some words ∧ offset < words.size

/-- Storage of the shape that its model lays out has room for every word of a window. -/
theorem holds_of_windowCell? {ram : OnChipRam} {model : Model} (hfits : ram.fits model = true)
    {program : Bool} {address : Half} {cell : Cell}
    (hcell : ram.windowCell? program address = some cell) : ram.Holds cell := by
  obtain ⟨index, block, offset, hblock, -, hoffset, -, rfl⟩ :=
    (ram.windowCell?_eq_some_iff _ _ _).mp hcell
  simp only [fits, Bool.and_eq_true, beq_iff_eq] at hfits
  obtain ⟨⟨rfl, -⟩, hsizes⟩ := hfits
  have hsize := congrArg (·[index]?) hsizes
  simp only [List.getElem?_map, hblock, Array.getElem?_toList, Option.map_some,
    Option.map_eq_some_iff] at hsize
  obtain ⟨words, hwords, hsame⟩ := hsize
  exact ⟨words, hwords, hsame ▸ hoffset⟩

/-- Block B2 always has room for its own words. -/
theorem holds_of_dataCell? {ram : OnChipRam} {model : Model} (hfits : ram.fits model = true)
    {address : Half} {cell : Cell} (hcell : ram.dataCell? address = some cell) : ram.Holds cell := by
  rcases (ram.dataCell?_eq_some_iff _ _).mp hcell with hcell | hcell
  · obtain ⟨offset, -, rfl⟩ := (b2Cell?_eq_some_iff _ _).mp hcell
    exact trivial
  · exact holds_of_windowCell? hfits hcell

/-- A word stored in a cell is found there and in no other cell. -/
theorem get_set {ram : OnChipRam} {cell : Cell} (hholds : ram.Holds cell) (other : Cell)
    (value : Half) : (ram.set cell value).get other = if other = cell then value else ram.get other := by
  cases cell with
  | b2 offset =>
    cases other with
    | b2 spot =>
      have hword := ram.b2.getElem_set offset.isLt (x := value) spot.isLt
      simp only [Cell.b2.injEq, Fin.ext_iff, eq_comm (a := spot.val)]
      exact hword
    | block index spot => rfl
  | block index offset =>
    cases other with
    | b2 spot => rfl
    | block index' spot =>
      obtain ⟨words, hwords, hoffset⟩ := hholds
      simp only [get, set, Array.getD_eq_getD_getElem?, Array.getElem?_modify, Cell.block.injEq]
      by_cases hindex : index = index'
      · subst hindex
        simp only [↓reduceIte, hwords, Option.map_some, Option.getD_some, true_and,
          Array.getElem?_setIfInBounds]
        by_cases hspot : offset = spot
        · subst hspot
          simp only [↓reduceIte, hoffset, Option.getD_some]
        · rw [if_neg hspot, if_neg (Ne.symm hspot)]
      · rw [if_neg hindex, if_neg fun h => hindex h.1.symm]
/-- Storing into a cell changes no mapped register. -/
theorem getRegister_set (ram : OnChipRam) (cell : Cell) (value : Half) (register : MappedRegister) :
    (ram.set cell value).getRegister register = ram.getRegister register := by
  cases cell <;> cases register <;> rfl

/-- Storing into a mapped register changes no cell. -/
theorem get_setRegister (ram : OnChipRam) (register : MappedRegister) (value : Half) (cell : Cell) :
    (ram.setRegister register value).get cell = ram.get cell := by
  cases register <;> cases cell <;> rfl

/-- What decides which cell answers at an address. -/
def layout (ram : OnChipRam) : Model × Array Bool := (ram.model, ram.inProgram)

/-- Storing into a cell leaves the layout. -/
@[simp] theorem layout_set (ram : OnChipRam) (cell : Cell) (value : Half) :
    (ram.set cell value).layout = ram.layout := by
  cases cell <;> rfl

/-- Storing into a mapped register leaves the layout. -/
@[simp] theorem layout_setRegister (ram : OnChipRam) (register : MappedRegister) (value : Half) :
    (ram.setRegister register value).layout = ram.layout := by
  cases register <;> rfl

/-! ## Moving a block -/

/-- The cell that answers at an address of program space, or of data space. -/
def cellAt? (ram : OnChipRam) (program : Bool) (address : Half) : Option Cell :=
  if program then ram.programCell? address else ram.dataCell? address

/-- The on-chip word at an address of program space, or of data space. -/
def onChip? (ram : OnChipRam) (program : Bool) (address : Half) : Option Half :=
  if program then ram.program address else ram.data address

/-- Moving a block changes no word. -/
theorem get_mapBlock (ram : OnChipRam) (index : Nat) (program : Bool) (cell : Cell) :
    (ram.mapBlock index program).get cell = ram.get cell := by
  cases cell <;> rfl

/-- Moving a block sets its own flag and no other. -/
theorem isProgram_mapBlock {ram : OnChipRam} {index : Nat} (hindex : index < ram.inProgram.size)
    (program : Bool) (other : Nat) :
    (ram.mapBlock index program).isProgram other =
      if other = index then program else ram.isProgram other := by
  simp only [isProgram, mapBlock, Array.getD_eq_getD_getElem?, Array.getElem?_setIfInBounds]
  by_cases hother : other = index
  · subst hother
    simp only [↓reduceIte, hindex, Option.getD_some]
  · rw [if_neg hother, if_neg (Ne.symm hother)]

/-- Windows are above everything else on chip, so only they depend on where the blocks are. -/
theorem cellAt?_eq_some_block_iff (ram : OnChipRam) (program : Bool) (address : Half)
    (index offset : Nat) :
    ram.cellAt? program address = some (.block index offset) ↔
      ∃ block, ram.model.blocks[index]? = some block ∧ ram.isProgram index = program ∧
        offset < block.size.toNat ∧ address = block.base program + BitVec.ofNat 16 offset := by
  have hwindow : ram.cellAt? program address = some (.block index offset) ↔
      ram.windowCell? program address = some (.block index offset) := by
    cases program with
    | true =>
      change ram.programCell? address = _ ↔ _
      rw [programCell?_eq]
    | false =>
      change ram.dataCell? address = _ ↔ _
      rw [dataCell?_eq_some_iff]
      refine ⟨fun h => h.resolve_left fun hb2 => ?_, .inr⟩
      obtain ⟨_, -, hsame⟩ := (b2Cell?_eq_some_iff _ _).mp hb2
      contradiction
  rw [hwindow, windowCell?_eq_some_iff]
  constructor
  · rintro ⟨_, block, _, hblock, hspace, hoffset, haddress, hsame⟩
    obtain ⟨rfl, rfl⟩ := Cell.block.inj hsame
    exact ⟨block, hblock, hspace, hoffset, haddress⟩
  · rintro ⟨block, hblock, hspace, hoffset, haddress⟩
    exact ⟨index, block, offset, hblock, hspace, hoffset, haddress, rfl⟩

/-- A word of block B2 answers in data space wherever the other blocks are. -/
theorem cellAt?_eq_some_b2_iff (ram : OnChipRam) (program : Bool) (address : Half)
    (offset : Fin 32) :
    ram.cellAt? program address = some (.b2 offset) ↔
      program = false ∧ address.toNat = 0x60 + offset.val := by
  have hwindow : ram.windowCell? program address ≠ some (.b2 offset) := by
    intro hcell
    obtain ⟨_, _, _, -, -, -, -, hsame⟩ := (ram.windowCell?_eq_some_iff _ _ _).mp hcell
    contradiction
  cases program with
  | true =>
    change ram.programCell? address = _ ↔ _
    rw [programCell?_eq]
    exact ⟨fun h => absurd h hwindow, fun h => Bool.noConfusion h.1⟩
  | false =>
    change ram.dataCell? address = _ ↔ _
    rw [dataCell?_eq_some_iff, b2Cell?_eq_some_iff]
    constructor
    · rintro (⟨other, haddress, hsame⟩ | hcell)
      · obtain rfl := Cell.b2.inj hsame
        exact ⟨rfl, haddress⟩
      · exact absurd hcell hwindow
    · rintro ⟨-, haddress⟩
      exact .inl ⟨offset, haddress, rfl⟩

/-- A word of a block is read at its address. -/
theorem onChip?_of_cellAt? {ram : OnChipRam} {program : Bool} {address : Half} {index offset : Nat}
    (hcell : ram.cellAt? program address = some (.block index offset)) :
    ram.onChip? program address = some (ram.get (.block index offset)) := by
  cases program with
  | true =>
    change ram.programCell? address = _ at hcell
    change (ram.programCell? address).map ram.get = _
    rw [hcell]
    rfl
  | false =>
    obtain ⟨block, hblock, -, hoffset, haddress⟩ :=
      (ram.cellAt?_eq_some_block_iff _ _ _ _).mp hcell
    have hmem := List.mem_of_getElem? hblock
    have hsum := toNat_base_add (ram.model.base_add_size_le false block hmem) hoffset
    have hlow := ram.model.le_dataBase block hmem
    have hbase : (block.base false).toNat = block.dataBase.toNat := rfl
    have hregister : MappedRegister.ofAddress? address = none := by
      rw [Option.eq_none_iff_forall_ne_some]
      intro register hregister
      have hsmall := register.address_lt
      rw [← haddress, MappedRegister.ofAddress?_eq_some hregister] at hsum
      omega
    change ram.dataCell? address = _ at hcell
    change ram.data address = _
    rw [data, hregister, hcell]
    rfl

/-- What is read at an address on chip is settled by the cell there, mapped registers apart. -/
theorem onChip?_congr {ram other : OnChipRam} {program : Bool} {address : Half}
    (hcell : ram.cellAt? program address = other.cellAt? program address)
    (hget : ram.get = other.get) (hregister : ram.getRegister = other.getRegister) :
    ram.onChip? program address = other.onChip? program address := by
  cases program with
  | true =>
    change ram.programCell? address = other.programCell? address at hcell
    change ram.program address = other.program address
    rw [program, program, hcell, hget]
  | false =>
    change ram.dataCell? address = other.dataCell? address at hcell
    change ram.data address = other.data address
    rw [data, data, hcell, hget, hregister]

/-- A block of the part has a flag. -/
theorem lt_inProgram_of_fits {ram : OnChipRam} (hfits : ram.fits ram.model = true) {index : Nat}
    {block : Block} (hblock : ram.model.blocks[index]? = some block) : index < ram.inProgram.size := by
  simp only [fits, Bool.and_eq_true, beq_iff_eq] at hfits
  rw [hfits.1.2]
  exact (List.getElem?_eq_some_iff.mp hblock).1

/-- The words of a block that was told where to be are found in its window there, and nowhere else. -/
theorem cellAt?_mapBlock_iff {ram : OnChipRam} {index : Nat} {block : Block}
    (hindex : index < ram.inProgram.size) (hblock : ram.model.blocks[index]? = some block)
    (program space : Bool) (address : Half) (offset : Nat) :
    (ram.mapBlock index program).cellAt? space address = some (.block index offset) ↔
      space = program ∧ offset < block.size.toNat ∧
        address = block.base space + BitVec.ofNat 16 offset := by
  rw [cellAt?_eq_some_block_iff, isProgram_mapBlock hindex program index, if_pos rfl]
  constructor
  · rintro ⟨other, hother, hspace, hoffset, haddress⟩
    obtain rfl : block = other := Option.some.inj (hblock.symm.trans hother)
    exact ⟨hspace.symm, hoffset, haddress⟩
  · rintro ⟨hspace, hoffset, haddress⟩
    exact ⟨block, hblock, hspace.symm, hoffset, haddress⟩

/-- An address outside the window of a block shows the same wherever the block is. -/
theorem onChip?_mapBlock_of_outside {ram : OnChipRam} {index : Nat} {block : Block}
    (hindex : index < ram.inProgram.size) (hblock : ram.model.blocks[index]? = some block)
    (program space : Bool) {address : Half}
    (hout : inWindow (block.base space) block.size address = false) :
    (ram.mapBlock index program).onChip? space address = ram.onChip? space address := by
  have houtside : ∀ offset < block.size.toNat, address ≠ block.base space + BitVec.ofNat 16 offset := by
    intro offset hoffset haddress
    have hend := ram.model.base_add_size_le space block (List.mem_of_getElem? hblock)
    rw [(inWindow_iff hend).mpr ⟨offset, hoffset, haddress⟩] at hout
    contradiction
  refine onChip?_congr (Option.ext fun cell => ?_) (funext (ram.get_mapBlock index program)) rfl
  cases cell with
  | b2 offset =>
    rw [cellAt?_eq_some_b2_iff, cellAt?_eq_some_b2_iff]
  | block other offset =>
    by_cases hother : other = index
    · -- The block itself does not reach the address, before or after.
      subst hother
      rw [cellAt?_mapBlock_iff hindex hblock, cellAt?_eq_some_block_iff]
      constructor
      · rintro ⟨-, hoffset, haddress⟩
        exact absurd haddress (houtside offset hoffset)
      · rintro ⟨found, hfound, -, hoffset, haddress⟩
        obtain rfl : block = found := Option.some.inj (hblock.symm.trans hfound)
        exact absurd haddress (houtside offset hoffset)
    · rw [cellAt?_eq_some_block_iff, cellAt?_eq_some_block_iff, isProgram_mapBlock hindex program other,
        if_neg hother]
      exact Iff.rfl

/-- Moving a block to the other space moves each of its words to the same offset in its other
window, and nothing else. -/
theorem onChip?_mapBlock {ram : OnChipRam} {model : Model} (hfits : ram.fits model = true)
    {index : Nat} {block : Block} (hblock : model.blocks[index]? = some block) {program : Bool}
    (hprogram : ram.isProgram index = !program) :
    let moved := ram.mapBlock index program
    (∀ offset < block.size.toNat,
      moved.onChip? program (block.base program + BitVec.ofNat 16 offset) =
          ram.onChip? (!program) (block.base (!program) + BitVec.ofNat 16 offset) ∧
        ram.onChip? (!program) (block.base (!program) + BitVec.ofNat 16 offset) =
          some (ram.get (.block index offset)) ∧
        ∀ space address, moved.cellAt? space address = some (.block index offset) ↔
          space = program ∧ address = block.base program + BitVec.ofNat 16 offset) ∧
      ∀ space address, inWindow (block.base space) block.size address = false →
        moved.onChip? space address = ram.onChip? space address := by
  intro moved
  obtain rfl : ram.model = model := by
    have hlayout := hfits
    simp only [fits, Bool.and_eq_true, beq_iff_eq] at hlayout
    exact hlayout.1.1
  have hindex := lt_inProgram_of_fits hfits hblock
  have hmoved := cellAt?_mapBlock_iff hindex hblock program
  refine ⟨fun offset hoffset => ?_, fun space address => onChip?_mapBlock_of_outside hindex hblock _ _⟩
  have hold : ram.cellAt? (!program) (block.base (!program) + BitVec.ofNat 16 offset) =
      some (.block index offset) :=
    (ram.cellAt?_eq_some_block_iff _ _ _ _).mpr ⟨block, hblock, hprogram, hoffset, rfl⟩
  have hnew : moved.cellAt? program (block.base program + BitVec.ofNat 16 offset) =
      some (.block index offset) := (hmoved _ _ _).mpr ⟨rfl, hoffset, rfl⟩
  rw [onChip?_of_cellAt? hold, onChip?_of_cellAt? hnew, ram.get_mapBlock]
  refine ⟨rfl, rfl, fun space address => ?_⟩
  rw [hmoved]
  constructor
  · rintro ⟨rfl, -, haddress⟩
    exact ⟨rfl, haddress⟩
  · rintro ⟨rfl, haddress⟩
    exact ⟨rfl, hoffset, haddress⟩

end OnChipRam

end ProcessorCores.Tms

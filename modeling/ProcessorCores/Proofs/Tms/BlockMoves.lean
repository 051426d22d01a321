import ProcessorCores.Proofs.Tms.Transfers

/-!
# Block moves

BLKD, BLKP and TBLR store word after word of data space or of program space. BLKD and BLKP have the
address of the first in their second word, and TBLR has it in the accumulator; whichever it is, the first
pass of a repeat block takes it to the prefetch counter, and the passes count it on from there.

The destinations may be anywhere in data space. Program words cannot be among them, but with BLKD the
source can, and then a word may be overwritten before it is read. Where the two rows are apart, the block
is a copy.
-/

namespace ProcessorCores.Tms

/-- The moves that store word after word. -/
inductive BlockMove
  /-- Data words from the address in the second word: BLKD. -/
  | data
  /-- Program words from there: BLKP. -/
  | program
  /-- Program words from the address in the accumulator: TBLR. -/
  | table
  deriving DecidableEq, Repr

namespace BlockMove

/-- The operation. -/
def op : BlockMove → MoveOp
  | .data => .blkd
  | .program => .blkp
  | .table => .tblr

/-- How many words follow the instruction word. -/
def trailing : BlockMove → Half
  | .data | .program => 1
  | .table => 0

/-- The address of the first word that is stored, for a machine about to execute the RPTK before the
move. -/
def source (move : BlockMove) (start : Machine) : Half :=
  match move with
  | .data | .program => (start.readProgram (start.core.regs.pc + 2)).1
  | .table => lowHalf start.core.regs.acc

/-- Read a word that is to be stored. -/
def read (move : BlockMove) (machine : Machine) (address : Half) : Half × Machine :=
  match move with
  | .data => machine.readData address
  | .program | .table => machine.readProgram address

/-- Where such a word is kept. -/
def home (move : BlockMove) (ram : OnChipRam) (address : Half) : Home :=
  match move with
  | .data => ram.dataHome address
  | .program | .table => ram.programHome address

/-- What only the first pass does: it takes the address of the first word to the prefetch counter. -/
def load (move : BlockMove) (machine : Machine) : Machine :=
  match move with
  | .data | .program => machine.loadPfc
  | .table => machine.pfcFromAcc

/-- What every pass does: it stores the word at the prefetch counter. -/
def work (move : BlockMove) (machine : Machine) : Machine :=
  let source := machine.core.regs.pfc
  let (value, machine) := move.read machine source
  (machine.storeOperand value).setPfc (source + 1)

/-! ## One pass -/

variable (move : BlockMove)

/-- A move reads the word at the home of its source. -/
theorem read_eq_word (machine : Machine) (address : Half) :
    (move.read machine address).1 = machine.word (move.home machine.core.ram address) := by
  cases move with
  | data => exact machine.readData_eq_word address
  | program | table => exact machine.readProgram_eq_word address

/-- A read leaves the core and the words behind the bus. -/
theorem read_keeps (machine : Machine) (address : Half) :
    (move.read machine address).2.core = machine.core ∧
      (move.read machine address).2.bus.memory = machine.bus.memory := by
  cases move with
  | data => exact ⟨machine.readData_core address, machine.readData_keeps address⟩
  | program | table => exact ⟨machine.readProgram_core address, machine.readProgram_keeps address⟩

/-- A move is its load and its work. -/
theorem execute_eq (machine : Machine) :
    (machine.execute (.move move.op)).1 = move.work (move.load machine) := by
  cases move <;> rfl

/-- The load is over after the first pass. -/
theorem load_of_later {machine : Machine} (h : machine.core.firstPass = false) :
    move.load machine = machine := by
  cases move with
  | data | program => exact Machine.loadPfc_of_later h
  | table => rw [load, Machine.pfcFromAcc, h, if_neg Bool.false_ne_true]

/-- A pass over an operand written `*+`: a word is stored at the auxiliary register in use, and both rows
go on. -/
theorem passOf_eq {machine : Machine} (h : Increments machine.core.opcode) :
    let read := move.read machine machine.core.regs.pfc
    let address := machine.core.regs.currentAr
    let after := Machine.passOf move.work machine
    after.core.opcode = machine.core.opcode ∧
      after.core.ram = (read.2.writeData address read.1).core.ram ∧
      after.bus = (read.2.writeData address read.1).bus ∧
      after.core.regs.lasting =
        { machine.core.regs.setCurrentAr (address + 1) with
          pfc := machine.core.regs.pfc + 1 }.lasting := by
  have hcore := (move.read_keeps machine machine.core.regs.pfc).1
  have hstrides : Strides (move.read machine machine.core.regs.pfc).2.core.opcode 1 := by
    rw [hcore]
    exact .inl ⟨h, rfl⟩
  obtain ⟨hopcode, hram, hbus, hregs⟩ := Machine.storeOperand_of_strides hstrides
    (move.read machine machine.core.regs.pfc).1
  rw [hcore] at hopcode hram hbus hregs
  exact ⟨hopcode, hram, hbus,
    congrArg (fun regs => { regs with pfc := machine.core.regs.pfc + 1 }) hregs⟩

/-! ## The block -/

/-- A block of moves between two passes: so many words are stored, and the registers of the two rows
stand at the next. -/
structure Moving (start now : Machine) (count : Nat) : Prop where
  word : Increments now.core.opcode
  regs : now.core.regs.lasting =
    { start.core.regs.setCurrentAr (nthFrom start.core.regs.currentAr 1 count) with
      pc := start.core.regs.pc + 2 + move.trailing
      pfc := nthFrom (move.source start) 1 count }.lasting
  stored : start.Stored now (nthFrom start.core.regs.currentAr 1)
    (fun index => start.word (move.home start.core.ram (nthFrom (move.source start) 1 index))) count

/-- Where the word that comes next is, nothing is stored before. -/
def Apart (start : Machine) (count : Nat) : Prop :=
  ∀ index < count, start.core.ram.dataHome (nthFrom start.core.regs.currentAr 1 index) ≠
    move.home start.core.ram (nthFrom (move.source start) 1 count)

/-- The work begins after the load of a block that RPTK has armed. -/
theorem moving_load {machine : Machine} (hfirst : machine.core.firstPass = true)
    (hrptk : machine.ready.op = .rptk) (hword : Increments machine.block.core.opcode) :
    move.Moving machine.served (move.load machine.block) 0 := by
  have hrow := machine.served.core.regs.setCurrentAr_currentAr
  obtain ⟨hopcode, hram, hmemory, hregs⟩ := Machine.loadPfc_of_rptk hfirst hrptk
  have hloaded : (move.load machine.block).core.opcode = machine.block.core.opcode ∧
      (move.load machine.block).core.ram = machine.served.core.ram ∧
      (move.load machine.block).bus.memory = machine.served.bus.memory ∧
      (move.load machine.block).core.regs.lasting = { machine.served.core.regs with
        pc := machine.served.core.regs.pc + 2 + move.trailing
        pfc := move.source machine.served }.lasting := by
    cases move with
    | data | program =>
      have hpc : machine.served.core.regs.pc + 2 + 1 = machine.served.core.regs.pc + 3 :=
        BitVec.add_assoc ..
      rw [load, hregs, source, trailing, hpc]
      exact ⟨hopcode, hram, hmemory, rfl⟩
    | table =>
      obtain ⟨hregs, hram⟩ := Machine.block_of_rptk hrptk
      have hpc : machine.served.core.regs.pc + 2 + 0 = machine.served.core.regs.pc + 2 :=
        BitVec.add_zero _
      rw [load, Machine.pfcFromAcc_of_first (Machine.block_core hfirst (.inr hrptk)).1, hregs, source,
        trailing, hpc]
      dsimp only
      exact ⟨rfl, hram, Machine.block_memory hrptk, rfl⟩
  obtain ⟨hopcode, hram, hmemory, hregs⟩ := hloaded
  constructor
  case word =>
    rw [hopcode]
    exact hword
  case regs => rw [hregs, nthFrom_zero, nthFrom_zero, hrow]
  case stored => exact (Machine.Stored.zero _ _ _).of_memory hram hmemory

variable {move} {start now : Machine} {model : Model} {count : Nat}

/-- A source has its home all the time. -/
theorem Moving.home (h : move.Moving start now count) (address : Half) :
    move.home now.core.ram address = move.home start.core.ram address := by
  cases move with
  | data => exact congrFun h.stored.homes.1 address
  | program | table => exact congrFun h.stored.homes.2 address

/-- A pass moves one word more. -/
theorem Moving.pass (h : move.Moving start now count) (hfits : start.core.ram.fits model = true)
    (hcount : count < 2 ^ 16) (hapart : move.Apart start count) :
    move.Moving start (Machine.passOf move.work now) (count + 1) := by
  have hsource : now.core.regs.pfc = nthFrom (move.source start) 1 count := congrArg Registers.pfc h.regs
  have haddress : now.core.regs.currentAr = nthFrom start.core.regs.currentAr 1 count :=
    (congrArg Registers.currentAr h.regs).trans (Registers.currentAr_setCurrentAr _ _)
  have hvalue : (move.read now now.core.regs.pfc).1 =
      start.word (move.home start.core.ram (nthFrom (move.source start) 1 count)) := by
    rw [read_eq_word, h.home, hsource]
    exact h.stored.kept _ fun index hindex heq => hapart index hindex heq.symm
  obtain ⟨hopcode, hram, hbus, hregs⟩ := move.passOf_eq h.word
  obtain ⟨hcore, hmemory⟩ := move.read_keeps now now.core.regs.pfc
  have hread := h.stored.of_memory (congrArg (·.ram) hcore) hmemory
  have hwritten := hread.write hfits fun _ => nthFrom_ne (.inl rfl) hcount
  rw [hvalue, haddress] at hram hbus
  rw [haddress, hsource, ← nthFrom_succ, ← nthFrom_succ] at hregs
  constructor
  case word =>
    rw [hopcode]
    exact h.word
  case regs =>
    have hstepped := congrArg (fun regs : Registers =>
      { regs.setCurrentAr (nthFrom start.core.regs.currentAr 1 (count + 1)) with
        pfc := nthFrom (move.source start) 1 (count + 1) }) h.regs
    have hwrites := start.core.regs.setCurrentAr_setCurrentAr
      (nthFrom start.core.regs.currentAr 1 count) (nthFrom start.core.regs.currentAr 1 (count + 1))
    refine (hregs.trans hstepped).trans ?_
    exact congrArg (fun regs : Registers => { regs with
      pc := start.core.regs.pc + 2 + move.trailing
      pfc := nthFrom (move.source start) 1 (count + 1) }.lasting) hwrites
  case stored => exact hwritten.of_memory hram (congrArg (·.memory) hbus)

/-- All passes together move all words. -/
theorem Moving.passes (h : move.Moving start now 0) (hfits : start.core.ram.fits model = true)
    (hcount : count ≤ 2 ^ 16) (hapart : ∀ index < count, move.Apart start index) :
    move.Moving start ((Machine.passOf move.work)^[count] now) count :=
  Machine.after_passes (P := fun index now => move.Moving start now index) h fun index hindex _ hmoving =>
    hmoving.pass hfits (Nat.lt_of_lt_of_le hindex hcount) (hapart index hindex)

/-- What is left of so many words moved: each is at its destination as it was at its source before, and
nothing else has changed but the registers of the two rows. -/
structure Moved (move : BlockMove) (start after : Machine) (count : Nat) : Prop where
  moved : ∀ index < count,
    (after.readData (start.core.regs.currentAr + BitVec.ofNat 16 index)).1 =
      (move.read start (move.source start + BitVec.ofNat 16 index)).1
  kept : ∀ home,
    (∀ index < count,
      home ≠ start.core.ram.dataHome (start.core.regs.currentAr + BitVec.ofNat 16 index)) →
    after.word home = start.word home
  /-- Behind the bus not a byte changes where every destination is on chip. -/
  bus : (∀ index < count,
      start.core.ram.data (start.core.regs.currentAr + BitVec.ofNat 16 index) ≠ none) →
    after.bus.memory = start.bus.memory
  ar : after.core.regs.currentAr = start.core.regs.currentAr + BitVec.ofNat 16 count
  arp : after.core.regs.status.arp = start.core.regs.status.arp
  acc : after.core.regs.acc = start.core.regs.acc
  pc : after.core.regs.pc = start.core.regs.pc + 2 + move.trailing

/-- A block that is through has moved its words. -/
theorem Moving.moved (h : move.Moving start now count) :
    move.Moved start (now.mapCore Core.endBlock) count := by
  have hstored : start.Stored (now.mapCore Core.endBlock) _ _ count := h.stored.of_memory rfl rfl
  have hrow (first : Half) : nthFrom first 1 = fun index => first + BitVec.ofNat 16 index :=
    funext (nthFrom_one first)
  rw [hrow, hrow] at hstored
  constructor
  case moved =>
    intro index hindex
    rw [Machine.readData_eq_word, hstored.homes.1, hstored.stored index hindex, read_eq_word]
  case kept => exact hstored.kept
  case bus => exact hstored.bus
  case ar =>
    have har := (congrArg Registers.currentAr h.regs).trans (Registers.currentAr_setCurrentAr _ _)
    rw [nthFrom_one] at har
    exact har
  case arp =>
    have harp := congrArg (fun regs : Registers => regs.status.arp) h.regs
    exact harp
  case acc =>
    have hacc := congrArg Registers.acc h.regs
    exact hacc
  case pc => exact congrArg Registers.pc h.regs

end BlockMove

/-- RPTK and a move with an operand written `*+` move one word more than the count says, from wherever
they are to consecutive data words. A move from data space asks for the two rows to be apart. -/
theorem repeated_block_move {machine : Machine} {model : Model} {move : BlockMove} {count : Nat}
    (hfirst : machine.core.firstPass = true) (hfits : machine.served.core.ram.fits model = true)
    (hrptk : machine.ready.op = .rptk)
    (hcount : (lowByte machine.ready.core.opcode).toNat = count)
    (hmove : machine.block.op = .move move.op) (hword : Increments machine.block.core.opcode)
    (hapart : move = .data → ∀ index ≤ count, ∀ other ≤ count,
      move.source machine.served + BitVec.ofNat 16 index ≠
        machine.served.core.regs.currentAr + BitVec.ofNat 16 other) :
    move.Moved machine.served machine.step.1 (count + 1) := by
  have hbyte := (lowByte machine.ready.core.opcode).isLt
  have hnever : ∀ index < count + 1, move.Apart machine.served index := by
    intro index hindex other hother heq
    cases move with
    | data =>
      rw [nthFrom_one, nthFrom_one] at heq
      exact hapart rfl index (by omega) other (by omega) (OnChipRam.dataHome_inj heq).symm
    | program | table => exact OnChipRam.dataHome_ne_programHome _ _ _ heq
  have hmoving := (move.moving_load hfirst hrptk hword).passes hfits (by omega) hnever
  have hplain : Op.move move.op ≠ .rpt ∧ Op.move move.op ≠ .rptk := ⟨nofun, nofun⟩
  rw [Machine.step_of_load hrptk hmove hplain move.execute_eq fun _ => move.load_of_later, hcount]
  exact hmoving.moved

/-- Three words from the top of data space, the second and third of them serial registers, to block
B2. -/
theorem repeated_block_move_wrapped :
    let core := Core.new .tms32025
    let machine : Machine :=
      ⟨{ core with regs := core.regs.setAr 0 0x60, ram := { core.ram with drr := 22, dxr := 33 } },
        (Bus.empty.loadHalves .program 0 [0xCB02, 0xFDA0, 0xFFFF]).loadHalves .data 0x1FFFE [11]⟩
    let after := machine.step.1
    (after.readData 0x60).1 = 11 ∧ (after.readData 0x61).1 = 22 ∧ (after.readData 0x62).1 = 33 ∧
      after.bus.memory = machine.served.bus.memory ∧ after.core.regs.currentAr = 0x63 ∧
      after.core.regs.pc = 3 := by
  intro core machine after
  have hapart : BlockMove.data = .data → ∀ index ≤ 2, ∀ other ≤ 2,
      BlockMove.data.source machine.served + BitVec.ofNat 16 index ≠
        machine.served.core.regs.currentAr + BitVec.ofNat 16 other := by
    decide +kernel
  have hfits : machine.served.core.ram.fits .tms32025 = true := by decide +kernel
  have hmoved := repeated_block_move rfl hfits (by decide +kernel) (by decide +kernel)
    (by decide +kernel) (by decide +kernel) hapart
  have haddress : machine.served.core.regs.currentAr = 0x60 := by decide +kernel
  obtain ⟨hwords, -, hbus, har, -, -, hpc⟩ := hmoved
  rw [haddress] at hwords hbus har
  exact ⟨(hwords 0 (by decide)).trans (by decide +kernel),
    (hwords 1 (by decide)).trans (by decide +kernel),
    (hwords 2 (by decide)).trans (by decide +kernel), hbus (by decide +kernel), har,
    hpc.trans (by decide +kernel)⟩

end ProcessorCores.Tms

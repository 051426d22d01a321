import Mathlib.Logic.Function.Iterate
import ProcessorCores.Proofs.Tms.OffChip
import ProcessorCores.Proofs.Tms.RepeatBlocks

/-!
# Transfers

An instruction whose operand is written `*+` or `*-` goes through consecutive data words when it is
repeated. Those that go through a second row of words, too, set a counter to its beginning on the first
pass, and then take that counter on from pass to pass. So the block is one load and after it the same
work over and over.

What such a block leaves in memory is told by its stores: as long as no two of them go to one address,
every store is found again at the end, and nothing else has changed.
-/

namespace ProcessorCores.Tms

/-! ## Rows of words -/

/-- The address so many strides after the first. It wraps. -/
def nthFrom (first stride : Half) (index : Nat) : Half := first + BitVec.ofNat 16 index * stride

/-- The first address is no stride away. -/
theorem nthFrom_zero (first stride : Half) : nthFrom first stride 0 = first := by
  rw [nthFrom, BitVec.zero_mul, BitVec.add_zero]

/-- The next address is one stride further. -/
theorem nthFrom_succ (first stride : Half) (index : Nat) :
    nthFrom first stride (index + 1) = nthFrom first stride index + stride := by
  rw [nthFrom, nthFrom, BitVec.ofNat_add, BitVec.add_mul, BitVec.one_mul, BitVec.add_assoc]

/-- With a stride of one, the addresses count up. -/
theorem nthFrom_one (first : Half) (index : Nat) :
    nthFrom first 1 index = first + BitVec.ofNat 16 index :=
  congrArg (first + ·) (BitVec.mul_one _)

/-- With a stride of minus one, the addresses count down. -/
theorem nthFrom_neg_one (first : Half) (index : Nat) :
    nthFrom first (-1) index = first - BitVec.ofNat 16 index := by
  have hnegative : BitVec.ofNat 16 index * -1 = -BitVec.ofNat 16 index :=
    (BitVec.mul_neg ..).trans (congrArg (- ·) (BitVec.mul_one _))
  rw [nthFrom, hnegative, BitVec.sub_eq_add_neg]

/-- A row that starts one address later lies one address later. -/
theorem nthFrom_add_one (first stride : Half) (index : Nat) :
    nthFrom (first + 1) stride index = nthFrom first stride index + 1 := by
  rw [nthFrom, nthFrom, BitVec.add_assoc, BitVec.add_comm 1, BitVec.add_assoc]

/-- A row of fewer words than there are has no address twice. -/
theorem nthFrom_ne {first stride : Half} (hstride : stride = 1 ∨ stride = -1) {index count : Nat}
    (hcount : count < 2 ^ 16) (hindex : index < count) :
    nthFrom first stride index ≠ nthFrom first stride count := by
  rcases hstride with rfl | rfl
  · rw [nthFrom_one, nthFrom_one]
    bv_omega
  · rw [nthFrom_neg_one, nthFrom_neg_one]
    bv_omega

/-- An operand written `*+`: the auxiliary register in use is incremented, and remains in use. -/
def Increments (word : Half) : Prop :=
  isIndirect word = true ∧ word.extractLsb' 4 3 = 2 ∧ word.getLsbD 3 = false

/-- An operand written `*-`. -/
def Decrements (word : Half) : Prop :=
  isIndirect word = true ∧ word.extractLsb' 4 3 = 1 ∧ word.getLsbD 3 = false

/-- Whether an operand is written `*+` is decided by its bits. -/
instance (word : Half) : Decidable (Increments word) := inferInstanceAs (Decidable (_ ∧ _))

/-- Whether an operand is written `*-` is decided by its bits. -/
instance (word : Half) : Decidable (Decrements word) := inferInstanceAs (Decidable (_ ∧ _))

/-- An operand written in one of the two ways. -/
def Strides (word stride : Half) : Prop :=
  Increments word ∧ stride = 1 ∨ Decrements word ∧ stride = -1

namespace Strides

variable {word stride : Half}

/-- Both ways of writing are indirect. -/
theorem isIndirect (h : Strides word stride) : Tms.isIndirect word = true :=
  h.elim (·.1.1) (·.1.1)

/-- The operand is at the address in the current auxiliary register. -/
theorem operandAddress (h : Strides word stride) (regs : Registers) :
    regs.operandAddress word = regs.currentAr := if_pos h.isIndirect

/-- The current auxiliary register moves by the stride, and the pointer stays. -/
theorem afterOperand (h : Strides word stride) (regs : Registers) :
    regs.afterOperand word true = regs.setCurrentAr (regs.currentAr + stride) := by
  have hmodified : modifiedAr word regs.currentAr (regs.getAr 0) = regs.currentAr + stride := by
    rw [modifiedAr]
    rcases h with ⟨⟨-, hmode, -⟩, rfl⟩ | ⟨⟨-, hmode, -⟩, rfl⟩
    · rw [hmode]
      rfl
    · rw [hmode]
      exact BitVec.sub_eq_add_neg ..
  have hstays : word.getLsbD 3 = false := h.elim (·.1.2.2) (·.1.2.2)
  rw [Registers.afterOperand, if_pos h.isIndirect, Registers.modifyAr, hmodified, hstays]
  rfl

end Strides

/-- The registers with the repeat counter, which a block counts, and the requests, which a write can
raise, forgotten. -/
def Registers.lasting (regs : Registers) : Registers := { regs with rptc := 0, ifr := 0 }

/-! ## Stores -/

namespace Machine

/-- So many words stored at addresses in data space, and memory otherwise as it was at the start. -/
structure Stored (start now : Machine) (address value : Nat → Half) (count : Nat) : Prop where
  shape : now.core.ram.shape = start.core.ram.shape
  stored : ∀ index < count, now.word (start.core.ram.dataHome (address index)) = value index
  kept : ∀ home, (∀ index < count, home ≠ start.core.ram.dataHome (address index)) →
    now.word home = start.word home
  /-- Behind the bus nothing changes unless one of the addresses is off chip. -/
  bus : (∀ index < count, start.core.ram.data (address index) ≠ none) →
    now.bus.memory = start.bus.memory

namespace Stored

variable {start now after : Machine} {address value : Nat → Half} {count : Nat}

/-- No word is stored at the start. -/
theorem zero (start : Machine) (address value : Nat → Half) : start.Stored start address value 0 :=
  ⟨rfl, fun _ hindex => absurd hindex (Nat.not_lt_zero _), fun _ _ => rfl, fun _ => rfl⟩

/-- Nothing but the memory counts. -/
theorem of_memory (h : start.Stored now address value count) (hram : after.core.ram = now.core.ram)
    (hmemory : after.bus.memory = now.bus.memory) : start.Stored after address value count where
  shape := (congrArg OnChipRam.shape hram).trans h.shape
  stored index hindex := (word_of_memory hram hmemory _).trans (h.stored index hindex)
  kept home hhome := (word_of_memory hram hmemory home).trans (h.kept home hhome)
  bus honChip := hmemory.trans (h.bus honChip)

/-- The addresses have their homes from the start. -/
theorem homes (h : start.Stored now address value count) :
    now.core.ram.dataHome = start.core.ram.dataHome ∧
      now.core.ram.programHome = start.core.ram.programHome :=
  OnChipRam.homes_of_layout (congrArg Prod.fst h.shape)

/-- A data word that is not stored yet reads as at the start. -/
theorem readData (h : start.Stored now address value count) {spot : Half}
    (hspot : ∀ index < count, address index ≠ spot) :
    (now.readData spot).1 = (start.readData spot).1 := by
  rw [readData_eq_word, readData_eq_word, h.homes.1]
  exact h.kept _ fun index hindex heq => hspot index hindex (OnChipRam.dataHome_inj heq.symm)

/-- Every program word reads as at the start. -/
theorem readProgram (h : start.Stored now address value count) (spot : Half) :
    (now.readProgram spot).1 = (start.readProgram spot).1 := by
  rw [readProgram_eq_word, readProgram_eq_word, h.homes.2]
  exact h.kept _ fun index _ heq =>
    OnChipRam.dataHome_ne_programHome start.core.ram (address index) spot heq.symm

/-- One more store, at an address of its own. -/
theorem write (h : start.Stored now address value count) {model : Model}
    (hfits : start.core.ram.fits model = true)
    (hnew : ∀ index < count, address index ≠ address count) :
    start.Stored (now.writeData (address count) (value count)) address value (count + 1) := by
  have hholds := holds_of_dataHome ((OnChipRam.fits_of_shape h.shape).trans hfits) (address count)
  have hword := word_putWord hholds (value count)
  have hwritten := now.writeData_eq_putWord (address count) (value count)
  rw [h.homes.1] at hword hwritten
  constructor
  case shape => exact (congrArg Frame.shape (now.editedTo_writeData _ _).frame).trans h.shape
  case stored =>
    intro index hindex
    rw [hwritten, hword]
    rcases Nat.lt_succ_iff_lt_or_eq.mp hindex with hbefore | rfl
    · rw [if_neg fun heq => hnew index hbefore (OnChipRam.dataHome_inj heq)]
      exact h.stored index hbefore
    · exact if_pos rfl
  case kept =>
    intro home hhome
    rw [hwritten, hword, if_neg (hhome count (Nat.lt_succ_self count))]
    exact h.kept home fun index hindex => hhome index (Nat.lt_succ_of_lt hindex)
  case bus =>
    intro honChip
    have hnow : now.core.ram.data (address count) ≠ none := fun hnone =>
      honChip count (Nat.lt_succ_self count)
        ((OnChipRam.data_eq_none_of_layout (congrArg Prod.fst h.shape) _).mp hnone)
    have hrouting := now.data_routing (address count)
    obtain ⟨word, hdata⟩ := Option.ne_none_iff_exists'.mp hnow
    rw [hdata] at hrouting
    rw [hrouting.2]
    exact h.bus fun index hindex => honChip index (Nat.lt_succ_of_lt hindex)

end Stored

/-- A store to an operand written in one of the two ways. -/
theorem storeOperand_of_strides {machine : Machine} {stride : Half}
    (h : Strides machine.core.opcode stride) (value : Half) :
    let address := machine.core.regs.currentAr
    let after := machine.storeOperand value
    after.core.opcode = machine.core.opcode ∧
      after.core.ram = (machine.writeData address value).core.ram ∧
      after.bus = (machine.writeData address value).bus ∧
      after.core.regs.lasting = (machine.core.regs.setCurrentAr (address + stride)).lasting := by
  have haccessed := machine.accessedTo_storeOperand value
  obtain ⟨requests, hwritten⟩ := (machine.noteOperand machine.core.regs.currentAr).writeData_regs
    machine.core.regs.currentAr value
  rw [h.operandAddress] at haccessed
  refine ⟨congrArg Frame.opcode (machine.editedTo_storeOperand value).frame, haccessed.ram,
    haccessed.bus, ?_⟩
  rw [storeOperand, h.operandAddress]
  change (Registers.afterOperand _ machine.core.opcode true).lasting = _
  rw [h.afterOperand, hwritten]
  rfl

/-! ## Work that is loaded once -/

/-- A pass without the load that may precede it. -/
def passOf (work : Machine → Machine) (machine : Machine) : Machine :=
  (work machine).mapCore Core.countPass

/-- What each pass takes one further, so many passes take from nothing to their number. -/
theorem after_passes {work : Machine → Machine} {P : Nat → Machine → Prop} {machine : Machine} {count : Nat}
    (hstart : P 0 machine)
    (hpass : ∀ index < count, ∀ now, P index now → P (index + 1) (passOf work now)) :
    P count ((passOf work)^[count] machine) := by
  induction count with
  | zero => exact hstart
  | succ count ih =>
    rw [Function.iterate_succ_apply']
    have hbefore := ih fun index hindex => hpass index (Nat.lt_succ_of_lt hindex)
    exact hpass count (Nat.lt_succ_self count) _ hbefore

/-- A block whose load does nothing after the first pass is that load and its work, over and over. -/
theorem beforePass_of_load {op : Op} {load work : Machine → Machine}
    (hexecute : ∀ machine : Machine, (machine.execute op).1 = work (load machine))
    (hload : ∀ machine : Machine, machine.core.firstPass = false → load machine = machine)
    (machine : Machine) (count : Nat) :
    machine.beforePass op (count + 1) = (passOf work)^[count + 1] (load machine) := by
  induction count with
  | zero => exact congrArg (·.mapCore Core.countPass) (hexecute machine)
  | succ count ih =>
    have hlater : load (machine.beforePass op (count + 1)) = machine.beforePass op (count + 1) :=
      hload _ rfl
    rw [Function.iterate_succ_apply', ← ih, beforePass, hexecute, hlater]
    rfl

/-- What such a block comes to that RPTK arms. -/
theorem step_of_load {machine : Machine} {op : Op} {load work : Machine → Machine}
    (hrptk : machine.ready.op = .rptk) (hop : machine.block.op = op)
    (hplain : op ≠ .rpt ∧ op ≠ .rptk)
    (hexecute : ∀ machine : Machine, (machine.execute op).1 = work (load machine))
    (hload : ∀ machine : Machine, machine.core.firstPass = false → load machine = machine) :
    machine.step.1 = ((passOf work)^[(lowByte machine.ready.core.opcode).toNat + 1]
      (load machine.block)).mapCore Core.endBlock := by
  subst hop
  have hcount : machine.ready.repeatCount = lowByte machine.ready.core.opcode := if_pos hrptk
  rw [step_of_repeat (.inr hrptk) hplain.1 hplain.2, hcount, before,
    beforePass_of_load hexecute hload]

/-- The words behind the bus, when the first pass of a block begins that RPTK arms. -/
theorem block_memory {machine : Machine} (hrptk : machine.ready.op = .rptk) :
    machine.block.bus.memory = machine.served.bus.memory := by
  have hfetch (machine : Machine) : machine.fetch.bus.memory = machine.bus.memory :=
    machine.readProgram_keeps machine.core.regs.pc
  have harmed : machine.armed.bus = machine.ready.bus := by
    rw [armed, hrptk]
    rfl
  change machine.armed.fetch.bus.memory = _
  rw [hfetch, harmed]
  exact hfetch machine.served

/-- On the first pass the prefetch counter is the second word. -/
theorem loadPfc_of_first {machine : Machine} (h : machine.core.firstPass = true) :
    machine.loadPfc =
      { core := { machine.core with
          regs := { machine.core.regs with
            pc := machine.core.regs.pc + 1
            pfc := (machine.readProgram machine.core.regs.pc).1 } }
        bus := (machine.readProgram machine.core.regs.pc).2.bus } := by
  rw [loadPfc, h, if_pos rfl, fetchWord, readProgram]
  cases machine.core.ram.program machine.core.regs.pc <;> rfl

/-- Later it is left as it is. -/
theorem loadPfc_of_later {machine : Machine} (h : machine.core.firstPass = false) :
    machine.loadPfc = machine := by
  rw [loadPfc, h, if_neg Bool.false_ne_true]

/-- Or it is the low half of the accumulator. -/
theorem pfcFromAcc_of_first {machine : Machine} (h : machine.core.firstPass = true) :
    machine.pfcFromAcc =
      { core := { machine.core with
          regs := { machine.core.regs with pfc := lowHalf machine.core.regs.acc } }
        bus := machine.bus } := if_pos h

/-- The second word of an instruction that RPTK repeats. -/
theorem loadPfc_of_rptk {machine : Machine} (hfirst : machine.core.firstPass = true)
    (hrptk : machine.ready.op = .rptk) :
    let start := machine.served
    let loaded := machine.block.loadPfc
    loaded.core.opcode = machine.block.core.opcode ∧ loaded.core.ram = start.core.ram ∧
      loaded.bus.memory = start.bus.memory ∧
      loaded.core.regs = { start.core.regs with
        pc := start.core.regs.pc + 3
        pfc := (start.readProgram (start.core.regs.pc + 2)).1
        rptc := lowByte machine.ready.core.opcode } := by
  obtain ⟨hregs, hram⟩ := block_of_rptk hrptk
  have hmemory := block_memory hrptk
  have hpc : machine.served.core.regs.pc + 2 + 1 = machine.served.core.regs.pc + 3 :=
    BitVec.add_assoc ..
  have hword : (machine.block.readProgram machine.block.core.regs.pc).1 =
      (machine.served.readProgram (machine.served.core.regs.pc + 2)).1 := by
    rw [readProgram_of_memory hram hmemory, hregs]
  dsimp only
  rw [loadPfc_of_first (block_core hfirst (.inr hrptk)).1, hword, readProgram_keeps, hregs, hpc]
  exact ⟨rfl, hram, hmemory, rfl⟩

end Machine

end ProcessorCores.Tms

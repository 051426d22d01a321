import Mathlib.Algebra.BigOperators.Group.Finset.Basic
import ProcessorCores.Proofs.Tms.Saturation
import ProcessorCores.Proofs.Tms.Transfers

/-!
# Dot products

MAC and MACD accumulate the product before and leave the next one, so that a block of them is one product
behind, and an APAC is needed to end the sum. The operands are data words one after the other, and the
coefficients program words one after the other. MACD also moves each operand to the next word. If it
comes from above, it has read each word before it writes there, and the row moves up by one.

What is accumulated is the product as the product shift mode makes it, and the sum is that of the
integers, cut to a word, whether it overflows on the way or not.
-/

namespace ProcessorCores.Tms

/-! ## Products as integers -/

/-- What a product shift mode makes of a signed product. -/
def productShift (mode : Half) (product : Int) : Int :=
  match mode with
  | 0 => product
  | 1 => 2 * product
  | 2 => 16 * product
  | _ => product / 64

/-- A shifted zero is zero. -/
theorem productShift_zero (mode : Half) : productShift mode 0 = 0 := by
  unfold productShift
  split <;> rfl

/-- The product of two signed halfwords fits in a word. -/
theorem toInt_signedProduct (a b : Half) : (signedProduct a b).toInt = a.toInt * b.toInt := by
  have hlow : -2 ^ 30 ≤ a.toInt * b.toInt := BitVec.le_toInt_mul_toInt
  have hhigh : a.toInt * b.toInt ≤ 2 ^ 30 := BitVec.toInt_mul_toInt_le
  rw [signedProduct, BitVec.toInt_mul, BitVec.toInt_signExtend_of_le (by decide),
    BitVec.toInt_signExtend_of_le (by decide)]
  exact Int.bmod_eq_of_le (by omega) (by omega)

namespace Registers

/-- The accumulator takes the product as the integer that the mode makes of it. -/
theorem shiftedProduct_eq_ofInt (regs : Registers) :
    regs.shiftedProduct = BitVec.ofInt 32 (productShift regs.status.pm regs.p.toInt) := by
  have hleft {shift : Nat} {factor : Int} (hfactor : BitVec.ofInt 32 factor = BitVec.twoPow 32 shift) :
      regs.p <<< shift = BitVec.ofInt 32 (factor * regs.p.toInt) := by
    rw [BitVec.ofInt_mul, BitVec.ofInt_toInt, hfactor, BitVec.mul_comm, BitVec.shiftLeft_eq_mul_twoPow]
  have hright : regs.p.sshiftRight 6 = BitVec.ofInt 32 (regs.p.toInt / 64) := by
    have hshifted : (regs.p.sshiftRight 6).toInt = regs.p.toInt / 64 := by
      rw [BitVec.toInt_sshiftRight, Int.shiftRight_eq_div_pow]
      rfl
    rw [← hshifted, BitVec.ofInt_toInt]
  unfold shiftedProduct
  split
  · next hmode =>
    rw [hmode]
    exact BitVec.ofInt_toInt.symm
  · next hmode =>
    rw [hmode]
    exact hleft (by decide)
  · next hmode =>
    rw [hmode]
    exact hleft (by decide)
  · have hmode : productShift regs.status.pm regs.p.toInt = regs.p.toInt / 64 := by
      unfold productShift
      split <;> first | contradiction | rfl
    rw [hmode]
    exact hright

/-! ## Modes -/

/-- Registers with the overflow mode and the product shift mode of others. -/
structure ModesAs (before after : Registers) : Prop where
  part : after.status.st1Fixed = before.status.st1Fixed
  ovm : after.has .ovm = before.has .ovm
  pm : before.status.FreesShift → after.status.pm = before.status.pm

/-- Having the same modes is transitive. -/
theorem ModesAs.trans {first second third : Registers} (h : first.ModesAs second)
    (h' : second.ModesAs third) : first.ModesAs third where
  part := h'.part.trans h.part
  ovm := h'.ovm.trans h.ovm
  pm hfree := by
    have hsecond : second.status.FreesShift := by rw [Status.FreesShift, h.part]; exact hfree
    exact (h'.pm hsecond).trans (h.pm hfree)

/-- Arithmetic sets neither. -/
theorem keptByArithmetic_modesAs : KeptByArithmetic ModesAs where
  trans := .trans
  rest _ _ _ _ _ _ _ := ⟨rfl, rfl, fun _ => rfl⟩
  put regs flag on hflag := by
    have hne : .ovm ≠ flag := by
      rintro rfl
      contradiction
    exact ⟨(regs.status.steersAs_put flag on).part,
      (Status.has_put (.inl rfl) flag on).trans (if_neg hne), fun hfree => Status.pm_put hfree flag on⟩

/-- A sum leaves the counters. -/
theorem addAcc_counters (regs : Registers) (value : Word) :
    (regs.addAcc value).pc = regs.pc ∧ (regs.addAcc value).pfc = regs.pfc := by
  unfold addAcc overflow
  dsimp only
  split
  · split <;> exact ⟨rfl, rfl⟩
  · exact ⟨rfl, rfl⟩

/-- Out of overflow mode it is the sum of the words. -/
theorem addAcc_acc {regs : Registers} (hovm : regs.has .ovm = false) (value : Word) :
    (regs.addAcc value).acc = regs.acc + value := by
  have happlied : regs.addAcc value = (Accumulation.sum value).apply regs := rfl
  rw [happlied, apply_eq]
  exact settle_acc hovm

end Registers

/-! ## One pass -/

namespace Machine

/-- A pass of MAC or MACD without the load of the prefetch counter. -/
def multiplyWork (moves : Bool) (machine : Machine) : Machine :=
  let summed := machine.mapRegs fun regs => regs.addAcc regs.shiftedProduct
  let (value, fetched) := summed.fetchOperand true
  fetched.multiplyOperand moves value

/-- Memory once MACD has moved the operand. -/
def afterMove (machine : Machine) (moves : Bool) : Machine :=
  let (value, read) := machine.readData machine.core.regs.currentAr
  if moves then read.writeData (machine.core.regs.currentAr + 1) value else read

/-- So MACD moves it once it has fetched it. -/
theorem writeNext_of_fetched {machine fetched : Machine} (moves : Bool)
    (haddress : fetched.core.memAddress = machine.core.regs.currentAr)
    (hram : fetched.core.ram = machine.core.ram)
    (hbus : fetched.bus = (machine.readData machine.core.regs.currentAr).2.bus) :
    let value := (machine.readData machine.core.regs.currentAr).1
    let moved := if moves then fetched.writeNext value else fetched
    moved.core.opcode = fetched.core.opcode ∧ moved.core.ram = (machine.afterMove moves).core.ram ∧
      moved.bus = (machine.afterMove moves).bus ∧
      moved.core.regs.lasting = fetched.core.regs.lasting := by
  have hread := congrArg (·.ram) (machine.readData_core machine.core.regs.currentAr)
  dsimp only
  cases moves with
  | false => exact ⟨rfl, hram.trans hread.symm, hbus, rfl⟩
  | true =>
    have hwritten := writeData_memory (hram.trans hread.symm) hbus (machine.core.regs.currentAr + 1)
      (machine.readData machine.core.regs.currentAr).1
    obtain ⟨requests, hregs⟩ := fetched.writeData_regs (machine.core.regs.currentAr + 1)
      (machine.readData machine.core.regs.currentAr).1
    rw [if_pos rfl, writeNext, haddress, hregs]
    exact ⟨congrArg Frame.opcode (fetched.editedTo_writeData _ _).frame, hwritten.2, hwritten.1, rfl⟩

/-- What is left of a product once its operand is read: the operand is moved, and multiplied by the word
at the prefetch counter, which goes on. -/
theorem multiplyOperand_eq {machine : Machine} (hindirect : isIndirect machine.core.opcode = true)
    (moves : Bool) (value : Half) :
    let moved := if moves then machine.writeNext value else machine
    let coefficient := moved.readProgram moved.core.regs.pfc
    machine.multiplyOperand moves value =
      { core := { moved.core with
          regs := { moved.core.regs with
            t := value
            p := signedProduct value coefficient.1
            pfc := moved.core.regs.pfc + 1 } }
        bus := coefficient.2.bus } := by
  dsimp only
  rw [multiplyOperand, hindirect, Bool.true_or, Bool.and_true]
  generalize (if moves = true then machine.writeNext value else machine) = moved
  simp only [readProgram, mapRegs, mapCore, Core.mapRegs]
  cases moved.core.ram.program moved.core.regs.pfc <;> rfl

/-- The fetch that follows the sum. -/
theorem fetchOperand_of_summed {machine : Machine} {stride : Half}
    (h : Strides machine.core.opcode stride) :
    let regs := machine.core.regs
    ∃ fetched : Machine,
      (machine.mapRegs fun regs => regs.addAcc regs.shiftedProduct).fetchOperand true =
          ((machine.readData regs.currentAr).1, fetched) ∧
        fetched.core.opcode = machine.core.opcode ∧ fetched.core.memAddress = regs.currentAr ∧
        fetched.core.ram = machine.core.ram ∧
        fetched.bus = (machine.readData regs.currentAr).2.bus ∧
        fetched.core.regs =
          (regs.addAcc regs.shiftedProduct).setCurrentAr (regs.currentAr + stride) := by
  let summed := machine.mapRegs fun regs => regs.addAcc regs.shiftedProduct
  have hsteers := Registers.keptByArithmetic_steersAs.addAcc machine.core.regs
    machine.core.regs.shiftedProduct
  have haddress : summed.core.regs.currentAr = machine.core.regs.currentAr :=
    (hsteers.getAr _).trans (congrArg machine.core.regs.getAr hsteers.status.arp)
  have hread : summed.readData machine.core.regs.currentAr =
      ((machine.readData machine.core.regs.currentAr).1,
        { core := summed.core, bus := (machine.readData machine.core.regs.currentAr).2.bus }) := by
    have hram : summed.core.ram = machine.core.ram := rfl
    have hbus : summed.bus = machine.bus := rfl
    unfold readData
    rw [hram, hbus]
    cases machine.core.ram.data machine.core.regs.currentAr <;> rfl
  have hstrides : Strides summed.core.opcode stride := h
  have hfetched := summed.fetchOperand_eq true
  dsimp only at hfetched
  rw [hstrides.operandAddress, hstrides.afterOperand, haddress, hread] at hfetched
  exact ⟨_, hfetched, rfl, rfl, rfl, rfl, rfl⟩

/-- A pass over an operand written `*+` or `*-`: the product before is accumulated, the operand is
multiplied by the word at the prefetch counter, and both rows go on. -/
theorem multiplyWork_eq {machine : Machine} {stride : Half} (h : Strides machine.core.opcode stride)
    (moves : Bool) :
    let regs := machine.core.regs
    let moved := machine.afterMove moves
    let value := (machine.readData regs.currentAr).1
    let summed := regs.addAcc regs.shiftedProduct
    let after := passOf (multiplyWork moves) machine
    after.core.opcode = machine.core.opcode ∧ after.core.ram = moved.core.ram ∧
      after.bus.memory = moved.bus.memory ∧
      after.core.regs.lasting = { summed.setCurrentAr (regs.currentAr + stride) with
        t := value
        p := signedProduct value (moved.readProgram regs.pfc).1
        pfc := regs.pfc + 1 }.lasting := by
  obtain ⟨fetched, hfetched, hopcode, haddress, hram, hbus, hregs⟩ := fetchOperand_of_summed h
  obtain ⟨hopcode', hram', hbus', hregs'⟩ := writeNext_of_fetched moves haddress hram hbus
  have hindirect : isIndirect fetched.core.opcode = true := by
    rw [hopcode]
    exact h.isIndirect
  have hmultiplied := multiplyOperand_eq hindirect moves (machine.readData machine.core.regs.currentAr).1
  dsimp only at hmultiplied hopcode' hram' hbus' hregs'
  generalize (if moves = true then fetched.writeNext (machine.readData machine.core.regs.currentAr).1
    else fetched) = moved at hmultiplied hopcode' hram' hbus' hregs'
  have hpfc : moved.core.regs.pfc = machine.core.regs.pfc := by
    have hmoved := congrArg Registers.pfc hregs'
    have hsummed : fetched.core.regs.pfc = machine.core.regs.pfc := by
      rw [hregs]
      exact (machine.core.regs.addAcc_counters _).2
    exact hmoved.trans hsummed
  have hcoefficient : (moved.readProgram machine.core.regs.pfc).1 =
      ((machine.afterMove moves).readProgram machine.core.regs.pfc).1 :=
    readProgram_of_memory hram' (congrArg (·.memory) hbus') _
  have hwork : multiplyWork moves machine =
      fetched.multiplyOperand moves (machine.readData machine.core.regs.currentAr).1 := by
    rw [multiplyWork, hfetched]
  dsimp only [passOf]
  rw [hwork, hmultiplied, hpfc, hcoefficient]
  refine ⟨hopcode'.trans hopcode, hram', ?_, ?_⟩
  · exact (moved.readProgram_keeps _).trans (congrArg (·.memory) hbus')
  · rw [hregs] at hregs'
    exact congrArg (fun regs : Registers => { regs with
      t := (machine.readData machine.core.regs.currentAr).1
      p := signedProduct (machine.readData machine.core.regs.currentAr).1
        ((machine.afterMove moves).readProgram machine.core.regs.pfc).1
      pfc := machine.core.regs.pfc + 1 }) hregs'

/-! ## The block -/

/-- The operand of a pass, counted from the first, for a machine about to execute the RPTK. -/
def sample (start : Machine) (stride : Half) (index : Nat) : Half :=
  (start.readData (nthFrom start.core.regs.currentAr stride index)).1

/-- The coefficient of a pass: the first is at the address in the second word of the product. -/
def coefficient (start : Machine) (index : Nat) : Half :=
  (start.readProgram (nthFrom (start.readProgram (start.core.regs.pc + 2)).1 1 index)).1

/-- The sum of so many products, each as the product shift mode makes it. -/
def dotProduct (start : Machine) (stride : Half) (count : Nat) : Int :=
  ∑ index ∈ Finset.range count, productShift start.core.regs.status.pm
    ((start.sample stride index).toInt * (start.coefficient index).toInt)

/-- A block of products between two passes: with the product that is still to be accumulated the sum is
that of so many, and the registers of the two rows stand at the next. -/
structure Summing (start now : Machine) (moves : Bool) (stride : Half) (count : Nat) : Prop where
  word : Strides now.core.opcode stride
  pc : now.core.regs.pc = start.core.regs.pc + 3
  pfc : now.core.regs.pfc = nthFrom (start.readProgram (start.core.regs.pc + 2)).1 1 count
  ar : now.core.regs.currentAr = nthFrom start.core.regs.currentAr stride count
  arp : now.core.regs.status.arp = start.core.regs.status.arp
  modes : start.core.regs.ModesAs now.core.regs
  sum : now.core.regs.acc + now.core.regs.shiftedProduct =
    BitVec.ofInt 32 (start.core.regs.acc.toInt + start.dotProduct stride count)
  stored : start.Stored now (nthFrom (start.core.regs.currentAr + 1) stride) (start.sample stride)
    (if moves then count else 0)

namespace Summing

variable {start now : Machine} {model : Model} {moves : Bool} {stride : Half} {count : Nat}

/-- MACD comes from above, and so writes to no word that it is still to read. -/
theorem unread {first : Half} {index : Nat} (hmoves : moves = true → stride = -1)
    (hcount : count + 1 < 2 ^ 16) (hindex : index < if moves then count else 0) :
    nthFrom (first + 1) stride index ≠ nthFrom first stride count := by
  cases moves with
  | false => exact absurd hindex (Nat.not_lt_zero index)
  | true =>
    obtain rfl := hmoves rfl
    have hbelow : index < count := hindex
    have hread : nthFrom first (-1) count = nthFrom (first + 1) (-1) (count + 1) := by
      rw [nthFrom_succ, nthFrom_add_one, BitVec.add_assoc]
      exact (BitVec.add_zero _).symm
    rw [hread]
    exact nthFrom_ne (.inr rfl) hcount (Nat.lt_succ_of_lt hbelow)

/-- The operand of the next pass is as it was at the start. -/
theorem operand (h : start.Summing now moves stride count) (hmoves : moves = true → stride = -1)
    (hcount : count + 1 < 2 ^ 16) :
    (now.readData now.core.regs.currentAr).1 = start.sample stride count := by
  rw [h.ar]
  exact h.stored.readData fun index hindex => unread hmoves hcount hindex

/-- Where it moves its operands, a pass moves one more. -/
theorem moved (h : start.Summing now moves stride count) (hfits : start.core.ram.fits model = true)
    (hmoves : moves = true → stride = -1) (hcount : count + 1 < 2 ^ 16) :
    start.Stored (now.afterMove moves) (nthFrom (start.core.regs.currentAr + 1) stride)
      (start.sample stride) (if moves then count + 1 else 0) := by
  have hoperand := h.operand hmoves hcount
  have hread := h.stored.of_memory (congrArg (·.ram) (now.readData_core now.core.regs.currentAr))
    (now.readData_keeps now.core.regs.currentAr)
  cases moves with
  | false => exact hread
  | true =>
    obtain rfl := hmoves rfl
    rw [if_pos rfl] at hread
    have hwritten := Stored.write hread hfits fun _ =>
      nthFrom_ne (.inr rfl) (Nat.lt_of_succ_lt hcount)
    rw [nthFrom_add_one, ← h.ar, ← hoperand] at hwritten
    exact hwritten

/-- A pass adds one product more. -/
theorem pass (h : start.Summing now moves stride count) (hfits : start.core.ram.fits model = true)
    (hpart : start.core.regs.status.st1Fixed = model.st1Fixed)
    (hovm : start.core.regs.has .ovm = false) (hmoves : moves = true → stride = -1)
    (hcount : count + 1 < 2 ^ 16) :
    start.Summing (passOf (multiplyWork moves) now) moves stride (count + 1) := by
  obtain ⟨hopcode, hram, hmemory, hregs⟩ := multiplyWork_eq h.word moves
  have hmoved := h.moved hfits hmoves hcount
  have hcoefficient : ((now.afterMove moves).readProgram now.core.regs.pfc).1 =
      start.coefficient count := by
    rw [h.pfc]
    exact hmoved.readProgram _
  rw [h.operand hmoves hcount, hcoefficient] at hregs
  -- What the pass executes is told by these equations from here on.
  generalize passOf (multiplyWork moves) now = after at hopcode hram hmemory hregs
  have hsteers := Registers.keptByArithmetic_steersAs.addAcc now.core.regs now.core.regs.shiftedProduct
  have hstatus := congrArg Registers.status hregs
  have hmodes : start.core.regs.ModesAs after.core.regs := by
    have hwork := Registers.keptByArithmetic_modesAs.addAcc now.core.regs now.core.regs.shiftedProduct
    refine (h.modes.trans hwork).trans ⟨?_, ?_, fun _ => ?_⟩
    · exact congrArg Status.st1Fixed hstatus
    · exact congrArg (Status.has · .ovm) hstatus
    · exact congrArg Status.pm hstatus
  constructor
  case word =>
    rw [hopcode]
    exact h.word
  case pc =>
    have hpc := congrArg Registers.pc hregs
    exact (hpc.trans (now.core.regs.addAcc_counters _).1).trans h.pc
  case pfc =>
    have hpfc := congrArg Registers.pfc hregs
    rw [nthFrom_succ, ← h.pfc]
    exact hpfc
  case ar =>
    have har := congrArg Registers.currentAr hregs
    rw [nthFrom_succ, ← h.ar]
    exact har.trans (Registers.currentAr_setCurrentAr _ _)
  case arp =>
    exact ((congrArg Status.arp hstatus).trans hsteers.status.arp).trans h.arp
  case modes => exact hmodes
  case sum =>
    have hacc := congrArg Registers.acc hregs
    have hp := congrArg Registers.p hregs
    have hproduct : after.core.regs.shiftedProduct = BitVec.ofInt 32
        (productShift start.core.regs.status.pm
          ((start.sample stride count).toInt * (start.coefficient count).toInt)) := by
      have hvalue : after.core.regs.p.toInt =
          (start.sample stride count).toInt * (start.coefficient count).toInt :=
        (congrArg BitVec.toInt hp).trans (toInt_signedProduct _ _)
      rw [Registers.shiftedProduct_eq_ofInt, hmodes.pm (Status.freesShift hpart), hvalue]
    have htotal : after.core.regs.acc =
        BitVec.ofInt 32 (start.core.regs.acc.toInt + start.dotProduct stride count) :=
      hacc.trans ((Registers.addAcc_acc (h.modes.ovm.trans hovm) _).trans h.sum)
    have hnext : start.dotProduct stride (count + 1) = start.dotProduct stride count +
        productShift start.core.regs.status.pm
          ((start.sample stride count).toInt * (start.coefficient count).toInt) :=
      Finset.sum_range_succ _ _
    rw [htotal, hproduct, hnext, ← Int.add_assoc, BitVec.ofInt_add (_ + _)]
  case stored => exact hmoved.of_memory hram hmemory

/-- All passes together add all products. -/
theorem passes (h : start.Summing now moves stride 0) (hfits : start.core.ram.fits model = true)
    (hpart : start.core.regs.status.st1Fixed = model.st1Fixed)
    (hovm : start.core.regs.has .ovm = false) (hmoves : moves = true → stride = -1)
    (hcount : count < 2 ^ 16) :
    start.Summing ((passOf (multiplyWork moves))^[count] now) moves stride count :=
  after_passes (P := fun index now => start.Summing now moves stride index) h fun _ hindex _ hsumming =>
    hsumming.pass hfits hpart hovm hmoves (Nat.lt_of_le_of_lt hindex hcount)

end Summing

/-- The work begins after the load of a block that RPTK has armed, with no product to accumulate. -/
theorem summing_loadPfc {machine : Machine} {stride : Half} (hfirst : machine.core.firstPass = true)
    (hrptk : machine.ready.op = .rptk) (hp : machine.served.core.regs.p = 0)
    (hword : Strides machine.block.core.opcode stride) (moves : Bool) :
    machine.served.Summing machine.block.loadPfc moves stride 0 := by
  obtain ⟨hopcode, hram, hmemory, hregs⟩ := loadPfc_of_rptk hfirst hrptk
  have hnone : (if moves then 0 else 0) = 0 := ite_self 0
  constructor
  case word =>
    rw [hopcode]
    exact hword
  case pc => rw [hregs]
  case pfc => rw [hregs, nthFrom_zero]
  case ar =>
    rw [hregs, nthFrom_zero]
    rfl
  case arp => rw [hregs]
  case modes =>
    rw [hregs]
    exact ⟨rfl, rfl, fun _ => rfl⟩
  case sum =>
    have hproduct : machine.block.loadPfc.core.regs.shiftedProduct = 0 := by
      have hnothing : machine.block.loadPfc.core.regs.p = 0 := by
        rw [hregs]
        exact hp
      rw [Registers.shiftedProduct_eq_ofInt, hnothing]
      exact congrArg (BitVec.ofInt 32) (productShift_zero _)
    have hnone : machine.served.dotProduct stride 0 = 0 := Finset.sum_range_zero _
    rw [hproduct, hnone, Int.add_zero, BitVec.ofInt_toInt, hregs]
    exact BitVec.add_zero _
  case stored =>
    rw [hnone]
    exact (Stored.zero _ _ _).of_memory hram hmemory

/-- The product that is left at the end of the block is accumulated by an APAC. -/
theorem step_of_apac {machine : Machine} (hnone : machine.core.pendingSource? = none)
    (hapac : machine.ready.op = .register .apac) (hflow : machine.core.flow = .normal)
    (hovm : machine.core.regs.has .ovm = false) :
    let after := machine.step.1
    after.core.regs.acc = machine.core.regs.acc + machine.core.regs.shiftedProduct ∧
      after.core.regs.pc = machine.core.regs.pc + 1 ∧
      after.core.regs.currentAr = machine.core.regs.currentAr ∧
      after.core.regs.status.arp = machine.core.regs.status.arp ∧
      after.core.ram = machine.core.ram ∧ after.bus.memory = machine.bus.memory := by
  have hserved : machine.served = machine := by
    rw [served, Core.service, hnone]
  have hready : machine.ready = machine.fetch := congrArg fetch hserved
  rw [hready] at hapac
  have hexecuted : (machine.fetch.execute machine.fetch.op).1 =
      machine.fetch.mapRegs fun regs => regs.addAcc regs.shiftedProduct := by
    rw [hapac]
    rfl
  have hnormal : (machine.fetch.execute machine.fetch.op).1.core.flow = .normal := by
    rw [hexecuted]
    change machine.fetch.core.flow = .normal
    rw [fetch_core]
    exact hflow
  have hstep : machine.step.1 = machine.fetch.mapRegs fun regs => regs.addAcc regs.shiftedProduct := by
    rw [step_served, hserved, executeNext_of_normal hnormal, hexecuted]
  have hregs : machine.fetch.core.regs = { machine.core.regs with pc := machine.core.regs.pc + 1 } :=
    congrArg (·.regs) machine.fetch_core
  let added := machine.fetch.core.regs.addAcc machine.fetch.core.regs.shiftedProduct
  have hovm' : machine.fetch.core.regs.has .ovm = false := by
    rw [hregs]
    exact hovm
  have hsteers : machine.fetch.core.regs.SteersAs added :=
    Registers.keptByArithmetic_steersAs.addAcc _ _
  have hacc : added.acc = machine.fetch.core.regs.acc + machine.fetch.core.regs.shiftedProduct :=
    Registers.addAcc_acc hovm' _
  have har : added.currentAr = machine.fetch.core.regs.currentAr :=
    (hsteers.getAr _).trans (congrArg machine.fetch.core.regs.getAr hsteers.status.arp)
  have hpc : added.pc = machine.fetch.core.regs.pc := (machine.fetch.core.regs.addAcc_counters _).1
  dsimp only
  rw [hstep]
  refine ⟨hacc.trans ?_, hpc.trans ?_, har.trans ?_, hsteers.status.arp.trans ?_, ?_, ?_⟩
  · rw [hregs]
    rfl
  · rw [hregs]
  · rw [hregs]
    rfl
  · rw [hregs]
  · exact congrArg (·.ram) machine.fetch_core
  · exact machine.readProgram_keeps machine.core.regs.pc

/-- What a block of products and the APAC after it leave of the registers. -/
structure FormsDotProduct (start repeated after : Machine) (stride : Half) (count : Nat) : Prop where
  acc : after.core.regs.acc =
    BitVec.ofInt 32 (start.core.regs.acc.toInt + start.dotProduct stride count)
  ar : after.core.regs.currentAr = nthFrom start.core.regs.currentAr stride count
  arp : after.core.regs.status.arp = start.core.regs.status.arp
  pc : repeated.core.regs.pc = start.core.regs.pc + 3 ∧ after.core.regs.pc = start.core.regs.pc + 4

/-- At the end of the block one product is left, and APAC accumulates it. -/
theorem Summing.ended {start now : Machine} {moves : Bool} {stride : Half} {count : Nat}
    (h : start.Summing now moves stride count) (hovm : start.core.regs.has .ovm = false)
    (hnone : (now.mapCore Core.endBlock).core.pendingSource? = none)
    (hapac : (now.mapCore Core.endBlock).ready.op = .register .apac) :
    let ended := now.mapCore Core.endBlock
    start.FormsDotProduct ended ended.step.1 stride count ∧
      start.Stored ended.step.1 (nthFrom (start.core.regs.currentAr + 1) stride) (start.sample stride)
        (if moves then count else 0) := by
  obtain ⟨hacc, hpc, har, harp, hram, hmemory⟩ :=
    step_of_apac hnone hapac rfl (h.modes.ovm.trans hovm)
  have hnext : start.core.regs.pc + 3 + 1 = start.core.regs.pc + 4 := BitVec.add_assoc ..
  have hblock : (now.mapCore Core.endBlock).core.regs.pc = start.core.regs.pc + 3 := h.pc
  rw [hblock, hnext] at hpc
  exact ⟨⟨hacc.trans h.sum, har.trans h.ar, harp.trans h.arp, hblock, hpc⟩,
    h.stored.of_memory hram hmemory⟩

/-- A block of either product that RPTK has armed sums so many products. -/
theorem summing_of_repeat (moves : Bool) {machine : Machine} {model : Model} {stride : Half}
    {count : Nat} (hfirst : machine.core.firstPass = true) (hfits : machine.served.core.ram.fits model = true)
    (hpart : machine.served.core.regs.status.st1Fixed = model.st1Fixed)
    (hovm : machine.served.core.regs.has .ovm = false) (hp : machine.served.core.regs.p = 0)
    (hrptk : machine.ready.op = .rptk)
    (hcount : (lowByte machine.ready.core.opcode).toNat = count)
    (hop : machine.block.op = .move (if moves then .macd else .mac))
    (hword : Strides machine.block.core.opcode stride) (hmoves : moves = true → stride = -1) :
    ∃ now, machine.served.Summing now moves stride (count + 1) ∧
      machine.step.1 = now.mapCore Core.endBlock := by
  have hbyte := (lowByte machine.ready.core.opcode).isLt
  have hexecute (machine : Machine) : (machine.execute (.move (if moves then .macd else .mac))).1 =
      multiplyWork moves machine.loadPfc := by
    cases moves <;> rfl
  have hsumming := (summing_loadPfc hfirst hrptk hp hword moves).passes hfits hpart hovm hmoves
    (by omega : count + 1 < 2 ^ 16)
  refine ⟨_, hsumming, ?_⟩
  rw [step_of_load hrptk hop ⟨nofun, nofun⟩ hexecute fun _ => loadPfc_of_later, hcount]

end Machine

/-- RPTK, MAC with an operand written `*+` and APAC add the products of data words, one more than the
count says, with as many program words. So do RPTK, MACD with an operand written `*-` and APAC, which
also move each data word to the next address. At the start overflow mode is off and the product is zero;
no request is served before the APAC. -/
theorem repeated_products {machine : Machine} {model : Model} {count : Nat}
    (hfirst : machine.core.firstPass = true) (hfits : machine.served.core.ram.fits model = true)
    (hpart : machine.served.core.regs.status.st1Fixed = model.st1Fixed)
    (hovm : machine.served.core.regs.has .ovm = false) (hp : machine.served.core.regs.p = 0)
    (hrptk : machine.ready.op = .rptk)
    (hcount : (lowByte machine.ready.core.opcode).toNat = count)
    (hnone : machine.step.1.core.pendingSource? = none)
    (hapac : machine.step.1.ready.op = .register .apac) :
    let start := machine.served
    let address := start.core.regs.currentAr
    let after := machine.step.1.step.1
    (machine.block.op = .move .mac → Increments machine.block.core.opcode →
      start.FormsDotProduct machine.step.1 after 1 (count + 1) ∧
        ∀ home, after.word home = start.word home) ∧
      (machine.block.op = .move .macd → Decrements machine.block.core.opcode →
        start.FormsDotProduct machine.step.1 after (-1) (count + 1) ∧
          (∀ index ≤ count, (after.readData (address - BitVec.ofNat 16 index + 1)).1 =
            (start.readData (address - BitVec.ofNat 16 index)).1) ∧
          ∀ home,
            (∀ index ≤ count,
              home ≠ start.core.ram.dataHome (address - BitVec.ofNat 16 index + 1)) →
              after.word home = start.word home) := by
  constructor
  · intro hmac hword
    have hnever : false = true → (1 : Half) = -1 := nofun
    obtain ⟨now, hsumming, hended⟩ := Machine.summing_of_repeat false hfirst hfits hpart hovm hp
      hrptk hcount hmac (.inl ⟨hword, rfl⟩) hnever
    rw [hended] at hnone hapac ⊢
    obtain ⟨hforms, hstored⟩ := hsumming.ended hovm hnone hapac
    exact ⟨hforms, fun home =>
      hstored.kept home fun index hindex => absurd hindex (Nat.not_lt_zero index)⟩
  · intro hmacd hword
    obtain ⟨now, hsumming, hended⟩ := Machine.summing_of_repeat true hfirst hfits hpart hovm hp
      hrptk hcount hmacd (.inr ⟨hword, rfl⟩) fun _ => rfl
    rw [hended] at hnone hapac ⊢
    obtain ⟨hforms, hstored⟩ := hsumming.ended hovm hnone hapac
    have hrow (index : Nat) : nthFrom (machine.served.core.regs.currentAr + 1) (-1) index =
        machine.served.core.regs.currentAr - BitVec.ofNat 16 index + 1 := by
      rw [nthFrom_add_one, nthFrom_neg_one]
    rw [if_pos rfl] at hstored
    refine ⟨hforms, fun index hindex => ?_, fun home hhome => ?_⟩
    · have hword := hstored.stored index (Nat.lt_succ_of_le hindex)
      rw [Machine.readData_eq_word, hstored.homes.1, ← hrow, hword, Machine.sample, nthFrom_neg_one]
    · refine hstored.kept home fun index hindex => ?_
      rw [hrow]
      exact hhome index (Nat.le_of_lt_succ hindex)

/-- Three words in block B2, each product shifted left by four: MAC from the first and MACD from the
last. -/
theorem repeated_products_three :
    let core := Core.new .tms32025
    let ram := ((core.ram.set (.b2 0) 2).set (.b2 1) (-3)).set (.b2 2) 5
    let machine (address word : Half) : Machine :=
      ⟨{ core with
          regs := { core.regs.setAr 0 address with acc := 100, status := core.regs.status.setPm 2 }
          ram := ram },
        (Bus.empty.loadHalves .program 0 [0xCB02, word, 0x0010, 0xCE15]).loadHalves .program 0x20
          [7, 11, -13]⟩
    let mac := (machine 0x60 0x5DA0).step.1.step.1
    let macd := (machine 0x62 0x5C90).step.1.step.1
    mac.core.regs.acc.toInt = 100 + 16 * (2 * 7 + -3 * 11 + 5 * -13) ∧
      mac.core.regs.currentAr = 0x63 ∧
      macd.core.regs.acc.toInt = 100 + 16 * (5 * 7 + -3 * 11 + 2 * -13) ∧
      macd.core.regs.currentAr = 0x5F ∧ (macd.readData 0x63).1 = 5 ∧ (macd.readData 0x61).1 = 2 := by
  intro core ram machine mac macd
  have hmacFits : (machine 0x60 0x5DA0).served.core.ram.fits .tms32025 = true := by decide +kernel
  have hmacdFits : (machine 0x62 0x5C90).served.core.ram.fits .tms32025 = true := by decide +kernel
  have hmacCount : (lowByte (machine 0x60 0x5DA0).ready.core.opcode).toNat = 2 := by decide +kernel
  have hmacdCount : (lowByte (machine 0x62 0x5C90).ready.core.opcode).toNat = 2 := by decide +kernel
  obtain ⟨hmac, -⟩ := (repeated_products rfl hmacFits (by decide +kernel) (by decide +kernel)
    (by decide +kernel) (by decide +kernel) hmacCount (by decide +kernel) (by decide +kernel)).1
    (by decide +kernel) (by decide +kernel)
  obtain ⟨hmacd, hmoved, -⟩ := (repeated_products rfl hmacdFits (by decide +kernel)
    (by decide +kernel) (by decide +kernel) (by decide +kernel) hmacdCount (by decide +kernel)
    (by decide +kernel)).2 (by decide +kernel) (by decide +kernel)
  have haddress : (machine 0x62 0x5C90).served.core.regs.currentAr = 0x62 := by decide +kernel
  rw [haddress] at hmoved
  exact ⟨(congrArg BitVec.toInt hmac.acc).trans (by decide +kernel), hmac.ar.trans (by decide +kernel),
    (congrArg BitVec.toInt hmacd.acc).trans (by decide +kernel), hmacd.ar.trans (by decide +kernel),
    (hmoved 0 (by decide)).trans (by decide +kernel), (hmoved 2 (by decide)).trans (by decide +kernel)⟩

end ProcessorCores.Tms

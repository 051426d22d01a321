import ProcessorCores.Proofs.Tms.FixedBits

/-!
# Pointers of the TMS3202x

An operand is addressed by the pointer, the auxiliary registers and the page. What leaves these, and
the backup of the pointer, steers as before: arithmetic does, and so does every access to memory.

Against this stands the modification that goes with an operand. It writes the auxiliary register in
use, and where it chooses another it moves the pointer to the backup. With the fixed bits in place
these are the only bits of the status that it changes.
-/

namespace ProcessorCores.Tms

namespace Status

/-- A status whose part does not fix the backup of the pointer. -/
def FreesPointer (status : Status) : Prop := status.st1Fixed &&& St1.arb = 0

/-- No part fixes the backup. -/
theorem freesPointer {status : Status} {model : Model} (hpart : status.st1Fixed = model.st1Fixed) :
    status.FreesPointer := by
  rw [FreesPointer, hpart]
  cases model <;> decide

/-- A status in place leaves the pointer to its field. -/
theorem InPlace.freesPointer {status : Status} {model : Model} (h : status.InPlace model) :
    status.FreesPointer := Status.freesPointer h.part

/-! ## Steering -/

/-- A status with the pointer, the page and the backup of another. -/
structure SteersAs (before after : Status) : Prop where
  part : after.st1Fixed = before.st1Fixed
  inPlace : ∀ model, before.InPlace model → after.InPlace model
  arp : after.arp = before.arp
  dp : after.dp = before.dp
  arb : before.FreesPointer → after.arb = before.arb

/-- A status steers as itself. -/
theorem SteersAs.refl (status : Status) : status.SteersAs status :=
  ⟨rfl, fun _ h => h, rfl, rfl, fun _ => rfl⟩

/-- Steering alike is transitive. -/
theorem SteersAs.trans {first second third : Status} (h : first.SteersAs second)
    (h' : second.SteersAs third) : first.SteersAs third where
  part := h'.part.trans h.part
  inPlace model hfirst := h'.inPlace model (h.inPlace model hfirst)
  arp := h'.arp.trans h.arp
  dp := h'.dp.trans h.dp
  arb hfree := by
    have hsecond : second.FreesPointer := by rw [FreesPointer, h.part, hfree]
    exact (h'.arb hsecond).trans (h.arb hfree)

/-- The pointer is a field of its word. -/
theorem extract_and_arp (word : Half) : (word &&& St0.arp).extractLsb' 13 3 = word.extractLsb' 13 3 := by
  have hfield : St0.arp.extractLsb' 13 3 = BitVec.allOnes 3 := by decide
  rw [BitVec.extractLsb'_and, hfield, BitVec.and_allOnes]

/-- Bits outside a field may be assigned or fixed without a change to the field. -/
theorem assign_and_field {word mask fixed field : Half} (on : Bool) (hmask : mask &&& field = 0#16)
    (hfixed : fixed &&& field = 0#16) : (assign word mask on ||| fixed) &&& field = word &&& field := by
  apply BitVec.eq_of_getLsbD_eq
  intro i _
  have hmask := congrArg (·.getLsbD i) hmask
  have hfixed := congrArg (·.getLsbD i) hfixed
  simp only [BitVec.getLsbD_and, BitVec.getLsbD_zero] at hmask hfixed
  rw [BitVec.getLsbD_and, BitVec.getLsbD_and, BitVec.getLsbD_or, getLsbD_assign]
  cases hfield : field.getLsbD i with
  | false => rw [Bool.and_false, Bool.and_false]
  | true =>
    rw [hfield, Bool.and_true] at hmask hfixed
    rw [hmask, hfixed, if_neg Bool.false_ne_true, Bool.or_false]

/-- No flag is a bit of the pointer, the page or the backup. -/
theorem steersAs_put (status : Status) (flag : StatusFlag) (on : Bool) :
    status.SteersAs (status.put flag on) := by
  have hmask : flag.mask &&& St0.arp = 0 := by cases flag <;> decide
  have hpart := (StatusEdit.put flag on).apply_st1Fixed status
  have hput (model : Model) (h : status.InPlace model) := h.apply (.put flag on)
  cases hword : flag.inSt0 with
  | true =>
    have hdp : flag.mask &&& St0.dp = 0 := by cases flag <;> first | contradiction | decide
    have hst0 : status.put flag on =
        { status with st0 := assign status.st0 flag.mask on ||| St0.fixed } := if_pos hword
    refine ⟨hpart, hput, ?_, ?_, ?_⟩
    · rw [hst0, arp, arp, ← extract_and_arp, assign_and_field on hmask (by decide), extract_and_arp]
    · rw [hst0]
      exact assign_and_field on hdp (by decide)
    · rw [hst0]
      exact fun _ => rfl
  | false =>
    have hst1 : status.put flag on =
        { status with st1 := assign status.st1 flag.mask on ||| status.st1Fixed } :=
      if_neg (by rw [hword]; decide)
    refine ⟨hpart, hput, ?_, ?_, fun hfree => ?_⟩
    · rw [hst1]
      rfl
    · rw [hst1]
      rfl
    · rw [hst1, arb, arb, ← extract_and_arp, assign_and_field on hmask hfree, extract_and_arp]

/-- Of a number that is shifted to the field of the pointer, the low bits read back. -/
theorem extract_pointer (n : Nat) :
    (BitVec.ofNat 16 n <<< 13).extractLsb' 13 3 = BitVec.ofNat 3 n := by
  apply BitVec.eq_of_toNat_eq
  rw [BitVec.extractLsb'_toNat, BitVec.toNat_shiftLeft, BitVec.toNat_ofNat, BitVec.toNat_ofNat,
    Nat.shiftLeft_eq, Nat.shiftRight_eq_div_pow]
  omega

/-- Where the backup is not fixed, the fixed bits show nothing there. -/
theorem FreesPointer.extract {status : Status} (h : status.FreesPointer) :
    status.st1Fixed.extractLsb' 13 3 = 0#3 := by
  have hnone : (0 : Half).extractLsb' 13 3 = 0#3 := by decide
  rw [← extract_and_arp, ← hnone]
  exact congrArg (·.extractLsb' 13 3) h

/-- The low bits of a number become the pointer, and the old pointer its backup. -/
theorem setArp_number {status : Status} (hfree : status.FreesPointer) (n : Nat) :
    (status.setArp n).arp = BitVec.ofNat 3 n ∧ (status.setArp n).arb = status.arp := by
  have hcleared : (~~~St0.arp).extractLsb' 13 3 = 0#3 := by decide
  have hfield : St0.arp.extractLsb' 13 3 = BitVec.allOnes 3 := by decide
  have hfixed : St0.fixed.extractLsb' 13 3 = 0#3 := by decide
  constructor
  · simp only [arp, setArp, BitVec.extractLsb'_or, BitVec.extractLsb'_and, hcleared, hfield, hfixed,
      extract_pointer, BitVec.and_allOnes, BitVec.and_zero, BitVec.zero_or, BitVec.or_zero]
  · have hbackup : (~~~St1.arb).extractLsb' 13 3 = 0#3 := hcleared
    have hold := extract_and_arp status.st0
    rw [BitVec.extractLsb'_and] at hold
    simp only [arb, arp, setArp, BitVec.extractLsb'_or, BitVec.extractLsb'_and, hbackup, hold,
      hfree.extract, BitVec.and_zero, BitVec.zero_or, BitVec.or_zero]

/-- So a pointer becomes the pointer. -/
theorem setArp_pointers {status : Status} (hfree : status.FreesPointer) (pointer : Pointer) :
    (status.setArp pointer).arp = pointer ∧ (status.setArp pointer).arb = status.arp := by
  obtain ⟨harp, harb⟩ := setArp_number hfree pointer
  rw [BitVec.ofNat_toNat, BitVec.setWidth_eq] at harp
  exact ⟨harp, harb⟩

/-- A field that is replaced leaves the fields of other bits. -/
theorem replaced_and_other {word field value fixed other : Half} (hfield : field &&& other = 0#16)
    (hvalue : value &&& other = 0#16) (hfixed : fixed &&& other = 0#16) :
    ((word &&& ~~~field) ||| value ||| fixed) &&& other = word &&& other := by
  apply BitVec.eq_of_getLsbD_eq
  intro i hi
  have hfield := congrArg (·.getLsbD i) hfield
  have hvalue := congrArg (·.getLsbD i) hvalue
  have hfixed := congrArg (·.getLsbD i) hfixed
  simp only [BitVec.getLsbD_and, BitVec.getLsbD_or, BitVec.getLsbD_not, BitVec.getLsbD_zero, hi,
    decide_true, Bool.true_and] at hfield hvalue hfixed ⊢
  cases hother : other.getLsbD i with
  | false => rw [Bool.and_false, Bool.and_false]
  | true =>
    rw [hother, Bool.and_true] at hfield hvalue hfixed
    rw [hfield, hvalue, hfixed, Bool.not_false, Bool.and_true, Bool.or_false, Bool.or_false]

/-- A new pointer leaves the page. -/
theorem setArp_dp (status : Status) (n : Nat) : (status.setArp n).dp = status.dp := by
  have hpointer : ((BitVec.ofNat 16 n <<< 13) &&& St0.arp) &&& St0.dp = 0#16 := by
    have hnone : St0.arp &&& St0.dp = 0#16 := by decide
    rw [BitVec.and_assoc, hnone, BitVec.and_zero]
  exact replaced_and_other (by decide) hpointer (by decide)

/-- A new page leaves the pointer. -/
theorem setDp_arp (status : Status) (page : Half) : (status.setDp page).arp = status.arp := by
  have hkept : (~~~St0.dp).extractLsb' 13 3 = BitVec.allOnes 3 := by decide
  have hpage : St0.dp.extractLsb' 13 3 = 0#3 := by decide
  have hfixed : St0.fixed.extractLsb' 13 3 = 0#3 := by decide
  simp only [arp, setDp, BitVec.extractLsb'_or, BitVec.extractLsb'_and, hkept, hpage, hfixed,
    BitVec.and_allOnes, BitVec.and_zero, BitVec.or_zero]

/-- A load of ST0 takes the pointer from the word. -/
theorem loadSt0_arp (status : Status) (value : Half) :
    (status.loadSt0 value).arp = value.extractLsb' 13 3 := by
  have hmask : St0.intm.extractLsb' 13 3 = 0#3 := by decide
  have hloaded : (~~~St0.intm).extractLsb' 13 3 = BitVec.allOnes 3 := by decide
  have hfixed : St0.fixed.extractLsb' 13 3 = 0#3 := by decide
  simp only [arp, loadSt0, BitVec.extractLsb'_or, BitVec.extractLsb'_and, hmask, hloaded, hfixed,
    BitVec.and_allOnes, BitVec.and_zero, BitVec.zero_or, BitVec.or_zero]

/-- A load of ST1 takes the pointer and its backup from the word. -/
theorem loadSt1_pointers {status : Status} (hfree : status.FreesPointer) (value : Half) :
    (status.loadSt1 value).arp = value.extractLsb' 13 3 ∧
      (status.loadSt1 value).arb = value.extractLsb' 13 3 := by
  have hcleared : (~~~St0.arp).extractLsb' 13 3 = 0#3 := by decide
  have hfield : St1.arb.extractLsb' 13 3 = BitVec.allOnes 3 := by decide
  constructor
  · simp only [arp, loadSt1, BitVec.extractLsb'_or, BitVec.extractLsb'_and, hcleared, hfield,
      hfree.extract, BitVec.and_allOnes, BitVec.and_zero, BitVec.zero_or, BitVec.or_zero]
  · simp only [arb, loadSt1, BitVec.extractLsb'_or, hfree.extract, BitVec.or_zero]

/-- A field that is written anew leaves the bits outside it, where the fixed bits are set already. -/
theorem field_rest {word field value fixed : Half} (hvalue : value &&& ~~~field = 0#16)
    (hfixed : word ||| fixed = word) :
    ((word &&& ~~~field) ||| value ||| fixed) &&& ~~~field = word &&& ~~~field := by
  apply BitVec.eq_of_getLsbD_eq
  intro i hi
  have hvalue := congrArg (·.getLsbD i) hvalue
  have hfixed := congrArg (·.getLsbD i) hfixed
  simp only [BitVec.getLsbD_and, BitVec.getLsbD_or, BitVec.getLsbD_not, BitVec.getLsbD_zero, hi,
    decide_true, Bool.true_and] at hvalue hfixed ⊢
  cases hfield : field.getLsbD i with
  | true => rw [Bool.not_true, Bool.and_false, Bool.and_false]
  | false =>
    rw [hfield, Bool.not_false, Bool.and_true] at hvalue
    rw [hvalue, Bool.not_false, Bool.and_true, Bool.and_true, Bool.or_false, hfixed]

/-- With the fixed bits in place, a new pointer changes no other bit. -/
theorem HoldsFixed.setArp_rest {status : Status} (h : status.HoldsFixed) (n : Nat) :
    (status.setArp n).st0 &&& ~~~St0.arp = status.st0 &&& ~~~St0.arp ∧
      (status.setArp n).st1 &&& ~~~St1.arb = status.st1 &&& ~~~St1.arb := by
  have hnone : St0.arp &&& ~~~St0.arp = 0#16 := by decide
  have hpointer : ((BitVec.ofNat 16 n <<< 13) &&& St0.arp) &&& ~~~St0.arp = 0#16 := by
    rw [BitVec.and_assoc, hnone, BitVec.and_zero]
  have hbackup : (status.st0 &&& St0.arp) &&& ~~~St0.arp = 0#16 := by
    rw [BitVec.and_assoc, hnone, BitVec.and_zero]
  exact ⟨field_rest hpointer h.st0, field_rest hbackup h.st1⟩

end Status

namespace Registers

/-- Registers that steer as before. -/
structure SteersAs (before after : Registers) : Prop where
  ar : after.ar = before.ar
  status : before.status.SteersAs after.status

/-- Registers steer as themselves. -/
theorem SteersAs.refl (regs : Registers) : regs.SteersAs regs := ⟨rfl, .refl _⟩

/-- Steering alike is transitive. -/
theorem SteersAs.trans {first second third : Registers} (h : first.SteersAs second)
    (h' : second.SteersAs third) : first.SteersAs third :=
  ⟨h'.ar.trans h.ar, h.status.trans h'.status⟩

/-- Registers that steer alike hold the same auxiliary registers. -/
theorem SteersAs.getAr {before after : Registers} (h : before.SteersAs after) (pointer : Pointer) :
    after.getAr pointer = before.getAr pointer := by
  unfold Registers.getAr
  rw [h.ar]

/-- Arithmetic steers nothing. -/
theorem keptByArithmetic_steersAs : KeptByArithmetic SteersAs where
  trans := .trans
  rest _ _ _ _ _ _ _ := ⟨rfl, .refl _⟩
  put regs flag on _ := ⟨rfl, regs.status.steersAs_put flag on⟩

/-! ## Modification -/

/-- The current auxiliary register reads back what was stored. -/
theorem currentAr_setCurrentAr (regs : Registers) (value : Half) :
    (regs.setCurrentAr value).currentAr = value :=
  (regs.getAr_setAr regs.status.arp regs.status.arp value).trans (if_pos rfl)

/-- Of two writes to the auxiliary register in use the second counts. -/
theorem setCurrentAr_setCurrentAr (regs : Registers) (value other : Half) :
    (regs.setCurrentAr value).setCurrentAr other = regs.setCurrentAr other := by
  simp only [setCurrentAr, setAr, Vector.set_set]

/-- Storing the current auxiliary register where it already is changes nothing. -/
theorem setCurrentAr_currentAr (regs : Registers) : regs.setCurrentAr regs.currentAr = regs := by
  rw [setCurrentAr, setAr, currentAr, getAr, Vector.set_getElem_self]

/-- A modification reaches the auxiliary register in use only. -/
theorem getAr_modifyAr (regs : Registers) (word : Half) (movesPointer : Bool) (pointer : Pointer) :
    (regs.modifyAr word movesPointer).getAr pointer =
      if pointer = regs.status.arp then modifiedAr word regs.currentAr (regs.getAr 0)
      else regs.getAr pointer := by
  have hset := regs.getAr_setAr regs.status.arp pointer (modifiedAr word regs.currentAr (regs.getAr 0))
  rw [modifyAr]
  split
  · exact hset
  · exact hset

/-- It leaves the status unless the word chooses another register, and may. -/
theorem modifyAr_status {regs : Registers} {word : Half} {movesPointer : Bool}
    (hstays : (movesPointer && word.getLsbD 3) = false) :
    (regs.modifyAr word movesPointer).status = regs.status := by
  rw [modifyAr, hstays]
  rfl

/-- True when an instruction word chooses another auxiliary register, and may. -/
def switches (word : Half) (movesPointer : Bool) : Bool :=
  isIndirect word && (movesPointer && word.getLsbD 3)

/-- What becomes of the registers when the auxiliary register in use is modified as a word asks. -/
structure ModifiedTo (before : Registers) (word : Half) (movesPointer : Bool) (after : Registers) :
    Prop where
  ar : ∀ pointer, after.getAr pointer =
    if isIndirect word = true ∧ pointer = before.status.arp then
      modifiedAr word (before.getAr before.status.arp) (before.getAr 0)
    else before.getAr pointer
  arp : after.status.arp =
    if switches word movesPointer then word.extractLsb' 0 3 else before.status.arp
  arb : after.status.arb =
    if switches word movesPointer then before.status.arp else before.status.arb
  st0 : after.status.st0 &&& ~~~St0.arp = before.status.st0 &&& ~~~St0.arp
  st1 : after.status.st1 &&& ~~~St1.arb = before.status.st1 &&& ~~~St1.arb
  part : after.status.st1Fixed = before.status.st1Fixed

/-- The modification that goes with an operand comes to this. -/
theorem modifiedTo_afterOperand {regs : Registers} {model : Model} (h : regs.status.InPlace model)
    (word : Half) (movesPointer : Bool) :
    regs.ModifiedTo word movesPointer (regs.afterOperand word movesPointer) := by
  have hset := regs.getAr_setAr regs.status.arp
  rw [afterOperand, modifyAr]
  cases hindirect : isIndirect word with
  | false => exact ⟨fun _ => by simp [hindirect], by simp [switches, hindirect],
      by simp [switches, hindirect], rfl, rfl, rfl⟩
  | true =>
    cases hmoves : movesPointer && word.getLsbD 3 with
    | false =>
      have hstays : switches word movesPointer = false := by rw [switches, hmoves, Bool.and_false]
      refine ⟨fun pointer => ?_, ?_, ?_, rfl, rfl, rfl⟩
      · simp only [hindirect, true_and]
        exact hset pointer _
      · rw [hstays]
        rfl
      · rw [hstays]
        rfl
    | true =>
      obtain ⟨harp, harb⟩ := Status.setArp_pointers h.freesPointer (word.extractLsb' 0 3)
      obtain ⟨hst0, hst1⟩ := h.holdsFixed.setArp_rest (word.extractLsb' 0 3)
      refine ⟨fun pointer => ?_, ?_, ?_, hst0, hst1, rfl⟩
      · simp only [hindirect, true_and]
        exact hset pointer _
      · rw [switches, hindirect, hmoves]
        exact harp
      · rw [switches, hindirect, hmoves]
        exact harb

end Registers

namespace Machine

/-! ## Accesses -/

/-- A machine that steers as before, with the same instruction word, the same last operand and the
blocks where they were. -/
structure SteersAs (before after : Machine) : Prop where
  regs : before.core.regs.SteersAs after.core.regs
  layout : after.core.ram.layout = before.core.ram.layout
  opcode : after.core.opcode = before.core.opcode
  memAddress : after.core.memAddress = before.core.memAddress
  externalAccess : after.core.externalAccess = before.core.externalAccess

/-- Steering alike is transitive. -/
theorem SteersAs.trans {first second third : Machine} (h : first.SteersAs second)
    (h' : second.SteersAs third) : first.SteersAs third :=
  ⟨h.regs.trans h'.regs, h'.layout.trans h.layout, h'.opcode.trans h.opcode,
    h'.memAddress.trans h.memAddress, h'.externalAccess.trans h.externalAccess⟩

/-- Work on the bus alone. -/
theorem steersAs_of_core {before after : Machine} (hcore : after.core = before.core) :
    before.SteersAs after :=
  ⟨hcore ▸ .refl _, congrArg (·.ram.layout) hcore, congrArg (·.opcode) hcore, congrArg (·.memAddress) hcore,
    congrArg (·.externalAccess) hcore⟩

/-- One of two things done. -/
theorem SteersAs.ite {machine yes no : Machine} {condition : Prop} [Decidable condition]
    (hyes : machine.SteersAs yes) (hno : machine.SteersAs no) :
    machine.SteersAs (if condition then yes else no) := by
  split
  · exact hyes
  · exact hno

/-- Work on the registers. -/
theorem steersAs_mapRegs (machine : Machine) {f : Registers → Registers}
    (h : machine.core.regs.SteersAs (f machine.core.regs)) : machine.SteersAs (machine.mapRegs f) :=
  ⟨h, rfl, rfl, rfl, rfl⟩

/-- Storing a word at its home steers nothing. -/
theorem steersAs_putWord (machine : Machine) (home : Home) (value : Half) :
    machine.SteersAs (machine.putWord home value) := by
  cases home with
  | register register =>
    cases register with
    | dxr =>
      simp only [putWord, mapCore, Core.writeRegister]
      split
      · split
        · exact ⟨.refl _, rfl, rfl, rfl, rfl⟩
        · exact ⟨⟨rfl, .refl _⟩, rfl, rfl, rfl, rfl⟩
      · exact ⟨.refl _, rfl, rfl, rfl, rfl⟩
    | drr | tim | prd | imr | greg => exact ⟨.refl _, rfl, rfl, rfl, rfl⟩
  | cell cell => exact ⟨.refl _, machine.core.ram.layout_set cell value, rfl, rfl, rfl⟩
  | offChip space address => exact steersAs_of_core rfl

/-- A data write steers nothing. -/
theorem steersAs_writeData (machine : Machine) (address value : Half) :
    machine.SteersAs (machine.writeData address value) := by
  rw [writeData_eq_putWord]
  exact machine.steersAs_putWord _ value

/-- A program write steers nothing. -/
theorem steersAs_writeProgram (machine : Machine) (address value : Half) :
    machine.SteersAs (machine.writeProgram address value) := by
  rw [writeProgram_eq_putWord]
  exact machine.steersAs_putWord _ value

/-- A data read steers nothing. -/
theorem steersAs_readData (machine : Machine) (address : Half) :
    machine.SteersAs (machine.readData address).2 :=
  steersAs_of_core (machine.readData_core address)

/-- A program read steers nothing. -/
theorem steersAs_readProgram (machine : Machine) (address : Half) :
    machine.SteersAs (machine.readProgram address).2 :=
  steersAs_of_core (machine.readProgram_core address)

/-- Setting the prefetch counter steers nothing. -/
theorem steersAs_setPfc (machine : Machine) (pfc : Half) : machine.SteersAs (machine.setPfc pfc) :=
  machine.steersAs_mapRegs ⟨rfl, .refl _⟩

/-- Fetching a word steers nothing. -/
theorem steersAs_fetchWord (machine : Machine) : machine.SteersAs machine.fetchWord.2 :=
  (machine.steersAs_readProgram _).trans (steersAs_mapRegs _ ⟨rfl, .refl _⟩)

/-- Loading the prefetch counter from the second word steers nothing. -/
theorem steersAs_loadPfc (machine : Machine) : machine.SteersAs machine.loadPfc :=
  .ite (machine.steersAs_fetchWord.trans (steersAs_setPfc _ _)) (steersAs_of_core rfl)

/-- Loading the prefetch counter from the accumulator steers nothing. -/
theorem steersAs_pfcFromAcc (machine : Machine) : machine.SteersAs machine.pfcFromAcc :=
  .ite (machine.steersAs_setPfc _) (steersAs_of_core rfl)

end Machine

end ProcessorCores.Tms

import ProcessorCores.Proofs.Tms.Operands

/-!
# Flags of the TMS3202x

A flag that is put reads back as it was put and leaves the others as they are, and a new pointer leaves
all of them. This takes a part that does not fix the bit of the flag; no part fixes the bit of any, but
for the high layout flag.

What an operation computes depends on the accumulator, the multiplier, the flags and the product shift
mode. The accesses to memory that go with it leave all of these: addressing writes no more of the status
than pointers, and of the registers a write reaches the requests only.
-/

namespace ProcessorCores.Tms

/-- Flags of one word have no bit in common. -/
theorem StatusFlag.mask_and_mask {flag other : StatusFlag} (hne : flag ≠ other)
    (hword : flag.inSt0 = other.inSt0) : flag.mask &&& other.mask = 0#16 := by
  cases flag <;> cases other <;> first | contradiction | decide

/-- A mask that is assigned reads back. -/
theorem meets_assign {word field fixed : Half} (hmask : field ≠ 0) (hfixed : fixed &&& field = 0)
    (on : Bool) : meets (assign word field on ||| fixed) field = on := by
  have hkept : (assign word field on ||| fixed) &&& field = if on then field else 0 := by
    apply BitVec.eq_of_getLsbD_eq
    intro i hi
    have hfixed : (fixed &&& field).getLsbD i = false := by simp [hfixed]
    rw [BitVec.getLsbD_and] at hfixed
    rw [BitVec.getLsbD_and, BitVec.getLsbD_or, getLsbD_assign]
    cases hfield : field.getLsbD i with
    | false => cases on <;> simp [hfield]
    | true =>
      rw [hfield, Bool.and_true] at hfixed
      cases on <;> simp [hfield, hfixed]
  rw [meets, hkept]
  cases on with
  | true => exact bne_iff_ne.mpr hmask
  | false => rfl

namespace Status

variable {status : Status} {model : Model}

/-! ## Setters -/

/-- A status whose part does not fix the bit of a flag. -/
def Frees (status : Status) (flag : StatusFlag) : Prop :=
  flag.inSt0 = true ∨ status.st1Fixed &&& flag.mask = 0#16

/-- No part fixes the bit of a flag, but for the high layout flag. -/
theorem frees (hpart : status.st1Fixed = model.st1Fixed) {flag : StatusFlag} (hflag : flag ≠ .cnf1) :
    status.Frees flag := by
  rw [Frees, hpart]
  cases flag <;> first | contradiction | exact .inl rfl | (cases model <;> exact .inr (by decide))

/-- A flag reads as it was put last. -/
theorem has_put {other : StatusFlag} (hfree : status.Frees other) (flag : StatusFlag) (on : Bool) :
    (status.put flag on).has other = if other = flag then on else status.has other := by
  have hmask : other.mask ≠ 0 := by cases other <;> decide
  have hst0 (h : other.inSt0 = true) : St0.fixed &&& other.mask = 0#16 := by
    cases other <;> first | contradiction | decide
  have hst1 (h : other.inSt0 = false) : status.st1Fixed &&& other.mask = 0#16 :=
    hfree.resolve_left (by rw [h]; exact Bool.false_ne_true)
  split
  · next heq =>
    subst heq
    rw [has, put]
    cases hword : other.inSt0 with
    | true => exact meets_assign hmask (hst0 hword) on
    | false => exact meets_assign hmask (hst1 hword) on
  · next hne =>
    have hapart (h : flag.inSt0 = other.inSt0) := StatusFlag.mask_and_mask (Ne.symm hne) h
    rw [has, has, put]
    -- A flag of the other word is out of reach, and one of the same word has bits of its own.
    cases hflag : flag.inSt0 with
    | true =>
      cases hword : other.inSt0 with
      | true =>
        exact congrArg (· != 0#16)
          (assign_and_field on (hapart (hflag.trans hword.symm)) (hst0 hword))
      | false => rfl
    | false =>
      cases hword : other.inSt0 with
      | true => rfl
      | false =>
        exact congrArg (· != 0#16)
          (assign_and_field on (hapart (hflag.trans hword.symm)) (hst1 hword))

/-- No flag is a bit of the pointer or of its backup. -/
theorem has_setArp {flag : StatusFlag} (hfree : status.Frees flag) (n : Nat) :
    (status.setArp n).has flag = status.has flag := by
  have hnone : St0.arp &&& flag.mask = 0#16 := by cases flag <;> decide
  cases hword : flag.inSt0 with
  | true =>
    have hpointer : ((BitVec.ofNat 16 n <<< 13) &&& St0.arp) &&& flag.mask = 0#16 := by
      rw [BitVec.and_assoc, hnone, BitVec.and_zero]
    have hkept : (status.setArp n).st0 &&& flag.mask = status.st0 &&& flag.mask :=
      replaced_and_other hnone hpointer (by cases flag <;> first | contradiction | decide)
    rw [has, has, hword, if_pos rfl, if_pos rfl]
    exact congrArg (· != 0#16) hkept
  | false =>
    have hbackup : (status.st0 &&& St0.arp) &&& flag.mask = 0#16 := by
      rw [BitVec.and_assoc, hnone, BitVec.and_zero]
    have hfixed : status.st1Fixed &&& flag.mask = 0#16 :=
      hfree.resolve_left (by rw [hword]; exact Bool.false_ne_true)
    have hkept : (status.setArp n).st1 &&& flag.mask = status.st1 &&& flag.mask :=
      replaced_and_other hnone hbackup hfixed
    rw [has, has, hword, if_neg Bool.false_ne_true, if_neg Bool.false_ne_true]
    exact congrArg (· != 0#16) hkept

/-- A status whose part does not fix the product shift mode. -/
def FreesShift (status : Status) : Prop := status.st1Fixed &&& St1.pm = 0#16

/-- No part fixes it. -/
theorem freesShift (hpart : status.st1Fixed = model.st1Fixed) : status.FreesShift := by
  rw [FreesShift, hpart]
  cases model <;> decide

/-- No flag is a bit of the product shift mode. -/
theorem pm_put (hfree : status.FreesShift) (flag : StatusFlag) (on : Bool) :
    (status.put flag on).pm = status.pm := by
  rw [put]
  split
  · rfl
  · exact assign_and_field on (by cases flag <;> decide) hfree

/-- Nor is the backup. -/
theorem pm_setArp (hfree : status.FreesShift) (n : Nat) : (status.setArp n).pm = status.pm := by
  have hbackup : (status.st0 &&& St0.arp) &&& St1.pm = 0#16 := by
    have hnone : St0.arp &&& St1.pm = 0#16 := by decide
    rw [BitVec.and_assoc, hnone, BitVec.and_zero]
  exact replaced_and_other (by decide) hbackup hfree

/-- A status with the flags and the product shift mode of another. -/
structure FlagsAs (before after : Status) : Prop where
  part : after.st1Fixed = before.st1Fixed
  has : ∀ flag, before.Frees flag → after.has flag = before.has flag
  pm : before.FreesShift → after.pm = before.pm

/-- A status has its own flags. -/
theorem FlagsAs.refl (status : Status) : status.FlagsAs status := ⟨rfl, fun _ _ => rfl, fun _ => rfl⟩

/-- What has the flags of a status that has those of another has those of the other. -/
theorem FlagsAs.trans {first second third : Status} (h : first.FlagsAs second)
    (h' : second.FlagsAs third) : first.FlagsAs third where
  part := h'.part.trans h.part
  has flag hfree := by
    have hsecond : second.Frees flag := by rw [Frees, h.part]; exact hfree
    exact (h'.has flag hsecond).trans (h.has flag hfree)
  pm hfree := by
    have hsecond : second.FreesShift := by rw [FreesShift, h.part]; exact hfree
    exact (h'.pm hsecond).trans (h.pm hfree)

/-- A new pointer leaves both. -/
theorem flagsAs_setArp (status : Status) (n : Nat) : status.FlagsAs (status.setArp n) :=
  ⟨rfl, fun _ hfree => has_setArp hfree n, fun hfree => pm_setArp hfree n⟩

end Status

namespace Registers

/-! ## What an operation computes with -/

/-- Registers with the accumulator, the flags and the product shift mode of others. -/
structure HoldsAs (before after : Registers) : Prop where
  acc : after.acc = before.acc
  status : before.status.FlagsAs after.status

/-- Registers hold what they hold. -/
theorem HoldsAs.refl (regs : Registers) : regs.HoldsAs regs := ⟨rfl, .refl _⟩

/-- Holding the same passes on. -/
theorem HoldsAs.trans {first second third : Registers} (h : first.HoldsAs second)
    (h' : second.HoldsAs third) : first.HoldsAs third :=
  ⟨h'.acc.trans h.acc, h.status.trans h'.status⟩

/-- Registers from which an operation computes the same: they have the multiplier of others, too. -/
structure ComputesAs (before after : Registers) : Prop extends HoldsAs before after where
  p : after.p = before.p
  t : after.t = before.t

/-- From the same registers the same is computed. -/
theorem ComputesAs.refl (regs : Registers) : regs.ComputesAs regs := ⟨.refl _, rfl, rfl⟩

/-- Computing the same passes on. -/
theorem ComputesAs.trans {first second third : Registers} (h : first.ComputesAs second)
    (h' : second.ComputesAs third) : first.ComputesAs third :=
  ⟨h.toHoldsAs.trans h'.toHoldsAs, h'.p.trans h.p, h'.t.trans h.t⟩

variable {before after : Registers} {model : Model}

/-- The extension of an operand is the same, since the sign-extension mode is. -/
theorem ComputesAs.extend (h : before.ComputesAs after)
    (hpart : before.status.st1Fixed = model.st1Fixed) (value : Half) (shift : Nat) :
    after.extend value shift = before.extend value shift := by
  have hsxm : after.has .sxm = before.has .sxm :=
    h.status.has .sxm (Status.frees hpart (by decide))
  rw [Registers.extend, Registers.extend, hsxm]

/-- The shifted product is the same, since the product shift mode is. -/
theorem ComputesAs.shiftedProduct (h : before.ComputesAs after)
    (hpart : before.status.st1Fixed = model.st1Fixed) :
    after.shiftedProduct = before.shiftedProduct := by
  rw [Registers.shiftedProduct, Registers.shiftedProduct, h.p, h.status.pm (Status.freesShift hpart)]

/-- No operation computes with auxiliary registers or their pointer. -/
theorem computesAs_modifyAr (regs : Registers) (word : Half) (movesPointer : Bool) :
    regs.ComputesAs (regs.modifyAr word movesPointer) := by
  rw [modifyAr]
  split
  · exact ⟨⟨rfl, regs.status.flagsAs_setArp _⟩, rfl, rfl⟩
  · exact ⟨⟨rfl, .refl _⟩, rfl, rfl⟩

/-- So what goes with an operand makes no difference. -/
theorem computesAs_afterOperand (regs : Registers) (word : Half) (movesPointer : Bool) :
    regs.ComputesAs (regs.afterOperand word movesPointer) := by
  rw [afterOperand]
  split
  · exact regs.computesAs_modifyAr word movesPointer
  · exact .refl regs

/-- Work on registers that no operation computes with. -/
theorem computesAs_of_eq (hacc : after.acc = before.acc) (hp : after.p = before.p)
    (ht : after.t = before.t) (hstatus : after.status = before.status) : before.ComputesAs after :=
  ⟨⟨hacc, hstatus ▸ .refl _⟩, hp, ht⟩

end Registers

namespace Machine

/-- Work on the bus alone. -/
theorem computesAs_of_core {before after : Machine} (hcore : after.core = before.core) :
    before.core.regs.ComputesAs after.core.regs := hcore ▸ .refl _

/-- Nor does the fetch of an operand. -/
theorem computesAs_fetchOperand (machine : Machine) (movesPointer : Bool) :
    machine.core.regs.ComputesAs (machine.fetchOperand movesPointer).2.core.regs := by
  rw [fetchOperand_eq]
  exact machine.core.regs.computesAs_afterOperand _ _

/-- Nor does a write to data space. -/
theorem computesAs_writeData (machine : Machine) (address value : Half) :
    machine.core.regs.ComputesAs (machine.writeData address value).core.regs := by
  obtain ⟨_, hwritten⟩ := machine.writeData_regs address value
  rw [hwritten]
  exact Registers.computesAs_of_eq rfl rfl rfl rfl

/-- Nor does storing a result. -/
theorem computesAs_storeOperand (machine : Machine) (value : Half) :
    machine.core.regs.ComputesAs (machine.storeOperand value).core.regs :=
  (computesAs_writeData (machine.noteOperand _) _ value).trans
    (Registers.computesAs_afterOperand _ machine.core.opcode true)

/-- Nor does storing a status word. -/
theorem computesAs_storeStatus (machine : Machine) (value : Half) :
    machine.core.regs.ComputesAs (machine.storeStatus value).core.regs := by
  refine .trans ?_ (computesAs_writeData _ _ value)
  exact machine.core.regs.computesAs_afterOperand machine.core.opcode false

/-- Nor does the fetch of a second word. -/
theorem computesAs_fetchWord (machine : Machine) :
    machine.core.regs.ComputesAs machine.fetchWord.2.core.regs :=
  (computesAs_of_core (machine.readProgram_core _)).trans
    (Registers.computesAs_of_eq rfl rfl rfl rfl)

/-- Nor does loading the prefetch counter. -/
theorem computesAs_loadPfc (machine : Machine) :
    machine.core.regs.ComputesAs machine.loadPfc.core.regs := by
  rw [loadPfc]
  split
  · exact machine.computesAs_fetchWord.trans (Registers.computesAs_of_eq rfl rfl rfl rfl)
  · exact .refl _

/-- Nor does loading it from the accumulator. -/
theorem computesAs_pfcFromAcc (machine : Machine) :
    machine.core.regs.ComputesAs machine.pfcFromAcc.core.regs := by
  rw [pfcFromAcc]
  split
  · exact Registers.computesAs_of_eq rfl rfl rfl rfl
  · exact .refl _

/-- Nor does a write to program space. -/
theorem computesAs_writeProgram (machine : Machine) (address value : Half) :
    machine.core.regs.ComputesAs (machine.writeProgram address value).core.regs := by
  rw [writeProgram]
  split
  · exact .refl _
  · exact .refl _

/-- Nor does setting the prefetch counter. -/
theorem computesAs_setPfc (machine : Machine) (pfc : Half) :
    machine.core.regs.ComputesAs (machine.setPfc pfc).core.regs :=
  Registers.computesAs_of_eq rfl rfl rfl rfl

/-! ## Moves -/

/-- Nor does a move from data space. -/
theorem computesAs_moveFromData (machine : Machine) :
    machine.core.regs.ComputesAs machine.moveFromData.core.regs := by
  let source := machine.loadPfc.core.regs.pfc
  let read := machine.loadPfc.readData source
  have hread : machine.core.regs.ComputesAs read.2.core.regs :=
    machine.computesAs_loadPfc.trans (computesAs_of_core (machine.loadPfc.readData_core source))
  exact (hread.trans (read.2.computesAs_storeOperand read.1)).trans (computesAs_setPfc _ (source + 1))

/-- Nor does a move from program space. -/
theorem computesAs_moveFromProgram (machine : Machine) :
    machine.core.regs.ComputesAs machine.moveFromProgram.core.regs := by
  let read := machine.readProgram machine.core.regs.pfc
  have hread : machine.core.regs.ComputesAs read.2.core.regs :=
    computesAs_of_core (machine.readProgram_core _)
  exact (hread.trans (read.2.computesAs_storeOperand read.1)).trans (computesAs_setPfc _ _)

/-- Nor does a move to program space. -/
theorem computesAs_moveToProgram (machine : Machine) :
    machine.core.regs.ComputesAs machine.moveToProgram.core.regs := by
  let fetched := machine.fetchOperand true
  have hfetched : machine.core.regs.ComputesAs fetched.2.core.regs :=
    machine.computesAs_fetchOperand true
  have hwritten := fetched.2.computesAs_writeProgram fetched.2.core.regs.pfc fetched.1
  exact (hfetched.trans hwritten).trans (computesAs_setPfc _ _)

/-! ## Operations with an operand -/

/-- The registers that an operation with an operand to read leaves. -/
theorem execute_operand_regs (machine : Machine) (op : OperandOp) :
    (machine.execute (.operand op)).1.core.regs =
      op.finish machine.core.opcode ((machine.mapRegs op.prepare).fetchOperand op.movesPointer).1
        ((machine.mapRegs op.prepare).fetchOperand op.movesPointer).2.core.regs := rfl

/-- Where nothing precedes the fetch, an operation works on the registers as the fetch leaves them. -/
theorem execute_finish (machine : Machine) {op : OperandOp}
    (hprepare : machine.mapRegs op.prepare = machine) (hpointer : op.movesPointer = true) :
    (machine.execute (.operand op)).1.core.regs =
      op.finish machine.core.opcode (machine.fetchOperand true).1
        (machine.fetchOperand true).2.core.regs := by
  rw [execute_operand_regs, hprepare, hpointer]

end Machine

end ProcessorCores.Tms

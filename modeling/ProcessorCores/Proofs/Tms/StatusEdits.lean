import ProcessorCores.Tms.Compute
import Mathlib.Logic.Relation

/-!
# Edits of the TMS3202x status

An operation reaches the status words through six setters only. What it does to them is therefore a
sequence of edits, and it is enough to know which edits occur in it. Nearly all operations make
ordinary edits: none of them loads ST1 as a whole, and none touches the interrupt mask or the flags
that choose the layout of the blocks.

Arithmetic sets flags and writes registers that neither address nor choose anything. A relation that
holds across it is shown once for all operations that are arithmetic; `KeptByArithmetic` names what
there is to show. The other register effects are taken one at a time.
-/

namespace ProcessorCores.Tms

/-! ## Edits -/

/-- One use of a setter of the status. -/
inductive StatusEdit
  | put (flag : StatusFlag) (on : Bool)
  | arp (n : Nat)
  | dp (page : Half)
  | pm (mode : Half)
  | st0 (value : Half)
  | st1 (value : Half)
  deriving DecidableEq, Repr

namespace StatusEdit

/-- What an edit makes of the status. -/
def apply (edit : StatusEdit) (status : Status) : Status :=
  match edit with
  | .put flag on => status.put flag on
  | .arp n => status.setArp n
  | .dp page => status.setDp page
  | .pm mode => status.setPm mode
  | .st0 value => status.loadSt0 value
  | .st1 value => status.loadSt1 value

/-- True for the edits that leave the interrupt mask and the layout flags. -/
def isOrdinary : StatusEdit → Bool
  | .put .intm _ | .put .cnf0 _ | .put .cnf1 _ | .st1 _ => false
  | _ => true

/-- No edit changes which bits the part fixes. -/
theorem apply_st1Fixed (edit : StatusEdit) (status : Status) :
    (edit.apply status).st1Fixed = status.st1Fixed := by
  cases edit with
  | put flag on =>
    rw [apply, Status.put]
    split <;> rfl
  | arp _ | dp _ | pm _ | st0 _ | st1 _ => rfl

end StatusEdit

/-- One status comes from another by ordinary edits. -/
def Status.EditedTo : Status → Status → Prop :=
  Relation.ReflTransGen fun before after =>
    ∃ edit : StatusEdit, edit.isOrdinary = true ∧ after = edit.apply before

/-- A single ordinary edit. -/
theorem Status.editedTo_apply {edit : StatusEdit} (hedit : edit.isOrdinary = true) (status : Status) :
    status.EditedTo (edit.apply status) :=
  .single ⟨edit, hedit, rfl⟩

/-! ## Layout flags -/

/-- A flag reads as a bit of its word. -/
theorem Status.has_cnf0 (status : Status) : status.has .cnf0 = status.st1.getLsbD 12 := by
  have hmask : St1.cnf0 = BitVec.twoPow 16 12 := by decide
  change meets status.st1 St1.cnf0 = _
  rw [hmask]
  exact meets_twoPow status.st1 (by decide)

/-- A status whose part does not fix the layout flag. -/
def Status.FreesLayout (status : Status) : Prop := status.st1Fixed.getLsbD 12 = false

/-- True for the edits that leave the low layout flag. -/
def StatusEdit.leavesLayout : StatusEdit → Bool
  | .put .cnf0 _ | .st1 _ => false
  | _ => true

/-- Ordinary edits leave the layout flag, among others. -/
theorem StatusEdit.leavesLayout_of_isOrdinary {edit : StatusEdit} (hedit : edit.isOrdinary = true) :
    edit.leavesLayout = true := by
  cases edit with
  | put flag on => cases flag <;> first | contradiction | rfl
  | st1 value => contradiction
  | arp _ | dp _ | pm _ | st0 _ => rfl

/-- An edit that is neither of the layout flag nor of ST1 as a whole leaves the flag. -/
theorem StatusEdit.apply_cnf0 {edit : StatusEdit} (hedit : edit.leavesLayout = true)
    {status : Status} (hfree : status.FreesLayout) :
    (edit.apply status).has .cnf0 = status.has .cnf0 := by
  rw [Status.has_cnf0, Status.has_cnf0]
  rw [Status.FreesLayout] at hfree
  cases edit with
  | put flag on =>
    rw [apply, Status.put]
    split
    · rfl
    · have hmask : flag.mask.getLsbD 12 = false := by
        cases flag <;> first | contradiction | decide
      rw [BitVec.getLsbD_or, hfree, Bool.or_false, getLsbD_assign, if_neg (by rw [hmask]; decide)]
  | arp n =>
    simp only [apply, Status.setArp, BitVec.getLsbD_or, BitVec.getLsbD_and, BitVec.getLsbD_not, hfree]
    have harb : St1.arb.getLsbD 12 = false := by decide
    have harp : St0.arp.getLsbD 12 = false := by decide
    rw [harb, harp]
    simp
  | pm mode =>
    have hpm : St1.pm.getLsbD 12 = false := by decide
    simp only [apply, Status.setPm, BitVec.getLsbD_or, BitVec.getLsbD_and, BitVec.getLsbD_not, hfree,
      hpm]
    simp
  | dp _ | st0 _ => rfl
  | st1 value => contradiction

/-- Ordinary edits change neither the fixed bits nor the layout flag. -/
theorem Status.EditedTo.layout {before after : Status} (h : before.EditedTo after)
    (hfree : before.FreesLayout) :
    after.st1Fixed = before.st1Fixed ∧ after.has .cnf0 = before.has .cnf0 := by
  induction h with
  | refl => exact ⟨rfl, rfl⟩
  | tail _ hlast ih =>
    obtain ⟨edit, hedit, rfl⟩ := hlast
    obtain ⟨hfixed, hflag⟩ := ih
    rw [Status.FreesLayout, ← hfixed] at hfree
    have hlast := StatusEdit.apply_cnf0 (StatusEdit.leavesLayout_of_isOrdinary hedit) hfree
    exact ⟨(edit.apply_st1Fixed _).trans hfixed, hlast.trans hflag⟩

/-- The layout flag reads back as it was put. -/
theorem Status.has_put_cnf0 {status : Status} (hfree : status.FreesLayout) (on : Bool) :
    (status.put .cnf0 on).has .cnf0 = on := by
  rw [Status.has_cnf0]
  change (assign status.st1 St1.cnf0 on ||| status.st1Fixed).getLsbD 12 = on
  rw [BitVec.getLsbD_or, getLsbD_assign, hfree, Bool.or_false]
  exact if_pos (by decide)

/-- A load of ST1 sets the layout flag to the bit of the word. -/
theorem Status.has_loadSt1_cnf0 {status : Status} (hfree : status.FreesLayout) (value : Half) :
    (status.loadSt1 value).has .cnf0 = value.getLsbD 12 := by
  rw [Status.has_cnf0]
  change (value ||| status.st1Fixed).getLsbD 12 = _
  rw [BitVec.getLsbD_or, hfree, Bool.or_false]

/-! ## Register effects -/

namespace Registers

/-- True for what arithmetic makes of a flag: it puts the carry and the test either way, and the
overflow only to set it. -/
def judges : StatusFlag → Bool → Bool
  | .carry, _ | .tc, _ | .ov, true => true
  | _, _ => false

/-- An edit that judges a flag is an ordinary one. -/
theorem isOrdinary_of_judges {flag : StatusFlag} {on : Bool} (h : judges flag on = true) :
    (StatusEdit.put flag on).isOrdinary = true := by
  cases flag <;> first | rfl | cases on <;> contradiction

/-- A relation between register files that arithmetic keeps: what writes neither the auxiliary
registers nor the status but for the flags that tell of a result. -/
structure KeptByArithmetic (R : Registers → Registers → Prop) : Prop where
  trans : ∀ {first second third : Registers}, R first second → R second third → R first third
  rest : ∀ (regs : Registers) (pc pfc : Half) (acc p : Word) (t : Half) (stack : Octet),
    R regs { regs with pc := pc, pfc := pfc, acc := acc, p := p, t := t, stack := stack }
  put : ∀ (regs : Registers) (flag : StatusFlag) (on : Bool),
    judges flag on = true → R regs (regs.put flag on)

namespace KeptByArithmetic

variable {R : Registers → Registers → Prop}

/-- Nothing done. -/
theorem refl (h : KeptByArithmetic R) (regs : Registers) : R regs regs := h.rest regs _ _ _ _ _ _

/-- One of two things done. -/
theorem ite (_ : KeptByArithmetic R) {regs yes no : Registers} {condition : Prop}
    [Decidable condition] (hyes : R regs yes) (hno : R regs no) :
    R regs (if condition then yes else no) := by
  split
  · exact hyes
  · exact hno

/-- Writing the accumulator. -/
theorem acc (h : KeptByArithmetic R) (regs : Registers) (acc : Word) :
    R regs { regs with acc := acc } := h.rest regs _ _ _ _ _ _

/-- Writing the multiplier input. -/
theorem t (h : KeptByArithmetic R) (regs : Registers) (t : Half) :
    R regs { regs with t := t } := h.rest regs _ _ _ _ _ _

/-! ### Accumulator -/

/-- Judging overflow keeps the relation. -/
theorem overflow (h : KeptByArithmetic R) (regs : Registers) (old : Word) :
    R regs (regs.overflow old) := by
  have hput := h.put regs .ov true rfl
  exact h.ite (h.trans hput (h.acc _ _)) hput

/-- An addition to the accumulator keeps the relation. -/
theorem addAcc (h : KeptByArithmetic R) (regs : Registers) (value : Word) :
    R regs (regs.addAcc value) := by
  refine h.trans ?_ (h.put _ _ _ rfl)
  exact h.ite (h.trans (h.acc _ _) (h.overflow _ _)) (h.acc _ _)

/-- A subtraction from the accumulator keeps the relation. -/
theorem subAcc (h : KeptByArithmetic R) (regs : Registers) (value : Word) :
    R regs (regs.subAcc value) := by
  refine h.trans ?_ (h.put _ _ _ rfl)
  exact h.ite (h.trans (h.acc _ _) (h.overflow _ _)) (h.acc _ _)

/-- A carry that is judged only when the accumulator has changed. -/
theorem carryIf (h : KeptByArithmetic R) {regs kept : Registers} (hkept : R regs kept)
    (changed : Prop) [Decidable changed] (carry : Bool) :
    R regs (if changed then kept.put .carry carry else kept) :=
  h.ite (h.trans hkept (h.put _ _ _ rfl)) hkept

/-- An addition with carry keeps the relation. -/
theorem addWithCarry (h : KeptByArithmetic R) (regs : Registers) (value : Half) :
    R regs (regs.addWithCarry value) := by
  refine h.carryIf ?_ _ _
  exact h.ite (h.trans (h.acc _ _) (h.overflow _ _)) (h.acc _ _)

/-- A subtraction with borrow keeps the relation. -/
theorem subWithBorrow (h : KeptByArithmetic R) (regs : Registers) (value : Half) :
    R regs (regs.subWithBorrow value) := by
  refine h.carryIf ?_ _ _
  exact h.ite (h.trans (h.acc _ _) (h.overflow _ _)) (h.acc _ _)

/-- The clamp of a high half edits the status and hands the registers on. -/
theorem clampHigh (h : KeptByArithmetic R) (regs : Registers) (old result : Half) (overflows : Prop)
    [Decidable overflows] :
    R regs (if overflows then regs.overflowHigh old result else (result, regs)).2 := by
  split
  · exact h.put regs .ov true rfl
  · exact h.refl regs

/-- An addition to the high half keeps the relation. -/
theorem addHigh (h : KeptByArithmetic R) (regs : Registers) (value : Half) :
    R regs (regs.addHigh value) := by
  refine h.trans ?_ (h.acc _ _)
  refine h.trans ?_ (h.clampHigh _ _ _ _)
  exact h.carryIf (h.refl regs) _ _

/-- A subtraction from the high half keeps the relation. -/
theorem subHigh (h : KeptByArithmetic R) (regs : Registers) (value : Half) :
    R regs (regs.subHigh value) := by
  refine h.trans ?_ (h.acc _ _)
  refine h.trans ?_ (h.clampHigh _ _ _ _)
  exact h.carryIf (h.refl regs) _ _

/-- One step of the conditional subtraction keeps the relation. -/
theorem divideStep (h : KeptByArithmetic R) (regs : Registers) (value : Half) :
    R regs (regs.divideStep value) := by
  refine h.trans ?_ (h.acc _ _)
  refine h.trans ?_ (h.put _ _ _ rfl)
  exact h.ite (h.put _ _ _ rfl) (h.refl regs)

/-- The one word without a negative overflows, and is clamped in that mode. -/
theorem clampGreatest (h : KeptByArithmetic R) (regs : Registers) :
    R regs (if (regs.put .ov true).has .ovm then
      { regs.put .ov true with acc := greatestSigned } else regs.put .ov true) := by
  have hput := h.put regs .ov true rfl
  exact h.ite (h.trans hput (h.acc _ _)) hput

/-- Taking the absolute value keeps the relation. -/
theorem absolute (h : KeptByArithmetic R) (regs : Registers) : R regs regs.absolute := by
  refine h.trans ?_ (h.put _ _ _ rfl)
  refine h.ite (h.trans (h.acc regs (-regs.acc)) ?_) (h.refl regs)
  exact h.ite (h.clampGreatest _) (h.refl _)

/-- Negating the accumulator keeps the relation. -/
theorem negate (h : KeptByArithmetic R) (regs : Registers) : R regs regs.negate := by
  refine h.trans ?_ (h.put _ _ _ rfl)
  exact h.ite (h.clampGreatest _) (h.acc _ _)

/-- The left shift keeps the relation: it edits the carry and moves the accumulator. -/
theorem shiftLeft (h : KeptByArithmetic R) (regs : Registers) : R regs regs.shiftLeft :=
  h.trans (h.put _ _ _ rfl) (h.acc _ _)

/-- The right shift keeps the relation. -/
theorem shiftRight (h : KeptByArithmetic R) (regs : Registers) : R regs regs.shiftRight :=
  h.trans (h.put _ _ _ rfl) (h.acc _ _)

/-- The left rotation keeps the relation. -/
theorem rotateLeft (h : KeptByArithmetic R) (regs : Registers) : R regs regs.rotateLeft :=
  h.trans (h.acc _ _) (h.put _ _ _ rfl)

/-- The right rotation keeps the relation. -/
theorem rotateRight (h : KeptByArithmetic R) (regs : Registers) : R regs regs.rotateRight :=
  h.trans (h.acc _ _) (h.put _ _ _ rfl)

/-! ### Operands -/

/-- What an operand operation does before its operand is fetched keeps the relation. -/
theorem prepare (h : KeptByArithmetic R) (op : OperandOp) (regs : Registers) :
    R regs (op.prepare regs) := by
  unfold OperandOp.prepare
  split
  · exact h.addAcc regs _
  · exact h.addAcc regs _
  · exact h.subAcc regs _
  · exact h.subAcc regs _
  · exact h.refl regs

/-- What a store does before its address is formed keeps the relation. -/
theorem prepareStore (h : KeptByArithmetic R) (op : StoreOp) (regs : Registers) :
    R regs (op.prepare regs) := by
  cases op <;> exact h.rest regs _ _ _ _ _ _

end KeptByArithmetic

end Registers

/-- True for the operations that load an auxiliary register, the page or a status word. -/
def OperandOp.steers : OperandOp → Bool
  | .lar | .ldp | .lst | .lst1 => true
  | _ => false

/-- Every other use of an operand is arithmetic. -/
theorem Registers.KeptByArithmetic.finish {R : Registers → Registers → Prop}
    (h : Registers.KeptByArithmetic R) {op : OperandOp} (hop : op.steers = false)
    (word value : Half) (regs : Registers) : R regs (op.finish word value regs) := by
  cases op with
  | lar | ldp | lst | lst1 => contradiction
  | add | addt | adds => exact h.addAcc regs _
  | sub | subt | subs => exact h.subAcc regs _
  | addc => exact h.addWithCarry regs value
  | subb => exact h.subWithBorrow regs value
  | addh => exact h.addHigh regs value
  | subh => exact h.subHigh regs value
  | subc => exact h.divideStep regs value
  | lta => exact h.trans (h.t regs value) (h.addAcc _ _)
  | lts => exact h.trans (h.t regs value) (h.subAcc _ _)
  | zalh => exact h.acc regs _
  | bit | bitt => exact h.put regs _ _ rfl
  | _ => exact h.rest regs _ _ _ _ _ _

namespace Registers

/-- What an ordinary operation leaves of the register file: the repeat counter, the request bits,
and the status up to ordinary edits. -/
structure EditedTo (before after : Registers) : Prop where
  rptc : after.rptc = before.rptc
  ifr : after.ifr = before.ifr
  status : before.status.EditedTo after.status

/-- Registers that differ in other fields only. -/
theorem editedTo_of_eq {before after : Registers} (hrptc : after.rptc = before.rptc)
    (hifr : after.ifr = before.ifr) (hstatus : after.status = before.status) :
    before.EditedTo after :=
  ⟨hrptc, hifr, hstatus ▸ .refl⟩

/-- Nothing done. -/
theorem EditedTo.refl (regs : Registers) : regs.EditedTo regs := ⟨rfl, rfl, .refl⟩

/-- One thing done after another. -/
theorem EditedTo.trans {first second third : Registers} (h : first.EditedTo second)
    (h' : second.EditedTo third) : first.EditedTo third :=
  ⟨h'.rptc.trans h.rptc, h'.ifr.trans h.ifr, h.status.trans h'.status⟩

/-- A single edit of the status. -/
theorem editedTo_edit (regs : Registers) (edit : StatusEdit) (hedit : edit.isOrdinary = true) :
    regs.EditedTo { regs with status := edit.apply regs.status } :=
  ⟨rfl, rfl, Status.editedTo_apply hedit regs.status⟩

/-- Arithmetic is ordinary. -/
theorem keptByArithmetic_editedTo : KeptByArithmetic EditedTo where
  trans := .trans
  rest _ _ _ _ _ _ _ := editedTo_of_eq rfl rfl rfl
  put regs flag on hflag := regs.editedTo_edit (.put flag on) (isOrdinary_of_judges hflag)

/-! ### Auxiliary registers and the stack -/

/-- Loading an auxiliary register edits no status bit. -/
theorem editedTo_setAr (regs : Registers) (pointer : Pointer) (value : Half) :
    regs.EditedTo (regs.setAr pointer value) :=
  editedTo_of_eq rfl rfl rfl

/-- A modification of the current auxiliary register edits at most the pointers. -/
theorem editedTo_modifyAr (regs : Registers) (word : Half) (movesPointer : Bool) :
    regs.EditedTo (regs.modifyAr word movesPointer) := by
  have hset := regs.editedTo_setAr regs.status.arp (modifiedAr word regs.currentAr (regs.getAr 0))
  exact keptByArithmetic_editedTo.ite
    (hset.trans (editedTo_edit _ (.arp (word.extractLsb' 0 3)) rfl)) hset

/-- The modification behind an operand edits at most the pointers. -/
theorem editedTo_afterOperand (regs : Registers) (word : Half) (movesPointer : Bool) :
    regs.EditedTo (regs.afterOperand word movesPointer) :=
  keptByArithmetic_editedTo.ite (editedTo_modifyAr _ _ _) (.refl regs)

end Registers

/-! ## Operations -/

open Registers

/-- Every use of an operand is ordinary, except the load of ST1. -/
theorem OperandOp.editedTo_finish (op : OperandOp) (word value : Half) (regs : Registers)
    (hop : op ≠ .lst1) : regs.EditedTo (op.finish word value regs) := by
  cases hsteers : op.steers with
  | false => exact keptByArithmetic_editedTo.finish hsteers word value regs
  | true =>
    cases op with
    | lst1 => contradiction
    | lar => exact regs.editedTo_setAr _ value
    | ldp => exact regs.editedTo_edit (.dp value) rfl
    | lst => exact regs.editedTo_edit (.st0 value) rfl
    | _ => contradiction

/-- A long immediate operation only edits the status. -/
theorem LongOp.editedTo_apply (op : LongOp) (word value : Half) (regs : Registers) :
    regs.EditedTo (op.apply word value regs) := by
  cases op with
  | adlk => exact keptByArithmetic_editedTo.addAcc regs _
  | sblk => exact keptByArithmetic_editedTo.subAcc regs _
  | _ => exact editedTo_of_eq rfl rfl rfl

/-- A register operation only edits the status. -/
theorem RegisterOp.editedTo_apply (op : RegisterOp) (word : Half) (regs : Registers) :
    regs.EditedTo (op.apply word regs) := by
  have harithmetic := keptByArithmetic_editedTo
  cases op with
  | addk | apac => exact harithmetic.addAcc regs _
  | subk | spac => exact harithmetic.subAcc regs _
  | abs => exact harithmetic.absolute regs
  | neg => exact harithmetic.negate regs
  | sfl => exact harithmetic.shiftLeft regs
  | sfr => exact harithmetic.shiftRight regs
  | rol => exact harithmetic.rotateLeft regs
  | ror => exact harithmetic.rotateRight regs
  | norm =>
    have hclear := harithmetic.put regs .tc false rfl
    refine harithmetic.ite (hclear.trans ?_) (harithmetic.put _ _ _ rfl)
    exact (harithmetic.acc _ _).trans (editedTo_modifyAr _ _ _)
  | spm => exact regs.editedTo_edit (.pm (word &&& 3)) rfl
  | mar => exact regs.editedTo_afterOperand word true
  | cmpr => exact harithmetic.put regs _ _ rfl
  | fort => exact regs.editedTo_edit (.put .fo (word.getLsbD 0)) rfl
  | ldpk => exact regs.editedTo_edit (.dp word) rfl
  | _ => exact editedTo_of_eq rfl rfl rfl

/-- What a branch settles before it tests only edits the status. -/
theorem BranchOp.editedTo_settle (op : BranchOp) (regs : Registers) :
    regs.EditedTo (op.settle regs) := by
  cases op with
  | bv | bnv => exact regs.editedTo_edit (.put .ov false) rfl
  | _ => exact .refl regs

end ProcessorCores.Tms

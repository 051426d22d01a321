import ProcessorCores.Proofs.Tms.PatchedPlaces

/-!
# Setters of the TMS3202x status

A status starts with its fixed bits set and every setter leaves them so, whatever it is given and whatever
came before. On such a status a setter is exactly as wide as its field: it puts there what it was given and
changes no other bit of the two words. Without the fixed bits in place this would fail, as a setter puts them
back. Two setters reach further than one field. A new pointer leaves the old one as its backup, and a load
of ST1 takes the pointer along with the backup.

A part may fix the two bits of ST1 that have no flag on some part; nothing below depends on which of them.
-/

namespace ProcessorCores.Tms

/-! ## Sequences of setters -/

/-- A use of any setter of the status: one that operations use, a replacement of both words, or a reset. -/
inductive StatusSetter
  | edit (edit : StatusEdit)
  | words (st0 st1 : Half)
  | reset
  deriving DecidableEq, Repr

namespace Status

/-- Use a setter. -/
def set (status : Status) : StatusSetter → Status
  | .edit edit => edit.apply status
  | .words st0 st1 => status.setWords st0 st1
  | .reset => status.reset

/-- Use setters one after the other. -/
def setAll (status : Status) : List StatusSetter → Status
  | [] => status
  | setter :: rest => (status.set setter).setAll rest

variable {status : Status} {fixed : Half}

/-- No setter changes which bits the part fixes. -/
theorem st1Fixed_set (status : Status) (setter : StatusSetter) :
    (status.set setter).st1Fixed = status.st1Fixed := by
  cases setter with
  | edit edit => exact edit.apply_st1Fixed status
  | words _ _ | reset => rfl

/-- Every setter leaves the fixed bits set. -/
theorem HoldsFixed.set (h : status.HoldsFixed) (setter : StatusSetter) : (status.set setter).HoldsFixed := by
  cases setter with
  | edit edit => exact h.apply edit
  | words st0 st1 => exact status.holdsFixed_setWords st0 st1
  | reset => exact status.holdsFixed_reset

/-- No row of setters changes which bits the part fixes. -/
theorem st1Fixed_setAll (status : Status) (setters : List StatusSetter) :
    (status.setAll setters).st1Fixed = status.st1Fixed := by
  induction setters generalizing status with
  | nil => rfl
  | cons setter rest ih => rw [setAll, ih, st1Fixed_set]

/-- The fixed bits stay in place along any sequence of setters. -/
theorem HoldsFixed.setAll (h : status.HoldsFixed) (setters : List StatusSetter) :
    (status.setAll setters).HoldsFixed := by
  induction setters generalizing status with
  | nil => exact h
  | cons setter rest ih => exact ih (h.set setter)

/-! ## Widths -/

/-- One status comes from another by changes to these bits of its words alone. -/
structure ChangesOnly (before : Status) (inSt0 inSt1 : Half) (after : Status) : Prop where
  part : after.st1Fixed = before.st1Fixed
  st0 : after.st0 &&& ~~~inSt0 = before.st0 &&& ~~~inSt0
  st1 : after.st1 &&& ~~~inSt1 = before.st1 &&& ~~~inSt1

/-- An assignment leaves the bits outside its mask, where the fixed bits are set already. -/
theorem assign_rest {word mask fixed : Half} (on : Bool) (hfixed : word ||| fixed = word) :
    (assign word mask on ||| fixed) &&& ~~~mask = word &&& ~~~mask := by
  apply BitVec.eq_of_getLsbD_eq
  intro i hi
  have hfixed := congrArg (·.getLsbD i) hfixed
  simp only [BitVec.getLsbD_or] at hfixed
  simp only [BitVec.getLsbD_and, BitVec.getLsbD_or, BitVec.getLsbD_not, getLsbD_assign]
  cases hmask : mask.getLsbD i with
  | true => simp
  | false => simp [hfixed]

/-- A part that fixes bits of a mask only fixes none of a field beside it. -/
theorem disjoint_of_subset {mask field : Half} (hsubset : fixed &&& ~~~mask = 0#16)
    (hfield : mask &&& field = 0#16) : fixed &&& field = 0#16 := by
  apply BitVec.eq_of_getLsbD_eq
  intro i hi
  have hsubset := congrArg (·.getLsbD i) hsubset
  have hfield := congrArg (·.getLsbD i) hfield
  simp only [BitVec.getLsbD_and, BitVec.getLsbD_not, BitVec.getLsbD_zero, hi, decide_true,
    Bool.true_and] at hsubset hfield ⊢
  cases hmask : mask.getLsbD i with
  | true => rw [hmask, Bool.true_and] at hfield; rw [hfield, Bool.and_false]
  | false => rw [hmask, Bool.not_false, Bool.and_true] at hsubset; rw [hsubset, Bool.false_and]

/-- Bits that are in place are found there. -/
theorem and_of_or_eq {word fixed : Half} (h : word ||| fixed = word) : word &&& fixed = fixed := by
  apply BitVec.eq_of_getLsbD_eq
  intro i hi
  have hbit := congrArg (·.getLsbD i) h
  simp only [BitVec.getLsbD_or] at hbit
  rw [BitVec.getLsbD_and, ← hbit]
  cases fixed.getLsbD i <;> simp

/-- What is cut to a field has no bit outside it. -/
theorem masked_rest (value field : Half) : (value &&& field) &&& ~~~field = 0#16 := by
  rw [BitVec.and_assoc, BitVec.and_not_self]
  exact BitVec.and_zero

/-- Putting a flag changes the bit of that flag only. -/
theorem HoldsFixed.changesOnly_put (h : status.HoldsFixed) (flag : StatusFlag) (on : Bool) :
    status.ChangesOnly (if flag.inSt0 then flag.mask else 0) (if flag.inSt0 then 0 else flag.mask)
      (status.put flag on) := by
  rw [put]
  split
  · exact ⟨rfl, assign_rest on h.st0, rfl⟩
  · exact ⟨rfl, rfl, assign_rest on h.st1⟩

/-- Setting the page pointer changes its field only. -/
theorem HoldsFixed.changesOnly_setDp (h : status.HoldsFixed) (page : Half) :
    status.ChangesOnly St0.dp 0 (status.setDp page) :=
  ⟨rfl, field_rest (masked_rest page St0.dp) h.st0, rfl⟩

/-- Setting the shift mode changes its field only. -/
theorem HoldsFixed.changesOnly_setPm (h : status.HoldsFixed) (mode : Half) :
    status.ChangesOnly 0 St1.pm (status.setPm mode) :=
  ⟨rfl, rfl, field_rest (masked_rest mode St1.pm) h.st1⟩

/-- A load of ST1 leaves all of ST0 but the pointer. -/
theorem changesOnly_loadSt1 (status : Status) (value : Half) :
    status.ChangesOnly St0.arp (BitVec.allOnes 16) (status.loadSt1 value) := by
  constructor
  case part => rfl
  case st0 =>
    rw [← BitVec.or_zero (x := (status.loadSt1 value).st0)]
    exact field_rest (masked_rest (value ||| status.st1Fixed) St0.arp) BitVec.or_zero
  case st1 => rw [BitVec.not_allOnes, BitVec.and_zero, BitVec.and_zero]

/-- A load of ST0 takes every bit from the word but the interrupt mask and the fixed one. -/
theorem getLsbD_loadSt0 (status : Status) (value : Half) (bit : Nat) :
    (status.loadSt0 value).st0.getLsbD bit =
      if bit = 9 then status.st0.getLsbD bit else if bit = 10 then true else value.getLsbD bit := by
  have hintm : St0.intm = BitVec.twoPow 16 9 := by decide
  have hfixed : St0.fixed = BitVec.twoPow 16 10 := by decide
  rw [loadSt0, hintm, hfixed]
  simp only [BitVec.getLsbD_or, BitVec.getLsbD_and, BitVec.getLsbD_not, BitVec.getLsbD_twoPow]
  by_cases hmask : bit = 9
  · simp [hmask]
  · by_cases hone : bit = 10
    · simp [hone]
    · by_cases hbit : bit < 16
      · simp [hmask, hone, hbit, Ne.symm hmask, Ne.symm hone]
      · simp [hmask, hone, Ne.symm hmask, Ne.symm hone, BitVec.getLsbD_of_ge value bit (by omega)]

/-! ## What setters do -/

/-- What each setter makes of a status whose part fixes some bits of ST1. -/
structure SetsFields (status : Status) (fixed : Half) : Prop where
  st0_fixed : status.st0 &&& 0x0400 = 0x0400
  st1_fixed : status.st1 &&& fixed = fixed
  put : ∀ (flag : StatusFlag) (on : Bool),
    status.ChangesOnly (if flag.inSt0 then flag.mask else 0) (if flag.inSt0 then 0 else flag.mask)
        (status.put flag on) ∧
      (flag.inSt0 = true ∨ fixed &&& flag.mask = 0 → (status.put flag on).has flag = on)
  setDp : ∀ page : Half,
    status.ChangesOnly St0.dp 0 (status.setDp page) ∧ (status.setDp page).dp.toNat = page.toNat % 2 ^ 9
  setPm : ∀ mode : Half,
    status.ChangesOnly 0 St1.pm (status.setPm mode) ∧ (status.setPm mode).pm.toNat = mode.toNat % 2 ^ 2
  setArp : ∀ n : Nat, let after := status.setArp n
    status.ChangesOnly St0.arp St1.arb after ∧ after.arp.toNat = n % 8 ∧ after.arb = status.arp
  loadSt0 : ∀ value : Half, let after := status.loadSt0 value
    after.st1 = status.st1 ∧ after.has .intm = status.has .intm ∧
      ∀ bit, bit ≠ 9 → bit ≠ 10 → after.st0.getLsbD bit = value.getLsbD bit
  loadSt1 : ∀ value : Half, let after := status.loadSt1 value
    status.ChangesOnly St0.arp (BitVec.allOnes 16) after ∧ after.st1 = value ||| fixed ∧
      after.arb = value.extractLsb' 13 3 ∧ after.arp = after.arb

/-- With the fixed bits in place the setters do so. -/
theorem HoldsFixed.setsFields (h : status.HoldsFixed) (hpart : status.st1Fixed = fixed)
    (hfixed : fixed &&& ~~~0x0180 = 0#16) : status.SetsFields fixed := by
  have hpointer : status.FreesPointer := by
    rw [FreesPointer, hpart]
    exact disjoint_of_subset hfixed (by decide)
  have hshift : status.FreesShift := by
    rw [FreesShift, hpart]
    exact disjoint_of_subset hfixed (by decide)
  constructor
  case st0_fixed => exact and_of_or_eq h.st0
  case st1_fixed =>
    rw [← hpart]
    exact and_of_or_eq h.st1
  case put =>
    intro flag on
    refine ⟨h.changesOnly_put flag on, fun hfree => ?_⟩
    rw [← hpart] at hfree
    rw [has_put hfree, if_pos rfl]
  case setDp => exact fun page => ⟨h.changesOnly_setDp page, status.toNat_dp_setDp page⟩
  case setPm => exact fun mode => ⟨h.changesOnly_setPm mode, toNat_pm_setPm hshift mode⟩
  case setArp =>
    intro n after
    obtain ⟨harp, harb⟩ := setArp_number hpointer n
    obtain ⟨hst0, hst1⟩ := h.setArp_rest n
    refine ⟨⟨rfl, hst0, hst1⟩, ?_, harb⟩
    rw [harp]
    exact BitVec.toNat_ofNat n 3
  case loadSt0 =>
    intro value after
    refine ⟨rfl, ?_, fun bit hmask hone => ?_⟩
    · have hintm : St0.intm = BitVec.twoPow 16 9 := by decide
      change meets after.st0 St0.intm = meets status.st0 St0.intm
      rw [hintm, meets_twoPow _ (by decide), meets_twoPow _ (by decide), getLsbD_loadSt0, if_pos rfl]
    · rw [getLsbD_loadSt0, if_neg hmask, if_neg hone]
  case loadSt1 =>
    intro value after
    obtain ⟨harp, harb⟩ := loadSt1_pointers hpointer value
    exact ⟨status.changesOnly_loadSt1 value, congrArg (value ||| ·) hpart, harb, harp.trans harb.symm⟩

/-- Whatever setters are used on a new status, with whatever arguments, its fixed bits stay set, and from
there each setter puts what it is given into its field and changes no other bit. The part may fix none, one
or both of two bits of ST1; a flag that is such a bit is the only one that need not read as it was put. -/
theorem setters_touch_their_fields (fixed : Half) (hfixed : fixed &&& ~~~0x0180 = 0#16)
    (setters : List StatusSetter) : ((new fixed).setAll setters).SetsFields fixed := by
  have hnew : (new fixed).HoldsFixed := holdsFixed_reset _
  exact (hnew.setAll setters).setsFields (st1Fixed_setAll _ setters) hfixed

/-- Both words overwritten by zeros, ST1 loaded and the high layout flag cleared on a part that fixes it: it
stays set, and a pointer out of range is reduced while the loaded one becomes the backup. -/
theorem setters_touch_their_fields_overwritten :
    let status := (new 0x0180).setAll [.words 0 0, .edit (.st1 0x4004), .edit (.put .cnf1 false)]
    (0x0180 : Half) &&& ~~~0x0180 = 0#16 ∧ status.st1 &&& 0x0180 = 0x0180 ∧
      (status.setArp 13).arp.toNat = 5 ∧ (status.setArp 13).arb = 2 := by
  intro status
  have hfields : status.SetsFields 0x0180 := setters_touch_their_fields 0x0180 (by decide) _
  obtain ⟨-, harp, harb⟩ := hfields.setArp 13
  have hpointer : status.arp = 2 := by decide
  exact ⟨by decide, hfields.st1_fixed, harp, harb.trans hpointer⟩

end Status

end ProcessorCores.Tms

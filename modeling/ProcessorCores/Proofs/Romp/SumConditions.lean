import Mathlib.Algebra.GroupWithZero.Nat
import Mathlib.Algebra.Ring.Int.Defs
import Mathlib.Logic.ExistsUnique
import ProcessorCores.Proofs.Romp.ConditionFrame

/-!
# What the flags of ROMP sums and differences mean

The register shows carry and overflow by formulas over three signs, those of the operands and of the
result. For a sum they are what their names say: the unsigned sum does not fit in a word, and the
signed sum does not.

For a difference they are neither borrow nor overflow. Carry tells that the first operand is below the
second as a signed number, whether or not the difference can be represented. Overflow tells that the
signs differ and that the signed difference does fit, so it is clear where the difference overflows.
-/

namespace ProcessorCores.Romp

/-! ## Signs -/

/-- A number that a word can hold as a signed one. -/
def FitsWord (value : Int) : Prop := -2 ^ 31 ≤ value ∧ value < 2 ^ 31

/-- Whether a number fits a word is decided by its two bounds. -/
instance (value : Int) : Decidable (FitsWord value) := inferInstanceAs (Decidable (_ ∧ _))

/-- The value of a word fits. -/
theorem fitsWord_toInt (value : Word) : FitsWord value.toInt := ⟨value.le_toInt, value.toInt_lt⟩

/-- Two words have the same sign bit when both are negative or neither is. -/
theorem msb_eq_iff (a b : Word) : a.msb = b.msb ↔ (a.toInt < 0 ↔ b.toInt < 0) := by
  rw [Bool.eq_iff_iff, msb_iff, msb_iff]

/-- A number less than two ranges wide wraps once or not at all. -/
theorem bmod_neg_iff {value : Int} (hlow : -2 ^ 32 ≤ value) (hhigh : value < 2 ^ 32) :
    value.bmod (2 ^ 32) < 0 ↔ (value < 0 ↔ FitsWord value) := by
  unfold FitsWord
  rw [Int.bmod_def]
  split <;> omega

/-- A sum has the sign of the exact sum when this fits, and the other one when it does not. -/
theorem toInt_add_neg_iff (a b : Word) :
    (a + b).toInt < 0 ↔ (a.toInt + b.toInt < 0 ↔ FitsWord (a.toInt + b.toInt)) := by
  obtain ⟨ha, ha'⟩ := fitsWord_toInt a
  obtain ⟨hb, hb'⟩ := fitsWord_toInt b
  rw [BitVec.toInt_add, bmod_neg_iff (by omega) (by omega)]

/-- A difference has the sign of the exact difference when this fits, and the other one when it does
not. -/
theorem toInt_sub_neg_iff (a b : Word) :
    (a - b).toInt < 0 ↔ (a.toInt - b.toInt < 0 ↔ FitsWord (a.toInt - b.toInt)) := by
  obtain ⟨ha, ha'⟩ := fitsWord_toInt a
  obtain ⟨hb, hb'⟩ := fitsWord_toInt b
  rw [BitVec.toInt_sub, bmod_neg_iff (by omega) (by omega)]

/-- As an unsigned number a word with its sign set counts one range more. -/
theorem toNat_eq_toInt (value : Word) :
    (value.toNat : Int) = value.toInt + if value.toInt < 0 then 2 ^ 32 else 0 := by
  have hlt := value.isLt
  rw [BitVec.toInt_eq_toNat_cond]
  split <;> split <;> omega

/-! ## Flags -/

namespace Condition

variable (condition : Condition) (a b : Word)

/-- A sum shows carry when the unsigned sum does not fit in a word. -/
theorem carry_setSum : (condition.setSum a b).has .carry = true ↔ 2 ^ 32 ≤ a.toNat + b.toNat := by
  have hshown : (condition.setSum a b).has .carry =
      ((b.msb && a.msb) || (!(a + b).msb && (b.msb || a.msb))) := by
    simp only [setSum, has_put, reduceCtorEq, if_false, if_true]
  have ha := toNat_eq_toInt a
  have hb := toNat_eq_toInt b
  rw [hshown]
  simp only [Bool.or_eq_true, Bool.and_eq_true, Bool.not_eq_true', ← Bool.not_eq_true, msb_iff,
    toInt_add_neg_iff]
  have hfits := fitsWord_toInt a
  have hfits' := fitsWord_toInt b
  unfold FitsWord at *
  omega

/-- A sum shows overflow when the signed sum does not fit in a word. -/
theorem overflow_setSum :
    (condition.setSum a b).has .overflow = true ↔ ¬ FitsWord (a.toInt + b.toInt) := by
  have hshown : (condition.setSum a b).has .overflow = (b.msb == a.msb && (a + b).msb != b.msb) := by
    rw [setSum, has_put, if_pos rfl]
  have ha := fitsWord_toInt a
  have hb := fitsWord_toInt b
  rw [hshown]
  rw [Bool.and_eq_true, beq_iff_eq, bne_iff_ne, Ne, msb_eq_iff, msb_eq_iff, toInt_add_neg_iff]
  unfold FitsWord at *
  omega

/-- A difference shows carry when the first operand is below the second as a signed number. -/
theorem carry_setDifference :
    (condition.setDifference a b).has .carry = true ↔ a.toInt < b.toInt := by
  have hshown : (condition.setDifference a b).has .carry =
      ((!b.msb && a.msb) || ((a - b).msb && (!b.msb || a.msb))) := by
    simp only [setDifference, has_put, reduceCtorEq, if_false, if_true]
  have ha := fitsWord_toInt a
  have hb := fitsWord_toInt b
  rw [hshown]
  simp only [Bool.or_eq_true, Bool.and_eq_true, Bool.not_eq_true', ← Bool.not_eq_true, msb_iff,
    toInt_sub_neg_iff]
  unfold FitsWord at *
  omega

/-- A difference shows overflow when the signs differ and the signed difference fits in a word. -/
theorem overflow_setDifference : (condition.setDifference a b).has .overflow = true ↔
    ¬ (a.toInt < 0 ↔ b.toInt < 0) ∧ FitsWord (a.toInt - b.toInt) := by
  have hshown : (condition.setDifference a b).has .overflow =
      (b.msb != a.msb && (a - b).msb != b.msb) := by
    rw [setDifference, has_put, if_pos rfl]
  have ha := fitsWord_toInt a
  have hb := fitsWord_toInt b
  rw [hshown]
  rw [Bool.and_eq_true, bne_iff_ne, bne_iff_ne, Ne, Ne, msb_eq_iff, msb_eq_iff, toInt_sub_neg_iff]
  unfold FitsWord at *
  omega

/-- An ordered result sets one of the ordering flags. -/
theorem Orders.existsUnique {condition : Condition} {result : Word} (h : condition.Orders result) :
    ∃! flag, flag ∈ Flag.ordering ∧ condition.has flag = true := by
  have hmem := Flag.ofResult_mem result
  refine ⟨Flag.ofResult result, ⟨hmem, (h.has_iff hmem).mpr rfl⟩, ?_⟩
  rintro flag ⟨hflag, hset⟩
  exact (h.has_iff hflag).mp hset

/-- What the status `after` shows of the sum of two words, the bits beside its flags being those of
`before`. -/
structure ShowsSum (before after : Condition) (a b : Word) : Prop where
  carry : after.has .carry = true ↔ 2 ^ 32 ≤ a.toNat + b.toNat
  overflow : after.has .overflow = true ↔ ¬ FitsWord (a.toInt + b.toInt)
  ordering : ∃! flag, flag ∈ Flag.ordering ∧ after.has flag = true
  orders : after.Orders (a + b)
  beside : after.raw &&& ~~~0x7A = before.raw &&& ~~~0x7A

/-- What the status `after` shows of the difference of two words, the bits beside its flags being those
of `before`. -/
structure ShowsDifference (before after : Condition) (a b : Word) : Prop where
  carry : after.has .carry = true ↔ a.toInt < b.toInt
  overflow : after.has .overflow = true ↔
    ¬ (a.toInt < 0 ↔ b.toInt < 0) ∧ FitsWord (a.toInt - b.toInt)
  ordering : ∃! flag, flag ∈ Flag.ordering ∧ after.has flag = true
  orders : after.Orders (a - b)
  beside : after.raw &&& ~~~0x7A = before.raw &&& ~~~0x7A

/-- Every sum and every difference shows its flags, from every status before. -/
theorem setSum_setDifference_shows :
    condition.ShowsSum (condition.setSum a b) a b ∧
      condition.ShowsDifference (condition.setDifference a b) a b := by
  have hflags : ∀ flag ∈ Flag.ordering ++ [.carry, .overflow], flag.mask &&& ~~~0x7A = 0 := by decide
  have hsum : (condition.setSum a b).Orders (a + b) := by
    have hresult : (ConditionEffect.sum a b).result? = some (a + b) := rfl
    exact ConditionEffect.apply_orders condition hresult
  have hdifference : (condition.setDifference a b).Orders (a - b) := by
    have hresult : (ConditionEffect.difference a b).result? = some (a - b) := rfl
    exact ConditionEffect.apply_orders condition hresult
  constructor
  case left =>
    exact {
      carry := condition.carry_setSum a b
      overflow := condition.overflow_setSum a b
      ordering := hsum.existsUnique
      orders := hsum
      beside := (ConditionEffect.sum a b).apply_beside condition hflags }
  case right =>
    exact {
      carry := condition.carry_setDifference a b
      overflow := condition.overflow_setDifference a b
      ordering := hdifference.existsUnique
      orders := hdifference
      beside := (ConditionEffect.difference a b).apply_beside condition hflags }

end Condition

end ProcessorCores.Romp

import ProcessorCores.Budget

/-!
# What debits leave of a budget

A run debits the cost of each step, and stops once nothing is left. Within the limits of its count a
debit is exact, and debits add up; at the limits they saturate.
-/

namespace ProcessorCores

namespace Budget

/-! ## What is left -/

/-- A budget is not exhausted as long as something is left. -/
theorem isExhausted_eq_false_iff (budget : Budget) :
    budget.isExhausted = false ↔ 0 < budget.remaining := by
  rw [← Bool.not_eq_true, isExhausted_iff]
  omega

/-- A debit never adds to what is left. -/
theorem toNat_consume_le (budget : Budget) (clocks : Nat) :
    (budget.consume clocks).remaining.toNat ≤ budget.remaining.toNat := by
  simp only [consume, saturate, least, greatest]
  omega

/-- A debit of at least one clock takes something from a budget that has any left. -/
theorem toNat_consume_lt {budget : Budget} {clocks : Nat} (hbudget : budget.isExhausted = false)
    (hclocks : 1 ≤ clocks) :
    (budget.consume clocks).remaining.toNat < budget.remaining.toNat := by
  rw [isExhausted_eq_false_iff] at hbudget
  simp only [consume, saturate, least, greatest]
  omega

/-- A debit of nothing exhausts no budget. -/
theorem isExhausted_consume_zero {budget : Budget} (hbudget : budget.isExhausted = false) :
    (budget.consume 0).isExhausted = false := by
  rw [isExhausted_eq_false_iff] at hbudget ⊢
  simp only [consume, saturate, least, greatest]
  omega

/-- A budget is exhausted when no whole clock is left. -/
theorem isExhausted_iff_toNat (budget : Budget) :
    budget.isExhausted = true ↔ budget.remaining.toNat = 0 := by
  rw [isExhausted_iff]
  omega

/-! ## Counts that a budget can hold -/

/-- A count that a budget can hold. -/
def InRange (budget : Budget) : Prop :=
  least ≤ budget.remaining ∧ budget.remaining ≤ greatest

/-- Whether a budget is in range is decided by its two bounds. -/
instance (budget : Budget) : Decidable budget.InRange := inferInstanceAs (Decidable (_ ∧ _))

/-- A debit leaves a count in range. -/
theorem inRange_consume (budget : Budget) (clocks : Nat) : (budget.consume clocks).InRange := by
  simp only [InRange, consume, saturate, least, greatest]
  omega

/-- Nothing debited is nothing changed. -/
theorem consume_zero {budget : Budget} (h : budget.InRange) : budget.consume 0 = budget := by
  simp only [InRange] at h
  rw [consume, Int.sub_zero, saturate_eq_self h.1 h.2]

/-- Two debits are one of their sum, also where they saturate. -/
theorem consume_consume {budget : Budget} (h : budget.InRange) (first second : Nat) :
    (budget.consume first).consume second = budget.consume (first + second : Nat) := by
  simp only [InRange, consume, saturate, least, greatest, Budget.mk.injEq] at h ⊢
  omega

/-- Consuming never adds to a budget in range. -/
theorem consume_le {budget : Budget} (h : budget.InRange) (clocks : Nat) :
    (budget.consume clocks).remaining ≤ budget.remaining := by
  simp only [InRange, consume, saturate, least, greatest] at h ⊢
  omega

/-- What a debit leaves, in whole clocks. -/
theorem toNat_consume {budget : Budget} (h : budget.InRange) (clocks : Nat) :
    (budget.consume clocks).remaining.toNat = budget.remaining.toNat - clocks := by
  simp only [InRange, consume, saturate, least, greatest] at h ⊢
  omega

/-- So many clocks, none of which was overdrawn. -/
theorem inRange_of_nat {clocks : Nat} (h : (clocks : Int) ≤ greatest) : (⟨clocks⟩ : Budget).InRange := by
  simp only [InRange, least]
  omega

/-- A part of them is debited exactly. -/
theorem consume_of_le {clocks part : Nat} (h : (clocks : Int) ≤ greatest) (hpart : part ≤ clocks) :
    (⟨clocks⟩ : Budget).consume part = ⟨(clocks - part : Nat)⟩ := by
  have hlow : least ≤ (clocks : Int) - part := by
    simp only [least]
    omega
  have hhigh : (clocks : Int) - part ≤ greatest := by omega
  rw [consume, saturate_eq_self hlow hhigh, Int.ofNat_sub hpart]

/-- A budget with more clocks. -/
def extend (budget : Budget) (more : Nat) : Budget := ⟨budget.remaining + more⟩

/-- An extended budget is in range if there is room for the addition. -/
theorem InRange.extend {budget : Budget} {more : Nat} (h : budget.InRange)
    (hmore : budget.remaining + more ≤ greatest) : (budget.extend more).InRange := by
  simp only [InRange, Budget.extend] at h hmore ⊢
  omega

/-- What is added can be added before a debit or after it, as long as nothing saturates. -/
theorem consume_extend {budget : Budget} {clocks more : Nat}
    (low : least ≤ budget.remaining - clocks) (high : budget.remaining + more ≤ greatest) :
    (budget.consume clocks).extend more = (budget.extend more).consume clocks := by
  simp only [consume, extend, saturate, least, greatest, Budget.mk.injEq] at low high ⊢
  omega

end Budget

end ProcessorCores

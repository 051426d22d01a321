import ProcessorCores.Proofs.Budgets
import ProcessorCores.Proofs.Tms.Executions

/-!
# Clocks debited between TMS3202x steps

Clocks that pass on the timer are debited from the budget. A reload drops the clocks after it, but
not all of them: an advance of at least one clock debits at least one, as long as the timer phase is
below a machine cycle. So a core that waits or is stalled uses its budget up, and the bounds on the
advances that it takes are never met.
-/

namespace ProcessorCores.Tms

namespace Core

variable {core : Core} {budget : Budget} {clocks : Nat}

/-! ## The timer -/

/-- Serving a request leaves the timer phase. -/
theorem service_timerPhase (core : Core) : core.service.1.timerPhase = core.timerPhase := by
  obtain ⟨_, _, _, _, _, _, _, _, hserved⟩ := core.service_eq
  rw [hserved]

/-- Counting clocks brings the phase back below a machine cycle. -/
theorem countClocks_timerPhase (hphase : core.timerPhase < clk) :
    (core.countClocks budget clocks).1.timerPhase < clk := by
  unfold countClocks
  dsimp only
  split
  · next hshort =>
    change core.timerPhase + clocks < clk
    omega
  · split
    · exact Nat.mod_lt _ (by decide)
    · change 0 < clk
      decide

/-- Counting clocks debits some, and at least one of any. -/
theorem countClocks_debit (core : Core) (budget : Budget) (clocks : Nat) :
    ∃ debit : Nat, (core.countClocks budget clocks).2.1 = budget.consume debit ∧
      (core.timerPhase < clk → 1 ≤ clocks → 1 ≤ debit) := by
  unfold countClocks
  dsimp only
  split
  · exact ⟨clocks, rfl, fun _ hclocks => hclocks⟩
  · split
    · exact ⟨clocks, rfl, fun _ hclocks => hclocks⟩
    · refine ⟨_, rfl, fun hphase _ => ?_⟩
      omega

/-- No clocks change nothing but the saturation of the budget. -/
theorem countClocks_zero (hphase : core.timerPhase < clk) :
    core.countClocks budget 0 = (core, budget.consume 0, false) := by
  have hshort : 0 < clk - core.timerPhase := by omega
  unfold countClocks
  dsimp only
  rw [if_pos hshort, spend]
  dsimp only
  rw [BitVec.add_zero, Nat.add_zero]
  rfl

/-- The timer phase below a machine cycle is an invariant of all bookkeeping. -/
theorem kept_timerPhase : Kept fun core => core.timerPhase < clk where
  service core h := by
    rw [core.service_timerPhase]
    exact h
  fetch _ _ h := h
  report _ _ h := h
  countPass _ h := h
  endBlock _ h := h
  spend _ _ h := h
  countClocks _ _ _ h := countClocks_timerPhase h
  hold _ _ h := h

/-- Clocks that pass on the timer never add to what is left of the budget. -/
theorem advanceTimer_le (core : Core) (budget : Budget) (clocks : Nat) :
    (core.advanceTimer budget clocks).2.remaining.toNat ≤ budget.remaining.toNat := by
  obtain ⟨debit, hdebit, -⟩ := core.countClocks_debit budget clocks
  have hfirst := budget.toNat_consume_le debit
  unfold advanceTimer
  rcases hcount : core.countClocks budget clocks with ⟨counted, left, reloaded⟩
  rw [hcount] at hdebit
  obtain rfl : left = budget.consume debit := hdebit
  cases reloaded with
  | false => exact hfirst
  | true =>
    obtain ⟨debit', hdebit', -⟩ :=
      counted.service.1.countClocks_debit (budget.consume debit) counted.service.2
    have hsecond := (budget.consume debit).toNat_consume_le debit'
    rw [← hdebit'] at hsecond
    exact Nat.le_trans hsecond hfirst

/-- At least one clock takes something from a budget that has any left. -/
theorem advanceTimer_lt (hphase : core.timerPhase < clk) (hbudget : budget.isExhausted = false)
    (hclocks : 1 ≤ clocks) :
    (core.advanceTimer budget clocks).2.remaining.toNat < budget.remaining.toNat := by
  obtain ⟨debit, hdebit, hsome⟩ := core.countClocks_debit budget clocks
  have hfirst := Budget.toNat_consume_lt hbudget (hsome hphase hclocks)
  unfold advanceTimer
  rcases hcount : core.countClocks budget clocks with ⟨counted, left, reloaded⟩
  rw [hcount] at hdebit
  obtain rfl : left = budget.consume debit := hdebit
  cases reloaded with
  | false => exact hfirst
  | true =>
    obtain ⟨debit', hdebit', -⟩ :=
      counted.service.1.countClocks_debit (budget.consume debit) counted.service.2
    have hsecond := (budget.consume debit).toNat_consume_le debit'
    rw [← hdebit'] at hsecond
    exact Nat.lt_of_le_of_lt hsecond hfirst

/-- No clocks change nothing but the saturation of the budget. -/
theorem advanceTimer_zero (hphase : core.timerPhase < clk) :
    core.advanceTimer budget 0 = (core, budget.consume 0) := by
  unfold advanceTimer
  rw [countClocks_zero hphase]

/-! ## Waiting -/

/-- A budget that is not exhausted has a clock to advance by. -/
theorem one_le_clocksLeft (hbudget : budget.isExhausted = false) : 1 ≤ clocksLeft budget := by
  rw [Budget.isExhausted_eq_false_iff] at hbudget
  unfold clocksLeft
  omega

/-- A wait adds nothing to a budget. -/
theorem passFor_le (waits : Core → Bool) (core : Core) (budget : Budget) (count : Nat) :
    (core.passFor waits budget count).2.remaining.toNat ≤ budget.remaining.toNat := by
  induction count generalizing core budget with
  | zero => exact Nat.le_refl _
  | succ count ih =>
    rw [passFor]
    split
    · exact Nat.le_refl _
    · exact Nat.le_trans (ih _ _) (core.advanceTimer_le budget _)

/-- A stall adds nothing to a budget. -/
theorem stall_le (core : Core) (budget : Budget) :
    (core.stall budget).2.remaining.toNat ≤ budget.remaining.toNat := by
  rw [stall, stallFor_eq_passFor]
  exact passFor_le _ _ _ _

/-- An idle wait adds nothing to a budget. -/
theorem wait_le (core : Core) (budget : Budget) :
    (core.wait budget).2.remaining.toNat ≤ budget.remaining.toNat := by
  rw [wait, waitFor_eq_passFor]
  exact passFor_le _ _ _ _

/-- As many advances as clocks are left end the wait or use the budget up. -/
theorem passFor_ends (waits : Core → Bool) (count : Nat) (hphase : core.timerPhase < clk)
    (hcount : budget.remaining.toNat ≤ count) :
    waits (core.passFor waits budget count).1 = false ∨
      (core.passFor waits budget count).2.isExhausted = true := by
  induction count generalizing core budget with
  | zero =>
    right
    rw [Budget.isExhausted_iff_toNat]
    exact Nat.le_zero.mp hcount
  | succ count ih =>
    rw [passFor]
    split
    · next hdone =>
      rw [Bool.or_eq_true, Bool.not_eq_true'] at hdone
      exact hdone
    · next hwaiting =>
      rw [Bool.or_eq_true, not_or, Bool.not_eq_true, Bool.not_eq_true] at hwaiting
      have hless := advanceTimer_lt hphase hwaiting.2 (one_le_clocksLeft hwaiting.2)
      have hrest : (core.advanceTimer budget (clocksLeft budget)).2.remaining.toNat ≤ count := by
        omega
      exact ih (kept_timerPhase.advanceTimer budget _ hphase) hrest

/-- A stalled core uses the whole budget up. -/
theorem stall_exhausts (hphase : core.timerPhase < clk) :
    (core.stall budget).2.isExhausted = true := by
  rw [stall, stallFor_eq_passFor]
  exact (passFor_ends (fun _ => true) _ hphase (Nat.le_refl _)).resolve_left (Bool.noConfusion ·)

/-- An idle core waits until a request wakes it or the budget is used up. -/
theorem wait_ends (hphase : core.timerPhase < clk) :
    (core.wait budget).1.idle = false ∨ (core.wait budget).2.isExhausted = true := by
  rw [wait, waitFor_eq_passFor]
  exact passFor_ends (·.idle) _ hphase (Nat.le_refl _)

/-- A core that is not idle does not wait. -/
theorem wait_of_awake (hidle : core.idle = false) : core.wait budget = (core, budget) := by
  unfold wait
  cases budget.remaining.toNat with
  | zero => rfl
  | succ count =>
    rw [waitFor, hidle]
    rfl

/-- What follows the advance after a step never adds to what is left. -/
theorem settle_le_advanceTimer (core : Core) (budget : Budget) (clocks : Nat) :
    (core.settle budget clocks).2.remaining.toNat ≤
      (core.advanceTimer budget clocks).2.remaining.toNat := by
  have hwaited := (core.advanceTimer budget clocks).1.wait_le (core.advanceTimer budget clocks).2
  unfold settle
  dsimp only
  split
  · exact Nat.le_trans (stall_le _ _) hwaited
  · exact hwaited

/-- No more is left after the clocks of a step than before. -/
theorem settle_le (core : Core) (budget : Budget) (clocks : Nat) :
    (core.settle budget clocks).2.remaining.toNat ≤ budget.remaining.toNat :=
  Nat.le_trans (core.settle_le_advanceTimer budget clocks) (core.advanceTimer_le budget clocks)

end Core

end ProcessorCores.Tms

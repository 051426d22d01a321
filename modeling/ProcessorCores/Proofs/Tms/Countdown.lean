import ProcessorCores.Proofs.Tms.Clocks

/-!
# The timer as a count of clocks

The timer register and the phase within the tick are together one count: the clocks that can pass
before the one that reloads the timer. As many clocks as that are taken from the count, in whatever
portions they come. The clock after them reloads, and those beyond it are dropped, so that the core
after a reload does not depend on how many they were.

A core that waits lets its whole budget pass. It does so in advances of a limited size, but where one
advance ends and the next begins makes no difference: up to the reload the budget is taken from the
count at once.
-/

namespace ProcessorCores.Tms

namespace Core

/-! ## The count -/

/-- The clocks that can still pass on the timer without a reload. -/
def countdown (core : Core) : Nat := clk * core.ram.tim.toNat + (clk - 1 - core.timerPhase)

/-- A core on whose timer clocks have passed, no more than its count. -/
def elapse (core : Core) (clocks : Nat) : Core :=
  { core with
    ram := { core.ram with tim := BitVec.ofNat 16 ((core.countdown - clocks) / clk) }
    timerPhase := clk - 1 - (core.countdown - clocks) % clk
    totalCycles := core.totalCycles + BitVec.ofNat 64 clocks }

/-- A core whose count has run out, after the clock that reloads its timer. -/
def reload (core : Core) : Core :=
  { core with
    regs := core.regs.request Source.tint.bit
    ram := { core.ram with tim := core.ram.prd }
    timerPhase := 0
    totalCycles := core.totalCycles + BitVec.ofNat 64 (core.countdown + 1)
    journal := .timerReload core.ram.prd :: core.journal }

/-- A core on which clocks have been counted up to the next reload. -/
def counted (core : Core) (clocks : Nat) : Core :=
  if clocks ≤ core.countdown then core.elapse clocks else core.reload

/-- How many of the clocks are debited: those after a reload are dropped. -/
def counts (core : Core) (clocks : Nat) : Nat := min clocks (core.countdown + 1)

variable {core : Core} {budget : Budget} {clocks : Nat}

/-- The count is at most that of a full timer. -/
theorem countdown_lt (core : Core) : core.countdown < clk * 65536 := by
  have htim := core.ram.tim.isLt
  simp only [countdown, clk]
  omega

/-- Counting clocks takes them from the count, or reloads when there are more. -/
theorem countClocks_eq_counted (hphase : core.timerPhase < clk) :
    core.countClocks budget clocks =
      (core.counted clocks, budget.consume (core.counts clocks), decide (core.countdown < clocks)) := by
  have htim := core.ram.tim.isLt
  have hcount : core.countdown = 4 * core.ram.tim.toNat + (3 - core.timerPhase) := rfl
  simp only [clk] at hphase
  unfold countClocks counted counts
  dsimp only
  split
  · next hshort =>
    simp only [clk] at hshort
    have hle : clocks ≤ core.countdown := by omega
    -- The tick does not end, so the quotient is the register as it was.
    have htick : BitVec.ofNat 16 ((core.countdown - clocks) / clk) = core.ram.tim := by
      apply BitVec.eq_of_toNat_eq
      simp only [clk, BitVec.toNat_ofNat]
      omega
    have hrest : clk - 1 - (core.countdown - clocks) % clk = core.timerPhase + clocks := by
      simp only [clk]
      omega
    rw [if_pos hle, Nat.min_eq_left (by omega), decide_eq_false (by omega), elapse, htick, hrest]
    rfl
  · next hlong =>
    simp only [clk] at hlong
    split
    · next hticks =>
      simp only [clk] at hticks
      have hle : clocks ≤ core.countdown := by omega
      have htick : (core.countdown - clocks) / clk =
          core.ram.tim.toNat - (1 + (clocks - (clk - core.timerPhase)) / clk) := by
        simp only [clk]
        omega
      have hrest : clk - 1 - (core.countdown - clocks) % clk =
          (clocks - (clk - core.timerPhase)) % clk := by
        simp only [clk]
        omega
      rw [if_pos hle, Nat.min_eq_left (by omega), decide_eq_false (by omega), elapse, htick, hrest]
      rfl
    · next hticks =>
      simp only [clk] at hticks
      have hgt : core.countdown < clocks := by omega
      have htotal : core.countdown + 1 = clk - core.timerPhase + clk * core.ram.tim.toNat := by
        simp only [clk]
        omega
      rw [if_neg (by omega), Nat.min_eq_right (by omega), decide_eq_true hgt, reload, htotal]
      rfl

/-- Up to the count, clocks pass and are debited. -/
theorem countClocks_of_le (hphase : core.timerPhase < clk) (hclocks : clocks ≤ core.countdown) :
    core.countClocks budget clocks = (core.elapse clocks, budget.consume clocks, false) := by
  rw [countClocks_eq_counted hphase, counted, if_pos hclocks, counts, Nat.min_eq_left (by omega),
    decide_eq_false (by omega)]

/-- Beyond the count, they reload. -/
theorem countClocks_of_lt (hphase : core.timerPhase < clk) (hclocks : core.countdown < clocks) :
    core.countClocks budget clocks =
      (core.reload, budget.consume (core.countdown + 1 : Nat), true) := by
  rw [countClocks_eq_counted hphase, counted, if_neg (by omega), counts, Nat.min_eq_right (by omega),
    decide_eq_true hclocks]

/-- No clocks are none. -/
theorem elapse_zero (hphase : core.timerPhase < clk) : core.elapse 0 = core := by
  have htim := core.ram.tim.isLt
  simp only [clk] at hphase
  have htick : BitVec.ofNat 16 ((core.countdown - 0) / clk) = core.ram.tim := by
    apply BitVec.eq_of_toNat_eq
    simp only [countdown, clk, BitVec.toNat_ofNat]
    omega
  have hrest : clk - 1 - (core.countdown - 0) % clk = core.timerPhase := by
    simp only [countdown, clk]
    omega
  rw [elapse, htick, hrest, BitVec.add_zero]

/-- The countdown falls with the clocks that elapse. -/
theorem countdown_elapse (core : Core) (clocks : Nat) :
    (core.elapse clocks).countdown = core.countdown - clocks := by
  have hbound := core.countdown_lt
  change clk * (BitVec.ofNat 16 ((core.countdown - clocks) / clk)).toNat +
    (clk - 1 - (clk - 1 - (core.countdown - clocks) % clk)) = _
  simp only [clk, BitVec.toNat_ofNat] at hbound ⊢
  omega

/-- Elapsed clocks keep the phase of the timer below its period. -/
theorem elapse_timerPhase (core : Core) (clocks : Nat) : (core.elapse clocks).timerPhase < clk := by
  simp only [elapse, clk]
  omega

/-- Clocks pass in portions as they do at once. -/
theorem elapse_elapse (core : Core) (first second : Nat) :
    (core.elapse first).elapse second = core.elapse (first + second) := by
  have hcount : (core.elapse first).countdown - second = core.countdown - (first + second) := by
    rw [countdown_elapse, Nat.sub_sub]
  unfold elapse at hcount ⊢
  rw [hcount]
  dsimp only
  rw [count_add_add]

/-- A reload is the same whenever the clocks before it have passed. -/
theorem reload_elapse (hclocks : clocks ≤ core.countdown) :
    (core.elapse clocks).reload = core.reload := by
  have htotal : clocks + (core.countdown - clocks + 1) = core.countdown + 1 := by omega
  simp only [reload.eq_def (core.elapse clocks), countdown_elapse]
  simp only [elapse, count_add_add, htotal]
  rfl

/-- What is counted in total is what is debited. -/
theorem counted_totalCycles (core : Core) (clocks : Nat) :
    (core.counted clocks).totalCycles = core.totalCycles + BitVec.ofNat 64 (core.counts clocks) := by
  unfold counted counts
  split
  · rw [Nat.min_eq_left (by omega)]
    rfl
  · rw [Nat.min_eq_right (by omega)]
    rfl

/-! ## Advances -/

/-- A core on which clocks have passed, with the service that may follow a reload. -/
def advanced (core : Core) (clocks : Nat) : Core :=
  if clocks ≤ core.countdown then core.elapse clocks
  else core.reload.service.1.counted core.reload.service.2

/-- What is debited for them. -/
def advances (core : Core) (clocks : Nat) : Nat :=
  if clocks ≤ core.countdown then clocks
  else core.countdown + 1 + core.reload.service.1.counts core.reload.service.2

/-- The phase starts anew at a reload, and a service leaves it. -/
theorem reload_service_timerPhase (core : Core) : core.reload.service.1.timerPhase < clk := by
  rw [service_timerPhase]
  exact Nat.zero_lt_succ _

/-- An advance of the timer without the budget, and what it debits. -/
theorem advanceTimer_eq_advanced (hphase : core.timerPhase < clk) (hbudget : budget.InRange)
    (clocks : Nat) :
    core.advanceTimer budget clocks =
      (core.advanced clocks, budget.consume (core.advances clocks)) := by
  unfold advanceTimer advanced advances
  by_cases hclocks : clocks ≤ core.countdown
  · rw [countClocks_of_le hphase hclocks, if_pos hclocks, if_pos hclocks]
  · rw [countClocks_of_lt hphase (Nat.lt_of_not_le hclocks), if_neg hclocks, if_neg hclocks]
    dsimp only
    rw [countClocks_eq_counted core.reload_service_timerPhase]
    dsimp only
    rw [Budget.consume_consume hbudget]

/-- What is counted in total is what is debited. -/
theorem advanced_totalCycles (core : Core) (clocks : Nat) :
    (core.advanced clocks).totalCycles = core.totalCycles + BitVec.ofNat 64 (core.advances clocks) := by
  have hserved : core.reload.service.1.totalCycles =
      core.totalCycles + BitVec.ofNat 64 (core.countdown + 1) := by
    obtain ⟨_, _, _, _, _, _, _, _, hserved⟩ := core.reload.service_eq
    rw [hserved]
    rfl
  unfold advanced advances
  split
  · rfl
  · rw [counted_totalCycles, hserved, count_add_add]

/-- A service costs no more than its constant. -/
theorem service_clocks_le (core : Core) : core.service.2 ≤ serviceClocks := by
  unfold service
  split
  · exact Nat.le_refl _
  · exact Nat.zero_le _

/-- The service that may follow a reload is all that can be debited beyond the clocks. -/
theorem advances_le (core : Core) (clocks : Nat) : core.advances clocks ≤ clocks + serviceClocks := by
  have hserved := core.reload.service_clocks_le
  unfold advances counts
  split
  · exact Nat.le_add_right _ _
  · omega

/-- At least one of any clocks is debited. -/
theorem one_le_advances (core : Core) (hclocks : 1 ≤ clocks) : 1 ≤ core.advances clocks := by
  unfold advances
  split
  · exact hclocks
  · omega

/-- Advanced clocks keep the phase of the timer below its period. -/
theorem advanced_timerPhase (core : Core) (clocks : Nat) :
    (core.advanced clocks).timerPhase < clk := by
  unfold advanced counted
  split
  · exact elapse_timerPhase _ _
  · split
    · exact elapse_timerPhase _ _
    · exact Nat.zero_lt_succ _

/-- Up to the count, the clocks pass and are debited. -/
theorem advanced_of_le (hclocks : clocks ≤ core.countdown) :
    core.advanced clocks = core.elapse clocks ∧ core.advances clocks = clocks :=
  ⟨if_pos hclocks, if_pos hclocks⟩

/-- Beyond the count it makes no difference how many clocks there were. -/
theorem advanced_congr (core : Core) {first second : Nat} (hfirst : core.countdown < first)
    (hsecond : core.countdown < second) :
    core.advanced first = core.advanced second ∧ core.advances first = core.advances second := by
  unfold advanced advances
  rw [if_neg (by omega), if_neg (by omega), if_neg (by omega), if_neg (by omega)]
  exact ⟨rfl, rfl⟩

/-- Up to the count, clocks may be taken off an advance beforehand. -/
theorem advanced_elapse {first : Nat} (hfirst : first ≤ core.countdown) (second : Nat) :
    (core.elapse first).advanced second = core.advanced (first + second) ∧
      first + (core.elapse first).advances second = core.advances (first + second) := by
  unfold advanced advances
  rw [countdown_elapse, elapse_elapse, reload_elapse hfirst]
  by_cases hsum : first + second ≤ core.countdown
  · rw [if_pos (by omega), if_pos hsum, if_pos (by omega), if_pos hsum]
    exact ⟨rfl, rfl⟩
  · rw [if_neg (by omega), if_neg hsum, if_neg (by omega), if_neg hsum]
    exact ⟨rfl, by omega⟩

/-! ## Waiting -/

/-- Nothing passes without a budget. -/
theorem waitFor_of_exhausted (hbudget : budget.remaining.toNat ≤ 0) (count : Nat) :
    core.waitFor budget count = (core, budget) := by
  have hexhausted : budget.isExhausted = true :=
    budget.isExhausted_iff_toNat.mpr (Nat.le_zero.mp hbudget)
  cases count with
  | zero => rfl
  | succ count => rw [waitFor, hexhausted, Bool.or_true, if_pos rfl]

/-- More advances than there are clocks make no difference. -/
theorem waitFor_congr (hphase : core.timerPhase < clk) {first second : Nat}
    (hfirst : budget.remaining.toNat ≤ first) (hsecond : budget.remaining.toNat ≤ second) :
    core.waitFor budget first = core.waitFor budget second := by
  induction first generalizing core budget second with
  | zero => rw [waitFor_of_exhausted hfirst, waitFor_of_exhausted hfirst]
  | succ first ih =>
    cases second with
    | zero => rw [waitFor_of_exhausted hsecond, waitFor_of_exhausted hsecond]
    | succ second =>
      rw [waitFor, waitFor]
      split
      · rfl
      · next hwaiting =>
        rw [Bool.or_eq_true, not_or, Bool.not_eq_true, Bool.not_eq_true] at hwaiting
        have hless := advanceTimer_lt hphase hwaiting.2 (one_le_clocksLeft hwaiting.2)
        have hrest : (core.advanceTimer budget (clocksLeft budget)).2.remaining.toNat ≤ first :=
          Nat.le_of_lt_succ (Nat.lt_of_lt_of_le hless hfirst)
        have hrest' : (core.advanceTimer budget (clocksLeft budget)).2.remaining.toNat ≤ second :=
          Nat.le_of_lt_succ (Nat.lt_of_lt_of_le hless hsecond)
        exact ih (kept_timerPhase.advanceTimer budget _ hphase) hrest hrest'

/-- An idle core with clocks left makes an advance and waits on. -/
theorem wait_unroll (hphase : core.timerPhase < clk) (hbudget : budget.InRange)
    (hidle : core.idle = true) (hleft : budget.isExhausted = false) :
    core.wait budget =
      (core.advanced (clocksLeft budget)).wait (budget.consume (core.advances (clocksLeft budget))) := by
  have hadvance := advanceTimer_eq_advanced hphase hbudget (clocksLeft budget)
  have hless := advanceTimer_lt hphase hleft (one_le_clocksLeft hleft)
  rw [hadvance] at hless
  obtain ⟨count, hcount⟩ := Nat.exists_eq_add_one_of_ne_zero (Nat.ne_of_gt (Nat.zero_lt_of_lt hless))
  have hrest : (budget.consume (core.advances (clocksLeft budget))).remaining.toNat ≤ count := by
    rw [hcount] at hless
    exact Nat.le_of_lt_succ hless
  conv => lhs; unfold wait
  rw [hcount, waitFor, hidle, hleft, hadvance]
  exact waitFor_congr (core.advanced_timerPhase _) hrest (Nat.le_refl _)

/-- An idle core may let any part of its budget pass first. -/
theorem wait_advance (hphase : core.timerPhase < clk) (hbudget : budget.InRange)
    (hidle : core.idle = true) (hclocks : clocks ≤ budget.remaining.toNat) :
    core.wait budget =
      (core.advanced clocks).wait (budget.consume (core.advances clocks)) := by
  generalize hbound : budget.remaining.toNat = bound at hclocks
  induction bound using Nat.strongRecOn generalizing core budget clocks with
  | ind bound ih =>
    subst hbound
    -- Up to the reload, what follows a part that has passed is what follows more than that part.
    have hpart {first second : Nat} (hsome : 1 ≤ first) (hfirst : first ≤ core.countdown)
        (horder : first ≤ second) (hsecond : second ≤ budget.remaining.toNat) :
        (core.advanced first).wait (budget.consume (core.advances first)) =
          (core.advanced second).wait (budget.consume (core.advances second)) := by
      obtain ⟨hadvanced, hadvances⟩ := core.advanced_elapse hfirst (second - first)
      obtain ⟨helapse, hall⟩ := advanced_of_le hfirst
      have hphase' := core.advanced_timerPhase first
      have hleft := Budget.toNat_consume hbudget first
      rw [Nat.add_sub_cancel' horder] at hadvanced hadvances
      rw [helapse] at hphase' ⊢
      rw [hall, ← hadvanced, ← hadvances, ← Budget.consume_consume hbudget]
      have hrest : second - first ≤ (budget.consume first).remaining.toNat := by omega
      exact ih _ (by omega) hphase' (budget.inRange_consume first) hidle rfl hrest
    rcases Nat.eq_zero_or_pos clocks with rfl | hsome
    · obtain ⟨helapse, hall⟩ := advanced_of_le (Nat.zero_le core.countdown)
      rw [helapse, hall, elapse_zero hphase, Int.ofNat_zero, Budget.consume_zero hbudget]
    · have hleft : budget.isExhausted = false := by
        rw [Budget.isExhausted_eq_false_iff]
        omega
      have hchunk := one_le_clocksLeft hleft
      have hchunk' : clocksLeft budget ≤ budget.remaining.toNat := Nat.min_le_left _ _
      rw [wait_unroll hphase hbudget hidle hleft]
      rcases Nat.le_total (clocksLeft budget) clocks with horder | horder
      · by_cases hreload : clocksLeft budget ≤ core.countdown
        · exact hpart hchunk hreload horder hclocks
        · have hreload := Nat.lt_of_not_le hreload
          have hmore := Nat.lt_of_lt_of_le hreload horder
          obtain ⟨hadvanced, hadvances⟩ := core.advanced_congr hreload hmore
          rw [hadvanced, hadvances]
      · by_cases hreload : clocks ≤ core.countdown
        · exact (hpart hsome hreload horder hchunk').symm
        · have hreload := Nat.lt_of_not_le hreload
          have hmore := Nat.lt_of_lt_of_le hreload horder
          obtain ⟨hadvanced, hadvances⟩ := core.advanced_congr hreload hmore
          rw [hadvanced, hadvances]

/-- An idle core whose budget ends before the timer reloads waits it out. -/
theorem wait_of_le (hphase : core.timerPhase < clk) (hbudget : budget.InRange)
    (hidle : core.idle = true) (hleft : budget.isExhausted = false)
    (hcount : budget.remaining.toNat ≤ core.countdown) :
    core.wait budget = (core.elapse budget.remaining.toNat, ⟨0⟩) := by
  have hnothing : budget.consume budget.remaining.toNat = ⟨0⟩ := by
    rw [Budget.isExhausted_eq_false_iff] at hleft
    simp only [Budget.consume, Budget.saturate, Budget.least, Budget.greatest, Budget.mk.injEq]
    omega
  obtain ⟨helapse, hall⟩ := advanced_of_le hcount
  rw [wait_advance hphase hbudget hidle (Nat.le_refl _), helapse, hall, hnothing]
  exact waitFor_of_exhausted (by decide) _

/-- A wait goes on where it ended when there are more clocks. -/
theorem wait_extend {more : Nat} (hphase : core.timerPhase < clk)
    (hbudget : budget.InRange) (hmore : budget.remaining + more ≤ Budget.greatest) :
    core.wait (budget.extend more) =
      (core.wait budget).1.wait ((core.wait budget).2.extend more) := by
  -- On the clocks left: every advance takes at least one of them.
  generalize hbound : budget.remaining.toNat = bound
  induction bound using Nat.strongRecOn generalizing core budget with
  | ind bound ih =>
    subst hbound
    cases hidle : core.idle with
    | false => rw [wait_of_awake hidle, wait_of_awake hidle, wait_of_awake hidle]
    | true =>
      cases hleft : budget.isExhausted with
      | true =>
        have hnothing : core.wait budget = (core, budget) :=
          waitFor_of_exhausted (Nat.le_of_eq (budget.isExhausted_iff_toNat.mp hleft)) _
        rw [hnothing]
      | false =>
        rw [Budget.isExhausted_eq_false_iff] at hleft
        have hall : budget.remaining.toNat ≤ (budget.extend more).remaining.toNat := by
          simp only [Budget.extend]
          omega
        have hrange : (budget.extend more).InRange := by
          simp only [Budget.InRange, Budget.extend] at hbudget ⊢
          omega
        have hsome : 1 ≤ core.advances budget.remaining.toNat := core.one_le_advances (by omega)
        have hmost := core.advances_le budget.remaining.toNat
        have hconsume := Budget.toNat_consume hbudget (core.advances budget.remaining.toNat)
        have hexact : (budget.consume (core.advances budget.remaining.toNat)).extend more =
            (budget.extend more).consume (core.advances budget.remaining.toNat) := by
          apply Budget.consume_extend _ hmore
          simp only [serviceClocks, clk] at hmost
          simp only [Budget.least]
          omega
        rw [wait_advance hphase hrange hidle hall, wait_advance hphase hbudget hidle (Nat.le_refl _),
          ← hexact]
        refine ih _ (by omega) (core.advanced_timerPhase _) (Budget.inRange_consume _ _) ?_ rfl
        exact Int.le_trans (Int.add_le_add_right (Budget.consume_le hbudget _) _) hmore

end Core

/-- What clocks keep, an advance without the budget keeps. -/
theorem KeptByClocks.advanced {P : Core → Prop} (h : KeptByClocks P) {core : Core}
    (hphase : core.timerPhase < clk) (clocks : Nat) (hcore : P core) : P (core.advanced clocks) := by
  have hadvance := h.advanceTimer ⟨0⟩ clocks hcore
  rw [Core.advanceTimer_eq_advanced hphase (by decide) clocks] at hadvance
  exact hadvance

end ProcessorCores.Tms

import Mathlib.Algebra.GroupWithZero.Nat
import ProcessorCores.Proofs.Tms.CheckedTimer
import ProcessorCores.Proofs.Tms.Metering
import ProcessorCores.Proofs.Tms.Polls

/-!
# The timer clock by clock

An advance of the timer divides its clocks into ticks. What it comes to is what a timer does that sees
one clock at a time: every fourth is a tick, and the tick past zero reloads the timer and drops the
clocks that are left. Both go on with the clocks of the service that may follow a reload. These can
reload the timer once more when its period is short, but the first service has masked a second.

The division is done on unsigned words of 32 bits. None of its results leaves their range.
-/

namespace ProcessorCores.Tms

namespace Core

variable {core : Core} {budget : Budget} {clocks : Nat}

/-! ## Rounds -/

/-- A way to count clocks up to the next reload. The last result tells whether it came. There may be no
result. -/
abbrev Count := Core → Budget → Nat → Option (Core × Budget × Bool)

/-- Count clocks, and after a reload those of the service that may follow it, until a count ends without
a reload. There is no result if that takes more rounds. -/
def countRounds (count : Count) (core : Core) (budget : Budget) (clocks : Nat) :
    Nat → Option (Core × Budget)
  | 0 => none
  | rounds + 1 => do
    let (core, budget, reloaded) ← count core budget clocks
    if reloaded then
      let (core, served) := core.service
      countRounds count core budget served rounds
    else some (core, budget)

/-- A count that comes to what the timer does, as long as the clocks are one word. -/
def Count.Exact (count : Count) : Prop :=
  ∀ core budget clocks, core.timerPhase < clk → budget.InRange → clocks < 2 ^ 32 →
    count core budget clocks = some (core.countClocks budget clocks)

/-- A core that has been served masks the service after another reload. -/
theorem reload_service_of_served (hserved : core.service.2 ≠ 0) :
    core.service.1.reload.service = (core.service.1.reload, 0) := by
  cases hsource : core.pendingSource? with
  | none =>
    rw [service, hsource] at hserved
    exact absurd rfl hserved
  | some source =>
    have hmasked : core.service.1.reload.regs.has .intm = true := (servedTo_service hsource).masked
    rw [service, pendingSource?_of_masked hmasked]

variable {count : Count}

/-- One round of an exact count. -/
theorem countRounds_succ (hcount : count.Exact) (hphase : core.timerPhase < clk)
    (hbudget : budget.InRange) (hclocks : clocks < 2 ^ 32) (rounds : Nat) :
    countRounds count core budget clocks (rounds + 1) =
      if clocks ≤ core.countdown then some (core.elapse clocks, budget.consume clocks)
      else countRounds count core.reload.service.1 (budget.consume (core.countdown + 1 : Nat))
        core.reload.service.2 rounds := by
  rw [countRounds, hcount core budget clocks hphase hbudget hclocks]
  split
  · next hle =>
    rw [countClocks_of_le hphase hle]
    rfl
  · next hgt =>
    rw [countClocks_of_lt hphase (Nat.lt_of_not_le hgt)]
    rfl

/-- A round without clocks is the last. -/
theorem countRounds_zero (hcount : count.Exact) (hphase : core.timerPhase < clk)
    (hbudget : budget.InRange) (rounds : Nat) :
    countRounds count core budget 0 (rounds + 1) = some (core, budget) := by
  rw [countRounds_succ hcount hphase hbudget (Nat.two_pow_pos 32), if_pos (Nat.zero_le _),
    elapse_zero hphase, Int.ofNat_zero, Budget.consume_zero hbudget]

/-- Three rounds are enough, and their result is that of the advance. -/
theorem countRounds_eq (hcount : count.Exact) (hphase : core.timerPhase < clk)
    (hbudget : budget.InRange) (hclocks : clocks < 2 ^ 32) (more : Nat) :
    countRounds count core budget clocks (more + 3) = some (core.advanceTimer budget clocks) := by
  rw [advanceTimer_eq_advanced hphase hbudget, countRounds_succ hcount hphase hbudget hclocks,
    advanced, advances]
  split
  · rfl
  · have hphase' := core.reload_service_timerPhase
    have hbudget' := budget.inRange_consume (core.countdown + 1 : Nat)
    have hserved : core.reload.service.2 < 2 ^ 32 :=
      Nat.lt_of_le_of_lt core.reload.service_clocks_le (by decide)
    rw [countRounds_succ hcount hphase' hbudget' hserved, counted, counts]
    split
    · next hle =>
      rw [Nat.min_eq_left (by omega), Budget.consume_consume hbudget]
    · next hgt =>
      -- The clocks that reload once more are those of a service, which has masked the next.
      have hmasked : core.reload.service.1.reload.service = (core.reload.service.1.reload, 0) :=
        reload_service_of_served (by omega)
      have hphase'' : core.reload.service.1.reload.timerPhase < clk := Nat.zero_lt_succ _
      rw [hmasked, countRounds_zero hcount hphase'' (Budget.inRange_consume _ _),
        Nat.min_eq_right (by omega), Budget.consume_consume hbudget]

/-! ## One clock at a time -/

/-- One clock. Every fourth is a tick, and the tick past zero reloads the timer. -/
def clock (core : Core) (budget : Budget) : Core × Budget × Bool :=
  let (core, budget) := core.spend budget 1
  if core.timerPhase + 1 < clk then ({ core with timerPhase := core.timerPhase + 1 }, budget, false)
  else if core.ram.tim = 0 then
    let core := core.mapRam fun ram => { ram with tim := ram.prd }
    let core := { core.mapRegs (·.request Source.tint.bit) with timerPhase := 0 }
    (core.report (.timerReload core.ram.prd), budget, true)
  else
    let core := core.mapRam fun ram => { ram with tim := ram.tim - 1 }
    ({ core with timerPhase := 0 }, budget, false)

/-- Count clocks one at a time up to the next reload, and drop those after it. -/
def countSingly (core : Core) (budget : Budget) : Nat → Core × Budget × Bool
  | 0 => (core, budget, false)
  | clocks + 1 =>
    match core.clock budget with
    | (core, budget, true) => (core, budget, true)
    | (core, budget, false) => core.countSingly budget clocks

/-- A clock within a tick. -/
theorem elapse_one_of_within (hshort : core.timerPhase + 1 < clk) :
    core.elapse 1 =
      { core with timerPhase := core.timerPhase + 1, totalCycles := core.totalCycles + BitVec.ofNat 64 1 } := by
  have hcount : core.countdown = 4 * core.ram.tim.toNat + (3 - core.timerPhase) := rfl
  have htim := core.ram.tim.isLt
  simp only [clk] at hshort
  have htick : BitVec.ofNat 16 ((core.countdown - 1) / clk) = core.ram.tim := by
    apply BitVec.eq_of_toNat_eq
    simp only [clk, BitVec.toNat_ofNat]
    omega
  have hrest : clk - 1 - (core.countdown - 1) % clk = core.timerPhase + 1 := by
    simp only [clk]
    omega
  rw [elapse, htick, hrest]

/-- A timer that is not zero has at least one tick left. -/
theorem one_le_tim (hsome : core.ram.tim ≠ 0) : 1 ≤ core.ram.tim.toNat :=
  Nat.one_le_iff_ne_zero.mpr fun hzero => hsome (BitVec.eq_of_toNat_eq hzero)

/-- The clock that ends a tick. -/
theorem elapse_one_of_tick (hphase : core.timerPhase < clk) (hends : ¬ core.timerPhase + 1 < clk)
    (hsome : core.ram.tim ≠ 0) :
    core.elapse 1 =
      { core with
        ram := { core.ram with tim := core.ram.tim - 1 }
        timerPhase := 0
        totalCycles := core.totalCycles + BitVec.ofNat 64 1 } := by
  have hcount : core.countdown = 4 * core.ram.tim.toNat + (3 - core.timerPhase) := rfl
  have hone := one_le_tim hsome
  have htim := core.ram.tim.isLt
  simp only [clk] at hphase hends
  have htick : BitVec.ofNat 16 ((core.countdown - 1) / clk) = core.ram.tim - 1 := by
    apply BitVec.eq_of_toNat_eq
    rw [BitVec.toNat_ofNat, BitVec.toNat_sub_of_le hone]
    change (core.countdown - 1) / 4 % 65536 = core.ram.tim.toNat - 1
    omega
  have hrest : clk - 1 - (core.countdown - 1) % clk = 0 := by
    simp only [clk]
    omega
  rw [elapse, htick, hrest]

/-- One clock is what the timer makes of one. -/
theorem clock_eq (hphase : core.timerPhase < clk) :
    core.clock budget = core.countClocks budget 1 := by
  have hcount : core.countdown = 4 * core.ram.tim.toNat + (4 - 1 - core.timerPhase) := rfl
  have hclk : clk = 4 := rfl
  by_cases hshort : core.timerPhase + 1 < clk
  · rw [countClocks_of_le hphase (by omega), elapse_one_of_within hshort]
    exact if_pos hshort
  · by_cases hlast : core.ram.tim = 0
    · have htim : core.ram.tim.toNat = 0 := congrArg BitVec.toNat hlast
      have hnone : core.countdown = 0 := by omega
      rw [countClocks_of_lt hphase (by omega), reload, hnone]
      exact (if_neg hshort).trans (if_pos hlast)
    · have htim := one_le_tim hlast
      rw [countClocks_of_le hphase (by omega), elapse_one_of_tick hphase hshort hlast]
      exact (if_neg hshort).trans (if_neg hlast)

/-- Up to the count, clocks may be taken off beforehand. -/
theorem countClocks_elapse (hphase : core.timerPhase < clk) (hbudget : budget.InRange) {first : Nat}
    (hfirst : first ≤ core.countdown) (second : Nat) :
    (core.elapse first).countClocks (budget.consume first) second =
      core.countClocks budget (first + second) := by
  have hphase' := core.elapse_timerPhase first
  have hcount := core.countdown_elapse first
  by_cases hsum : first + second ≤ core.countdown
  · rw [countClocks_of_le hphase' (by omega), countClocks_of_le hphase hsum, elapse_elapse,
      Budget.consume_consume hbudget]
  · have hall : first + ((core.elapse first).countdown + 1) = core.countdown + 1 := by omega
    rw [countClocks_of_lt hphase' (by omega), countClocks_of_lt hphase (by omega),
      reload_elapse hfirst, Budget.consume_consume hbudget, hall]

/-- Clocks taken one at a time come to what they come to at once. -/
theorem countSingly_eq (hphase : core.timerPhase < clk) (hbudget : budget.InRange) (clocks : Nat) :
    core.countSingly budget clocks = core.countClocks budget clocks := by
  -- A clock that reloads ends both; any other leaves one clock less to the countdown.
  induction clocks generalizing core budget with
  | zero => rw [countSingly, countClocks_zero hphase, Budget.consume_zero hbudget]
  | succ clocks ih =>
    rw [countSingly, clock_eq hphase]
    rcases Nat.lt_or_ge core.countdown 1 with hnone | hsome
    · rw [countClocks_of_lt hphase hnone, countClocks_of_lt hphase (by omega)]
    · have hrest := ih (core.elapse_timerPhase 1) (budget.inRange_consume 1)
      rw [countClocks_of_le hphase hsome, Nat.add_comm clocks, ← countClocks_elapse hphase hbudget hsome]
      exact hrest

/-- Counting clock by clock is exact. -/
theorem exact_countSingly : Count.Exact fun core budget clocks => some (core.countSingly budget clocks) :=
  fun _ _ clocks hphase hbudget _ => congrArg some (countSingly_eq hphase hbudget clocks)

/-! ## Words -/

/-- A result, if it is a word of 32 bits. -/
def word? (result : Nat) : Option Nat := if result < 2 ^ 32 then some result else none

/-- A result that fits is a word. -/
theorem word?_of_lt {result : Nat} (h : result < 2 ^ 32) : word? result = some result := if_pos h

/-- Count clocks up to the next reload, as far as all sums, products and differences are words. -/
def countWords? (core : Core) (budget : Budget) (clocks : Nat) : Option (Core × Budget × Bool) := do
  let toTick ← minus? clk core.timerPhase
  if clocks < toTick then
    let phase ← word? (core.timerPhase + clocks)
    let (core, budget) := core.spend budget clocks
    some ({ core with timerPhase := phase }, budget, false)
  else
    let past ← minus? clocks toTick
    let ticks ← word? (1 + past / clk)
    let tim := core.ram.tim.toNat
    if ticks ≤ tim then
      let (core, budget) := core.spend budget clocks
      let whole ← minus? ticks 1
      let whole ← word? (whole * clk)
      let rest ← minus? clocks whole
      let phase ← minus? rest toTick
      let left ← minus? tim ticks
      let core := core.mapRam fun ram => { ram with tim := BitVec.ofNat 16 left }
      some ({ core with timerPhase := phase }, budget, false)
    else
      let whole ← word? (clk * tim)
      let spent ← word? (toTick + whole)
      let (core, budget) := core.spend budget spent
      let core := core.mapRam fun ram => { ram with tim := ram.prd }
      let core := { core.mapRegs (·.request Source.tint.bit) with timerPhase := 0 }
      some (core.report (.timerReload core.ram.prd), budget, true)

/-- They all are. -/
theorem exact_countWords? : Count.Exact countWords? := by
  intro core budget clocks hphase _ hclocks
  have hclk : clk = 4 := rfl
  have htoTick := minus?_of_le (Nat.le_of_lt hphase)
  rw [← countClocks?_eq budget hphase]
  unfold countWords? countClocks?
  simp only [htoTick, Option.bind_eq_bind, Option.bind_some]
  split
  · rw [word?_of_lt (by omega)]
    rfl
  · next hlong =>
    rw [minus?_of_le (Nat.le_of_not_lt hlong), Option.bind_some, Option.bind_some]
    generalize hpast : clocks - (clk - core.timerPhase) = past
    have hquotient := Nat.div_le_self past clk
    have hproduct := Nat.div_mul_le_self past clk
    rw [word?_of_lt (by omega), Option.bind_some]
    split
    · rw [minus?_of_add_eq (Nat.add_comm ..), Option.bind_some, Option.bind_some,
        word?_of_lt (by omega), Option.bind_some]
    · have htim := core.ram.tim.isLt
      have hticks : clk * core.ram.tim.toNat < 2 ^ 18 := by
        simp only [clk]
        omega
      rw [word?_of_lt (by omega), Option.bind_some, word?_of_lt (by omega)]
      rfl

/-! ## Reloads and services -/

/-- Counted clocks reload at most once. -/
theorem counted_reloads_le (core : Core) (clocks : Nat) :
    (core.counted clocks).reloads ≤ core.reloads + 1 := by
  unfold counted
  split
  · exact Nat.le_succ core.reloads
  · exact Nat.le_of_eq core.reload_reloads

/-- Counted clocks serve nothing. -/
theorem counted_interrupts (core : Core) (clocks : Nat) :
    (core.counted clocks).interrupts = core.interrupts := by
  unfold counted
  split <;> rfl

/-- An advance reloads the timer twice at most. -/
theorem advanced_reloads_le (core : Core) (clocks : Nat) :
    (core.advanced clocks).reloads ≤ core.reloads + 2 := by
  unfold advanced
  split
  · exact Nat.le_add_right core.reloads 2
  · have hcounted := core.reload.service.1.counted_reloads_le core.reload.service.2
    rwa [service_reloads, reload_reloads] at hcounted

/-- It serves one request at most. -/
theorem advanced_interrupts_le (core : Core) (clocks : Nat) :
    (core.advanced clocks).interrupts.length ≤ core.interrupts.length + 1 := by
  unfold advanced
  split
  · exact Nat.le_succ core.interrupts.length
  · have hreload : core.reload.interrupts = core.interrupts := rfl
    rw [counted_interrupts, service_interrupts, hreload, List.length_append, Nat.add_comm]
    exact Nat.add_le_add_left Option.length_toList_le _

/-- Up to a reload, clocks pass in portions as they do at once. -/
theorem advanceTimer_add (hphase : core.timerPhase < clk) (hbudget : budget.InRange) {first second : Nat}
    (hreloads : (core.advanceTimer budget (first + second)).1.reloads = core.reloads) :
    (core.advanceTimer budget first).1.advanceTimer (core.advanceTimer budget first).2 second =
      core.advanceTimer budget (first + second) := by
  rw [advanceTimer_eq_advanced hphase hbudget] at hreloads
  have hsum := (core.advanced_reloads (first + second)).2 hreloads
  obtain ⟨hadvanced, hadvances⟩ := core.advanced_elapse (Nat.le_of_add_right_le hsum) second
  obtain ⟨helapse, hall⟩ := advanced_of_le (Nat.le_of_add_right_le hsum)
  rw [advanceTimer_eq_advanced hphase hbudget, advanceTimer_eq_advanced hphase hbudget, helapse, hall,
    advanceTimer_eq_advanced (core.elapse_timerPhase first) (budget.inRange_consume first), hadvanced,
    Budget.consume_consume hbudget, hadvances]

/-- An advance of the timer comes to what its clocks come to one at a time, in three rounds at most, with
two reloads and one service at most. None of its results leaves the words of 32 bits, and up to a reload
it may be divided in two. -/
theorem advanceTimer_clock_by_clock (hphase : core.timerPhase < clk) (hbudget : budget.InRange)
    (hclocks : clocks < 2 ^ 32) :
    (∀ rounds ≥ 3,
      countRounds (fun core budget clocks => some (core.countSingly budget clocks)) core budget clocks
          rounds = some (core.advanceTimer budget clocks) ∧
        countRounds countWords? core budget clocks rounds = some (core.advanceTimer budget clocks)) ∧
      (core.advanceTimer budget clocks).1.reloads ≤ core.reloads + 2 ∧
      (core.advanceTimer budget clocks).1.interrupts.length ≤ core.interrupts.length + 1 ∧
      ∀ first second, (core.advanceTimer budget (first + second)).1.reloads = core.reloads →
        (core.advanceTimer budget first).1.advanceTimer (core.advanceTimer budget first).2 second =
          core.advanceTimer budget (first + second) := by
  refine ⟨fun rounds hrounds => ?_, ?_, ?_, fun first second => advanceTimer_add hphase hbudget⟩
  · obtain ⟨more, rfl⟩ := Nat.exists_eq_add_of_le' hrounds
    exact ⟨countRounds_eq exact_countSingly hphase hbudget hclocks more,
      countRounds_eq exact_countWords? hphase hbudget hclocks more⟩
  · rw [advanceTimer_eq_advanced hphase hbudget]
    exact core.advanced_reloads_le clocks
  · rw [advanceTimer_eq_advanced hphase hbudget]
    exact core.advanced_interrupts_le clocks

/-- A timer one clock before a reload, with a period that the service does not outlast. -/
theorem advanceTimer_clock_by_clock_short_period :
    let new := Core.new .tms32025
    let core : Core :=
      { new with
        regs := new.regs.put .intm false
        ram := { new.ram with tim := 0, prd := 1, imr := 0xFFFF }
        timerPhase := 3 }
    let after := core.advanceTimer ⟨100⟩ 5
    countRounds (fun core budget clocks => some (core.countSingly budget clocks)) core ⟨100⟩ 5 3 =
        some after ∧
      after.1.reloads = 2 ∧ after.1.interrupts.length = 1 ∧ after.2 = ⟨91⟩ ∧ after.1.ram.tim = 1 ∧
      ((new.advanceTimer ⟨100⟩ 2).1.advanceTimer (new.advanceTimer ⟨100⟩ 2).2 13 =
        new.advanceTimer ⟨100⟩ 15) := by
  intro new core after
  have htimer := @advanceTimer_clock_by_clock core ⟨100⟩ 5 (by decide) (by decide) (by decide)
  have hnew := @advanceTimer_clock_by_clock new ⟨100⟩ 5 (by decide) (by decide) (by decide)
  exact ⟨(htimer.1 3 (Nat.le_refl 3)).1, by decide +kernel, by decide +kernel, by decide +kernel,
    by decide +kernel, hnew.2.2.2 2 13 (by decide +kernel)⟩

end Core

end ProcessorCores.Tms

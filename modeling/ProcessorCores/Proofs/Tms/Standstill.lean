import ProcessorCores.Proofs.Tms.Holds
import ProcessorCores.Proofs.Tms.Slices

/-!
# Standstills of the TMS3202x

A core that is idle, or held where it may not execute, and that no request can rouse stands still: the
whole budget of a run passes on its timer. The timer counts machine cycles down and takes up its
period at the cycle past zero, so where it ends is the remainder of a division by one more than the
period.

The run comes there in advances, each of which ends at a reload or at the limit of what an advance
can count. The closed form composes: clocks that pass in portions are those of their sum. This holds
across reloads too, so the portions need not be known.
-/

namespace ProcessorCores.Tms

/-! ## Counting down -/

/-- Where a count that runs down to zero, and then starts anew from its period, is after so many
ticks. -/
def countAfter (left period ticks : Nat) : Nat :=
  if ticks ≤ left then left - ticks else period - (ticks - left - 1) % (period + 1)

/-- How many times it has started anew. -/
def restarts (left period ticks : Nat) : Nat :=
  if ticks ≤ left then 0 else 1 + (ticks - left - 1) / (period + 1)

section Counting

variable (left period first second : Nat)

/-- The count never exceeds where it was and its period. -/
theorem countAfter_le : countAfter left period first ≤ max left period := by
  unfold countAfter
  split <;> omega

/-- Past its end the count of a full period goes round. -/
theorem period_sub_mod :
    countAfter (period - first % (period + 1)) period second = period - (first + second) % (period + 1) ∧
      restarts (period - first % (period + 1)) period second + first / (period + 1) =
        (first + second) / (period + 1) := by
  have hrest := Nat.mod_lt first (Nat.zero_lt_succ period)
  have hsplit := Nat.div_add_mod first (period + 1)
  generalize first % (period + 1) = rest at hrest hsplit ⊢
  generalize first / (period + 1) = rounds at hsplit ⊢
  have hsum : first + second = rest + second + (period + 1) * rounds := by omega
  rw [hsum, Nat.add_mul_mod_self_left, Nat.add_mul_div_left _ _ (Nat.zero_lt_succ period)]
  unfold countAfter restarts
  by_cases hshort : second ≤ period - rest
  · have hwithin : rest + second < period + 1 := by omega
    rw [if_pos hshort, if_pos hshort, Nat.mod_eq_of_lt hwithin, Nat.div_eq_of_lt hwithin]
    exact ⟨Nat.sub_sub .., rfl⟩
  · have hpast : second - (period - rest) - 1 = rest + second - (period + 1) := by omega
    have hlong : period + 1 ≤ rest + second := by omega
    rw [if_neg hshort, if_neg hshort, hpast, Nat.mod_eq_sub_mod hlong,
      Nat.div_eq_sub_div (Nat.zero_lt_succ period) hlong, Nat.add_comm 1]
    exact ⟨rfl, rfl⟩

/-- Ticks in portions are those of their sum. -/
theorem countAfter_add :
    countAfter (countAfter left period first) period second = countAfter left period (first + second) := by
  by_cases hfirst : first ≤ left
  · unfold countAfter
    rw [if_pos hfirst]
    by_cases hsecond : second ≤ left - first
    · rw [if_pos hsecond, if_pos (by omega)]
      omega
    · have hpast : second - (left - first) - 1 = first + second - left - 1 := by omega
      rw [if_neg hsecond, if_neg (by omega), hpast]
  · have hpast : first - left - 1 + second = first + second - left - 1 := by omega
    have hround : countAfter left period first = period - (first - left - 1) % (period + 1) :=
      if_neg hfirst
    rw [hround, (period_sub_mod period _ second).1, hpast, countAfter, if_neg (by omega)]

/-- The restarts in portions add up. -/
theorem restarts_add :
    restarts (countAfter left period first) period second + restarts left period first =
      restarts left period (first + second) := by
  by_cases hfirst : first ≤ left
  · unfold restarts countAfter
    rw [if_pos hfirst, if_pos hfirst]
    by_cases hsecond : second ≤ left - first
    · rw [if_pos hsecond, if_pos (by omega)]
    · have hpast : second - (left - first) - 1 = first + second - left - 1 := by omega
      rw [if_neg hsecond, if_neg (by omega), hpast, Nat.add_zero]
  · have hpast : first - left - 1 + second = first + second - left - 1 := by omega
    have hround : countAfter left period first = period - (first - left - 1) % (period + 1) :=
      if_neg hfirst
    have hsum := (period_sub_mod period (first - left - 1) second).2
    have hbefore : restarts left period first = 1 + (first - left - 1) / (period + 1) :=
      if_neg hfirst
    rw [hpast] at hsum
    rw [hround, hbefore, Nat.add_left_comm, hsum, restarts, if_neg (by omega)]

end Counting

namespace Core

/-! ## The closed form -/

/-- The machine cycles that end while so many clocks pass. -/
def ticks (core : Core) (clocks : Nat) : Nat := (core.timerPhase + clocks) / clk

/-- A core that has stood still for so many clocks: only the timer has moved, and it has requested an
interrupt if it went past zero. -/
def passed (core : Core) (clocks : Nat) : Core :=
  let ticks := core.ticks clocks
  let tim := core.ram.tim.toNat
  let prd := core.ram.prd.toNat
  { core with
    regs := if ticks ≤ tim then core.regs else core.regs.request Source.tint.bit
    ram := { core.ram with tim := BitVec.ofNat 16 (countAfter tim prd ticks) }
    timerPhase := (core.timerPhase + clocks) % clk
    totalCycles := core.totalCycles + BitVec.ofNat 64 clocks
    journal := List.replicate (restarts tim prd ticks) (.timerReload core.ram.prd) ++ core.journal }

/-- No request can be served, not even that of the timer when it comes. -/
def Undisturbed (core : Core) : Prop :=
  core.regs.has .intm = true ∨
    (core.regs.ifr ||| Source.tint.bit) &&& core.ram.imr &&& Source.allBits = 0

variable {core : Core} {budget : Budget} {clocks : Nat}

/-- The count of the timer fits its register. -/
theorem toNat_countAfter (core : Core) (ticks : Nat) :
    (BitVec.ofNat 16 (countAfter core.ram.tim.toNat core.ram.prd.toNat ticks)).toNat =
      countAfter core.ram.tim.toNat core.ram.prd.toNat ticks := by
  have hcount := countAfter_le core.ram.tim.toNat core.ram.prd.toNat ticks
  have htim := core.ram.tim.isLt
  have hprd := core.ram.prd.isLt
  rw [BitVec.toNat_ofNat, Nat.mod_eq_of_lt (by omega)]

/-- The timer after so many clocks. -/
theorem passed_tim (core : Core) (clocks : Nat) :
    (core.passed clocks).ram.tim.toNat =
      countAfter core.ram.tim.toNat core.ram.prd.toNat (core.ticks clocks) :=
  core.toNat_countAfter _

/-- Ticks add up: the phase left by the first clocks carries into the second. -/
theorem ticks_add (core : Core) (first second : Nat) :
    core.ticks (first + second) = core.ticks first + (core.passed first).ticks second := by
  change (core.timerPhase + (first + second)) / 4 =
    (core.timerPhase + first) / 4 + ((core.timerPhase + first) % 4 + second) / 4
  omega

/-- A request that is there already is not raised twice. -/
theorem request_passed (core : Core) (first second : Nat) :
    (if (core.passed first).ticks second ≤ (core.passed first).ram.tim.toNat then
        (core.passed first).regs
      else (core.passed first).regs.request Source.tint.bit) =
      if core.ticks (first + second) ≤ core.ram.tim.toNat then core.regs
      else core.regs.request Source.tint.bit := by
  have hagain : (core.regs.request Source.tint.bit).request Source.tint.bit =
      core.regs.request Source.tint.bit := by
    simp only [Registers.request, BitVec.or_assoc, BitVec.or_self]
  have hregs : (core.passed first).regs =
      if core.ticks first ≤ core.ram.tim.toNat then core.regs
      else core.regs.request Source.tint.bit := rfl
  rw [hregs, passed_tim, ticks_add]
  by_cases hfirst : core.ticks first ≤ core.ram.tim.toNat
  · rw [if_pos hfirst, countAfter, if_pos hfirst]
    by_cases hsecond : (core.passed first).ticks second ≤ core.ram.tim.toNat - core.ticks first
    · rw [if_pos hsecond, if_pos (by omega)]
    · rw [if_neg hsecond, if_neg (by omega)]
  · rw [if_neg hfirst, hagain, ite_self, if_neg (by omega)]

/-- Clocks that pass in portions are those of their sum. -/
theorem passed_passed (core : Core) (first second : Nat) :
    (core.passed first).passed second = core.passed (first + second) := by
  have hphase : ((core.timerPhase + first) % clk + second) % clk =
      (core.timerPhase + (first + second)) % clk := by
    rw [Nat.mod_add_mod, Nat.add_assoc]
  have hregs := core.request_passed first second
  have htim : countAfter (core.passed first).ram.tim.toNat core.ram.prd.toNat
      ((core.passed first).ticks second) =
        countAfter core.ram.tim.toNat core.ram.prd.toNat (core.ticks (first + second)) := by
    rw [passed_tim, ticks_add, countAfter_add]
  have hreloads : List.replicate (restarts (core.passed first).ram.tim.toNat core.ram.prd.toNat
        ((core.passed first).ticks second)) (Event.timerReload core.ram.prd) ++
        (core.passed first).journal =
      List.replicate (restarts core.ram.tim.toNat core.ram.prd.toNat (core.ticks (first + second)))
        (.timerReload core.ram.prd) ++ core.journal := by
    rw [ticks_add, ← restarts_add, ← passed_tim, ← List.replicate_append_replicate, List.append_assoc]
    rfl
  unfold passed at hregs htim hreloads ⊢
  dsimp only at hregs htim hreloads ⊢
  rw [hregs, htim, hreloads, hphase, count_add_add]

/-- Up to the reload the closed form is the count of the timer. -/
theorem passed_of_le (hphase : core.timerPhase < clk) (hclocks : clocks ≤ core.countdown) :
    core.passed clocks = core.elapse clocks := by
  have hcount : core.countdown = 4 * core.ram.tim.toNat + (3 - core.timerPhase) := rfl
  have hticks : core.ticks clocks = (core.timerPhase + clocks) / 4 := rfl
  simp only [clk] at hphase
  have hshort : core.ticks clocks ≤ core.ram.tim.toNat := by omega
  have htim : core.ram.tim.toNat - core.ticks clocks = (core.countdown - clocks) / clk := by
    simp only [clk]
    omega
  have hrest : (core.timerPhase + clocks) % clk = clk - 1 - (core.countdown - clocks) % clk := by
    simp only [clk]
    omega
  simp only [passed, countAfter, restarts, if_pos hshort, htim, hrest]
  rfl

/-- So it is at the reload. -/
theorem passed_reload (hphase : core.timerPhase < clk) :
    core.passed (core.countdown + 1) = core.reload := by
  have hcount : core.countdown = 4 * core.ram.tim.toNat + (3 - core.timerPhase) := rfl
  simp only [clk] at hphase
  have hsum : core.timerPhase + (core.countdown + 1) = clk * (core.ram.tim.toNat + 1) := by
    simp only [clk]
    omega
  have hticks : core.ticks (core.countdown + 1) = core.ram.tim.toNat + 1 := by
    rw [ticks, hsum, Nat.mul_div_cancel_left _ (by decide)]
  have hlong : ¬ core.ram.tim.toNat + 1 ≤ core.ram.tim.toNat := Nat.not_succ_le_self _
  have hpast : core.ram.tim.toNat + 1 - core.ram.tim.toNat - 1 = 0 := by omega
  have hprd : BitVec.ofNat 16 core.ram.prd.toNat = core.ram.prd := by
    rw [BitVec.ofNat_toNat, BitVec.setWidth_eq]
  simp only [passed, hticks, countAfter, restarts, if_neg hlong, hpast, hsum, Nat.zero_mod,
    Nat.zero_div, Nat.sub_zero, hprd, Nat.mul_mod_right]
  rfl

/-! ## Standing still -/

/-- An undisturbed core serves no request. -/
theorem Undisturbed.unserved (h : core.Undisturbed) : core.Unserved := by
  refine h.imp id fun hnone source _ => ?_
  have hbit := congrArg (BitVec.getLsbD · source.number) hnone
  have hsource : Source.allBits.getLsbD source.number = true := by cases source <;> decide
  have hzero : (0 : Half).getLsbD source.number = false := BitVec.getLsbD_zero
  simp only [BitVec.getLsbD_and, BitVec.getLsbD_or, hsource, Bool.and_true, hzero] at hbit
  rw [Source.meets_bit, BitVec.getLsbD_and]
  cases hrequest : core.regs.ifr.getLsbD source.number with
  | false => rfl
  | true =>
    rw [hrequest, Bool.true_or] at hbit
    exact hbit

/-- Time makes no difference to what is requested and enabled but for the request of the timer. -/
theorem Undisturbed.passed (h : core.Undisturbed) (clocks : Nat) : (core.passed clocks).Undisturbed := by
  have hregs : (core.passed clocks).regs = core.regs ∨
      (core.passed clocks).regs = core.regs.request Source.tint.bit := by
    unfold Core.passed
    dsimp only
    split
    · exact .inl rfl
    · exact .inr rfl
  have himr : (core.passed clocks).ram.imr = core.ram.imr := rfl
  rcases hregs with hregs | hregs
  · rw [Undisturbed, hregs, himr]
    exact h
  · rw [Undisturbed, hregs, himr]
    refine h.imp id fun hnone => ?_
    rw [Registers.request, BitVec.or_assoc, BitVec.or_self]
    exact hnone

/-- The phase of the timer stays below its period. -/
theorem passed_timerPhase (core : Core) (clocks : Nat) : (core.passed clocks).timerPhase < clk :=
  Nat.mod_lt _ (by decide)

/-- An advance of the timer ends at the reload, if not before, and nothing is served there. -/
theorem Undisturbed.advanced (h : core.Undisturbed) (hphase : core.timerPhase < clk) (clocks : Nat) :
    core.advanced clocks = core.passed (core.counts clocks) ∧
      core.advances clocks = core.counts clocks := by
  unfold Core.advanced advances counts
  by_cases hclocks : clocks ≤ core.countdown
  · rw [if_pos hclocks, if_pos hclocks, Nat.min_eq_left (by omega), passed_of_le hphase hclocks]
    exact ⟨rfl, rfl⟩
  · have hserved := (service_of_free (h.passed (core.countdown + 1)).unserved.service).2
    rw [passed_reload hphase] at hserved
    have hnothing : core.reload.counted 0 = core.reload := by
      rw [counted, if_pos (Nat.zero_le _), elapse_zero (Nat.zero_lt_succ _)]
    rw [if_neg hclocks, if_neg hclocks, Nat.min_eq_right (by omega), hserved, passed_reload hphase,
      hnothing]
    exact ⟨rfl, by rw [Nat.zero_min, Nat.add_zero]⟩

/-- So an advance lets a part of the budget pass: at least one clock, and no more than there are. -/
theorem Undisturbed.advanceTimer (h : core.Undisturbed) (hphase : core.timerPhase < clk)
    (hsome : 0 < clocks) (hrange : (clocks : Int) ≤ Budget.greatest) :
    ∃ part, 1 ≤ part ∧ part ≤ clocks ∧
      core.advanceTimer ⟨clocks⟩ (clocksLeft ⟨clocks⟩) = (core.passed part, ⟨(clocks - part : Nat)⟩) := by
  have hone : 1 ≤ core.counts (clocksLeft ⟨clocks⟩) := by
    simp only [counts, clocksLeft, Int.toNat_natCast]
    omega
  have hwhole : core.counts (clocksLeft ⟨clocks⟩) ≤ clocks := by
    simp only [counts, clocksLeft, Int.toNat_natCast]
    omega
  obtain ⟨hadvanced, hadvances⟩ := h.advanced hphase (clocksLeft ⟨clocks⟩)
  refine ⟨_, hone, hwhole, ?_⟩
  rw [advanceTimer_eq_advanced hphase (Budget.inRange_of_nat hrange), hadvanced, hadvances,
    Budget.consume_of_le hrange hwhole]

/-- A core that goes on waiting lets the whole budget pass. The induction is on the advances that there
may be, one of which takes at least a clock. -/
theorem Undisturbed.passFor (h : core.Undisturbed) (hphase : core.timerPhase < clk)
    {waits : Core → Bool} (hwaits : ∀ clocks, waits (core.passed clocks) = true) {count : Nat}
    (hcount : clocks ≤ count) (hrange : (clocks : Int) ≤ Budget.greatest) :
    core.passFor waits ⟨clocks⟩ count = (core.passed clocks, ⟨0⟩) := by
  have hnothing : core.passed 0 = core := by
    rw [passed_of_le hphase (Nat.zero_le _), elapse_zero hphase]
  induction count generalizing core clocks with
  | zero =>
    obtain rfl : clocks = 0 := Nat.le_zero.mp hcount
    rw [hnothing]
    rfl
  | succ count ih =>
    have hwait : waits core = true := hnothing ▸ hwaits 0
    rcases Nat.eq_zero_or_pos clocks with rfl | hsome
    · rw [Core.passFor, hwait, hnothing]
      rfl
    · have hleft : (⟨clocks⟩ : Budget).isExhausted = false := by
        rw [Budget.isExhausted_eq_false_iff]
        exact Int.natCast_pos.mpr hsome
      obtain ⟨part, hone, hwhole, hadvance⟩ := h.advanceTimer hphase hsome hrange
      have hrest := ih (h.passed part) (core.passed_timerPhase part)
        (fun more => by rw [passed_passed]; exact hwaits _) (by omega : clocks - part ≤ count)
        (by omega) (by rw [passed_passed, Nat.add_zero])
      rw [passed_passed, Nat.add_sub_cancel' hwhole] at hrest
      rw [Core.passFor, hwait, hleft, hadvance]
      exact hrest

/-- An idle core passes its whole budget. -/
theorem Undisturbed.wait (h : core.Undisturbed) (hphase : core.timerPhase < clk)
    (hidle : core.idle = true) (hrange : (clocks : Int) ≤ Budget.greatest) :
    core.wait ⟨clocks⟩ = (core.passed clocks, ⟨0⟩) := by
  rw [Core.wait, waitFor_eq_passFor]
  exact h.passFor hphase (fun _ => hidle) (Nat.le_refl _) hrange

/-- A stalled core passes its whole budget. -/
theorem Undisturbed.stall (h : core.Undisturbed) (hphase : core.timerPhase < clk)
    (hrange : (clocks : Int) ≤ Budget.greatest) :
    core.stall ⟨clocks⟩ = (core.passed clocks, ⟨0⟩) := by
  rw [Core.stall, stallFor_eq_passFor]
  exact h.passFor hphase (fun _ => rfl) (Nat.le_refl _) hrange

/-- The acknowledge of a hold disturbs nothing. -/
theorem Undisturbed.acknowledged (h : core.Undisturbed) : core.acknowledged.Undisturbed := by
  unfold Core.acknowledged
  split
  · exact h
  · exact h

end Core

namespace Machine

variable {machine : Machine} {clocks : Nat}

/-- A run is over when its start uses the budget up. -/
theorem run_of_beginRun {other : Machine} {budget left : Budget}
    (hphase : machine.core.timerPhase < clk) (hbegin : machine.beginRun budget = (other, left))
    (hleft : left.isExhausted = true) : machine.run budget = some (other, left) := by
  rw [run_eq_some_iff hphase, hbegin]
  exact ⟨0, rfl, hleft⟩

/-- The run of a core that is idle without a hold, or that a hold stops, and that no request can
rouse: the whole budget passes and nothing else happens, whatever the number of reloads. -/
theorem run_standstill (hphase : machine.core.timerPhase < clk)
    (hundisturbed : machine.core.Undisturbed) (hrange : (clocks : Int) ≤ Budget.greatest) :
    (machine.core.idle = true → machine.core.Unheld →
      machine.run ⟨clocks⟩ = some ({ machine with core := machine.core.passed clocks }, ⟨0⟩)) ∧
    (machine.core.holdLine = true → machine.core.StopsForHold →
      machine.run ⟨clocks⟩ =
        some ({ machine with core := machine.core.acknowledged.passed clocks }, ⟨0⟩)) := by
  constructor
  · intro hidle hunheld
    have hbegin := beginRun_of_unserved hunheld (Budget.inRange_of_nat hrange) fun _ _ =>
      hundisturbed.unserved.service
    rw [wait, hundisturbed.wait hphase hidle hrange] at hbegin
    exact run_of_beginRun hphase hbegin rfl
  · intro hline hstops
    have hphase' : machine.core.acknowledged.timerPhase < clk := by
      rw [Core.acknowledged_timerPhase]
      exact hphase
    refine run_of_beginRun hphase ?_ rfl
    rw [beginRun, (Core.beginRun_of_stops hphase hline hstops _).1,
      hundisturbed.acknowledged.stall hphase' hrange]

/-- More clocks than one advance can count, on an idle core and on one that is held: the timer goes
round some four hundred million times. -/
theorem run_standstill_long :
    let standing : Core :=
      { Core.new .tms32025 with timerPhase := 3, ram := { OnChipRam.new .tms32025 with tim := 5, prd := 2 } }
    let asleep : Machine := ⟨{ standing with idle := true }, .empty⟩
    let held : Machine := ⟨{ standing with holdLine := true }, .empty⟩
    (∃ core, asleep.run ⟨5000000000⟩ = some (⟨core, .empty⟩, ⟨0⟩) ∧ core.ram.tim = 0 ∧
      core.timerPhase = 3 ∧ core.regs.ifr = Source.tint.bit) ∧
    ∃ core, held.run ⟨5000000000⟩ = some (⟨core, .empty⟩, ⟨0⟩) ∧ core.ram.tim = 0 ∧
      core.timerPhase = 3 ∧ core.regs.ifr = Source.tint.bit ∧ core.hold = true := by
  intro standing asleep held
  have hrange : ((5000000000 : Nat) : Int) ≤ Budget.greatest := by decide
  have hasleepPhase : asleep.core.timerPhase < clk := by decide
  have hheldPhase : held.core.timerPhase < clk := by decide
  have hasleep := (run_standstill hasleepPhase (.inl (by decide)) hrange).1 rfl ⟨rfl, rfl⟩
  have hheld := (run_standstill hheldPhase (.inl (by decide)) hrange).2 rfl (.inr (by decide))
  exact ⟨⟨_, hasleep, by decide +kernel⟩, ⟨_, hheld, by decide +kernel⟩⟩

end Machine

end ProcessorCores.Tms

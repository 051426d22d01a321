import ProcessorCores.Proofs.Tms.Clockwork
import ProcessorCores.Proofs.Tms.Countdown
import ProcessorCores.Proofs.Tms.Turns

/-!
# Clocks debited and clocks seen by the timer

Every clock of a run is debited from the budget and counted in total. Between two reloads the timer
and its phase are a count of clocks as well, so that the three can be compared, as long as no program
writes the timer register. They agree on every path of a run but one: the service that wakes an idle
core at the start of a run is debited, and the timer does not see it.
-/

namespace ProcessorCores.Tms

namespace Core

/-! ## Metered work -/

/-- What so many clocks make of a core and a budget. Those debited are those counted in total, and as
long as no reload comes they are taken from the count of the timer, but for those that it does not
see. -/
structure Metered (clocks : Nat) (before : Core) (budget : Budget) (unseen : Nat) (after : Core)
    (left : Budget) : Prop where
  total : after.totalCycles = before.totalCycles + BitVec.ofNat 64 clocks
  debit : left = budget.consume clocks
  reloads : before.reloads ≤ after.reloads
  timer : after.reloads = before.reloads → clocks + after.countdown = before.countdown + unseen

/-- What some number of clocks makes of a core and a budget. -/
def MeteredTo (before : Core) (budget : Budget) (unseen : Nat) (after : Core) (left : Budget) : Prop :=
  ∃ clocks, Metered clocks before budget unseen after left

variable {core : Core} {budget : Budget} {clocks : Nat}

/-- A debit leaves a budget in range. -/
theorem MeteredTo.inRange {before after : Core} {left : Budget} {unseen : Nat}
    (h : before.MeteredTo budget unseen after left) : left.InRange := by
  obtain ⟨clocks, h⟩ := h
  rw [h.debit]
  exact Budget.inRange_consume _ _

/-- A debit takes from a budget. -/
theorem MeteredTo.remaining_le {before after : Core} {left : Budget} {unseen : Nat}
    (h : before.MeteredTo budget unseen after left) (hbudget : budget.InRange) :
    left.remaining ≤ budget.remaining := by
  obtain ⟨clocks, h⟩ := h
  rw [h.debit]
  exact Budget.consume_le hbudget clocks

/-- What leaves the counts of clocks, of reloads and of the timer alone debits nothing. -/
theorem meteredTo_of_eq {before after : Core} (hbudget : budget.InRange)
    (htotal : after.totalCycles = before.totalCycles) (hphase : after.timerPhase = before.timerPhase)
    (hreloads : after.reloads = before.reloads) (htim : after.ram.tim = before.ram.tim) :
    before.MeteredTo budget 0 after budget := by
  refine ⟨0, ?_, ?_, Nat.le_of_eq hreloads.symm, fun _ => ?_⟩
  · rw [htotal, BitVec.add_zero]
  · rw [Int.ofNat_zero, Budget.consume_zero hbudget]
  · rw [countdown, countdown, htim, hphase, Nat.zero_add, Nat.add_zero]

/-- What does nothing debits nothing. -/
theorem MeteredTo.refl (core : Core) (hbudget : budget.InRange) : core.MeteredTo budget 0 core budget :=
  meteredTo_of_eq hbudget rfl rfl rfl rfl

/-- One thing after another. -/
theorem MeteredTo.trans {first second third : Core} {between left : Budget} {unseen unseen' : Nat}
    (hbudget : budget.InRange) (h : first.MeteredTo budget unseen second between)
    (h' : second.MeteredTo between unseen' third left) :
    first.MeteredTo budget (unseen + unseen') third left := by
  obtain ⟨clocks, h⟩ := h
  obtain ⟨clocks', h'⟩ := h'
  refine ⟨clocks + clocks', ?_, ?_, Nat.le_trans h.reloads h'.reloads, fun hreloads => ?_⟩
  · rw [h'.total, h.total, count_add_add]
  · rw [h'.debit, h.debit, Budget.consume_consume hbudget]
  · have hfirst := h.timer (Nat.le_antisymm (hreloads ▸ h'.reloads) h.reloads)
    have hsecond := h'.timer (Nat.le_antisymm (hreloads ▸ h.reloads) h'.reloads)
    omega

/-! ## Advances -/

/-- A service reloads nothing. -/
theorem service_reloads (core : Core) : core.service.1.reloads = core.reloads :=
  congrArg Clockwork.reloads core.service_clockwork

/-- A reload counts once. -/
theorem reload_reloads (core : Core) : core.reload.reloads = core.reloads + 1 := by
  change (Event.timerReload core.ram.prd :: core.journal).countP Event.isReload = _
  rw [List.countP_cons_of_pos rfl]
  rfl

/-- Counted clocks take back no reload. -/
theorem counted_reloads (core : Core) (clocks : Nat) :
    core.reloads ≤ (core.counted clocks).reloads := by
  unfold counted
  split
  · exact Nat.le_refl core.reloads
  · rw [reload_reloads]
    exact Nat.le_succ _

/-- An advance comes to a reload exactly when there are more clocks than the timer counts. -/
theorem advanced_reloads (core : Core) (clocks : Nat) :
    core.reloads ≤ (core.advanced clocks).reloads ∧
      ((core.advanced clocks).reloads = core.reloads → clocks ≤ core.countdown) := by
  unfold advanced
  split
  · next hclocks => exact ⟨Nat.le_refl core.reloads, fun _ => hclocks⟩
  · have hcounted := core.reload.service.1.counted_reloads core.reload.service.2
    rw [service_reloads, reload_reloads] at hcounted
    exact ⟨Nat.le_of_succ_le hcounted, fun hsame => absurd hcounted (by omega)⟩

/-- Clocks that pass on the timer are all seen by it. -/
theorem meteredTo_advanceTimer (hphase : core.timerPhase < clk) (hbudget : budget.InRange)
    (clocks : Nat) :
    core.MeteredTo budget 0 (core.advanceTimer budget clocks).1 (core.advanceTimer budget clocks).2 := by
  obtain ⟨hreloads, hshort⟩ := core.advanced_reloads clocks
  rw [advanceTimer_eq_advanced hphase hbudget]
  refine ⟨core.advances clocks, core.advanced_totalCycles clocks, rfl, hreloads, fun hsame => ?_⟩
  have hclocks := hshort hsame
  obtain ⟨helapse, hall⟩ := advanced_of_le hclocks
  dsimp only
  rw [hall, helapse, countdown_elapse]
  omega

/-- Clocks passed in a wait are metered. -/
theorem meteredTo_passFor (waits : Core → Bool) (hphase : core.timerPhase < clk)
    (hbudget : budget.InRange) (count : Nat) :
    core.MeteredTo budget 0 (core.passFor waits budget count).1 (core.passFor waits budget count).2 := by
  induction count generalizing core budget with
  | zero => exact .refl core hbudget
  | succ count ih =>
    rw [passFor]
    split
    · exact .refl core hbudget
    · have hadvance := meteredTo_advanceTimer hphase hbudget (clocksLeft budget)
      exact hadvance.trans hbudget
        (ih (kept_timerPhase.advanceTimer budget _ hphase) hadvance.inRange)

/-- An idle wait is metered. -/
theorem meteredTo_wait (hphase : core.timerPhase < clk) (hbudget : budget.InRange) :
    core.MeteredTo budget 0 (core.wait budget).1 (core.wait budget).2 := by
  rw [wait, waitFor_eq_passFor]
  exact meteredTo_passFor _ hphase hbudget _

/-- A stall is metered. -/
theorem meteredTo_stallIf (hphase : core.timerPhase < clk) (hbudget : budget.InRange) :
    core.MeteredTo budget 0 (if core.isStalled then core.stall budget else (core, budget)).1
      (if core.isStalled then core.stall budget else (core, budget)).2 := by
  split
  · rw [stall, stallFor_eq_passFor]
    exact meteredTo_passFor _ hphase hbudget _
  · exact .refl core hbudget

/-! ## Between the steps -/

/-- Clocks after a step are all seen by the timer. -/
theorem meteredTo_settle (hphase : core.timerPhase < clk) (hbudget : budget.InRange) (clocks : Nat) :
    core.MeteredTo budget 0 (core.settle budget clocks).1 (core.settle budget clocks).2 := by
  have hadvance := meteredTo_advanceTimer hphase hbudget clocks
  have hadvanced := kept_timerPhase.advanceTimer budget clocks hphase
  have hwait := meteredTo_wait hadvanced hadvance.inRange
  have hwaited := kept_timerPhase.wait (core.advanceTimer budget clocks).2 hadvanced
  exact (hadvance.trans hbudget hwait).trans hbudget (meteredTo_stallIf hwaited hwait.inRange)

/-- A hold sampled at the start of a run lets clocks pass that the timer sees. -/
theorem meteredTo_sampleHold (hphase : core.timerPhase < clk) (hbudget : budget.InRange) :
    core.MeteredTo budget 0 (core.sampleHold budget).1 (core.sampleHold budget).2 := by
  unfold sampleHold
  split
  · have hheld : core.MeteredTo budget 0
        { (if core.hold then core else core.report (.holdAcknowledged core.regs.pc)) with
          hold := true } budget := by
      split <;> exact meteredTo_of_eq hbudget rfl rfl rfl rfl
    refine hheld.trans hbudget (meteredTo_stallIf ?_ hbudget)
    split <;> exact hphase
  · split
    · have hreleased : core.MeteredTo budget 0
          { core.report (.holdReleased core.regs.pc) with hold := false } budget :=
        meteredTo_of_eq hbudget rfl rfl rfl rfl
      refine hreleased.trans hbudget (meteredTo_advanceTimer ?_ hbudget 3)
      exact hphase
    · exact .refl core hbudget

/-- The clocks of a service that wakes an idle core at the start of a run. -/
def wakeClocks (core : Core) (budget : Budget) : Nat :=
  if core.idle && !budget.isExhausted then core.service.2 else 0

/-- The timer does not see the service that wakes a core. -/
theorem meteredTo_wake (core : Core) (hbudget : budget.InRange) :
    core.MeteredTo budget (core.wakeClocks budget) (core.wake budget).1 (core.wake budget).2 := by
  unfold wake wakeClocks
  split
  · have htotal : core.service.1.totalCycles = core.totalCycles :=
      congrArg Clockwork.totalCycles core.service_clockwork
    have hcount : core.service.1.countdown = core.countdown := by
      rw [countdown, countdown, service_timerPhase, service_tim]
    refine ⟨core.service.2, congrArg (· + BitVec.ofNat 64 core.service.2) htotal, rfl,
      Nat.le_of_eq core.service_reloads.symm, fun _ => ?_⟩
    change core.service.2 + core.service.1.countdown = _
    rw [hcount, Nat.add_comm]
  · exact .refl core hbudget

/-- The service clocks that the timer does not see when a run begins. -/
def unseenClocks (core : Core) (budget : Budget) : Nat :=
  (core.sampleHold budget).1.wakeClocks (core.sampleHold budget).2

/-- They are those of one service at most. -/
theorem unseenClocks_le (core : Core) (budget : Budget) : core.unseenClocks budget ≤ serviceClocks := by
  unfold unseenClocks wakeClocks
  split
  · exact service_clocks_le _
  · exact Nat.zero_le _

/-- Before the first step of a run the timer sees all clocks but those of a service. -/
theorem meteredTo_beginRun (hphase : core.timerPhase < clk) (hbudget : budget.InRange) :
    core.MeteredTo budget (core.unseenClocks budget) (core.beginRun budget).1
      (core.beginRun budget).2 := by
  have hsample := meteredTo_sampleHold hphase hbudget
  have hsampled := kept_timerPhase.sampleHold budget hphase
  have hwake := (core.sampleHold budget).1.meteredTo_wake hsample.inRange
  have hwoken := kept_timerPhase.wake (core.sampleHold budget).2 hsampled
  have hwait := meteredTo_wait hwoken hwake.inRange
  have hall := (hsample.trans hbudget hwake).trans hbudget hwait
  rw [Nat.zero_add, Nat.add_zero] at hall
  exact hall

end Core

/-! ## Runs -/

/-- A turn that leaves the timer register to the clocks is metered. -/
theorem Machine.meteredTo_turn {machine : Machine} {left : Budget}
    (hphase : machine.core.timerPhase < clk) (hleft : left.InRange)
    (hkeeps : ∀ e ∈ machine.executions, KeepsTim e) :
    machine.core.MeteredTo left 0 (machine.turn left).1.core (machine.turn left).2 := by
  have hclockwork := machine.step_clockwork
  have hstepped : machine.step.1.core.timerPhase = machine.core.timerPhase :=
    congrArg Clockwork.timerPhase hclockwork
  have hstep : machine.core.MeteredTo left 0 machine.step.1.core left :=
    Core.meteredTo_of_eq hleft (congrArg Clockwork.totalCycles hclockwork) hstepped
      (congrArg Clockwork.reloads hclockwork) (step_tim hkeeps)
  rw [turn_core, turn_budget]
  exact hstep.trans hleft (Core.meteredTo_settle (hstepped ▸ hphase) hleft _)

/-- So is a run up to any of its boundaries, but for the service that it may begin with. -/
theorem Boundary.meteredTo {machine other : Machine} {budget left : Budget}
    (h : Boundary KeepsTim machine budget other left) (hphase : machine.core.timerPhase < clk)
    (hbudget : budget.InRange) :
    machine.core.MeteredTo budget (machine.core.unseenClocks budget) other.core left := by
  induction h with
  | start =>
    rw [Machine.beginRun_core, Machine.beginRun_budget]
    exact Core.meteredTo_beginRun hphase hbudget
  | turn hbefore _ hkeeps ih =>
    have hreached := hbefore.invariant Core.kept_timerPhase (keptBySteps_timerPhase _) hphase
    have hturn := Machine.meteredTo_turn hreached ih.inRange hkeeps
    have hall := ih.trans hbudget hturn
    rw [Nat.add_zero] at hall
    exact hall

/-- In a run without a reload, and without a write to the timer register, the clocks debited are those
by which the total has grown, wherever it wraps, and all of them are seen by the timer but those of the
service that wakes an idle core before the first step. -/
theorem Machine.run_metered {machine other : Machine} {budget left : Budget}
    (hphase : machine.core.timerPhase < clk) (hbudget : budget.InRange)
    (hrun : machine.run budget = some (other, left))
    (hkeeps : ∀ reached rest, Boundary (fun _ => True) machine budget reached rest →
      rest.isExhausted = false → ∀ e ∈ reached.executions, KeepsTim e)
    (hreloads : other.core.reloads = machine.core.reloads) :
    let clocks : Nat := (other.core.totalCycles - machine.core.totalCycles).toNat
    let seen : Int := 4 * ((machine.core.ram.tim.toNat : Int) - other.core.ram.tim.toNat) +
      ((other.core.timerPhase : Int) - machine.core.timerPhase)
    left = budget.consume clocks ∧ clocks = seen + machine.core.unseenClocks budget := by
  obtain ⟨clocks, hmetered⟩ := ((boundary_of_run hrun).restrict hkeeps).meteredTo hphase hbudget
  have hother := (boundary_of_run hrun).invariant Core.kept_timerPhase (keptBySteps_timerPhase _) hphase
  have htimer := hmetered.timer hreloads
  -- Without a reload the clocks are far fewer than the total can tell apart.
  have hgrowth : (other.core.totalCycles - machine.core.totalCycles).toNat = clocks := by
    have hcount := machine.core.countdown_lt
    have hunseen := machine.core.unseenClocks_le budget
    simp only [serviceClocks, clk] at hcount hunseen
    rw [hmetered.total, count_growth _ (by omega)]
  dsimp only
  rw [hgrowth]
  refine ⟨hmetered.debit, ?_⟩
  simp only [Core.countdown, clk] at hphase hother htimer
  omega

/-- The clocks of one LACK are seen by the timer of a new core. -/
theorem run_metered_lack :
    let machine : Machine := ⟨.new .tms32025, Bus.empty.loadHalves .program 0 [0xCA01]⟩
    ∃ other left, machine.run ⟨4⟩ = some (other, left) ∧ left = Budget.consume ⟨4⟩ 4 ∧
      4 = 4 * (65535 - (other.core.ram.tim.toNat : Int)) + (other.core.timerPhase : Int) := by
  intro machine
  have hends : ∀ reached rest, Boundary (fun _ => True) machine ⟨4⟩ reached rest →
      rest.isExhausted = false → reached = machine ∧ rest = ⟨4⟩ := by
    intro reached rest h
    induction h with
    | start => exact fun _ => ⟨rfl, rfl⟩
    | turn _ hleft _ ih =>
      obtain ⟨rfl, rfl⟩ := ih hleft
      intro hturned
      exact absurd hturned (by decide +kernel)
  have hkeeps : ∀ reached rest, Boundary (fun _ => True) machine ⟨4⟩ reached rest →
      rest.isExhausted = false → ∀ e ∈ reached.executions, KeepsTim e := by
    intro reached rest h hleft
    obtain ⟨rfl, -⟩ := hends reached rest h hleft
    decide +kernel
  have hresult : (machine.run ⟨4⟩).map (fun result => (result.1.core.reloads,
      result.1.core.totalCycles)) = some (0, 4) := by decide +kernel
  obtain ⟨⟨other, left⟩, hrun, hends⟩ := Option.map_eq_some_iff.mp hresult
  obtain ⟨hreloads, htotal⟩ := Prod.mk.inj hends
  obtain ⟨hdebit, hseen⟩ := machine.run_metered (by decide) (by decide) hrun hkeeps hreloads
  have hdebit : left = Budget.consume ⟨4⟩ (other.core.totalCycles - 0).toNat := hdebit
  have hseen : ((other.core.totalCycles - 0).toNat : Int) =
      4 * (65535 - (other.core.ram.tim.toNat : Int)) + ((other.core.timerPhase : Int) - 0) + 0 := hseen
  have hclocks : (other.core.totalCycles - 0).toNat = 4 := by
    rw [htotal]
    rfl
  rw [hclocks] at hdebit hseen
  exact ⟨other, left, hrun, hdebit, by omega⟩

/-- A new core that has executed IDLE, with a request raised since. -/
def wokenCore : Machine :=
  (⟨.new .tms32025, Bus.empty.loadHalves .program 0 [0xCE1F]⟩ : Machine).step.1.mapCore
    fun core => (core.mapRam (·.setRegister .imr 2)).setInputLine 1 true

/-- The service that wakes an idle core is debited, and the timer does not see it. -/
theorem wake_unseen :
    ¬ ∀ machine other budget left, machine.core.timerPhase < clk → budget.InRange →
      Machine.run machine budget = some (other, left) →
      (∀ reached rest, Boundary (fun _ => True) machine budget reached rest →
        rest.isExhausted = false → ∀ e ∈ reached.executions, KeepsTim e) →
      other.core.reloads = machine.core.reloads →
      ((other.core.totalCycles - machine.core.totalCycles).toNat : Int) =
        4 * ((machine.core.ram.tim.toNat : Int) - other.core.ram.tim.toNat) +
          ((other.core.timerPhase : Int) - machine.core.timerPhase) := by
  intro hall
  have hends : ∀ reached rest, Boundary (fun _ => True) wokenCore ⟨12⟩ reached rest →
      rest.isExhausted = true := by
    intro reached rest h
    induction h with
    | start => decide +kernel
    | turn _ hleft _ ih => exact absurd (hleft.symm.trans ih) Bool.false_ne_true
  have hresult : (wokenCore.run ⟨12⟩).map (fun result => (result.1.core.reloads,
      result.1.core.totalCycles, result.1.core.ram.tim, result.1.core.timerPhase)) =
        some (0, 12, 0xFFFF, 0) := by decide +kernel
  obtain ⟨⟨other, left⟩, hrun, hvalues⟩ := Option.map_eq_some_iff.mp hresult
  simp only [Prod.mk.injEq] at hvalues
  obtain ⟨hreloads, htotal, htim, hphase⟩ := hvalues
  have hsame : other.core.reloads = wokenCore.core.reloads := by
    rw [hreloads]
    decide +kernel
  have hseen := hall wokenCore other ⟨12⟩ left (by decide +kernel) (by decide) hrun
    (fun reached rest h hleft => absurd (hleft.symm.trans (hends reached rest h)) Bool.false_ne_true)
    hsame
  rw [htotal, htim, hphase] at hseen
  exact absurd hseen (by decide +kernel)

end ProcessorCores.Tms

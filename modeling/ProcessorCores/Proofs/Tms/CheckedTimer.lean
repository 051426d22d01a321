import ProcessorCores.Proofs.Tms.Clocks

/-!
# The timer in checked arithmetic

The counts of the timer are unsigned, so none of its differences may fall below zero. The functions
here are those of the timer with each difference taken where it exists only; one that does not
exist leaves no result. From a timer phase below a machine cycle there always is one, and it is the
result of the plain function, whatever the budget and however many clocks pass.
-/

namespace ProcessorCores.Tms

/-- What is left of a count, if the part to be taken off is no more than the whole. -/
def minus? (whole part : Nat) : Option Nat := if part ≤ whole then some (whole - part) else none

/-- A checked subtraction of no more than there is succeeds. -/
theorem minus?_of_le {whole part : Nat} (h : part ≤ whole) :
    minus? whole part = some (whole - part) := if_pos h

/-- A checked subtraction gives what adds up again. -/
theorem minus?_of_add_eq {whole part left : Nat} (h : left + part = whole) :
    minus? whole part = some left := by
  rw [minus?_of_le (h ▸ Nat.le_add_left part left), ← h, Nat.add_sub_cancel]

namespace Core

/-- Count clocks up to the next reload, as far as the differences exist. -/
def countClocks? (core : Core) (budget : Budget) (clocks : Nat) :
    Option (Core × Budget × Bool) := do
  let toTick ← minus? clk core.timerPhase
  if clocks < toTick then
    let (core, budget) := core.spend budget clocks
    some ({ core with timerPhase := core.timerPhase + clocks }, budget, false)
  else
    let past ← minus? clocks toTick
    let ticks := 1 + past / clk
    let tim := core.ram.tim.toNat
    if ticks ≤ tim then
      let whole ← minus? ticks 1
      let rest ← minus? clocks (whole * clk)
      let phase ← minus? rest toTick
      let left ← minus? tim ticks
      let (core, budget) := core.spend budget clocks
      let core := core.mapRam fun ram => { ram with tim := BitVec.ofNat 16 left }
      some ({ core with timerPhase := phase }, budget, false)
    else
      let (core, budget) := core.spend budget (toTick + clk * tim)
      let core := core.mapRam fun ram => { ram with tim := ram.prd }
      let core := { core.mapRegs (·.request Source.tint.bit) with timerPhase := 0 }
      some (core.report (.timerReload core.ram.prd), budget, true)

/-- Let clocks pass on the timer, as far as the differences exist. -/
def advanceTimer? (core : Core) (budget : Budget) (clocks : Nat) : Option (Core × Budget) := do
  let (core, budget, reloaded) ← core.countClocks? budget clocks
  if reloaded then
    let (core, served) := core.service
    let (core, budget, _) ← core.countClocks? budget served
    some (core, budget)
  else some (core, budget)

/-- Let the budget pass while the core waits, in at most so many advances of the timer and as far as
the differences exist. -/
def passFor? (waits : Core → Bool) (core : Core) (budget : Budget) : Nat → Option (Core × Budget)
  | 0 => some (core, budget)
  | count + 1 =>
    if !waits core || budget.isExhausted then some (core, budget)
    else do
      let (core, budget) ← core.advanceTimer? budget (clocksLeft budget)
      passFor? waits core budget count

/-- Let the rest of the budget pass, as far as the differences exist. -/
def stall? (core : Core) (budget : Budget) : Option (Core × Budget) :=
  passFor? (fun _ => true) core budget budget.remaining.toNat

/-- Let the budget pass until a request wakes the core, as far as the differences exist. -/
def wait? (core : Core) (budget : Budget) : Option (Core × Budget) :=
  passFor? (·.idle) core budget budget.remaining.toNat

/-- Sample the hold input at the start of a run, as far as the differences exist. -/
def sampleHold? (core : Core) (budget : Budget) : Option (Core × Budget) :=
  if core.holdLine then
    let core := if core.hold then core else core.report (.holdAcknowledged core.regs.pc)
    let core := { core with hold := true }
    if core.isStalled then core.stall? budget else some (core, budget)
  else if core.hold then
    { core.report (.holdReleased core.regs.pc) with hold := false }.advanceTimer? budget 3
  else some (core, budget)

/-- What happens before the first step of a run, as far as the differences exist. -/
def beginRun? (core : Core) (budget : Budget) : Option (Core × Budget) := do
  let (core, budget) ← core.sampleHold? budget
  let (core, budget) := core.wake budget
  core.wait? budget

/-- What happens after a step of so many clocks, as far as the differences exist. -/
def settle? (core : Core) (budget : Budget) (clocks : Nat) : Option (Core × Budget) := do
  let (core, budget) ← core.advanceTimer? budget clocks
  let (core, budget) ← core.wait? budget
  if core.isStalled then core.stall? budget else some (core, budget)

variable {core : Core} (budget : Budget)

/-- Every difference of a count exists. -/
theorem countClocks?_eq (hphase : core.timerPhase < clk) (clocks : Nat) :
    core.countClocks? budget clocks = some (core.countClocks budget clocks) := by
  have htoTick : minus? clk core.timerPhase = some (clk - core.timerPhase) :=
    minus?_of_le (Nat.le_of_lt hphase)
  unfold countClocks? countClocks
  simp only [htoTick, Option.bind_eq_bind, Option.bind_some]
  split
  · rfl
  · next hlong =>
    rw [Nat.not_lt] at hlong
    rw [minus?_of_le hlong, Option.bind_some]
    generalize hpast : clocks - (clk - core.timerPhase) = past
    split
    · next hticks =>
      -- The clocks past the first tick are whole ticks and a remainder, which is the new phase.
      have hsplit := Nat.div_add_mod' past clk
      have hwhole : minus? (1 + past / clk) 1 = some (past / clk) :=
        minus?_of_add_eq (Nat.add_comm ..)
      have hrest : minus? clocks (past / clk * clk) =
          some (past % clk + (clk - core.timerPhase)) :=
        minus?_of_add_eq (by omega)
      have hphase' : minus? (past % clk + (clk - core.timerPhase)) (clk - core.timerPhase) =
          some (past % clk) :=
        minus?_of_add_eq rfl
      have hleft := minus?_of_le hticks
      rw [hwhole, Option.bind_some, hrest, Option.bind_some, hphase', Option.bind_some, hleft,
        Option.bind_some]
    · rfl

/-- Every difference of an advance exists. -/
theorem advanceTimer?_eq (hphase : core.timerPhase < clk) (clocks : Nat) :
    core.advanceTimer? budget clocks = some (core.advanceTimer budget clocks) := by
  have hcounted : (core.countClocks budget clocks).1.timerPhase < clk :=
    countClocks_timerPhase hphase
  unfold advanceTimer? advanceTimer
  rw [countClocks?_eq budget hphase]
  rcases hcount : core.countClocks budget clocks with ⟨counted, left, reloaded⟩
  rw [hcount] at hcounted
  cases reloaded with
  | false => rfl
  | true =>
    have hserved : counted.service.1.timerPhase < clk := kept_timerPhase.service _ hcounted
    change (counted.service.1.countClocks? left counted.service.2 >>= _) = _
    rw [countClocks?_eq left hserved]
    rfl

/-- With checked arithmetic a wait passes the same clocks. -/
theorem passFor?_eq (waits : Core → Bool) (hphase : core.timerPhase < clk) (count : Nat) :
    passFor? waits core budget count = some (core.passFor waits budget count) := by
  induction count generalizing core budget with
  | zero => rfl
  | succ count ih =>
    rw [passFor?, passFor]
    split
    · rfl
    · rw [advanceTimer?_eq budget hphase]
      exact ih _ (kept_timerPhase.advanceTimer budget _ hphase)

/-- With checked arithmetic a stall is the same. -/
theorem stall?_eq (hphase : core.timerPhase < clk) :
    core.stall? budget = some (core.stall budget) := by
  rw [stall, stallFor_eq_passFor]
  exact passFor?_eq budget _ hphase _

/-- With checked arithmetic an idle wait is the same. -/
theorem wait?_eq (hphase : core.timerPhase < clk) :
    core.wait? budget = some (core.wait budget) := by
  rw [wait, waitFor_eq_passFor]
  exact passFor?_eq budget _ hphase _

/-- A core that is stalled lets the budget pass. -/
theorem stallIf?_eq (hphase : core.timerPhase < clk) :
    (if core.isStalled then core.stall? budget else some (core, budget)) =
      some (if core.isStalled then core.stall budget else (core, budget)) := by
  split
  · exact stall?_eq budget hphase
  · rfl

/-- With checked arithmetic the sample of the hold pin is the same. -/
theorem sampleHold?_eq (hphase : core.timerPhase < clk) :
    core.sampleHold? budget = some (core.sampleHold budget) := by
  unfold sampleHold? sampleHold
  split
  · have hnoted : (if core.hold then core
        else core.report (.holdAcknowledged core.regs.pc)).timerPhase < clk := by
      split
      · exact hphase
      · exact hphase
    exact stallIf?_eq budget hnoted
  · split
    · have hreleased : ({ core.report (.holdReleased core.regs.pc) with hold := false } :
          Core).timerPhase < clk := hphase
      exact advanceTimer?_eq budget hreleased 3
    · rfl

/-- Every difference taken before the first step of a run exists. -/
theorem beginRun?_eq (hphase : core.timerPhase < clk) :
    core.beginRun? budget = some (core.beginRun budget) := by
  have hsampled := kept_timerPhase.sampleHold budget hphase
  have hwoken := kept_timerPhase.wake (core.sampleHold budget).2 hsampled
  unfold beginRun?
  rw [sampleHold?_eq budget hphase]
  exact wait?_eq _ hwoken

/-- Every difference taken after a step of a run exists. -/
theorem settle?_eq (hphase : core.timerPhase < clk) (clocks : Nat) :
    core.settle? budget clocks = some (core.settle budget clocks) := by
  have hadvanced := kept_timerPhase.advanceTimer budget clocks hphase
  have hwaited := kept_timerPhase.wait (core.advanceTimer budget clocks).2 hadvanced
  unfold settle?
  rw [advanceTimer?_eq budget hphase]
  change ((core.advanceTimer budget clocks).1.wait? (core.advanceTimer budget clocks).2 >>= _) = _
  rw [wait?_eq _ hadvanced]
  exact stallIf?_eq _ hwaited

end Core

end ProcessorCores.Tms

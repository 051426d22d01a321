import ProcessorCores.Proofs.Tms.Metering
import ProcessorCores.Proofs.Tms.Termination

/-!
# Runs in slices

What a run does depends on the clocks left in its budget only where an idle core waits, and there it
makes no difference how the clocks are portioned. So a run that is cut where its budget ends and
taken up with what is left and more clocks is the longer run from the start, unless the cut adds a
moment at which an idle core looks for a request that it would not have looked for.
-/

namespace ProcessorCores.Tms

/-! ## The clocks of a step -/

/-- No instruction takes more than so many machine cycles without its further costs. -/
theorem cycles_le (word : Half) : (decode word).cycles ≤ 4 :=
  decode_of_tables (P := fun entry => entry.cycles ≤ 4) (by decide +kernel) (by decide +kernel)
    (by decide +kernel) word

namespace Machine

/-- The further cost of an instruction. -/
theorem execute_clocks_le (machine : Machine) (op : Op) : (machine.execute op).2 ≤ 2 * clk := by
  cases op with
  | move op =>
    cases op with
    | tblr =>
      change (if _ then 0 else clk) ≤ 2 * clk
      split <;> decide
    | tblw =>
      change (if _ then 2 * clk else clk) ≤ 2 * clk
      split <;> decide
    | mac | macd | blkp => exact Nat.le_refl (2 * clk)
    | blkd =>
      change clk ≤ 2 * clk
      decide
    | dmov | ltd | input | output => exact Nat.zero_le _
  | _ => exact Nat.zero_le _

/-- A bound on the clocks of the passes of a block. -/
theorem passes_clocks_le (machine : Machine) (op : Op) (clocks count : Nat) :
    (machine.passes op clocks count).2 ≤ clocks + count * (3 * clk) := by
  induction count generalizing machine clocks with
  | zero => exact Nat.le_add_right _ _
  | succ count ih =>
    have hpass : (machine.pass op).2 ≤ 3 * clk := by
      have hextra := machine.execute_clocks_le op
      change clk + (machine.execute op).2 ≤ 3 * clk
      omega
    have hrest := ih (machine.pass op).1 (clocks + (machine.pass op).2)
    rw [passes, Nat.succ_mul]
    dsimp only
    split <;> omega

/-- A bound on the clocks of a repeat block. -/
theorem repeatBlock_clocks_le (machine : Machine) :
    machine.repeatBlock.2 ≤ clk + passLimit * (3 * clk) := by
  unfold repeatBlock
  exact machine.enterBlock.passes_clocks_le _ clk passLimit

/-- A bound on the clocks of the block that follows an instruction. -/
theorem blockClocks_le (machine : Machine) : machine.blockClocks ≤ clk + passLimit * (3 * clk) := by
  unfold blockClocks
  split
  · exact Nat.zero_le _
  · exact machine.repeatBlock_clocks_le

/-- More clocks than a step takes, far fewer than a budget can hold. -/
theorem step_clocks_lt (machine : Machine) : machine.step.2 < 1000000 := by
  have hserved := machine.core.service_clocks_le
  have hcycles := cycles_le machine.ready.core.opcode
  have hextra := machine.ready.execute_clocks_le machine.ready.op
  have hblock := (machine.ready.execute machine.ready.op).1.blockClocks_le
  rw [step_clocks]
  simp only [serviceClocks, clk, passLimit] at hserved hextra hblock ⊢
  omega

end Machine

namespace Core

variable {core : Core} {budget : Budget} {clocks more : Nat}

/-- Some source is both requested and enabled. -/
def HasRequest (core : Core) : Prop :=
  ∃ source ∈ Source.all, meets (core.regs.ifr &&& core.ram.imr) source.bit = true

/-- A request is not served when there is none, or service is masked. -/
theorem unserved_of_not (h : ¬ (core.regs.has .intm = false ∧ core.HasRequest)) : core.Unserved := by
  cases hmask : core.regs.has .intm with
  | true => exact .inl hmask
  | false =>
    right
    intro source hsource
    rw [Bool.eq_false_iff]
    exact fun hpending => h ⟨hmask, source, hsource, hpending⟩

/-! ## Cores without a hold -/

/-- A core with the hold input released and no hold acknowledged. -/
structure Unheld (core : Core) : Prop where
  line : core.holdLine = false
  acknowledge : core.hold = false

/-- A core without a hold is not stalled. -/
theorem Unheld.isStalled (h : core.Unheld) : core.isStalled = false := by
  rw [Core.isStalled, h.acknowledge, Bool.false_and]

/-- Clocks do not bring about a hold. -/
theorem keptByClocks_unheld : KeptByClocks Unheld where
  service core h := core.holds_service fun _ _ _ _ _ _ _ _ => ⟨h.line, h.acknowledge⟩
  countClocks core budget clocks h :=
    core.holds_countClocks budget clocks fun _ _ _ _ _ => ⟨h.line, h.acknowledge⟩

/-- Nor does a step. -/
theorem Unheld.step {machine : Machine} (h : machine.core.Unheld) : machine.step.1.core.Unheld where
  line := (congrArg Clockwork.holdLine machine.step_clockwork).trans h.line
  acknowledge := (congrArg Clockwork.hold machine.step_clockwork).trans h.acknowledge

/-- Without a hold the start of a run serves and waits. -/
theorem Unheld.beginRun_eq (h : core.Unheld) (budget : Budget) :
    core.beginRun budget = (core.wake budget).1.wait (core.wake budget).2 := by
  have hsampled : core.sampleHold budget = (core, budget) := by
    rw [sampleHold, h.line, h.acknowledge]
    rfl
  unfold Core.beginRun
  rw [hsampled]

/-- Waking brings no hold. -/
theorem Unheld.wake (h : core.Unheld) (budget : Budget) : (core.wake budget).1.Unheld := by
  unfold Core.wake
  split
  · have hserved := keptByClocks_unheld.service core h
    exact ⟨hserved.line, hserved.acknowledge⟩
  · exact h

/-- The start of a run brings no hold. -/
theorem Unheld.beginRun (h : core.Unheld) (budget : Budget) : (core.beginRun budget).1.Unheld := by
  rw [h.beginRun_eq]
  exact keptByClocks_unheld.wait _ (h.wake budget)

/-- Without a hold a core advances and waits after a step. -/
theorem Unheld.settle_eq (h : core.Unheld) (hphase : core.timerPhase < clk)
    (hbudget : budget.InRange) (clocks : Nat) :
    core.settle budget clocks =
      (core.advanced clocks).wait (budget.consume (core.advances clocks)) := by
  have hadvanced := keptByClocks_unheld.advanced hphase clocks h
  have hwaited := keptByClocks_unheld.wait (budget.consume (core.advances clocks)) hadvanced
  unfold settle
  rw [advanceTimer_eq_advanced hphase hbudget]
  dsimp only
  rw [if_neg (Bool.eq_false_iff.mp hwaited.isStalled)]

/-! ## More clocks -/

/-- More clocks exhaust no budget. -/
theorem isExhausted_extend (hleft : budget.isExhausted = false) (more : Nat) :
    (budget.extend more).isExhausted = false := by
  rw [Budget.isExhausted_eq_false_iff] at hleft ⊢
  simp only [Budget.extend]
  omega

/-- The debits of a turn are as good before more clocks are added as after. -/
theorem consume_extend_of_lt {debit : Nat} (hleft : budget.isExhausted = false)
    (hmore : budget.remaining + more ≤ Budget.greatest) (hdebit : debit ≤ 1000000 + serviceClocks) :
    (budget.consume debit).extend more = (budget.extend more).consume debit := by
  rw [Budget.isExhausted_eq_false_iff] at hleft
  refine Budget.consume_extend ?_ hmore
  simp only [serviceClocks, clk] at hdebit
  simp only [Budget.least]
  omega

/-- Waking takes the same clocks from a larger budget. -/
theorem wake_extend (core : Core) (hleft : budget.isExhausted = false)
    (hmore : budget.remaining + more ≤ Budget.greatest) :
    core.wake (budget.extend more) = ((core.wake budget).1, (core.wake budget).2.extend more) := by
  unfold wake
  rw [hleft, isExhausted_extend hleft more]
  split
  · have hserved := core.service_clocks_le
    unfold spend
    dsimp only
    rw [consume_extend_of_lt hleft hmore (by omega)]
  · rfl

/-- With more clocks a core that begins a run does the same and, if it is idle, waits on. -/
theorem Unheld.beginRun_extend (h : core.Unheld) (hphase : core.timerPhase < clk)
    (hrange : budget.InRange) (hleft : budget.isExhausted = false)
    (hmore : budget.remaining + more ≤ Budget.greatest) :
    core.beginRun (budget.extend more) =
      (core.beginRun budget).1.wait ((core.beginRun budget).2.extend more) := by
  have hwake := core.meteredTo_wake hrange
  have hwoken := kept_timerPhase.wake budget hphase
  have hless : (core.wake budget).2.remaining + more ≤ Budget.greatest := by
    have hconsume := hwake.remaining_le hrange
    omega
  rw [h.beginRun_eq, h.beginRun_eq, wake_extend core hleft hmore]
  exact wait_extend hwoken hwake.inRange hless

/-- With more clocks a core does the same after a step and, if it is idle, waits on. -/
theorem Unheld.settle_extend (h : core.Unheld) (hphase : core.timerPhase < clk)
    (hrange : budget.InRange) (hleft : budget.isExhausted = false)
    (hmore : budget.remaining + more ≤ Budget.greatest) (hclocks : clocks < 1000000) :
    core.settle (budget.extend more) clocks =
      (core.settle budget clocks).1.wait ((core.settle budget clocks).2.extend more) := by
  have hadvances := core.advances_le clocks
  have hless := Budget.consume_le hrange (core.advances clocks)
  rw [h.settle_eq hphase (hrange.extend hmore), h.settle_eq hphase hrange,
    ← consume_extend_of_lt hleft hmore (by omega)]
  exact wait_extend (core.advanced_timerPhase clocks) (budget.inRange_consume _) (by omega)

end Core

namespace Machine

variable {machine other : Machine} {budget left : Budget} {more : Nat}

/-- Let the core of a machine wait. -/
def wait (machine : Machine) (budget : Budget) : Machine × Budget :=
  ({ machine with core := (machine.core.wait budget).1 }, (machine.core.wait budget).2)

/-- A core that is awake does not wait. -/
theorem wait_of_awake (hidle : machine.core.idle = false) : machine.wait budget = (machine, budget) := by
  rw [wait, Core.wait_of_awake hidle]

/-- A machine between the turns of a run to which more clocks can be added. -/
structure Extends (machine : Machine) (budget : Budget) (more : Nat) : Prop where
  unheld : machine.core.Unheld
  timerPhase : machine.core.timerPhase < clk
  runs : machine.core.Runs budget
  range : budget.InRange
  room : budget.remaining + more ≤ Budget.greatest

/-- Between turns, while the budget lasts, the core is awake. -/
theorem Extends.awake (h : machine.Extends left more) (hleft : left.isExhausted = false) :
    machine.core.idle = false := by
  rcases h.runs with hexhausted | ⟨hawake, -⟩
  · exact absurd (hleft.symm.trans hexhausted) Bool.false_ne_true
  · exact hawake

/-- With more clocks the turn is the same and, if it leaves the core idle, the core waits on. -/
theorem Extends.turn_eq (h : machine.Extends left more) (hleft : left.isExhausted = false) :
    machine.turn (left.extend more) = (machine.turn left).1.wait ((machine.turn left).2.extend more) := by
  have hsettled := h.unheld.step.settle_extend (steady_of_step h.timerPhase).timerPhase h.range hleft
    h.room machine.step_clocks_lt
  unfold turn
  dsimp only
  rw [hsettled]
  rfl

/-- A turn leaves room for as many clocks as before. -/
theorem Extends.turn (h : machine.Extends left more) :
    (machine.turn left).1.Extends (machine.turn left).2 more := by
  have hstepped := (steady_of_step h.timerPhase).timerPhase
  have hmetered := Core.meteredTo_settle hstepped h.range machine.step.2
  have hless := hmetered.remaining_le h.range
  rw [← turn_budget] at hless
  refine ⟨?_, (steady_of_turn h.timerPhase left).timerPhase, runs_of_turn h.timerPhase left, ?_,
    Int.le_trans (Int.add_le_add_right hless _) h.room⟩
  · rw [turn_core, h.unheld.step.settle_eq hstepped h.range]
    exact Core.keptByClocks_unheld.wait _
      (Core.keptByClocks_unheld.advanced hstepped _ h.unheld.step)
  · rw [turn_budget]
    exact hmetered.inRange

/-- Turns leave room for as many clocks as before. -/
theorem Extends.turns (h : machine.Extends left more) (count : Nat) :
    (machine.turns left count).1.Extends (machine.turns left count).2 more := by
  induction count generalizing machine left with
  | zero => exact h
  | succ count ih =>
    rw [Machine.turns]
    split
    · exact h
    · exact ih h.turn

/-- As long as the shorter run has clocks left, the longer run is in the same place with more. -/
theorem Extends.turns_eq (h : machine.Extends left more) (count : Nat)
    (hbefore : ∀ earlier < count, (machine.turns left earlier).2.isExhausted = false) :
    (machine.wait (left.extend more)).1.turns (machine.wait (left.extend more)).2 count =
      (machine.turns left count).1.wait ((machine.turns left count).2.extend more) := by
  induction count generalizing machine left with
  | zero => rfl
  | succ count ih =>
    have hleft : left.isExhausted = false := hbefore 0 (Nat.zero_lt_succ _)
    rw [wait_of_awake (h.awake hleft), turns_succ _ (Core.isExhausted_extend hleft more),
      turns_succ _ hleft, h.turn_eq hleft]
    refine ih h.turn fun earlier hearlier => ?_
    rw [← turns_succ _ hleft]
    exact hbefore (earlier + 1) (Nat.succ_lt_succ hearlier)

/-- A run that comes to where another begins has the same result. -/
theorem run_eq_of_turns {budget' : Budget} (hphase : machine.core.timerPhase < clk)
    (hother : other.core.timerPhase < clk) {count : Nat}
    (hturns : (machine.beginRun budget).1.turns (machine.beginRun budget).2 count =
      other.beginRun budget') :
    other.run budget' = machine.run budget := by
  apply Option.ext
  intro result
  rw [run_eq_some_iff hother, run_eq_some_iff hphase, ← hturns]
  constructor
  · rintro ⟨rest, hrest, hexhausted⟩
    rw [← turns_add] at hrest
    exact ⟨_, hrest, hexhausted⟩
  · rintro ⟨all, rfl, hexhausted⟩
    refine ⟨all, ?_, hexhausted⟩
    rw [← turns_add]
    exact turns_of_turns_exhausted hexhausted (Nat.le_add_left all count)

/-- The machine that a run begins with can be given more clocks. -/
theorem extends_beginRun (h : machine.core.Unheld) (hphase : machine.core.timerPhase < clk)
    (hrange : budget.InRange) (hmore : budget.remaining + more ≤ Budget.greatest) :
    (machine.beginRun budget).1.Extends (machine.beginRun budget).2 more := by
  have hmetered := Core.meteredTo_beginRun hphase hrange
  have hless := hmetered.remaining_le hrange
  exact ⟨h.beginRun budget, Core.kept_timerPhase.beginRun budget hphase, Core.runs_beginRun hphase,
    hmetered.inRange, Int.le_trans (Int.add_le_add_right hless _) hmore⟩

/-- With more clocks a run begins as with fewer and, if the core is idle, waits on. -/
theorem beginRun_extend (h : machine.core.Unheld) (hphase : machine.core.timerPhase < clk)
    (hrange : budget.InRange) (hleft : budget.isExhausted = false)
    (hmore : budget.remaining + more ≤ Budget.greatest) :
    machine.beginRun (budget.extend more) =
      (machine.beginRun budget).1.wait ((machine.beginRun budget).2.extend more) := by
  have hbegun := h.beginRun_extend hphase hrange hleft hmore
  unfold beginRun
  dsimp only
  rw [hbegun]
  rfl

/-- A run that wakes no idle core waits first. -/
theorem beginRun_of_unserved (h : other.core.Unheld) (hrange : budget.InRange)
    (hserved : other.core.idle = true → budget.isExhausted = false → other.core.service.2 = 0) :
    other.beginRun budget = other.wait budget := by
  have hwake : other.core.wake budget = (other.core, budget) := by
    unfold Core.wake
    split
    · next hidle =>
      rw [Bool.and_eq_true, Bool.not_eq_true'] at hidle
      rw [(Core.service_of_free (hserved hidle.1 hidle.2)).2]
      unfold Core.spend
      dsimp only
      rw [Int.ofNat_zero, Budget.consume_zero hrange, BitVec.add_zero]
    · rfl
  unfold beginRun wait
  rw [h.beginRun_eq, hwake]

/-- A run without a budget is over when it begins. -/
theorem run_of_exhausted (h : machine.core.Unheld) (hrange : budget.InRange)
    (hphase : machine.core.timerPhase < clk) (hbudget : budget.isExhausted = true) :
    machine.run budget = some (machine, budget) := by
  have hbegin : machine.beginRun budget = (machine, budget) := by
    rw [beginRun_of_unserved h hrange fun _ hleft =>
      absurd (hleft.symm.trans hbudget) Bool.false_ne_true, wait, Core.wait,
      Core.waitFor_of_exhausted (Nat.le_of_eq (budget.isExhausted_iff_toNat.mp hbudget))]
  rw [run_eq_some_iff hphase, hbegin]
  exact ⟨0, rfl, hbudget⟩

/-- A run that returned is taken up with more clocks where it ended. -/
theorem run_taken_up (h : machine.core.Unheld) (hphase : machine.core.timerPhase < clk)
    (hrange : budget.InRange) (hleft : budget.isExhausted = false)
    (hmore : budget.remaining + more ≤ Budget.greatest) (hrun : machine.run budget = some (other, left))
    (hserved : other.core.idle = true → other.core.service.2 = 0) :
    other.run (left.extend more) = machine.run (budget.extend more) := by
  have hextends := extends_beginRun h hphase hrange hmore
  have hlonger := beginRun_extend h hphase hrange hleft hmore
  obtain ⟨⟨count, hcount⟩, -⟩ := turns_of_run hrun
  obtain ⟨shortest, hbefore, hshortest⟩ := turns_first (machine.beginRun budget).1
    (machine.beginRun budget).2 count
  have hother := hextends.turns shortest
  have hturns := hextends.turns_eq shortest hbefore
  rw [hshortest, hcount] at hother hturns
  rw [← hlonger] at hturns
  have hbegin := beginRun_of_unserved hother.unheld
    (hother.range.extend hother.room) fun hidle _ => hserved hidle
  exact run_eq_of_turns hphase hother.timerPhase (hturns.trans hbegin.symm)

/-- A run that does not return does not with more clocks either. -/
theorem run_extend_of_none (h : machine.core.Unheld) (hphase : machine.core.timerPhase < clk)
    (hrange : budget.InRange) (hleft : budget.isExhausted = false)
    (hmore : budget.remaining + more ≤ Budget.greatest) (hnone : machine.run budget = none) :
    machine.run (budget.extend more) = none := by
  have hextends := extends_beginRun h hphase hrange hmore
  have hlonger := beginRun_extend h hphase hrange hleft hmore
  have hnever (count : Nat) : ((machine.beginRun budget).1.turns (machine.beginRun budget).2
      count).2.isExhausted = false := by
    rw [Bool.eq_false_iff]
    intro hexhausted
    rw [(run_eq_some_iff hphase).mpr ⟨count, rfl, hexhausted⟩] at hnone
    exact Option.some_ne_none _ hnone
  rw [Option.eq_none_iff_forall_ne_some]
  rintro ⟨other, left⟩ hrun
  obtain ⟨⟨count, hcount⟩, hexhausted⟩ := turns_of_run hrun
  have hturns := hextends.turns_eq count fun earlier _ => hnever earlier
  have hawake := (hextends.turns count).awake (hnever count)
  rw [← hlonger, wait_of_awake hawake] at hturns
  obtain ⟨-, rfl⟩ := Prod.mk.inj (hcount.symm.trans hturns)
  exact Bool.false_ne_true ((Core.isExhausted_extend (hnever count) more).symm.trans hexhausted)

/-- A run may be cut where its budget ends and taken up again with what is left and more clocks,
unless it ends with the core idle and a request that is to be served. -/
theorem run_sliced {first second : Nat} (hphase : machine.core.timerPhase < clk)
    (hline : machine.core.holdLine = false) (hhold : machine.core.hold = false)
    (hsum : (first + second : Int) ≤ Budget.greatest) :
    (∀ other left, machine.run ⟨first⟩ = some (other, left) →
      ¬ (other.core.idle = true ∧ other.core.regs.has .intm = false ∧ other.core.HasRequest) →
      other.run ⟨left.remaining + second⟩ = machine.run ⟨first + second⟩) ∧
    (machine.run ⟨first⟩ = none → machine.run ⟨first + second⟩ = none) := by
  have hunheld : machine.core.Unheld := ⟨hline, hhold⟩
  have hrange : (⟨first⟩ : Budget).InRange := by
    simp only [Budget.InRange, Budget.least]
    omega
  cases hleft : (⟨first⟩ : Budget).isExhausted with
  | true =>
    rw [run_of_exhausted hunheld hrange hphase hleft]
    refine ⟨fun other left hrun _ => ?_, fun hnone => absurd hnone (Option.some_ne_none _)⟩
    obtain ⟨rfl, rfl⟩ := Prod.mk.inj (Option.some.inj hrun)
    rfl
  | false =>
    refine ⟨fun other left hrun hasleep => ?_, run_extend_of_none hunheld hphase hrange hleft hsum⟩
    refine run_taken_up hunheld hphase hrange hleft hsum hrun fun hidle => ?_
    exact (Core.unserved_of_not fun hpending => hasleep ⟨hidle, hpending⟩).service

/-- A run that IDLE overdraws is taken up by a core that waits. -/
theorem run_sliced_idle :
    let machine : Machine := ⟨.new .tms32025, Bus.empty.loadHalves .program 0 [0xCA01, 0xCE1F]⟩
    ∃ other left, machine.run ⟨5⟩ = some (other, left) ∧ other.core.idle = true ∧
      left.remaining = -11 ∧ other.run ⟨9⟩ = machine.run ⟨25⟩ ∧ (machine.run ⟨25⟩).isSome = true := by
  intro machine
  have hresult : (machine.run ⟨5⟩).map (fun result => (result.1.core.idle, result.1.core.regs.ifr,
      result.2.remaining)) = some (true, 0, -11) := by decide +kernel
  have hnone (enabled : Half) (source : Source) : meets ((0 : Half) &&& enabled) source.bit = false := by
    cases source <;> simp [meets]
  obtain ⟨⟨other, left⟩, hrun, hends⟩ := Option.map_eq_some_iff.mp hresult
  simp only [Prod.mk.injEq] at hends
  obtain ⟨hidle, hifr, hleft⟩ := hends
  have hunserved : ¬ (other.core.idle = true ∧ other.core.regs.has .intm = false ∧
      other.core.HasRequest) := by
    rintro ⟨-, -, source, -, hpending⟩
    rw [hifr, hnone] at hpending
    contradiction
  have hsum : ((5 : Nat) + (20 : Nat) : Int) ≤ Budget.greatest := by decide
  have hsliced := (machine.run_sliced (by decide) rfl rfl hsum).1 other left hrun hunserved
  rw [hleft] at hsliced
  exact ⟨other, left, hrun, hidle, hleft, hsliced, by decide +kernel⟩

end Machine

end ProcessorCores.Tms

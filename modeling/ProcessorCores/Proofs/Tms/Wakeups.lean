import ProcessorCores.Proofs.Tms.Polls
import ProcessorCores.Proofs.Tms.Slices

/-!
# Wake-ups of an idle core

IDLE unmasks requests and stops the core until one of them is served. Within a run, though, an idle
core looks for a request only where the timer reloads. A request that is there already when IDLE is
executed wakes the core in the same run exactly when the timer reloads before the budget ends.
Otherwise the rest of the budget passes, and the request waits for the next run.
-/

namespace ProcessorCores.Tms

namespace Core

/-- A core that IDLE has stopped, with a request to be served. -/
structure Dozes (core : Core) : Prop where
  idle : core.idle = true
  unmasked : core.regs.has .intm = false
  afterEint : core.opcode ≠ eintWord
  request : core.HasRequest

variable {core : Core} {budget : Budget} {clocks : Nat}

/-- The count of the passes and the end of a block leave a core dozing. -/
theorem Dozes.countPass (h : core.Dozes) : core.countPass.Dozes :=
  ⟨h.idle, h.unmasked, h.afterEint, h.request⟩

/-- A core that dozes still does at the end of its block. -/
theorem Dozes.endBlock (h : core.Dozes) : core.endBlock.Dozes :=
  ⟨h.idle, h.unmasked, h.afterEint, h.request⟩

/-! ## Services of a core that dozes -/

/-- Requests that are added hide none. -/
theorem meets_request (requests enabled : Half) (source other : Source)
    (h : meets (requests &&& enabled) other.bit = true) :
    meets ((requests ||| source.bit) &&& enabled) other.bit = true := by
  rw [Source.meets_bit, BitVec.getLsbD_and, Bool.and_eq_true] at h ⊢
  rw [BitVec.getLsbD_or, h.1, Bool.true_or]
  exact ⟨rfl, h.2⟩

/-- A reload leaves the request, and adds one at most. -/
theorem Dozes.reload (h : core.Dozes) : core.reload.Dozes where
  idle := h.idle
  unmasked := h.unmasked
  afterEint := h.afterEint
  request := by
    obtain ⟨source, hsource, hpending⟩ := h.request
    exact ⟨source, hsource, meets_request _ _ .tint source hpending⟩

/-- The request is served as soon as the core looks for one. -/
theorem Dozes.pendingSource? (h : core.Dozes) : ∃ source, core.pendingSource? = some source := by
  rw [← Option.isSome_iff_exists, Core.pendingSource?, if_neg, List.find?_isSome]
  · exact h.request
  · rw [h.unmasked]
    exact fun hheld => hheld.elim Bool.false_ne_true h.afterEint

/-- Clocks that come to a reload wake the core by a service. -/
theorem Dozes.advanced (h : core.Dozes) (hclocks : core.countdown < clocks) :
    (core.advanced clocks).idle = false ∧
      ∃ source, (core.advanced clocks).interrupts = (source, core.regs.pc) :: core.interrupts := by
  obtain ⟨source, hsource⟩ := h.reload.pendingSource?
  have hcounted (core : Core) (clocks : Nat) : (core.counted clocks).idle = core.idle ∧
      (core.counted clocks).interrupts = core.interrupts := by
    unfold counted
    split <;> exact ⟨rfl, rfl⟩
  have hserved := servedTo_service hsource
  have hreported := core.reload.service_interrupts
  rw [served?, hsource] at hreported
  unfold Core.advanced
  rw [if_neg (Nat.not_le_of_lt hclocks)]
  obtain ⟨hidle, hinterrupts⟩ := hcounted core.reload.service.1 core.reload.service.2
  refine ⟨hidle.trans hserved.awake, source, ?_⟩
  rw [hinterrupts, hreported]
  rfl

end Core

namespace Machine

variable {machine : Machine}

/-! ## Steps that end with IDLE -/

/-- IDLE stops the core and unmasks requests, and leaves them as they are. -/
theorem dozes_of_idle (hopcode : machine.core.opcode ≠ eintWord) (hrequest : machine.core.HasRequest) :
    (machine.execute .idle).1.core.Dozes where
  idle := rfl
  unmasked := Status.has_put_intm _ false
  afterEint := hopcode
  request := hrequest

/-- An IDLE under a request leaves the core dozing. -/
theorem dozes_of_pass (hopcode : machine.core.opcode ≠ eintWord) (hrequest : machine.core.HasRequest) :
    (machine.pass .idle).1.core.Dozes :=
  (dozes_of_idle hopcode hrequest).countPass

/-- Passes of IDLE, one or more, leave the core dozing. -/
theorem dozes_of_passes (count : Nat) (clocks : Nat) (hopcode : machine.core.opcode ≠ eintWord)
    (hrequest : machine.core.HasRequest) :
    (machine.passes .idle clocks (count + 1)).1.core.Dozes := by
  induction count generalizing machine clocks with
  | zero =>
    rw [passes]
    dsimp only
    split <;> exact dozes_of_pass hopcode hrequest
  | succ count ih =>
    have hpass := dozes_of_pass hopcode hrequest
    rw [passes]
    dsimp only
    split
    · exact hpass
    · exact ih _ hpass.afterEint hpass.request

/-- All passes of a block execute its operation, and IDLE leaves the requests between them. -/
theorem request_of_passExecutions {op : Op} (count : Nat) {e : Machine × Op}
    (he : e ∈ machine.passExecutions op count) :
    e.2 = op ∧ (op = .idle → e.1.core.HasRequest → machine.core.HasRequest) := by
  induction count generalizing machine with
  | zero => exact absurd he List.not_mem_nil
  | succ count ih =>
    rcases List.mem_cons.mp he with rfl | hrest
    · exact ⟨rfl, fun _ h => h⟩
    · split at hrest
      · exact absurd hrest List.not_mem_nil
      · obtain ⟨hop, hbefore⟩ := ih hrest
        refine ⟨hop, fun hidle hrequest => ?_⟩
        subst hidle
        exact hbefore rfl hrequest

/-- A step that executes IDLE while there is a request ends with the core dozing. -/
theorem dozes_of_step (hflow : machine.core.flow = .normal) {e : Machine × Op}
    (he : e ∈ machine.executions) (hop : e.2 = .idle) (hrequest : e.1.core.HasRequest) :
    machine.step.1.core.Dozes := by
  have hready : machine.ready.core.flow = .normal := by
    rw [ready, fetch_core]
    exact machine.core.service_flow.trans hflow
  rcases List.mem_cons.mp he with rfl | hblock
  · dsimp only at hop hrequest
    -- IDLE by itself arms no block.
    have hnormal : (machine.ready.execute machine.ready.op).1.core.flow = .normal := by
      rw [(machine.ready.execute_timing (by rw [hop]; decide) (by rw [hop]; decide)).2.2]
      exact hready
    rw [step_machine]
    dsimp only
    rw [hnormal, hop]
    exact dozes_of_idle (ne_eintWord hop (by decide)) hrequest
  · rw [step_machine]
    dsimp only
    generalize (machine.ready.execute machine.ready.op).1 = armed at hblock ⊢
    unfold blockExecutions at hblock
    split at hblock
    · exact absurd hblock List.not_mem_nil
    · obtain ⟨hpass, hbefore⟩ := request_of_passExecutions _ hblock
      have hidle : armed.enterBlock.op = .idle := hpass.symm.trans hop
      have hopcode : armed.enterBlock.core.opcode ≠ eintWord := ne_eintWord hidle (by decide)
      obtain ⟨count, hlimit⟩ : ∃ count, passLimit = count + 1 := ⟨65791, rfl⟩
      have hpasses := dozes_of_passes count clk hopcode (hbefore hidle hrequest)
      rw [repeatBlock_machine, hidle, hlimit]
      exact hpasses.endBlock

end Machine

namespace Core

variable {core : Core} {left : Budget} {clocks : Nat}

/-! ## Turns of a core that dozes -/

/-- Clocks that leave a budget unexhausted have found it so. -/
theorem isExhausted_of_advanceTimer (h : (core.advanceTimer left clocks).2.isExhausted = false) :
    left.isExhausted = false := by
  have hless := core.advanceTimer_le left clocks
  rw [Budget.isExhausted_eq_false_iff] at h ⊢
  omega

/-- What is left after the own clocks of a step tells how many those are. -/
theorem lt_of_advances (hleft : (left.consume (core.advances clocks)).isExhausted = false) :
    (core.advances clocks : Int) < left.remaining := by
  rw [Budget.isExhausted_eq_false_iff] at hleft
  simp only [Budget.consume, Budget.saturate, Budget.least, Budget.greatest] at hleft
  omega

/-- When the timer reloads before the budget ends, the core is woken by a service. -/
theorem Dozes.settle_of_lt (h : core.Dozes) (hunheld : core.Unheld) (hphase : core.timerPhase < clk)
    (hrange : left.InRange) (hleft : (left.consume (core.advances clocks)).isExhausted = false)
    (hcount : core.countdown < left.remaining) :
    (core.settle left clocks).1.idle = false ∧ ∃ source,
      (core.settle left clocks).1.interrupts = (source, core.regs.pc) :: core.interrupts := by
  have hclocks := lt_of_advances hleft
  rw [hunheld.settle_eq hphase hrange]
  by_cases hown : clocks ≤ core.countdown
  · -- The reload comes while the core waits.
    have hwait : core.countdown < left.remaining.toNat := by omega
    have hwoken := h.advanced hwait
    rw [(advanced_of_le hown).2] at hclocks
    rw [← wait_advance hphase hrange h.idle (by omega), wait_advance hphase hrange h.idle
      (Nat.le_refl _), wait_of_awake hwoken.1]
    exact hwoken
  · have hwoken := h.advanced (Nat.lt_of_not_le hown)
    rw [wait_of_awake hwoken.1]
    exact hwoken

/-- When it does not, the core waits the budget out. -/
theorem Dozes.settle_of_le (h : core.Dozes) (hunheld : core.Unheld) (hphase : core.timerPhase < clk)
    (hrange : left.InRange) (hleft : (left.consume (core.advances clocks)).isExhausted = false)
    (hcount : left.remaining ≤ core.countdown) :
    (core.settle left clocks).1.idle = true ∧
      (core.settle left clocks).1.interrupts = core.interrupts ∧
      (core.settle left clocks).2 = ⟨0⟩ := by
  have hclocks := lt_of_advances hleft
  have hown : clocks ≤ core.countdown := by
    apply Nat.le_of_not_lt
    intro hreload
    unfold advances at hclocks
    rw [if_neg (Nat.not_le_of_lt hreload)] at hclocks
    omega
  have hsome : left.isExhausted = false := by
    rw [Budget.isExhausted_eq_false_iff]
    omega
  rw [(advanced_of_le hown).2] at hclocks
  rw [hunheld.settle_eq hphase hrange, ← wait_advance hphase hrange h.idle (by omega),
    wait_of_le hphase hrange h.idle hsome (by omega)]
  exact ⟨h.idle, rfl, rfl⟩

end Core

namespace Machine

variable {machine : Machine} {left : Budget} {more : Nat}

/-- A turn whose step leaves the core dozing ends with a service exactly when the timer reloads before
the budget ends. -/
theorem Extends.turn_of_dozes (h : machine.Extends left more) (hdozes : machine.step.1.core.Dozes)
    (hleft : (machine.step.1.core.advanceTimer left machine.step.2).2.isExhausted = false) :
    ((machine.step.1.core.countdown : Int) < left.remaining →
        (machine.turn left).1.core.idle = false ∧ ∃ source, (machine.turn left).1.core.interrupts =
          (source, machine.step.1.core.regs.pc) :: machine.step.1.core.interrupts) ∧
      (left.remaining ≤ machine.step.1.core.countdown → (machine.turn left).1.core.idle = true ∧
        (machine.turn left).1.core.interrupts = machine.step.1.core.interrupts ∧
        (machine.turn left).2 = ⟨0⟩) := by
  have hphase := (steady_of_step h.timerPhase).timerPhase
  rw [Core.advanceTimer_eq_advanced hphase h.range] at hleft
  dsimp only at hleft
  rw [turn_core, turn_budget]
  exact ⟨hdozes.settle_of_lt h.unheld.step hphase h.range hleft,
    hdozes.settle_of_le h.unheld.step hphase h.range hleft⟩

end Machine

/-- In a run without a hold, a step that executes IDLE while there is a request, and whose clocks do
not exhaust the budget, wakes the core by a service in the same turn exactly when the timer reloads
before the budget ends. Otherwise the run returns with the core idle, its budget used up, and no
request served since. -/
theorem Boundary.wakes_iff_reloads {machine other : Machine} {budget left : Budget}
    (h : Boundary (fun _ => True) machine budget other left) (hsteady : machine.core.Steady)
    (hline : machine.core.holdLine = false) (hhold : machine.core.hold = false)
    (hbudget : budget.InRange) {e : Machine × Op} (he : e ∈ other.executions) (hop : e.2 = .idle)
    (hrequest : e.1.core.HasRequest)
    (hleft : (other.step.1.core.advanceTimer left other.step.2).2.isExhausted = false) :
    ((other.step.1.core.countdown : Int) < left.remaining →
        (other.turn left).1.core.idle = false ∧ ∃ source, (other.turn left).1.core.interrupts =
          (source, other.step.1.core.regs.pc) :: other.step.1.core.interrupts) ∧
      (left.remaining ≤ other.step.1.core.countdown →
        machine.run budget = some (other.turn left) ∧ (other.turn left).1.core.idle = true ∧
          (other.turn left).1.core.interrupts = other.step.1.core.interrupts ∧
          (other.turn left).2 = ⟨0⟩) := by
  obtain ⟨count, hcount⟩ := h.eq_turns
  have hroom : budget.remaining + (0 : Nat) ≤ Budget.greatest := by
    rw [Int.ofNat_zero, Int.add_zero]
    exact hbudget.2
  have hother : other.Extends left 0 := by
    have hbegun := Machine.extends_beginRun ⟨hline, hhold⟩ hsteady.timerPhase hbudget hroom
    have hturns := hbegun.turns count
    rw [hcount] at hturns
    exact hturns
  have hflow := (h.invariant Core.kept_steady (keptBySteps_steady _) hsteady).flow
  have hdozes := Machine.dozes_of_step hflow he hop hrequest
  obtain ⟨hwoken, hasleep⟩ := hother.turn_of_dozes hdozes hleft
  refine ⟨hwoken, fun hends => ?_⟩
  obtain ⟨hidle, hinterrupts, hnothing⟩ := hasleep hends
  refine ⟨?_, hidle, hinterrupts, hnothing⟩
  rw [Machine.run_eq_some_iff hsteady.timerPhase]
  refine ⟨count + 1, ?_, ?_⟩
  · have hsome := Core.isExhausted_of_advanceTimer hleft
    rw [Machine.turns_succ_last, hcount, if_neg (Bool.eq_false_iff.mp hsome)]
  · rw [hnothing]
    rfl

/-- A new core about to execute IDLE, with source 0 enabled and requested while service is masked, and
so many ticks on its timer. -/
def sleeper (ticks : Half) : Machine :=
  (⟨.new .tms32025, Bus.empty.loadHalves .program 0 [0xCE1F]⟩ : Machine).mapCore fun core =>
    (core.mapRam fun ram => { ram with imr := 1, tim := ticks }).setInputLine 0 true

/-- With five ticks on the timer the request is served within 40 clocks. -/
theorem sleeper_wakes :
    (Machine.turn (sleeper 4) ⟨40⟩).1.core.idle = false ∧
      ∃ source, (Machine.turn (sleeper 4) ⟨40⟩).1.core.interrupts = [(source, 1)] := by
  have hstart : Boundary (fun _ => True) (sleeper 4) ⟨40⟩ (sleeper 4) ⟨40⟩ := .start
  have hwakes := hstart.wakes_iff_reloads ⟨rfl, by decide +kernel⟩ rfl rfl (by decide)
    (List.mem_cons_self ..) (by decide +kernel) ⟨.int0, by decide, by decide +kernel⟩
    (by decide +kernel)
  have hpc : (sleeper 4).step.1.core.regs.pc = 1 ∧ (sleeper 4).step.1.core.interrupts = [] := by
    decide +kernel
  have hserved := hwakes.1 (by decide +kernel)
  rw [hpc.1, hpc.2] at hserved
  exact hserved

/-- With a full timer a budget of 13 clocks, one more than IDLE takes, passes without a service. -/
theorem sleeper_misses_request :
    ¬ ∀ machine other budget left e, Boundary (fun _ => True) machine budget other left →
      machine.core.Steady → machine.core.holdLine = false → machine.core.hold = false →
      budget.InRange → e ∈ other.executions → e.2 = .idle → e.1.core.HasRequest →
      (other.step.1.core.advanceTimer left other.step.2).2.isExhausted = false →
      ∀ last rest, Machine.run machine budget = some (last, rest) →
        other.step.1.core.interrupts.length < last.core.interrupts.length := by
  intro hall
  have hstart : Boundary (fun _ => True) (sleeper 0xFFFF) ⟨13⟩ (sleeper 0xFFFF) ⟨13⟩ := .start
  have hresult : ((sleeper 0xFFFF).run ⟨13⟩).map (fun result => result.1.core.interrupts.length) =
      some 0 := by decide +kernel
  obtain ⟨⟨last, rest⟩, hrun, hnone⟩ := Option.map_eq_some_iff.mp hresult
  have hserved := hall _ _ _ _ _ hstart ⟨rfl, by decide +kernel⟩ rfl rfl (by decide)
    (List.mem_cons_self ..) (by decide +kernel) ⟨.int0, by decide, by decide +kernel⟩
    (by decide +kernel) last rest hrun
  rw [hnone] at hserved
  exact Nat.not_lt_zero _ hserved

end ProcessorCores.Tms

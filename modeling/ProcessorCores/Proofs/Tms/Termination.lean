import ProcessorCores.Proofs.Tms.OnChipMemory
import ProcessorCores.Proofs.Tms.Turns

/-!
# Runs of the TMS3202x that return

Every turn debits the budget but one: that of an undefined word, which costs nothing, when no
request is served. Such a turn passes over the word and changes nothing that a later turn depends
on. So 65536 of them in a row go through all of program memory, and the run was stuck before the
first: every program word is undefined, and no request can be served. A run that never gets stuck
returns with its budget exhausted, and one that does goes on for ever.
-/

namespace ProcessorCores.Tms

/-- Undefined words are free. -/
theorem cycles_of_illegal {word : Half} (h : (decode word).handler = .illegal) :
    (decode word).cycles = 0 := by
  have hundefined := decode_of_tables
    (P := fun entry => entry.handler = .illegal → entry.cycles = 0)
    (by decide +kernel) (by decide +kernel) (by decide +kernel) word
  exact hundefined h

/-! ## Requests -/

namespace Core

variable {core : Core}

/-- No request is served, however often one looks for it: service is masked, or no source is both
requested and enabled. -/
def Unserved (core : Core) : Prop :=
  core.regs.has .intm = true ∨
    ∀ source ∈ Source.all, meets (core.regs.ifr &&& core.ram.imr) source.bit = false

/-- A service that takes no clocks is none. -/
theorem service_of_free (h : core.service.2 = 0) :
    core.pendingSource? = none ∧ core.service = (core, 0) := by
  unfold service at h ⊢
  split at h
  · exact absurd h (Nat.succ_ne_zero _)
  · next hnone => exact ⟨hnone, rfl⟩

/-- A core that serves no request spends no clocks on service. -/
theorem Unserved.service (h : core.Unserved) : core.service.2 = 0 := by
  have hnone : core.pendingSource? = none := by
    rcases h with hmasked | hsources
    · exact pendingSource?_of_masked hmasked
    · unfold pendingSource?
      split
      · rfl
      · rw [List.find?_eq_none]
        intro source hsource
        rw [hsources source hsource]
        decide
  rw [Core.service, hnone]

/-- Once the word fetched last does not hold service back, a request that is not served cannot be. -/
theorem unserved_of_free (h : core.service.2 = 0) (hopcode : core.opcode ≠ eintWord) :
    core.Unserved := by
  have hnone := (service_of_free h).1
  unfold pendingSource? at hnone
  split at hnone
  · next hheld =>
    rcases hheld with hmasked | hheld
    · exact .inl hmasked
    · exact absurd hheld hopcode
  · right
    intro source hsource
    rw [List.find?_eq_none] at hnone
    exact Bool.not_eq_true _ |>.mp (hnone source hsource)

end Core

namespace Machine

variable {machine : Machine} {left : Budget}

/-! ## Undefined words -/

/-- The program word at an address. -/
def programWord (machine : Machine) (address : Half) : Half := (machine.readProgram address).1

/-- The words are those on chip and those on the bus. -/
theorem programWord_congr {other : Machine}
    (hchip : other.core.ram.program = machine.core.ram.program)
    (hbus : ∀ address, other.bus.peek16 .program address = machine.bus.peek16 .program address)
    (address : Half) : other.programWord address = machine.programWord address := by
  unfold programWord readProgram
  rw [hchip]
  cases machine.core.ram.program address with
  | some value => rfl
  | none => exact hbus (byteAddress address)

/-- A fetch changes no word. -/
theorem fetch_programWord (machine : Machine) (address : Half) :
    machine.fetch.programWord address = machine.programWord address := by
  apply programWord_congr
  · rw [fetch_core]
  · intro address
    unfold fetch fetchWord readProgram
    dsimp only
    split <;> rfl

/-- The machine once it has passed over an undefined word. -/
def skip (machine : Machine) : Machine := (machine.fetch.execute .illegal).1

/-- A skipped word moves the program counter and leaves its traces. -/
theorem skip_core (machine : Machine) :
    machine.skip.core =
      ({ machine.core with
        regs := { machine.core.regs with pc := machine.core.regs.pc + 1 }
        prevPc := machine.core.regs.pc
        opcode := machine.programWord machine.core.regs.pc } : Core).report
          (.illegal machine.core.regs.pc (machine.programWord machine.core.regs.pc)) := by
  change machine.fetch.core.report (.illegal machine.fetch.core.prevPc machine.fetch.core.opcode) = _
  rw [fetch_core]
  rfl

/-- A skipped word leaves a steady core steady. -/
theorem steady_skip (h : machine.core.Steady) : machine.skip.core.Steady := by
  rw [skip_core]
  exact ⟨h.flow, h.timerPhase⟩

/-- Passing over a word changes no word. -/
theorem skip_programWord (machine : Machine) (address : Half) :
    machine.skip.programWord address = machine.programWord address := by
  rw [← machine.fetch_programWord address]
  apply programWord_congr
  · rfl
  · exact fun _ => rfl

/-- The machine is about to pass over an undefined word for nothing. -/
structure Skips (machine : Machine) : Prop where
  awake : machine.core.idle = false
  running : machine.core.isStalled = false
  unserved : machine.core.service.2 = 0
  undefined : (decode (machine.programWord machine.core.regs.pc)).handler = .illegal

/-- The machine can do nothing but pass over undefined words, for nothing and for ever. -/
structure Stuck (machine : Machine) : Prop where
  awake : machine.core.idle = false
  running : machine.core.isStalled = false
  unserved : machine.core.Unserved
  undefined : ∀ address, (decode (machine.programWord address)).handler = .illegal

/-- A stuck machine skips. -/
theorem Stuck.skips (h : machine.Stuck) : machine.Skips where
  awake := h.awake
  running := h.running
  unserved := h.unserved.service
  undefined := h.undefined _

/-- A stuck machine is stuck after the skip. -/
theorem Stuck.skip (h : machine.Stuck) : machine.skip.Stuck where
  awake := by
    rw [skip_core]
    exact h.awake
  running := by
    rw [skip_core]
    exact h.running
  unserved := by
    rw [skip_core]
    exact h.unserved
  undefined address := by
    rw [skip_programWord]
    exact h.undefined address

/-! ## Turns that debit nothing -/

/-- A step takes the clocks of the service and of the instruction, and perhaps more. -/
theorem step_clocks_le (machine : Machine) :
    machine.core.service.2 + (decode machine.ready.core.opcode).cycles * clk ≤ machine.step.2 := by
  rw [step_clocks, Nat.add_assoc]
  exact Nat.add_le_add_left (Nat.le_add_right _ _) _

/-- A step over an undefined word takes no clocks. -/
theorem step_of_free (hflow : machine.core.flow = .normal) (hserved : machine.core.service.2 = 0)
    (hword : (decode (machine.programWord machine.core.regs.pc)).handler = .illegal) :
    machine.step = (machine.skip, 0) := by
  have hservice := (Core.service_of_free hserved).2
  have hopcode : machine.fetch.core.opcode = machine.programWord machine.core.regs.pc := by
    rw [fetch_core]
    rfl
  have hnormal : machine.skip.core.flow = .normal := by
    rw [skip_core]
    exact hflow
  unfold step executeNext
  rw [hservice]
  dsimp only
  rw [hopcode, hword, cycles_of_illegal hword]
  rw [skip] at hnormal
  rw [hnormal]
  rfl

/-- A step over an undefined word is one execution. -/
theorem Skips.executions (h : machine.Skips) (hsteady : machine.core.Steady) :
    machine.executions = [(machine.ready, machine.ready.op)] := by
  have hnormal : machine.skip.core.flow = .normal := (steady_skip hsteady).flow
  rw [skip] at hnormal
  have hready : machine.ready = machine.fetch := by
    rw [ready, (Core.service_of_free h.unserved).2]
  have hop : machine.ready.op = .illegal := by
    rw [op, hready, fetch_core]
    exact h.undefined
  rw [Machine.executions, hop, hready, blockExecutions, hnormal]

/-- A turn over an undefined word debits nothing. -/
theorem turn_of_skips (hsteady : machine.core.Steady) (h : machine.Skips) :
    machine.turn left = (machine.skip, left.consume 0) := by
  have hawake : machine.skip.core.idle = false := by
    rw [skip_core]
    exact h.awake
  have hrunning : machine.skip.core.isStalled = false := by
    rw [skip_core]
    exact h.running
  have hsettled : machine.skip.core.settle left 0 = (machine.skip.core, left.consume 0) := by
    unfold Core.settle
    rw [Core.advanceTimer_zero (steady_skip hsteady).timerPhase]
    dsimp only
    rw [Core.wait_of_awake hawake, hrunning]
    rfl
  unfold turn
  rw [step_of_free hsteady.flow h.unserved h.undefined]
  dsimp only
  rw [hsettled]

/-- Turns never add to what is left of the budget. -/
theorem turn_le (machine : Machine) (left : Budget) :
    (machine.turn left).2.remaining.toNat ≤ left.remaining.toNat := by
  rw [turn_budget]
  exact Core.settle_le _ _ _

/-- Turns add nothing to a budget. -/
theorem turns_le (machine : Machine) (left : Budget) (count : Nat) :
    (machine.turns left count).2.remaining.toNat ≤ left.remaining.toNat := by
  induction count generalizing machine left with
  | zero => exact Nat.le_refl _
  | succ count ih =>
    rw [turns]
    split
    · exact Nat.le_refl _
    · exact Nat.le_trans (ih _ _) (machine.turn_le left)

/-- A turn that debits nothing is one over an undefined word. -/
theorem skips_of_turn (hsteady : machine.core.Steady) (hruns : machine.core.Runs left)
    (hleft : left.isExhausted = false)
    (hfree : left.remaining.toNat ≤ (machine.turn left).2.remaining.toNat) : machine.Skips := by
  have hclocks : machine.step.2 = 0 := by
    have hsettle := machine.step.1.core.settle_le_advanceTimer left machine.step.2
    have hadvance : 1 ≤ machine.step.2 →
        (machine.step.1.core.advanceTimer left machine.step.2).2.remaining.toNat <
          left.remaining.toNat := Core.advanceTimer_lt (steady_step hsteady).timerPhase hleft
    rw [turn_budget] at hfree
    omega
  have hall := machine.step_clocks_le
  have hserved : machine.core.service.2 = 0 := by omega
  have hcycles : (decode machine.ready.core.opcode).cycles = 0 := by
    unfold clk at hall
    omega
  have hopcode : machine.ready.core.opcode = machine.programWord machine.core.regs.pc := by
    rw [ready, (Core.service_of_free hserved).2, fetch_core]
    rfl
  rw [hopcode] at hcycles
  rcases hruns with hexhausted | ⟨hawake, hrunning⟩
  · exact absurd (hleft.symm.trans hexhausted) Bool.false_ne_true
  · exact ⟨hawake, hrunning, hserved, illegal_of_cycles_eq_zero hcycles⟩

/-- After a turn that debits nothing the next one is like the first, but for the word. -/
theorem turns_of_free {count : Nat} (hsteady : machine.core.Steady)
    (hruns : machine.core.Runs left) (hleft : left.isExhausted = false)
    (hfree : left.remaining.toNat ≤ (machine.turns left (count + 1)).2.remaining.toNat) :
    machine.Skips ∧ machine.skip.core.Steady ∧ machine.skip.core.Runs (left.consume 0) ∧
      (left.consume 0).isExhausted = false ∧
      (left.consume 0).remaining.toNat ≤
        (machine.skip.turns (left.consume 0) count).2.remaining.toNat := by
  rw [turns_succ _ hleft] at hfree
  have hskips := skips_of_turn hsteady hruns hleft (Nat.le_trans hfree (turns_le _ _ count))
  have hturn : machine.turn left = (machine.skip, left.consume 0) := turn_of_skips hsteady hskips
  have hnext := runs_turn hsteady left
  rw [hturn] at hfree hnext
  exact ⟨hskips, steady_skip hsteady, hnext, Budget.isExhausted_consume_zero hleft,
    Nat.le_trans (left.toNat_consume_le 0) hfree⟩

/-- Turns that debit nothing go through consecutive undefined words. -/
theorem undefined_of_turns (count : Nat) (hsteady : machine.core.Steady)
    (hruns : machine.core.Runs left) (hleft : left.isExhausted = false)
    (hfree : left.remaining.toNat ≤ (machine.turns left count).2.remaining.toNat) :
    ∀ passed < count, (decode (machine.programWord
      (machine.core.regs.pc + BitVec.ofNat 16 passed))).handler = .illegal := by
  induction count generalizing machine left with
  | zero => exact fun _ hpassed => absurd hpassed (Nat.not_lt_zero _)
  | succ count ih =>
    intro passed hpassed
    obtain ⟨hskips, hskipped, hnext, hrest, hfree⟩ := turns_of_free hsteady hruns hleft hfree
    cases passed with
    | zero =>
      rw [BitVec.add_zero]
      exact hskips.undefined
    | succ passed =>
      have hword := ih hskipped hnext hrest hfree passed (Nat.lt_of_succ_lt_succ hpassed)
      have hpc : machine.skip.core.regs.pc + BitVec.ofNat 16 passed =
          machine.core.regs.pc + BitVec.ofNat 16 (passed + 1) := by
        rw [skip_core]
        change machine.core.regs.pc + 1 + BitVec.ofNat 16 passed = _
        rw [BitVec.add_assoc, Nat.add_comm, BitVec.ofNat_add]
        rfl
      rw [skip_programWord, hpc] at hword
      exact hword

/-- A word of another operation is not the one that holds service back. -/
theorem ne_eintWord {word : Half} {op : Op} (h : (decode word).handler = op)
    (hop : op ≠ .flag .eint) : word ≠ eintWord := by
  rintro rfl
  have heint : (decode eintWord).handler = .flag .eint := by decide +kernel
  exact hop (h.symm.trans heint)

/-- As many such turns as program memory has words leave nothing else to do. -/
theorem stuck_of_turns (hsteady : machine.core.Steady) (hruns : machine.core.Runs left)
    (hleft : left.isExhausted = false)
    (hfree : left.remaining.toNat ≤ (machine.turns left 65536).2.remaining.toNat) :
    machine.Stuck := by
  have hwords := undefined_of_turns 65536 hsteady hruns hleft hfree
  obtain ⟨count, hcount⟩ : ∃ count, 65536 = count + 1 + 1 := ⟨65534, rfl⟩
  rw [hcount] at hfree
  obtain ⟨hfirst, hskipped, hnext, hrest, hfree⟩ := turns_of_free hsteady hruns hleft hfree
  -- The word before the first may hold service back; the one before the second cannot.
  obtain ⟨hsecond, -⟩ := turns_of_free hskipped hnext hrest hfree
  refine ⟨hfirst.awake, hfirst.running, ?_, fun address => ?_⟩
  · have hunserved : machine.skip.core.Unserved := by
      apply Core.unserved_of_free hsecond.unserved
      rw [skip_core]
      exact ne_eintWord hfirst.undefined (by decide)
    rw [skip_core] at hunserved
    exact hunserved
  · have hword := hwords (address - machine.core.regs.pc).toNat (BitVec.isLt _)
    rw [BitVec.ofNat_toNat, BitVec.setWidth_eq] at hword
    have haddress : machine.core.regs.pc + (address - machine.core.regs.pc) = address := by
      bv_omega
    rw [haddress] at hword
    exact hword

/-! ## Runs -/

/-- A run that never gets stuck exhausts its budget, after at most so many turns for each clock. -/
theorem turns_exhaust (bound : Nat) (hsteady : machine.core.Steady)
    (hruns : machine.core.Runs left) (hbound : left.remaining.toNat ≤ bound)
    (hstuck : ∀ count, (machine.turns left count).2.isExhausted = false →
      ¬ (machine.turns left count).1.Stuck) :
    (machine.turns left (65536 * bound)).2.isExhausted = true := by
  -- Among 65536 turns one takes a clock, or the program counter has gone all the way round for nothing.
  induction bound generalizing machine left with
  | zero =>
    rw [Budget.isExhausted_iff_toNat]
    exact Nat.le_zero.mp (Nat.le_trans (turns_le _ _ _) hbound)
  | succ bound ih =>
    cases hleft : left.isExhausted with
    | true =>
      rw [turns_of_exhausted _ hleft]
      exact hleft
    | false =>
      have hless : (machine.turns left 65536).2.remaining.toNat < left.remaining.toNat := by
        apply Nat.lt_of_not_le
        intro hfree
        exact hstuck 0 hleft (stuck_of_turns hsteady hruns hleft hfree)
      rw [Nat.mul_succ, Nat.add_comm, turns_add]
      refine ih (steady_turns hsteady _ _) (runs_turns hsteady hruns _) (by omega) ?_
      intro count
      rw [← turns_add]
      exact hstuck (65536 + count)

/-- Once stuck, a run goes on for ever. -/
theorem Stuck.turns (h : machine.Stuck) (hsteady : machine.core.Steady)
    (hleft : left.isExhausted = false) (count : Nat) :
    (machine.turns left count).1.Stuck ∧ (machine.turns left count).2.isExhausted = false := by
  induction count generalizing machine left with
  | zero => exact ⟨h, hleft⟩
  | succ count ih =>
    rw [turns_succ _ hleft, turn_of_skips hsteady h.skips]
    exact ih h.skip (steady_skip hsteady) (Budget.isExhausted_consume_zero hleft)

/-- Turns that exhaust a budget do so after at most so many for each clock. -/
theorem turns_exhaust_within (hsteady : machine.core.Steady) (hruns : machine.core.Runs left)
    {count : Nat} (hcount : (machine.turns left count).2.isExhausted = true) :
    (machine.turns left (65536 * left.remaining.toNat)).2.isExhausted = true := by
  refine turns_exhaust _ hsteady hruns (Nat.le_refl _) fun reached hleft hstuck => ?_
  have hfar := (hstuck.turns (steady_turns hsteady _ _) hleft count).2
  rw [← turns_add, turns_exhausted_mono hcount (Nat.le_add_left count reached)] at hfar
  contradiction

/-- Turns that exhaust a budget do so within the limit of a run, whatever they begin with. -/
theorem exhausts_within_limit {count : Nat} (hphase : machine.core.timerPhase < clk)
    (hcount : (machine.turns left count).2.isExhausted = true) :
    (machine.turns left (stepLimit left)).2.isExhausted = true := by
  cases hleft : left.isExhausted with
  | true =>
    rw [turns_of_exhausted _ hleft]
    exact hleft
  | false =>
    cases count with
    | zero => exact absurd (hleft.symm.trans hcount) Bool.false_ne_true
    | succ count =>
      -- From the first turn on the machine is steady.
      rw [turns_succ _ hleft] at hcount
      have hwithin := turns_exhaust_within (steady_of_turn hphase left) (runs_of_turn hphase left) hcount
      rw [← turns_succ _ hleft] at hwithin
      refine turns_exhausted_mono hwithin ?_
      have hless := machine.turn_le left
      unfold stepLimit
      omega

variable {budget : Budget} {other : Machine}

/-- The result of a run is what its turns come to, if they come to an exhausted budget. -/
theorem run_eq_some_iff {result : Machine × Budget} (hphase : machine.core.timerPhase < clk) :
    machine.run budget = some result ↔
      ∃ count, (machine.beginRun budget).1.turns (machine.beginRun budget).2 count = result ∧
        result.2.isExhausted = true := by
  constructor
  · intro hrun
    obtain ⟨⟨count, hcount⟩, hexhausted⟩ := turns_of_run hrun
    exact ⟨count, hcount, hexhausted⟩
  · rintro ⟨count, rfl, hexhausted⟩
    have hbegun : (machine.beginRun budget).1.core.timerPhase < clk := by
      rw [beginRun_core]
      exact Core.kept_timerPhase.beginRun budget hphase
    have hlimit := exhausts_within_limit hbegun hexhausted
    rw [run_eq_runSteps, runSteps_eq_turns, if_pos hlimit]
    rcases Nat.le_total count (stepLimit (machine.beginRun budget).2) with horder | horder
    · rw [turns_of_turns_exhausted hexhausted horder]
    · rw [turns_of_turns_exhausted hlimit horder]

/-- A run that comes to no stuck machine has a result, and its budget is exhausted. -/
theorem run_of_not_stuck (hsteady : machine.core.Steady)
    (hstuck : ∀ other left, Boundary (fun _ => True) machine budget other left →
      left.isExhausted = false → ¬ other.Stuck) :
    ∃ result, machine.run budget = some result ∧
      Boundary (fun _ => True) machine budget result.1 result.2 ∧ result.2.isExhausted = true := by
  have hexhausted := turns_exhaust _ (steady_beginRun hsteady budget) (runs_beginRun hsteady budget)
    (Nat.le_refl _) fun count => hstuck _ _ (boundary_turns machine budget count)
  have hlimit : 65536 * (machine.beginRun budget).2.remaining.toNat ≤
      stepLimit (machine.beginRun budget).2 := by
    unfold stepLimit
    omega
  have hlast := turns_exhausted_mono hexhausted hlimit
  refine ⟨_, ?_, boundary_turns machine budget _, hlast⟩
  rw [run_eq_runSteps, runSteps_eq_turns, if_pos hlast]

/-- A run that comes to a stuck machine with clocks left exhausts its budget at no boundary. -/
theorem Stuck.never_exhausted (h : other.Stuck) (hsteady : machine.core.Steady)
    (hother : Boundary (fun _ => True) machine budget other left)
    (hleft : left.isExhausted = false) {later : Machine} {rest : Budget}
    (hlater : Boundary (fun _ => True) machine budget later rest) : rest.isExhausted = false := by
  obtain ⟨count, hcount⟩ := hother.eq_turns
  obtain ⟨count', hcount'⟩ := hlater.eq_turns
  have hothers : other.core.Steady :=
    hother.invariant Core.kept_steady (keptBySteps_steady _) hsteady
  have hfar := (h.turns hothers hleft count').2
  rw [Bool.eq_false_iff] at hfar ⊢
  intro hrest
  apply hfar
  -- The turns up to the stuck machine and as many more as there are up to the later boundary.
  have hmore := turns_add (machine.beginRun budget).1 (machine.beginRun budget).2 count count'
  rw [hcount] at hmore
  rw [← hmore]
  refine turns_exhausted_mono ?_ (Nat.le_add_left count' count)
  rw [hcount']
  exact hrest

/-- A run that begins stuck stays so. -/
theorem Stuck.boundary (h : machine.Stuck) (hsteady : machine.core.Steady)
    (hbegin : machine.beginRun budget = (machine, budget)) (hbudget : budget.isExhausted = false)
    (hother : Boundary (fun _ => True) machine budget other left) :
    other.Stuck ∧ other.core.Steady ∧ left.isExhausted = false := by
  have hothers := hother.invariant Core.kept_steady (keptBySteps_steady _) hsteady
  obtain ⟨count, hcount⟩ := hother.eq_turns
  rw [hbegin] at hcount
  obtain ⟨hstuck, hleft⟩ := h.turns hsteady hbudget count
  rw [hcount] at hstuck hleft
  exact ⟨hstuck, hothers, hleft⟩

/-- A run has no result exactly when its budget is exhausted at no boundary. -/
theorem run_eq_none_iff (hsteady : machine.core.Steady) :
    machine.run budget = none ↔ ∀ other left,
      Boundary (fun _ => True) machine budget other left → left.isExhausted = false := by
  constructor
  · intro hnone other left hboundary
    rw [Bool.eq_false_iff]
    intro hexhausted
    obtain ⟨result, hsome, -⟩ := run_of_not_stuck hsteady fun stuck left hother hleft hstuck => by
      have hnever := hstuck.never_exhausted hsteady hother hleft hboundary
      exact Bool.false_ne_true (hnever.symm.trans hexhausted)
    rw [hnone] at hsome
    exact Option.some_ne_none _ hsome.symm
  · intro hleft
    have hlast := hleft _ _ (boundary_turns machine budget (stepLimit (machine.beginRun budget).2))
    rw [run_eq_runSteps, runSteps_eq_turns, if_neg (Bool.eq_false_iff.mp hlast)]

end Machine

/-- A run returns with its budget exhausted exactly when it comes to no stuck machine while clocks
are left; otherwise no boundary ever exhausts the budget. The loops within its turns end by
themselves, as long as no repeat block arms its counter anew. -/
theorem Reached.run_returns_iff {model : Model} {machine : Machine} {budget : Budget}
    (h : Reached model (fun _ => True) machine)
    (hrepeat : ∀ other left, Boundary (fun _ => True) machine budget other left →
      left.isExhausted = false → ∀ e ∈ other.executions.tail, e.2 ≠ .rpt ∧ e.2 ≠ .rptk) :
    ((∃ result, machine.run budget = some result ∧
        Boundary (fun _ => True) machine budget result.1 result.2 ∧
        result.2.isExhausted = true) ↔
      ∀ other left, Boundary (fun _ => True) machine budget other left →
        left.isExhausted = false → ¬ other.Stuck) ∧
    (machine.run budget = none ↔
      ∀ other left, Boundary (fun _ => True) machine budget other left →
        left.isExhausted = false) ∧
    ∀ other left, Boundary (fun _ => True) machine budget other left →
      other.core.Runs left ∧ (left.isExhausted = false → other.BlockEnds) := by
  refine ⟨⟨?_, Machine.run_of_not_stuck h.steady⟩, Machine.run_eq_none_iff h.steady, ?_⟩
  · intro ⟨result, _, hlast, hexhausted⟩ other left hother hleft hstuck
    have hnever := hstuck.never_exhausted h.steady hother hleft hlast
    exact Bool.false_ne_true (hnever.symm.trans hexhausted)
  · intro other left hother
    refine ⟨?_, fun hleft => Machine.blockEnds (hrepeat other left hother hleft)⟩
    obtain ⟨count, hcount⟩ := hother.eq_turns
    have hruns := Machine.runs_turns (Machine.steady_beginRun h.steady budget)
      (Machine.runs_beginRun h.steady budget) count
    rw [hcount] at hruns
    exact hruns

/-- A budget of one clock is used up by a block that repeats ADD four times. -/
theorem run_returns_after_block :
    let machine : Machine := ⟨.new .tms32025, Bus.empty.loadHalves .program 0 [0xCB03, 0x0002]⟩
    (∃ result, machine.run ⟨1⟩ = some result ∧
        Boundary (fun _ => True) machine ⟨1⟩ result.1 result.2 ∧ result.2.isExhausted = true) ∧
      machine.BlockEnds := by
  intro machine
  have hends : ∀ other left, Boundary (fun _ => True) machine ⟨1⟩ other left →
      left.isExhausted = false → other = machine ∧ left = ⟨1⟩ := by
    intro other left h
    induction h with
    | start => exact fun _ => ⟨rfl, rfl⟩
    | turn _ hleft _ ih =>
      obtain ⟨rfl, rfl⟩ := ih hleft
      intro hturned
      exact absurd hturned (by decide +kernel)
  have hrepeat : ∀ other left, Boundary (fun _ => True) machine ⟨1⟩ other left →
      left.isExhausted = false → ∀ e ∈ other.executions.tail, e.2 ≠ .rpt ∧ e.2 ≠ .rptk := by
    intro other left h hleft
    obtain ⟨rfl, -⟩ := hends other left h hleft
    decide +kernel
  have hreached : Reached .tms32025 (fun _ => True) machine := .new _
  obtain ⟨hreturns, -, hblocks⟩ := hreached.run_returns_iff hrepeat
  refine ⟨hreturns.mpr ?_, (hblocks machine ⟨1⟩ .start).2 rfl⟩
  intro other left h hleft hstuck
  obtain ⟨rfl, -⟩ := hends other left h hleft
  exact absurd (hstuck.undefined 0) (by decide +kernel)

/-- A new TMS32025 over a program memory that holds undefined words only. -/
def undefinedProgram : Machine :=
  ⟨.new .tms32025, Bus.empty.load .program 0 (List.replicate 131072 0xDF)⟩

/-- Every word of the program is undefined. -/
theorem undefinedProgram_programWord (address : Half) :
    undefinedProgram.programWord address = 0xDFDF := by
  have hbyte (spot : Word) (hspot : spot.toNat < 131072) :
      undefinedProgram.bus.peek8 .program spot = 0xDF := by
    have hlength : (List.replicate 131072 (0xDF : Byte)).length ≤ 0x100000000 := by
      rw [List.length_replicate]
      decide
    have hoffset : (spot - 0).toNat = spot.toNat := by bv_omega
    unfold undefinedProgram
    dsimp only
    rw [Bus.peek8_load _ _ _ _ _ hlength, hoffset, List.getD_eq_getElem?_getD,
      List.getElem?_replicate, if_pos hspot]
    rfl
  have haddress := byteAddress_toNat address
  have hnext : (byteAddress address + 1).toNat < 131072 := by bv_omega
  have hoffChip : undefinedProgram.core.ram.program address = none := rfl
  unfold Machine.programWord Machine.readProgram
  rw [hoffChip]
  change undefinedProgram.bus.peek16 .program (byteAddress address) = _
  rw [Bus.peek16, hbyte _ (by omega), hbyte _ hnext]
  decide

/-- A machine with such a program is stuck. -/
theorem undefinedProgram_stuck : undefinedProgram.Stuck where
  awake := rfl
  running := rfl
  unserved := .inr (by decide)
  undefined address := by
    rw [undefinedProgram_programWord]
    decide +kernel

/-- Undefined words alone never use a budget up. -/
theorem run_without_end :
    ¬ ∀ machine budget, Reached .tms32025 (fun _ => True) machine →
      (∀ other left, Boundary (fun _ => True) machine budget other left →
        left.isExhausted = false → ∀ e ∈ other.executions.tail, e.2 ≠ .rpt ∧ e.2 ≠ .rptk) →
      ∃ result, machine.run budget = some result ∧ result.2.isExhausted = true := by
  intro hall
  have hreached : Reached .tms32025 (fun _ => True) undefinedProgram := .new _
  have hbegin (bus : Bus) :
      (⟨.new .tms32025, bus⟩ : Machine).beginRun ⟨1⟩ = (⟨.new .tms32025, bus⟩, ⟨1⟩) := rfl
  have hends {other left} (hother : Boundary (fun _ => True) undefinedProgram ⟨1⟩ other left) :=
    undefinedProgram_stuck.boundary hreached.steady (hbegin _) rfl hother
  have hnone : undefinedProgram.run ⟨1⟩ = none :=
    (Machine.run_eq_none_iff hreached.steady).mpr fun _ _ hother => (hends hother).2.2
  have hrepeat : ∀ other left, Boundary (fun _ => True) undefinedProgram ⟨1⟩ other left →
      left.isExhausted = false → ∀ e ∈ other.executions.tail, e.2 ≠ .rpt ∧ e.2 ≠ .rptk := by
    intro other left hother _ e he
    obtain ⟨hstuck, hsteady, -⟩ := hends hother
    rw [hstuck.skips.executions hsteady] at he
    exact absurd he List.not_mem_nil
  obtain ⟨result, hresult, -⟩ := hall undefinedProgram ⟨1⟩ hreached hrepeat
  rw [hnone] at hresult
  exact Option.some_ne_none result hresult.symm

end ProcessorCores.Tms

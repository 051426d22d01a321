import Mathlib.Algebra.GroupWithZero.Nat
import ProcessorCores.Proofs.Tms.Requests
import ProcessorCores.Proofs.Tms.Turns

/-!
# Repeat blocks

A step over RPT or RPTK executes the instruction that follows once more than the count says. The block
is described by the machines before its passes: the instruction word is fetched once, and each pass
begins where the one before it ended, with only the count and the mark of the first pass moved on.

The count of the passes is exact, the extremes of the counter included, and so are the clocks. When
the block ends it leaves nothing behind, so that between steps no core is ever inside one.
-/

namespace ProcessorCores.Tms

/-- A repeat costs one machine cycle by itself. -/
theorem cycles_of_repeat {word : Half}
    (h : (decode word).handler = .rpt ∨ (decode word).handler = .rptk) :
    (decode word).cycles = 1 := by
  have hrepeat := decode_of_tables
    (P := fun entry => entry.handler = .rpt ∨ entry.handler = .rptk → entry.cycles = 1)
    (by decide +kernel) (by decide +kernel) (by decide +kernel) word
  exact hrepeat h

namespace Core

/-- A service leaves the mark of the first pass. -/
theorem service_firstPass (core : Core) : core.service.1.firstPass = core.firstPass := by
  obtain ⟨_, _, _, _, _, _, _, _, hserved⟩ := core.service_eq
  rw [hserved]

end Core

namespace Machine

/-- No operation changes the opcode or whether it is the first pass. -/
theorem keptByOps_block : KeptByOps fun before after =>
    after.firstPass = before.firstPass ∧ after.opcode = before.opcode where
  trans h h' := ⟨h'.1.trans h.1, h'.2.trans h.2⟩
  edited h := ⟨congrArg Frame.firstPass h.frame, congrArg Frame.opcode h.frame⟩
  status _ _ := ⟨rfl, rfl⟩
  armRepeat _ _ := ⟨rfl, rfl⟩
  doze _ := ⟨rfl, rfl⟩
  driveXf _ _ := ⟨rfl, rfl⟩
  mapBlock core index program := by
    obtain ⟨journal, hmoved⟩ := core.mapBlock_eq index program
    rw [hmoved]
    exact ⟨rfl, rfl⟩
  illegal _ _ := ⟨rfl, rfl⟩

/-- No operation touches the mark of the first pass or the instruction word. -/
theorem execute_block (machine : Machine) (op : Op) :
    (machine.execute op).1.core.firstPass = machine.core.firstPass ∧
      (machine.execute op).1.core.opcode = machine.core.opcode :=
  keptByOps_block.execute machine op

/-! ## Passes -/

/-- The machine before a pass of a block that begins here, the first pass being number 0. -/
def beforePass (machine : Machine) (op : Op) : Nat → Machine
  | 0 => machine
  | count + 1 => ((machine.beforePass op count).execute op).1.mapCore Core.countPass

/-- The clocks of so many passes. -/
def passClocks (machine : Machine) (op : Op) (count : Nat) : Nat :=
  ((List.range count).map fun pass => clk + ((machine.beforePass op pass).execute op).2).sum

/-- The later passes are those of the machine after the first. -/
theorem beforePass_succ (machine : Machine) (op : Op) (count : Nat) :
    machine.beforePass op (count + 1) = (machine.pass op).1.beforePass op count := by
  induction count with
  | zero => rfl
  | succ count ih =>
    rw [beforePass, ih]
    rfl

/-- The clocks of several passes are those of the first and of the others. -/
theorem passClocks_succ (machine : Machine) (op : Op) (count : Nat) :
    machine.passClocks op (count + 1) =
      (machine.pass op).2 + (machine.pass op).1.passClocks op count := by
  rw [passClocks, passClocks, List.range_succ_eq_map, List.map_cons, List.map_map, List.sum_cons]
  simp only [Function.comp_def, beforePass_succ]
  rfl

/-- A pass of an operation that leaves the repeat counter alone counts it down. The counter wraps, and
the block ends, when it was zero. -/
theorem pass_rptc {op : Op} (hrpt : op ≠ .rpt) (hrptk : op ≠ .rptk) (machine : Machine) :
    (machine.pass op).1.core.regs.rptc = 0xFF ∧ machine.core.regs.rptc.toNat = 0 ∨
      (machine.pass op).1.core.regs.rptc ≠ 0xFF ∧
        machine.core.regs.rptc.toNat = (machine.pass op).1.core.regs.rptc.toNat + 1 := by
  have hcounted : (machine.pass op).1.core.regs.rptc = machine.core.regs.rptc - 1 := by
    rw [pass_core]
    exact congrArg (· - 1) (machine.execute_timing hrpt hrptk).2.1
  rw [hcounted]
  by_cases hzero : machine.core.regs.rptc.toNat = 0
  -- The counter is a byte, and one less than 0 is 255.
  · exact .inl ⟨by bv_omega, hzero⟩
  · exact .inr ⟨by bv_omega, by bv_omega⟩

/-- The passes of an operation that leaves the repeat counter alone are one more than it says. -/
theorem passes_eq {op : Op} (hrpt : op ≠ .rpt) (hrptk : op ≠ .rptk) (count : Nat) {machine : Machine}
    (clocks : Nat) (hcount : machine.core.regs.rptc.toNat < count) :
    machine.passes op clocks count =
      (machine.beforePass op (machine.core.regs.rptc.toNat + 1),
        clocks + machine.passClocks op (machine.core.regs.rptc.toNat + 1)) := by
  -- On the limit, which no block comes to: the counter, one lower after each pass, ends it before.
  induction count generalizing machine clocks with
  | zero => exact absurd hcount (Nat.not_lt_zero _)
  | succ count ih =>
    rw [passes]
    dsimp only
    rcases machine.pass_rptc hrpt hrptk with ⟨hlast, hzero⟩ | ⟨hleft, hsucc⟩
    · rw [if_pos hlast, hzero, beforePass_succ, passClocks_succ]
      rfl
    · rw [if_neg hleft, ih _ (by omega), hsucc, beforePass_succ machine, passClocks_succ machine,
        Nat.add_assoc]

/-- They are as many executions. -/
theorem passExecutions_eq {op : Op} (hrpt : op ≠ .rpt) (hrptk : op ≠ .rptk) (count : Nat)
    {machine : Machine} (hcount : machine.core.regs.rptc.toNat < count) :
    machine.passExecutions op count =
      (List.range (machine.core.regs.rptc.toNat + 1)).map fun pass =>
        (machine.beforePass op pass, op) := by
  induction count generalizing machine with
  | zero => exact absurd hcount (Nat.not_lt_zero _)
  | succ count ih =>
    rw [passExecutions, List.range_succ_eq_map, List.map_cons, List.map_map]
    rcases machine.pass_rptc hrpt hrptk with ⟨hlast, hzero⟩ | ⟨hleft, hsucc⟩
    · rw [if_pos hlast, hzero]
      rfl
    · rw [if_neg hleft, ih (by omega), hsucc]
      simp only [Function.comp_def, beforePass_succ]
      rfl

/-- What the machine before a pass has in common with the one before the first, and what it has not. -/
theorem beforePass_core {op : Op} (hrpt : op ≠ .rpt) (hrptk : op ≠ .rptk) (machine : Machine)
    (hfirst : machine.core.firstPass = true) (count : Nat) :
    let before := machine.beforePass op count
    before.core.firstPass = (count == 0) ∧ before.core.opcode = machine.core.opcode ∧
      before.core.flow = machine.core.flow ∧ machine.core.QuietTo before.core := by
  induction count with
  | zero => exact ⟨hfirst, rfl, rfl, .refl _⟩
  | succ count ih =>
    obtain ⟨-, hopcode, hflow, hquiet⟩ := ih
    refine ⟨?_, ?_, ?_, ?_⟩
    · rfl
    · exact ((machine.beforePass op count).execute_block op).2.trans hopcode
    · exact ((machine.beforePass op count).execute_timing hrpt hrptk).2.2.trans hflow
    · exact hquiet.trans ((machine.beforePass op count).pass_quiet op)

/-! ## The step -/

/-- The machine once the first instruction of a step is executed. -/
def armed (machine : Machine) : Machine := (machine.ready.execute machine.ready.op).1

/-- The machine before the first pass of the block that a step comes to. -/
def block (machine : Machine) : Machine := machine.armed.enterBlock

/-- The machine before a pass of the block that a step comes to. -/
def before (machine : Machine) (pass : Nat) : Machine :=
  machine.block.beforePass machine.block.op pass

/-- The count that a repeat instruction names: the low byte of its word, or of its operand. -/
def repeatCount (machine : Machine) : Byte :=
  if machine.op = .rptk then lowByte machine.core.opcode
  else lowByte (machine.fetchOperand true).1

/-- What a step does that repeats an instruction after a count. -/
structure RepeatsBlock (machine : Machine) (count : Nat) : Prop where
  fetched : machine.block.core.opcode = (machine.armed.readProgram machine.armed.core.regs.pc).1
  fetchedOnce : machine.block.core.regs.pc = machine.armed.core.regs.pc + 1 ∧
    ∀ pass ≤ count, (machine.before pass).core.opcode = machine.block.core.opcode
  executions : machine.executions =
    (machine.ready, machine.ready.op) ::
      (List.range (count + 1)).map fun pass => (machine.before pass, machine.block.op)
  firstPass : ∀ pass ≤ count, (machine.before pass).core.firstPass = (pass == 0)
  unserved : ∀ pass ≤ count + 1,
    (machine.before pass).core.interrupts = machine.core.service.1.interrupts
  ended : machine.step.1 = (machine.before (count + 1)).mapCore Core.endBlock
  clean : machine.step.1.core.regs.rptc = 0 ∧ machine.step.1.core.firstPass = true ∧
    machine.step.1.core.flow = .normal ∧ machine.step.1.core.regs.pfc = machine.step.1.core.regs.pc
  clocks : machine.step.2 = machine.core.service.2 +
    (clk + clk + machine.block.passClocks machine.block.op (count + 1))
  clocksUnserved : machine.core.pendingSource? = none →
    machine.step.2 = clk + clk + machine.block.passClocks machine.block.op (count + 1)

/-- A repeat instruction arms a block of its count. -/
theorem armed_of_repeat {machine : Machine}
    (hrepeat : machine.ready.op = .rpt ∨ machine.ready.op = .rptk) :
    machine.armed.core.regs.rptc = machine.ready.repeatCount ∧
      machine.armed.core.flow = .repeatBlock ∧ (machine.ready.execute machine.ready.op).2 = 0 := by
  rcases hrepeat with hop | hop
  · have hother : ¬ (Op.rpt = Op.rptk) := by decide
    rw [armed, repeatCount, hop, if_neg hother]
    exact ⟨rfl, rfl, rfl⟩
  · rw [armed, repeatCount, hop, if_pos rfl]
    exact ⟨rfl, rfl, rfl⟩

/-- Up to the first execution of a step nothing moves the mark of the first pass. -/
theorem ready_firstPass (machine : Machine) :
    machine.ready.core.firstPass = machine.core.firstPass := by
  rw [ready, fetch_core]
  exact machine.core.service_firstPass

/-- Entering a block leaves the mark and the counter. -/
theorem enterBlock_core (machine : Machine) :
    machine.enterBlock.core.firstPass = machine.core.firstPass ∧
      machine.enterBlock.core.regs.rptc = machine.core.regs.rptc := by
  change machine.fetch.core.firstPass = _ ∧ machine.fetch.core.regs.rptc = _
  rw [fetch_core]
  exact ⟨rfl, rfl⟩

/-- The first pass finds the mark set and the count in place, and no request is served before it. -/
theorem block_core {machine : Machine} (hfirst : machine.core.firstPass = true)
    (hrepeat : machine.ready.op = .rpt ∨ machine.ready.op = .rptk) :
    machine.block.core.firstPass = true ∧
      machine.block.core.regs.rptc = machine.ready.repeatCount ∧
      machine.core.service.1.QuietTo machine.block.core := by
  obtain ⟨hcount, -, -⟩ := armed_of_repeat hrepeat
  obtain ⟨hmark, hcounter⟩ := machine.armed.enterBlock_core
  have harmed := (machine.ready.execute_block machine.ready.op).1.trans machine.ready_firstPass
  have hquiet := machine.ready_quiet.trans (machine.ready.execute_quiet machine.ready.op)
  exact ⟨(hmark.trans harmed).trans hfirst, hcounter.trans hcount,
    hquiet.trans machine.armed.enterBlock_quiet⟩

/-- What the first pass finds of a block that RPTK arms: since the service two words have been fetched,
and a count has been set. -/
theorem block_of_rptk {machine : Machine} (hrptk : machine.ready.op = .rptk) :
    machine.block.core.regs = { machine.served.core.regs with
        pc := machine.served.core.regs.pc + 2, rptc := lowByte machine.ready.core.opcode } ∧
      machine.block.core.ram = machine.served.core.ram := by
  have harmed : machine.armed = machine.ready.mapCore
      (·.armRepeat (lowByte machine.ready.core.opcode)) := by
    rw [armed, hrptk]
    rfl
  have hready : machine.ready.core.regs =
        { machine.served.core.regs with pc := machine.served.core.regs.pc + 1 } ∧
      machine.ready.core.ram = machine.served.core.ram := by
    rw [ready, fetch_core]
    exact ⟨rfl, rfl⟩
  change machine.armed.fetch.core.regs = _ ∧ machine.armed.fetch.core.ram = _
  rw [fetch_core, harmed]
  dsimp only [mapCore, Core.armRepeat]
  rw [hready.1, BitVec.add_assoc]
  exact ⟨rfl, hready.2⟩

/-- The clocks of a step that comes to a block. -/
theorem step_clocks_of_block {machine : Machine} (hflow : machine.armed.core.flow = .repeatBlock) :
    machine.step.2 = machine.core.service.2 +
      ((decode machine.ready.core.opcode).cycles * clk +
        (machine.ready.execute machine.ready.op).2 + machine.armed.repeatBlock.2) := by
  have hblock : machine.armed.blockClocks = machine.armed.repeatBlock.2 := by
    rw [blockClocks, hflow]
  rw [step_clocks, ← hblock]
  rfl

/-- A step over a repeat instruction ends where the passes of its block do. -/
theorem step_of_repeat {machine : Machine} (hrepeat : machine.ready.op = .rpt ∨ machine.ready.op = .rptk)
    (hrpt : machine.block.op ≠ .rpt) (hrptk : machine.block.op ≠ .rptk) :
    machine.step.1 =
      (machine.before (machine.ready.repeatCount.toNat + 1)).mapCore Core.endBlock := by
  obtain ⟨hcount, hflow, -⟩ := armed_of_repeat hrepeat
  have hpasses := passes_eq hrpt hrptk passLimit clk machine.block.rptc_lt_passLimit
  have hcounter : machine.block.core.regs.rptc = machine.ready.repeatCount :=
    machine.armed.enterBlock_core.2.trans hcount
  have harmed : (machine.ready.execute machine.ready.op).1.core.flow = .repeatBlock := hflow
  rw [step_machine]
  dsimp only
  rw [harmed]
  dsimp only
  rw [repeatBlock_machine]
  change (machine.block.passes machine.block.op clk passLimit).1.mapCore Core.endBlock = _
  rw [hpasses, hcounter]
  rfl

/-- A step over a repeat instruction repeats the instruction that follows, once more than the count
says. -/
theorem repeatsBlock {machine : Machine} (hfirst : machine.core.firstPass = true)
    (hrepeat : machine.ready.op = .rpt ∨ machine.ready.op = .rptk)
    (hrpt : machine.block.op ≠ .rpt) (hrptk : machine.block.op ≠ .rptk) :
    machine.RepeatsBlock machine.ready.repeatCount.toNat := by
  obtain ⟨-, hflow, hextra⟩ := armed_of_repeat hrepeat
  obtain ⟨hmarked, hcount, hquiet⟩ := block_core hfirst hrepeat
  -- The counter is a byte, so the passes end by themselves before the limit.
  have hlimit := machine.block.rptc_lt_passLimit
  have hpasses := passes_eq hrpt hrptk passLimit clk hlimit
  have hexecutions := passExecutions_eq hrpt hrptk passLimit hlimit
  rw [hcount] at hpasses hexecutions
  have hbefore (pass : Nat) := beforePass_core hrpt hrptk machine.block hmarked pass
  have hended := step_of_repeat hrepeat hrpt hrptk
  have hclocks : machine.step.2 = machine.core.service.2 +
      (clk + clk + machine.block.passClocks machine.block.op (machine.ready.repeatCount.toNat + 1)) := by
    have hblock : machine.armed.repeatBlock.2 =
        (machine.block.passes machine.block.op clk passLimit).2 := rfl
    rw [step_clocks_of_block hflow, hextra, cycles_of_repeat hrepeat, hblock, hpasses, Nat.one_mul,
      Nat.add_zero, Nat.add_assoc clk]
  have hfetched : machine.block.core.opcode =
        (machine.armed.readProgram machine.armed.core.regs.pc).1 ∧
      machine.block.core.regs.pc = machine.armed.core.regs.pc + 1 := by
    change machine.armed.fetch.core.opcode = _ ∧ machine.armed.fetch.core.regs.pc = _
    rw [fetch_core]
    exact ⟨rfl, rfl⟩
  constructor
  case fetched => exact hfetched.1
  case fetchedOnce => exact ⟨hfetched.2, fun pass _ => (hbefore pass).2.1⟩
  case executions =>
    change _ :: machine.armed.blockExecutions = _
    rw [blockExecutions, hflow]
    exact congrArg (List.cons _) hexecutions
  case firstPass => exact fun pass _ => (hbefore pass).1
  case unserved => exact fun pass _ => (hquiet.trans (hbefore pass).2.2.2).interrupts
  case ended => exact hended
  case clean =>
    rw [hended]
    exact ⟨rfl, rfl, rfl, rfl⟩
  case clocks => exact hclocks
  case clocksUnserved =>
    intro hnone
    rw [hclocks, Core.service, hnone, Nat.zero_add]

end Machine

/-! ## Between steps -/

/-- A core that is in no repeat block. -/
structure Core.OutOfBlock (core : Core) : Prop where
  flow : core.flow = .normal
  firstPass : core.firstPass = true

namespace Core

/-- A run keeps it out of one between its steps. -/
theorem keptBetweenSteps_outOfBlock : KeptBetweenSteps OutOfBlock where
  service core h := ⟨core.service_flow.trans h.flow, core.service_firstPass.trans h.firstPass⟩
  countClocks core budget clocks h :=
    core.holds_countClocks budget clocks fun _ _ _ _ _ => ⟨h.flow, h.firstPass⟩
  report _ _ h := ⟨h.flow, h.firstPass⟩
  spend _ _ h := ⟨h.flow, h.firstPass⟩
  hold _ _ h := ⟨h.flow, h.firstPass⟩

/-- A core at power on is in no block. -/
theorem outOfBlock_new (model : Model) : (new model).OutOfBlock := ⟨rfl, rfl⟩

/-- A core after a reset is in no block. -/
theorem outOfBlock_reset (core : Core) : core.reset.OutOfBlock := ⟨rfl, rfl⟩

/-- So does the host. -/
theorem keptByHost_outOfBlock : KeptByHost OutOfBlock where
  reset core _ := core.outOfBlock_reset
  line core line asserted h := core.holds_setInputLine line asserted fun _ _ _ => ⟨h.flow, h.firstPass⟩
  bio _ _ h := ⟨h.flow, h.firstPass⟩
  hold _ _ h := ⟨h.flow, h.firstPass⟩
  serialInput _ _ h := ⟨h.flow, h.firstPass⟩
  serialOutput _ h := ⟨h.flow, h.firstPass⟩
  poke core path value h :=
    core.holds_poke path value (fun _ _ => ⟨h.flow, h.firstPass⟩) fun _ _ => ⟨h.flow, h.firstPass⟩

end Core

/-- A step ends out of any block: one that it arms is over by then. -/
theorem keptBySteps_outOfBlock (fair : Machine × Op → Prop) : KeptBySteps Core.OutOfBlock fair := by
  intro machine h _
  rw [Machine.step_machine]
  dsimp only
  split
  · next hflow =>
    have hkept := (machine.ready.execute_block machine.ready.op).1.trans machine.ready_firstPass
    exact ⟨hflow, hkept.trans h.firstPass⟩
  · exact ⟨rfl, rfl⟩

/-- A repeat block executes the instruction that follows exactly once more than its count says, and no
core that a host can reach is left inside one. -/
theorem repeat_blocks :
    (∀ machine : Machine, machine.core.OutOfBlock →
      machine.ready.op = .rpt ∨ machine.ready.op = .rptk →
      machine.block.op ≠ .rpt → machine.block.op ≠ .rptk →
        machine.RepeatsBlock machine.ready.repeatCount.toNat) ∧
      ∀ (model : Model) (fair : Machine × Op → Prop) (machine : Machine),
        Reached model fair machine → machine.core.OutOfBlock := by
  refine ⟨fun machine h hrepeat hrpt hrptk => ?_, fun model fair machine h => ?_⟩
  · exact Machine.repeatsBlock h.firstPass hrepeat hrpt hrptk
  · exact h.holds Core.keptBetweenSteps_outOfBlock Core.keptByHost_outOfBlock
      (keptBySteps_outOfBlock fair) (Core.outOfBlock_new model) fun core _ _ => core.outOfBlock_reset

/-- RPTK 3 before ADDK 5: four passes, six machine cycles. -/
theorem repeat_blocks_addk :
    let machine : Machine := ⟨.new .tms32025, Bus.empty.loadHalves .program 0 [0xCB03, 0xCC05]⟩
    machine.RepeatsBlock 3 ∧ machine.step.1.core.regs.acc = 20 ∧ machine.step.2 = 6 * clk := by
  intro machine
  have hblock := repeat_blocks.1 machine ⟨rfl, rfl⟩ (.inr (by decide +kernel)) (by decide +kernel)
    (by decide +kernel)
  have hcount : machine.ready.repeatCount.toNat = 3 := by decide +kernel
  rw [hcount] at hblock
  exact ⟨hblock, by decide +kernel, by decide +kernel⟩

end ProcessorCores.Tms

import ProcessorCores.Proofs.Romp.Return

/-!
# What ROMP instructions show in the condition status

A computation describes what it shows as an effect, and an effect changes only the flags that it is
about. Sums and differences show carry and overflow besides the order of their result, the other
computations of a condition show the order alone, and moves to the test bit show nothing but that bit.

Every other instruction leaves the condition status alone, except those that load it whole: a load of
the program status, and a write of the register by its number. Of the exceptions only an external
interrupt loads it. So a step says all that it changes in the status by the operation that it executes.
-/

namespace ProcessorCores.Romp

/-! ## Flags -/

/-- The sign bit tells the negative words. -/
theorem msb_iff (value : Word) : value.msb = true ↔ value.toInt < 0 := by
  rw [BitVec.msb_eq_toInt, decide_eq_true_iff]

namespace Flag

/-- The flags that order a result against zero. -/
def ordering : List Flag := [.less, .equal, .greater]

/-- The ordering flags are the three that tell a sign. -/
theorem mem_ordering {flag : Flag} : flag ∈ ordering ↔ flag = .less ∨ flag = .equal ∨ flag = .greater := by
  simp [ordering]

/-- The flag of a result is an ordering flag. -/
theorem ofResult_mem (result : Word) : ofResult result ∈ ordering := by
  unfold ofResult
  split
  · decide
  · split <;> decide

/-- The flag of a result is Equal when the result is zero. -/
theorem ofResult_eq_equal_iff (result : Word) : ofResult result = .equal ↔ result.toInt = 0 := by
  rw [← BitVec.toInt_zero (w := 32), BitVec.toInt_inj, ofResult]
  split
  · next hzero => exact iff_of_true rfl hzero
  · next hzero => split <;> exact iff_of_false Flag.noConfusion hzero

/-- The flag of a result is Less when the result is negative. -/
theorem ofResult_eq_less_iff (result : Word) : ofResult result = .less ↔ result.toInt < 0 := by
  rw [ofResult, ← msb_iff]
  split
  · next hzero =>
    subst hzero
    decide
  · cases result.msb <;> decide

/-- The flag of a result is Greater when the result is positive. -/
theorem ofResult_eq_greater_iff (result : Word) : ofResult result = .greater ↔ 0 < result.toInt := by
  have hless := ofResult_eq_less_iff result
  have hequal := ofResult_eq_equal_iff result
  have hmem := ofResult_mem result
  -- One of the three describes the result, so the third does if the other two do not.
  cases hflag : ofResult result with
  | greater =>
    rw [hflag] at hless hequal
    have hnot : ¬ result.toInt < 0 ∧ ¬ result.toInt = 0 :=
      ⟨fun h => Flag.noConfusion (hless.mpr h), fun h => Flag.noConfusion (hequal.mpr h)⟩
    exact iff_of_true rfl (by omega)
  | less =>
    have hnegative := hless.mp hflag
    exact iff_of_false Flag.noConfusion (by omega)
  | equal =>
    have hzero := hequal.mp hflag
    exact iff_of_false Flag.noConfusion (by omega)
  | carry | overflow | test =>
    rw [hflag] at hmem
    exact absurd hmem (by decide)

end Flag

namespace Condition

/-- Of the three ordering flags exactly one is set, the one that describes a result. -/
structure Orders (condition : Condition) (result : Word) : Prop where
  less : condition.has .less = true ↔ result.toInt < 0
  equal : condition.has .equal = true ↔ result.toInt = 0
  greater : condition.has .greater = true ↔ 0 < result.toInt

/-- A put changes no bit outside its mask. -/
theorem getLsbD_put (condition : Condition) (flag : Flag) (on : Bool) (bit : Nat) :
    (condition.put flag on).raw.getLsbD bit =
      if flag.mask.getLsbD bit then on else condition.raw.getLsbD bit :=
  getLsbD_assign _ _ _ _

/-- A condition orders a result if, of the ordering flags, the flag of the result alone is set. -/
theorem orders_of_has {condition : Condition} {result : Word}
    (h : ∀ flag ∈ Flag.ordering, condition.has flag = decide (flag = Flag.ofResult result)) :
    condition.Orders result where
  less := by
    rw [h _ (by decide), decide_eq_true_iff, eq_comm, Flag.ofResult_eq_less_iff]
  equal := by
    rw [h _ (by decide), decide_eq_true_iff, eq_comm, Flag.ofResult_eq_equal_iff]
  greater := by
    rw [h _ (by decide), decide_eq_true_iff, eq_comm, Flag.ofResult_eq_greater_iff]

/-- A condition that orders a result has the flag of the result and no other ordering flag. -/
theorem Orders.has_iff {condition : Condition} {result : Word} (h : condition.Orders result) {flag : Flag}
    (hflag : flag ∈ Flag.ordering) : condition.has flag = true ↔ flag = Flag.ofResult result := by
  obtain rfl | rfl | rfl := Flag.mem_ordering.mp hflag
  · exact h.less.trans ((Flag.ofResult_eq_less_iff result).symm.trans eq_comm)
  · exact h.equal.trans ((Flag.ofResult_eq_equal_iff result).symm.trans eq_comm)
  · exact h.greater.trans ((Flag.ofResult_eq_greater_iff result).symm.trans eq_comm)

/-- Flags put beside them leave the ordering flags. -/
theorem Orders.put {condition : Condition} {result : Word} (h : condition.Orders result) {flag : Flag}
    (hflag : flag ∉ Flag.ordering) (on : Bool) : (condition.put flag on).Orders result := by
  have hkept {other : Flag} (hother : other ∈ Flag.ordering) :
      (condition.put flag on).has other = condition.has other := by
    have hne : other ≠ flag := fun hsame => hflag (hsame ▸ hother)
    rw [has_put, if_neg hne]
  exact ⟨by rw [hkept (by decide), h.less], by rw [hkept (by decide), h.equal],
    by rw [hkept (by decide), h.greater]⟩

/-- The logical flags order the result. -/
theorem setLogical_orders (condition : Condition) (result : Word) :
    (condition.setLogical result).Orders result := by
  apply orders_of_has
  intro flag hflag
  simp only [setLogical, has_put]
  by_cases hsame : flag = Flag.ofResult result
  · rw [if_pos hsame, decide_eq_true hsame]
  · rw [if_neg hsame, decide_eq_false hsame]
    obtain rfl | rfl | rfl := Flag.mem_ordering.mp hflag <;> rfl

end Condition

/-- The condition status shows the effect of an outcome. -/
theorem Outcome.apply_cs (outcome : Outcome) (regs : Registers) :
    (outcome.apply regs).cs = (outcome.effect.apply regs.condition).raw :=
  Bank.get_set_self _ _ _

/-! ## Effects -/

namespace ConditionEffect

/-- The flags that an effect is about. -/
def flags : ConditionEffect → List Flag
  | .keep => []
  | .logical _ => Flag.ordering
  | .sum _ _ | .difference _ _ => Flag.ordering ++ [.carry, .overflow]
  | .test _ => [.test]

/-- The result that an effect orders against zero. -/
def result? : ConditionEffect → Option Word
  | .logical result => some result
  | .sum a b => some (a + b)
  | .difference a b => some (a - b)
  | .keep | .test _ => none

/-- A bit that belongs to none of these flags is left as it was. -/
theorem getLsbD_apply (effect : ConditionEffect) (condition : Condition) {bit : Nat}
    (h : ∀ flag ∈ effect.flags, flag.mask.getLsbD bit = false) :
    (effect.apply condition).raw.getLsbD bit = condition.raw.getLsbD bit := by
  have hlogical (result : Word) (h : ∀ flag ∈ Flag.ordering, flag.mask.getLsbD bit = false) :
      (condition.setLogical result).raw.getLsbD bit = condition.raw.getLsbD bit := by
    have hresult := h _ (Flag.ofResult_mem result)
    have hless := h .less (by decide)
    have hequal := h .equal (by decide)
    have hgreater := h .greater (by decide)
    simp [Condition.setLogical, Condition.getLsbD_put, hresult, hless, hequal, hgreater]
  have hjudged (result : Word) (carry overflow : Bool)
      (h : ∀ flag ∈ Flag.ordering ++ [.carry, .overflow], flag.mask.getLsbD bit = false) :
      (((condition.setLogical result).put .carry carry).put .overflow overflow).raw.getLsbD bit =
        condition.raw.getLsbD bit := by
    have hcarry := h .carry (by decide)
    have hoverflow := h .overflow (by decide)
    have hordering := hlogical result fun flag hflag => h flag (List.mem_append_left _ hflag)
    simp [Condition.getLsbD_put, hcarry, hoverflow, hordering]
  cases effect with
  | keep => rfl
  | logical result => exact hlogical result h
  | sum a b => exact hjudged _ _ _ h
  | difference a b => exact hjudged _ _ _ h
  | test on =>
    have htest := h .test (List.mem_singleton_self _)
    exact (Condition.getLsbD_put _ _ _ _).trans (by rw [htest, if_neg Bool.false_ne_true])

/-- Any other flag shows what it did. -/
theorem apply_has (effect : ConditionEffect) (condition : Condition) {flag : Flag}
    (h : flag ∉ effect.flags) : (effect.apply condition).has flag = condition.has flag := by
  obtain ⟨bit, hbit, hmask, hothers⟩ := Condition.mask_eq_twoPow flag
  rw [Condition.has, Condition.has, hmask, meets_twoPow _ hbit, meets_twoPow _ hbit]
  refine effect.getLsbD_apply condition fun other hother => ?_
  rw [hothers, beq_eq_false_iff_ne]
  exact fun hsame => h (hsame ▸ hother)

/-- Under a mask that covers the flags of an effect, the other bits are left as they were. -/
theorem apply_beside (effect : ConditionEffect) (condition : Condition) {mask : Word}
    (h : ∀ flag ∈ effect.flags, flag.mask &&& ~~~mask = 0) :
    (effect.apply condition).raw &&& ~~~mask = condition.raw &&& ~~~mask := by
  apply BitVec.eq_of_getLsbD_eq
  intro bit hbit
  rw [BitVec.getLsbD_and, BitVec.getLsbD_and]
  cases hmask : (~~~mask).getLsbD bit with
  | false => simp
  | true =>
    have hflags : ∀ flag ∈ effect.flags, flag.mask.getLsbD bit = false := by
      intro flag hflag
      have hclear := congrArg (·.getLsbD bit) (h flag hflag)
      simpa [hmask] using hclear
    rw [effect.getLsbD_apply condition hflags]

/-- The bits outside all flags never change. -/
theorem apply_outside (effect : ConditionEffect) (condition : Condition) :
    (effect.apply condition).raw &&& ~~~0x7B = condition.raw &&& ~~~0x7B :=
  effect.apply_beside condition fun flag _ => by cases flag <;> decide

/-- To order a result is to change none but the ordering flags. -/
theorem logical_beside (result : Word) (condition : Condition) :
    (condition.setLogical result).raw &&& ~~~0x70 = condition.raw &&& ~~~0x70 :=
  (ConditionEffect.logical result).apply_beside condition fun flag hflag => by
    obtain rfl | rfl | rfl := Flag.mem_ordering.mp hflag <;> decide

/-- A result that is ordered is described by the flag that is set. -/
theorem apply_orders {effect : ConditionEffect} {result : Word} (condition : Condition)
    (h : effect.result? = some result) : (effect.apply condition).Orders result := by
  have hjudged (result : Word) (carry overflow : Bool) :
      (((condition.setLogical result).put .carry carry).put .overflow overflow).Orders result :=
    ((condition.setLogical_orders result).put (by decide) carry).put (by decide) overflow
  cases effect with
  | keep | test _ => contradiction
  | logical _ =>
    obtain rfl := Option.some.inj h
    exact condition.setLogical_orders _
  | sum a b =>
    obtain rfl := Option.some.inj h
    exact hjudged _ _ _
  | difference a b =>
    obtain rfl := Option.some.inj h
    exact hjudged _ _ _

end ConditionEffect

/-! ## Computations -/

namespace ComputeOp

/-- The sums and differences. -/
def sums : List ComputeOp := [.ai, .aei, .sfi, .ais, .sis, .sf, .a, .s, .twoc, .ae, .se]

/-- The logical operations on two operands. -/
def logicals : List ComputeOp :=
  [.oiu, .oil, .o, .nilz, .nilo, .niuz, .niuo, .n, .xil, .xiu, .x]

/-- The comparisons. -/
def comparisons : List ComputeOp := [.cli, .ci, .cis, .cl, .c]

/-- The shifts, those into the other register of a pair included. -/
def shifts : List ComputeOp :=
  [.sari, .sari16, .sar, .sri, .sri16, .sr, .sli, .sli16, .sl,
    .srpi, .srpi16, .srp, .slpi, .slpi16, .slp]

/-- The computations that compute a condition: these, the changes of one bit, the extension of a sign
and the complement. -/
def judging : List ComputeOp :=
  sums ++ logicals ++ comparisons ++ shifts ++ [.clrbu, .clrbl, .setbu, .setbl, .exts, .onec]

/-- The moves to the test bit. -/
def testMoves : List ComputeOp := [.mttb, .mttbiu, .mttbil]

/-- The 32-bit result of a computation: the difference of what it compares, or what it leaves in its
register, which for a paired shift is the other one of the pair. -/
def result (op : ComputeOp) (instruction : Instruction) (before after : Registers) : Word :=
  match op with
  | .cli | .ci => before.gpr.get instruction.r3 - instruction.immediate
  | .cis => before.gpr.get instruction.r2 - instruction.shortImmediate
  | .cl | .c => before.gpr.get instruction.r2 - before.gpr.get instruction.r3
  | .srpi | .srpi16 | .srp | .slpi | .slpi16 | .slp => after.gpr.get instruction.twin
  | _ => after.gpr.get instruction.r2

/-- The flags that a computation may change. -/
def flags (op : ComputeOp) : List Flag :=
  if op ∈ sums then Flag.ordering ++ [.carry, .overflow]
  else if op ∈ judging then Flag.ordering
  else if op ∈ testMoves then [.test]
  else []

/-- After the computation only the general registers count. -/
theorem result_congr {op : ComputeOp} {instruction : Instruction} {before after other : Registers}
    (h : after.gpr = other.gpr) :
    op.result instruction before after = op.result instruction before other := by
  simp only [result, h]

variable (op : ComputeOp) (instruction : Instruction) (regs : Registers)

/-- The effect of an operation names the flags that the operation may change. -/
theorem compute_flags : (compute op instruction regs).effect.flags = op.flags := by
  cases op <;> rfl

/-- What a computation of a condition orders is its result. -/
theorem compute_result? (h : op ∈ judging) :
    (compute op instruction regs).effect.result? =
      some (op.result instruction regs ((compute op instruction regs).apply regs)) := by
  cases op <;> first
    | exact absurd h (by decide)
    | rfl
    | exact congrArg some (Bank.get_set_self _ _ _).symm

variable {op} {flag : Flag}

/-- An operation that changes a flag other than the ordering and Test flags is a sum. -/
theorem mem_sums_of_flags (hordering : flag ∉ Flag.ordering) (htest : flag ≠ .test)
    (h : flag ∈ op.flags) : op ∈ sums := by
  unfold flags at h
  split at h
  · assumption
  · split at h
    · contradiction
    · split at h
      · exact absurd (List.mem_singleton.mp h) htest
      · exact absurd h List.not_mem_nil

/-- An operation that changes Test moves a bit into it. -/
theorem mem_testMoves_of_flags (h : Flag.test ∈ op.flags) : op ∈ testMoves := by
  unfold flags at h
  split at h
  · exact absurd h (by decide)
  · split at h
    · exact absurd h (by decide)
    · split at h
      · assumption
      · exact absurd h (by decide)

/-- Any other operation changes no flag. -/
theorem flags_eq_nil (h : op ∉ judging ++ testMoves) : op.flags = [] := by
  rw [List.mem_append, not_or] at h
  have hsums : op ∉ sums := fun hmem => h.1 (by simp [judging, hmem])
  rw [flags, if_neg hsums, if_neg h.1, if_neg h.2]

end ComputeOp

/-! ## Instructions that load the status -/

/-- True for the instructions that load the condition status whole: a load of the program status, and
a write of the register by its number. -/
def Op.LoadsCondition (op : Op) (instruction : Instruction) : Prop :=
  op = .lps ∨ ∃ control ∈ [ControlOp.mts, .setsb, .clrsb],
    op = .control control ∧ instruction.r2 = Scr.cs

/-- Whether an instruction loads the condition is decided by its operation and its register. -/
instance (op : Op) (instruction : Instruction) : Decidable (op.LoadsCondition instruction) :=
  inferInstanceAs (Decidable (_ ∨ _))

/-- Of the control registers the end of a step writes no more than the instruction address. -/
theorem Core.endStep_scr (core : Core) (next : Word) {r : Reg} (h : r ≠ Scr.iar) :
    (core.endStep next).regs.scr.get r = core.regs.scr.get r := by
  have hiar (address : Word) : (core.regs.setScr Scr.iar address).scr.get r = core.regs.scr.get r :=
    (Bank.get_set ..).trans (if_neg h)
  unfold endStep
  split
  · exact hiar _
  · exact hiar _
  · exact hiar _
  · rfl

/-- The end of a step leaves the registers and the condition. -/
theorem Core.endStep_regs (core : Core) (next : Word) :
    (core.endStep next).regs.gpr = core.regs.gpr ∧ (core.endStep next).regs.cs = core.regs.cs := by
  refine ⟨?_, core.endStep_scr next (by decide)⟩
  unfold endStep
  split <;> rfl

namespace Machine

/-- Only an external interrupt loads a condition status. -/
theorem enter_cs (machine : Machine) {cause : Exception} (h : cause.loadsCondition = false) :
    (machine.enter cause).core.regs.cs = machine.core.regs.cs := by
  rw [Registers.cs, enter_regs, Exception.load_cs, h, if_neg Bool.false_ne_true, Registers.cs]

/-- A program check leaves the condition. -/
theorem programCheck_cs (machine : Machine) (status : Word) :
    (machine.programCheck status).core.regs.cs = machine.core.regs.cs := by
  rw [programCheck_eq, enter_cs _ rfl]
  exact (machine.noteCheck_noted _ _ _).scr Scr.cs (by decide)

/-- A multiple load leaves the condition. -/
theorem loadRegisters_cs (machine : Machine) (r : Reg) (address : Word) (count : Nat) :
    (machine.loadRegisters r address count).core.regs.cs = machine.core.regs.cs := by
  obtain ⟨_, hloaded⟩ := machine.loadRegisters_core r address count
  rw [hloaded]
  rfl

/-- A write of another control register by its number leaves the status. -/
theorem control_cs (core : Core) (op : ControlOp) (instruction : Instruction) (next : Word)
    (h : ¬ (Op.control op).LoadsCondition instruction) :
    (core.control op instruction next).regs.cs = core.regs.cs := by
  have hwritten (value : Word) (hr : instruction.r2 ≠ Scr.cs) :
      (core.writeScr instruction.r2 value).regs.cs = core.regs.cs := by
    rw [Core.writeScr_regs]
    exact (Bank.get_set ..).trans (if_neg hr.symm)
  have hne (hmem : op ∈ [ControlOp.mts, .setsb, .clrsb]) : instruction.r2 ≠ Scr.cs :=
    fun hr => h (.inr ⟨op, hmem, rfl, hr⟩)
  cases op with
  | mfs => rfl
  | mts => exact hwritten _ (hne (by decide))
  | clrsb => exact hwritten _ (hne (by decide))
  | setsb => exact hwritten _ (hne (by decide))

/-- Every operation that is no computation and does not load the status leaves it. -/
theorem execute_cs (machine : Machine) {op : Op} (instruction : Instruction) (next : Word)
    (hcompute : ∀ compute, op ≠ .compute compute) (hloads : ¬ op.LoadsCondition instruction) :
    (machine.execute op instruction next).1.core.regs.cs = machine.core.regs.cs := by
  cases op with
  | compute op => exact absurd rfl (hcompute op)
  | load op => cases op <;> rfl
  | store op => exact congrArg (·.regs.cs) (machine.store_core op instruction)
  | tsh => rfl
  | lm => exact machine.loadRegisters_cs _ _ _
  | stm => exact congrArg (·.regs.cs) (machine.storeRegisters_core _ _ _)
  | port op =>
    simp only [execute, accessPort]
    split
    · cases op <;> rfl
    · exact machine.programCheck_cs _
  | trap op =>
    simp only [execute]
    split
    · exact machine.programCheck_cs _
    · rfl
  | branch op =>
    simp only [execute, Core.branch]
    split
    · cases op.link? instruction <;> rfl
    · rfl
  | control op => exact control_cs machine.core op instruction next hloads
  | svc => exact machine.enter_cs rfl
  | lps => exact absurd (.inl rfl) hloads
  | illegal => exact machine.programCheck_cs _

/-! ## Steps -/

/-- Where it may stand, the operation of the next step is executed after its fetch, and then the step ends. -/
theorem step_of_operation {machine : Machine} {op : Op} (h : machine.operation? = some op)
    (hslot : ¬ (machine.core.flow = .branchPending ∧ op.isBranchClass)) :
    machine.step =
      let executed := machine.fetch.2.2.execute op machine.current machine.following
      (executed.1.mapCore (·.endStep machine.following),
        (decode machine.current.word).cycles + executed.2) := by
  obtain ⟨hpending, hop⟩ := operation?_eq_some_iff.mp h
  rw [current] at hop
  rw [step_eq, entered_of_not_pending hpending]
  dsimp only
  rw [executeNext]
  dsimp only
  rw [machine.fetch_core, hop, if_neg hslot]
  rfl

/-- A step that executes a computation applies its outcome and ends. -/
theorem step_core_of_compute {machine : Machine} {op : ComputeOp}
    (h : machine.operation? = some (.compute op)) :
    ∃ core : Core, core.regs = (compute op machine.current machine.core.regs).apply machine.core.regs ∧
      machine.step.1.core = core.endStep machine.following := by
  refine ⟨_, ?_, congrArg (·.1.core) (step_of_operation h fun hslot => Bool.false_ne_true hslot.2)⟩
  rw [← machine.fetch_core]
  rfl

/-- A step of an operation on registers applies its outcome to the registers. -/
theorem step_of_compute {machine : Machine} {op : ComputeOp}
    (h : machine.operation? = some (.compute op)) :
    let applied := (compute op machine.current machine.core.regs).apply machine.core.regs
    machine.step.1.core.regs.gpr = applied.gpr ∧ machine.step.1.core.regs.cs = applied.cs := by
  obtain ⟨core, hregs, hstep⟩ := step_core_of_compute h
  rw [hstep, ← hregs]
  exact core.endStep_regs _

/-- Of the control registers a computation writes no more than the condition status. -/
theorem step_scr_of_compute {machine : Machine} {op : ComputeOp}
    (h : machine.operation? = some (.compute op)) {r : Reg} (hiar : r ≠ Scr.iar) (hcs : r ≠ Scr.cs) :
    machine.step.1.core.regs.scr.get r = machine.core.regs.scr.get r := by
  obtain ⟨core, hregs, hstep⟩ := step_core_of_compute h
  rw [hstep, core.endStep_scr _ hiar, hregs, Outcome.apply]
  refine (Bank.get_set ..).trans ((if_neg hcs).trans ?_)
  split <;> rfl

/-- A step that executes anything else, or takes a machine check, leaves the status. -/
theorem step_cs {machine : Machine}
    (hexternal : ∀ level, machine.pendingException? ≠ some (.interrupt level))
    (hloads : ∀ op ∈ machine.operation?, ¬ op.LoadsCondition machine.current)
    (hcompute : ∀ op, machine.operation? ≠ some (.compute op)) :
    machine.step.1.core.regs.cs = machine.core.regs.cs := by
  rw [step_eq]
  cases hpending : machine.pendingException? with
  | some cause =>
    obtain ⟨noted, hnoted, hentry⟩ := entered_of_pending hpending
    have hcause : cause.loadsCondition = false := by
      cases cause with
      | interrupt level => exact absurd hpending (hexternal level)
      | machineCheck | programCheck | supervisorCall _ => rfl
    have hentered := hnoted.entered_cs cause (noted.enter cause).core.regs.iar
    rw [hcause, if_neg Bool.false_ne_true] at hentered
    rw [hentry]
    exact hentered
  | none =>
    have hop := operation?_eq_some_iff.mpr ⟨hpending, rfl⟩
    have hexecuted : machine.executed.core.regs.cs = machine.core.regs.cs := by
      rw [← machine.fetch_core]
      unfold executed
      dsimp only
      split
      · exact machine.fetch.2.2.programCheck_cs _
      · refine machine.fetch.2.2.execute_cs _ _ (fun op hsame => ?_) (hloads _ hop)
        exact hcompute op (hop.trans (congrArg some hsame))
    rw [entered_of_not_pending hpending]
    dsimp only
    rw [executeNext_eq]
    exact (machine.executed.core.endStep_regs _).2.trans hexecuted

/-- What a step makes of the condition status that takes no external interrupt and whose instruction
does not load the status whole. -/
structure ConditionStep (before after : Machine) : Prop where
  outside : after.core.regs.cs &&& ~~~0x7B = before.core.regs.cs &&& ~~~0x7B
  sums : ∀ flag ∈ [Flag.carry, .overflow],
    after.core.regs.condition.has flag ≠ before.core.regs.condition.has flag →
      ∃ op ∈ ComputeOp.sums, before.operation? = some (.compute op)
  testMoves : after.core.regs.condition.has .test ≠ before.core.regs.condition.has .test →
    ∃ op ∈ ComputeOp.testMoves, before.operation? = some (.compute op)
  judging : ∀ op ∈ ComputeOp.judging, before.operation? = some (.compute op) →
    after.core.regs.condition.Orders (op.result before.current before.core.regs after.core.regs)
  others : (∀ op ∈ ComputeOp.judging ++ ComputeOp.testMoves,
    before.operation? ≠ some (.compute op)) → after.core.regs.cs = before.core.regs.cs

/-- The effect of a computation is all that its step does to the status. -/
theorem conditionStep_of_compute {machine : Machine} {op : ComputeOp}
    (hop : machine.operation? = some (.compute op)) : machine.ConditionStep machine.step.1 := by
  obtain ⟨hgpr, hcs⟩ := step_of_compute hop
  have hflags := op.compute_flags machine.current machine.core.regs
  have hresult := op.compute_result? machine.current machine.core.regs
  -- Which flags the outcome names and what it orders is all that is used of the computation.
  generalize compute op machine.current machine.core.regs = outcome at hgpr hcs hflags hresult
  have hshown : machine.step.1.core.regs.condition = outcome.effect.apply machine.core.regs.condition := by
    rw [Registers.condition, hcs, outcome.apply_cs]
  have hraw : machine.step.1.core.regs.cs = (outcome.effect.apply machine.core.regs.condition).raw :=
    congrArg Condition.raw hshown
  have hchanges {flag : Flag} (hchanged : machine.step.1.core.regs.condition.has flag ≠
      machine.core.regs.condition.has flag) : flag ∈ op.flags := by
    refine Decidable.byContradiction fun hflag => hchanged ?_
    rw [← hflags] at hflag
    rw [hshown, outcome.effect.apply_has _ hflag]
  constructor
  case outside => rw [hraw, outcome.effect.apply_outside]; rfl
  case sums =>
    intro flag hflag hchanged
    have hapart : ∀ flag ∈ [Flag.carry, .overflow], flag ∉ Flag.ordering ∧ flag ≠ .test := by decide
    obtain ⟨hordering, htest⟩ := hapart flag hflag
    exact ⟨op, ComputeOp.mem_sums_of_flags hordering htest (hchanges hchanged), hop⟩
  case testMoves => exact fun hchanged => ⟨op, ComputeOp.mem_testMoves_of_flags (hchanges hchanged), hop⟩
  case judging =>
    intro judged hmem hjudged
    obtain rfl : op = judged := Op.compute.inj (Option.some.inj (hop.symm.trans hjudged))
    have horders := outcome.effect.apply_orders machine.core.regs.condition (hresult hmem)
    rw [hshown, ComputeOp.result_congr hgpr]
    exact horders
  case others =>
    intro hnone
    have hempty : op.flags = [] := ComputeOp.flags_eq_nil fun hmem => hnone op hmem hop
    rw [hraw]
    apply BitVec.eq_of_getLsbD_eq
    intro bit _
    refine outcome.effect.getLsbD_apply _ fun flag hflag => ?_
    rw [hflags, hempty] at hflag
    contradiction

/-- A step that takes no external interrupt changes the condition status as its operation says: carry
and overflow in sums and differences, the test bit in moves to it, the ordering flags in computations of
a condition, which order their result, and nothing in all other instructions but those that load the
status whole. -/
theorem step_condition (machine : Machine)
    (hexternal : ∀ level, machine.pendingException? ≠ some (.interrupt level))
    (hloads : ∀ op ∈ machine.operation?, ¬ op.LoadsCondition machine.current) :
    machine.ConditionStep machine.step.1 := by
  by_cases hcompute : ∃ op, machine.operation? = some (.compute op)
  · obtain ⟨op, hop⟩ := hcompute
    exact conditionStep_of_compute hop
  · have hcompute := not_exists.mp hcompute
    have hcs := step_cs hexternal hloads hcompute
    have hkept (flag : Flag) : machine.step.1.core.regs.condition.has flag =
        machine.core.regs.condition.has flag := by
      rw [Registers.condition, hcs, ← Registers.condition]
    constructor
    case outside => rw [hcs]
    case sums => exact fun flag _ hchanged => absurd (hkept flag) hchanged
    case testMoves => exact fun hchanged => absurd (hkept .test) hchanged
    case judging => exact fun op _ hop => absurd hop (hcompute op)
    case others => exact fun _ => hcs

/-- Minus one added to a register of zeros: the sum is below zero and nothing else. -/
theorem step_condition_ai :
    let machine := started [0xC1, 0x12, 0xFF, 0xFF]
    (∀ level, machine.pendingException? ≠ some (.interrupt level)) ∧
      (∀ op ∈ machine.operation?, ¬ op.LoadsCondition machine.current) ∧
      machine.operation? = some (.compute .ai) ∧
      machine.step.1.core.regs.condition.Orders (machine.step.1.core.regs.gpr.get 1) ∧
      machine.step.1.core.regs.condition.has .less = true := by
  intro machine
  have hpending : machine.pendingException? = none := by decide +kernel
  have hop : machine.operation? = some (.compute .ai) := by decide +kernel
  have hexternal : ∀ level, machine.pendingException? ≠ some (.interrupt level) := by simp [hpending]
  have hloads : ∀ op ∈ machine.operation?, ¬ op.LoadsCondition machine.current := by
    rw [hop]
    rintro op ⟨rfl⟩
    decide
  have hr2 : machine.current.r2 = 1 := by decide +kernel
  have horders : machine.step.1.core.regs.condition.Orders
      (machine.step.1.core.regs.gpr.get machine.current.r2) :=
    (machine.step_condition hexternal hloads).judging .ai (by decide) hop
  rw [hr2] at horders
  exact ⟨hexternal, hloads, hop, horders, horders.less.mpr (by decide +kernel)⟩

end Machine

end ProcessorCores.Romp

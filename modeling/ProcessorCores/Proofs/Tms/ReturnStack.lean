import Mathlib.Logic.Function.Iterate
import ProcessorCores.Proofs.Tms.Operands
import ProcessorCores.Proofs.Tms.StraightCode

/-!
# The hardware stack as a stack

Eight entries that shift stand in for a stack without a bound. A push loses the lowest entry and a pop
copies it, so that after more pushes than there are entries the lowest are gone, and after more pops the
last one is read again and again. What is above is as on a stack: balanced pushes and pops give back the
entries that they have not driven off the lower end, which is a matter of how deep they nest.

Of the operations only CALL, CALA, TRAP, PUSH, PSHD, POP, POPD and RET move the stack, by one push or one
pop each, and a service pushes the address at which it is taken. So RET finds the return address of a call
or of a service once the code in between has popped what it has pushed, whether in further calls, handlers
or by itself, and has not nested deeper than seven.
-/

namespace ProcessorCores.Tms

/-! ## Entries -/

namespace Registers

/-- An entry of the stack counted from the top. The lowest entry is that of all depths from its own on. -/
def entry (regs : Registers) (depth : Nat) : Half := regs.stack[7 - depth]

/-- The entry at depth 0 is the top. -/
theorem entry_zero (regs : Registers) : regs.entry 0 = regs.top := rfl

/-- The entries are those of the stack alone. -/
theorem entry_congr {regs other : Registers} (h : other.stack = regs.stack) (depth : Nat) :
    other.entry depth = regs.entry depth := by
  simp only [entry, h]

/-- A pop brings every entry one place up, at all depths. -/
theorem entry_pop (regs : Registers) (depth : Nat) : regs.pop.entry depth = regs.entry (depth + 1) := by
  match depth with
  | 0 | 1 | 2 | 3 | 4 | 5 | 6 => rfl
  | depth + 7 =>
    have hlowest : 7 - (depth + 7) = 0 := by omega
    have hlowest' : 7 - (depth + 7 + 1) = 0 := by omega
    simp only [entry, hlowest, hlowest']
    rfl

/-- A push puts its value on top. -/
theorem entry_push_zero (regs : Registers) (value : Half) : (regs.push value).entry 0 = value := rfl

/-- A push brings the seven topmost entries one place down. -/
theorem entry_push_succ (regs : Registers) (value : Half) {depth : Nat} (h : depth < 7) :
    (regs.push value).entry (depth + 1) = regs.entry depth := by
  match depth with
  | 0 | 1 | 2 | 3 | 4 | 5 | 6 => rfl

/-- Pops read the entries from the top down, and the lowest from then on. -/
theorem top_iterate_pop (regs : Registers) (count : Nat) : (pop^[count] regs).top = regs.entry count := by
  rw [← entry_zero]
  induction count generalizing regs with
  | zero => rfl
  | succ count ih => rw [Function.iterate_succ_apply, ih, entry_pop]

end Registers

/-! ## Pushes and pops -/

/-- A push or a pop. -/
inductive StackMove
  | push (value : Half)
  | pop
  deriving DecidableEq, Repr

namespace StackMove

/-- The register file after a push or a pop. -/
def apply (move : StackMove) (regs : Registers) : Registers :=
  match move with
  | .push value => regs.push value
  | .pop => regs.pop

/-- How deep pushes and pops nest that start at a height above the entries of before, if they never pop
one of these and come back to them in the end. -/
def depthFrom? : Nat → List StackMove → Option Nat
  | 0, [] => some 0
  | _ + 1, [] => none
  | height, .push _ :: moves => depthFrom? (height + 1) moves
  | 0, .pop :: _ => none
  | height + 1, .pop :: moves => (depthFrom? height moves).map (max (height + 1))

/-- How deep balanced pushes and pops nest. No result for others. -/
def depth? (moves : List StackMove) : Option Nat := depthFrom? 0 moves

/-- They nest at least as deep as they start. -/
theorem le_depth {height depth : Nat} {moves : List StackMove} (h : depthFrom? height moves = some depth) :
    height ≤ depth := by
  induction moves generalizing height depth with
  | nil =>
    cases height with
    | zero => exact Nat.zero_le _
    | succ height => contradiction
  | cons move moves ih =>
    match height, move with
    | height, .push _ => exact Nat.le_of_succ_le (ih (by simpa [depthFrom?] using h))
    | height + 1, .pop =>
      obtain ⟨rest, -, rfl⟩ := Option.map_eq_some_iff.mp h
      exact Nat.le_max_left _ _

end StackMove

namespace Registers

/-- The register file after pushes and pops. -/
def perform (regs : Registers) (moves : List StackMove) : Registers :=
  moves.foldl (fun regs move => move.apply regs) regs

/-- What a move makes of the stack depends on the stack alone. -/
theorem apply_stack_congr {regs other : Registers} (h : other.stack = regs.stack) (move : StackMove) :
    (move.apply other).stack = (move.apply regs).stack := by
  cases move <;> simp only [StackMove.apply, push, pop, h]

/-- So does what many moves make of it. -/
theorem perform_stack_congr {regs other : Registers} (h : other.stack = regs.stack)
    (moves : List StackMove) : (other.perform moves).stack = (regs.perform moves).stack := by
  induction moves generalizing regs other with
  | nil => exact h
  | cons move moves ih => exact ih (apply_stack_congr h move)

/-- Pushes and pops that come back leave the entries below, but for the lowest ones, as many as they nest
deep. The induction is on the moves, with the height above the entries that stay. -/
theorem entry_perform {moves : List StackMove} {height depth : Nat}
    (h : StackMove.depthFrom? height moves = some depth) (regs : Registers) {below : Nat}
    (hbelow : below + depth < 8) : (regs.perform moves).entry below = regs.entry (height + below) := by
  induction moves generalizing height depth regs with
  | nil =>
    cases height with
    | zero => rw [Nat.zero_add]; rfl
    | succ height => contradiction
  | cons move moves ih =>
    match height, move with
    | height, .push value =>
      have hrest : StackMove.depthFrom? (height + 1) moves = some depth := by
        simpa [StackMove.depthFrom?] using h
      have hdepth := StackMove.le_depth hrest
      have hpushed : (regs.push value).entry (height + 1 + below) = regs.entry (height + below) := by
        rw [Nat.add_right_comm]
        exact regs.entry_push_succ value (by omega)
      exact (ih hrest (regs.push value) hbelow).trans hpushed
    | height + 1, .pop =>
      obtain ⟨rest, hrest, rfl⟩ := Option.map_eq_some_iff.mp h
      have hpopped : regs.pop.entry (height + below) = regs.entry (height + 1 + below) := by
        rw [entry_pop, Nat.add_right_comm]
      exact (ih hrest regs.pop (by omega)).trans hpopped

/-- So a value that is pushed before balanced moves is on top after them, and a pop gives back the entries
below it. -/
theorem pop_perform_push {moves : List StackMove} {depth : Nat}
    (h : StackMove.depth? moves = some depth) (hdepth : depth ≤ 7) (regs : Registers) (value : Half) :
    ((regs.push value).perform moves).top = value ∧
      ∀ below < 7 - depth, ((regs.push value).perform moves).pop.entry below = regs.entry below := by
  refine ⟨?_, fun below hbelow => ?_⟩
  · rw [← entry_zero, entry_perform h _ (by omega)]
    exact regs.entry_push_zero value
  · rw [entry_pop, entry_perform h _ (by omega), Nat.zero_add]
    exact regs.entry_push_succ value (by omega)

/-- Eight pushes on top of a value are one too many. -/
example :
    let moves := List.replicate 8 (.push 0) ++ List.replicate 8 .pop
    StackMove.depth? moves = some 8 ∧ (((Registers.new 0).push 1).perform moves).top = 0 := by
  decide

end Registers

/-! ## What leaves the stack -/

namespace Registers

variable (regs : Registers)

/-- A flag is not on the stack. -/
@[simp] theorem put_stack (flag : StatusFlag) (on : Bool) : (regs.put flag on).stack = regs.stack := rfl

/-- Nor is an auxiliary register. -/
@[simp] theorem setAr_stack (pointer : Pointer) (value : Half) :
    (regs.setAr pointer value).stack = regs.stack := rfl

/-- A modification of an auxiliary register leaves the stack. -/
@[simp] theorem modifyAr_stack (word : Half) (movesPointer : Bool) :
    (regs.modifyAr word movesPointer).stack = regs.stack := by
  unfold modifyAr
  dsimp only
  split <;> rfl

/-- So does that which goes with an operand. -/
@[simp] theorem afterOperand_stack (word : Half) (movesPointer : Bool) :
    (regs.afterOperand word movesPointer).stack = regs.stack := by
  unfold afterOperand
  split
  · exact regs.modifyAr_stack word movesPointer
  · rfl

/-- Noting an overflow leaves the stack. -/
@[simp] theorem overflow_stack (old : Word) : (regs.overflow old).stack = regs.stack := by
  unfold overflow
  dsimp only
  split <;> rfl

/-- A sum in the accumulator leaves it. -/
@[simp] theorem addAcc_stack (value : Word) : (regs.addAcc value).stack = regs.stack := by
  simp [addAcc, apply_ite Registers.stack]

/-- So does a difference. -/
@[simp] theorem subAcc_stack (value : Word) : (regs.subAcc value).stack = regs.stack := by
  simp [subAcc, apply_ite Registers.stack]

/-- So does a sum with the carry. -/
@[simp] theorem addWithCarry_stack (value : Half) : (regs.addWithCarry value).stack = regs.stack := by
  simp [addWithCarry, apply_ite Registers.stack]

/-- So does a difference with the borrow. -/
@[simp] theorem subWithBorrow_stack (value : Half) : (regs.subWithBorrow value).stack = regs.stack := by
  simp [subWithBorrow, apply_ite Registers.stack]

/-- So does a sum in the high half. -/
@[simp] theorem addHigh_stack (value : Half) : (regs.addHigh value).stack = regs.stack := by
  simp [addHigh, overflowHigh, apply_ite Registers.stack, apply_ite Prod.snd]

/-- So does a difference in the high half. -/
@[simp] theorem subHigh_stack (value : Half) : (regs.subHigh value).stack = regs.stack := by
  simp [subHigh, overflowHigh, apply_ite Registers.stack, apply_ite Prod.snd]

/-- So does a step of a division. -/
@[simp] theorem divideStep_stack (value : Half) : (regs.divideStep value).stack = regs.stack := by
  simp [divideStep, apply_ite Registers.stack]

/-- So does the absolute value. -/
@[simp] theorem absolute_stack : regs.absolute.stack = regs.stack := by
  simp [absolute, apply_ite Registers.stack]

/-- So does the negative value. -/
@[simp] theorem negate_stack : regs.negate.stack = regs.stack := by
  simp [negate, apply_ite Registers.stack]

end Registers

namespace Machine

variable (machine : Machine)

/-- A change of the registers changes the stack as it says. -/
@[simp] theorem mapRegs_stack (f : Registers → Registers) :
    (machine.mapRegs f).core.regs.stack = (f machine.core.regs).stack := rfl

/-- A read of data space leaves the stack. -/
@[simp] theorem readData_stack (address : Half) :
    (machine.readData address).2.core.regs.stack = machine.core.regs.stack := by
  rw [readData_core]

/-- So does a read of program space. -/
@[simp] theorem readProgram_stack (address : Half) :
    (machine.readProgram address).2.core.regs.stack = machine.core.regs.stack := by
  rw [readProgram_core]

/-- So does a write to data space, be it to a mapped register. -/
@[simp] theorem writeData_stack (address value : Half) :
    (machine.writeData address value).core.regs.stack = machine.core.regs.stack := by
  obtain ⟨requests, hregs⟩ := machine.writeData_regs address value
  rw [hregs]

/-- So does a write to program space. -/
@[simp] theorem writeProgram_stack (address value : Half) :
    (machine.writeProgram address value).core.regs.stack = machine.core.regs.stack := by
  unfold writeProgram
  split <;> rfl

/-- A second word of an instruction is fetched without it. -/
@[simp] theorem fetchWord_stack : machine.fetchWord.2.core.regs.stack = machine.core.regs.stack :=
  machine.readProgram_stack _

/-- So is an operand. -/
@[simp] theorem fetchOperand_stack (movesPointer : Bool) :
    (machine.fetchOperand movesPointer).2.core.regs.stack = machine.core.regs.stack := by
  rw [fetchOperand_eq]
  exact Registers.afterOperand_stack _ _ _

/-- A result is stored without it. -/
@[simp] theorem storeOperand_stack (value : Half) :
    (machine.storeOperand value).core.regs.stack = machine.core.regs.stack := by
  simp [storeOperand, noteOperand, mapCore]

/-- So is a status word. -/
@[simp] theorem storeStatus_stack (value : Half) :
    (machine.storeStatus value).core.regs.stack = machine.core.regs.stack := by
  simp [storeStatus, noteOperand, mapCore]

/-- The prefetch counter is not on the stack. -/
@[simp] theorem setPfc_stack (pfc : Half) : (machine.setPfc pfc).core.regs.stack = machine.core.regs.stack :=
  rfl

/-- It is loaded without the stack. -/
@[simp] theorem loadPfc_stack : machine.loadPfc.core.regs.stack = machine.core.regs.stack := by
  unfold loadPfc
  split <;> simp

/-- So it is from the accumulator. -/
@[simp] theorem pfcFromAcc_stack : machine.pfcFromAcc.core.regs.stack = machine.core.regs.stack := by
  unfold pfcFromAcc
  split <;> rfl

/-- A product with a coefficient leaves the stack. -/
@[simp] theorem multiplyAccumulate_stack (moves : Bool) :
    (machine.multiplyAccumulate moves).core.regs.stack = machine.core.regs.stack := by
  unfold multiplyAccumulate
  simp only [mapRegs_stack, readProgram_stack]
  split <;> simp [writeNext]

/-- A move from program space leaves it. -/
@[simp] theorem moveFromProgram_stack :
    machine.moveFromProgram.core.regs.stack = machine.core.regs.stack := by
  simp [moveFromProgram]

/-- No move of words moves the stack. -/
theorem move_stack (op : MoveOp) : (machine.move op).1.core.regs.stack = machine.core.regs.stack := by
  cases op <;> simp [move, writeNext, moveFromData, moveToProgram]

/-- Nor does a branch. -/
theorem branch_stack (op : BranchOp) : (machine.branch op).core.regs.stack = machine.core.regs.stack := by
  have hsettle (regs : Registers) : (op.settle regs).stack = regs.stack := by cases op <;> rfl
  unfold branch
  simp only [mapRegs_stack, hsettle, Registers.modifyAr_stack]
  split <;> simp

/-- A call pushes the address after its second word. -/
theorem call_stack : machine.call.core.regs.stack =
    (machine.core.regs.push (machine.core.regs.pc + 1)).stack := by
  simp [call]

end Machine

/-! ## Operations on the stack -/

/-- What an operation does before its operand leaves the stack. -/
theorem OperandOp.prepare_stack (op : OperandOp) (regs : Registers) :
    (op.prepare regs).stack = regs.stack := by
  cases op <;> simp [prepare]

/-- What it does with the operand leaves it too, unless it pushes the operand. -/
theorem OperandOp.finish_stack {op : OperandOp} (hop : op ≠ .pshd) (word value : Half) (regs : Registers) :
    (op.finish word value regs).stack = regs.stack := by
  cases op <;> first | contradiction | simp [finish]

/-- An operation on a second word leaves it. -/
theorem LongOp.apply_stack (op : LongOp) (word value : Half) (regs : Registers) :
    (op.apply word value regs).stack = regs.stack := by
  cases op <;> simp [apply]

/-- What an operation on registers alone does to the stack. -/
def RegisterOp.stackMove? (op : RegisterOp) (regs : Registers) : Option StackMove :=
  match op with
  | .push => some (.push (lowHalf regs.acc))
  | .cala | .trap => some (.push regs.pc)
  | .pop | .ret => some .pop
  | _ => none

/-- An operation on registers makes the one move that it is listed with, if any. -/
theorem RegisterOp.apply_stack (op : RegisterOp) (word : Half) (regs : Registers) :
    (op.apply word regs).stack = (regs.perform (op.stackMove? regs).toList).stack := by
  cases op <;> simp [apply, stackMove?, Registers.perform, StackMove.apply, apply_ite Registers.stack,
    Registers.setCurrentAr, Registers.shiftLeft, Registers.shiftRight, Registers.rotateLeft,
    Registers.rotateRight]

/-- What an operation does to the stack of a machine that executes it. -/
def Op.stackMove? (op : Op) (machine : Machine) : Option StackMove :=
  match op with
  | .call => some (.push (machine.core.regs.pc + 1))
  | .operand .pshd => some (.push (machine.fetchOperand true).1)
  | .store .popd => some .pop
  | .register op => op.stackMove? machine.core.regs
  | _ => none

/-- A change of the layout leaves the stack. -/
theorem Core.RelaidTo.stack {before after : Core} (h : before.RelaidTo after) :
    after.regs.stack = before.regs.stack := by
  obtain ⟨status, flags, journal, rfl⟩ := h
  rfl

namespace Machine

/-- Executing an operation moves the stack as the operation says. -/
theorem execute_stack (machine : Machine) (op : Op) : (machine.execute op).1.core.regs.stack =
    (machine.core.regs.perform (op.stackMove? machine).toList).stack := by
  cases op with
  | operand op =>
    by_cases hop : op = .pshd
    · subst hop
      exact Registers.apply_stack_congr (machine.fetchOperand_stack true)
        (.push (machine.fetchOperand true).1)
    · have hmove : (Op.operand op).stackMove? machine = none := by
        cases op <;> first | rfl | contradiction
      rw [hmove]
      simp [execute, op.finish_stack hop, op.prepare_stack, Registers.perform]
  | store op =>
    have hstored : ((machine.execute (.store op)).1.core.regs).stack =
        (op.prepare machine.core.regs).stack := by
      simp only [execute]
      split <;> simp
    rw [hstored]
    cases op <;> rfl
  | long op => simp [execute, op.apply_stack, Op.stackMove?, Registers.perform]
  | register op => exact op.apply_stack machine.core.opcode machine.core.regs
  | branch op => exact machine.branch_stack op
  | move op => exact machine.move_stack op
  | call => exact machine.call_stack
  | rpt => exact machine.fetchOperand_stack true
  | cnfd => exact (machine.core.relaidTo_configureB0 false).stack
  | cnfp => exact (machine.core.relaidTo_configureB0 true).stack
  | conf => exact machine.core.relaidTo_configureBlocks.stack
  | flag op => rfl
  | rptk | idle | rxf | sxf | illegal => rfl

end Machine

/-! ## Moments -/

namespace Moment

/-- The machine just before a moment. -/
def before : Moment → Machine
  | .poll machine => machine
  | .execution machine _ => machine

/-- The machine just after a moment. -/
def after : Moment → Machine
  | .poll machine => machine.served
  | .execution machine op => (machine.execute op).1

/-- What a moment does to the stack: a poll pushes if it serves a request. -/
def stackMove? : Moment → Option StackMove
  | .poll machine => machine.core.pendingSource?.map fun _ => .push machine.core.regs.pc
  | .execution machine op => op.stackMove? machine

/-- The address to which RET is to go back after a moment that calls: an execution of CALL, CALA or TRAP,
or a poll that serves a request. -/
def returnAddress? : Moment → Option Half
  | .poll machine => machine.core.pendingSource?.map fun _ => machine.core.regs.pc
  | .execution machine .call => some (machine.core.regs.pc + 1)
  | .execution machine (.register .cala) => some machine.core.regs.pc
  | .execution machine (.register .trap) => some machine.core.regs.pc
  | .execution _ _ => none

/-- A moment that calls pushes its return address. -/
theorem stackMove?_of_returnAddress? {moment : Moment} {address : Half}
    (h : moment.returnAddress? = some address) : moment.stackMove? = some (.push address) := by
  unfold returnAddress? at h
  split at h
  · obtain ⟨source, hsource, rfl⟩ := Option.map_eq_some_iff.mp h
    rw [stackMove?, hsource]
    rfl
  · exact congrArg (Option.map StackMove.push) h
  · exact congrArg (Option.map StackMove.push) h
  · exact congrArg (Option.map StackMove.push) h
  · contradiction

/-- A moment moves the stack as it says. -/
theorem after_stack (moment : Moment) : moment.after.core.regs.stack =
    (moment.before.core.regs.perform moment.stackMove?.toList).stack := by
  cases moment with
  | poll machine =>
    cases hpending : machine.core.pendingSource? with
    | none =>
      rw [after, Machine.served_of_none hpending, stackMove?, hpending]
      rfl
    | some source =>
      rw [stackMove?, hpending]
      exact (Core.servedTo_service hpending).pushed
  | execution machine op => exact machine.execute_stack op

/-- The pushes and pops of moments, in their order. -/
def stackMoves (moments : List Moment) : List StackMove := moments.filterMap stackMove?

end Moment

/-- Each moment finds the stack that the one before it has left. -/
inductive StackPath : Octet → List Moment → Octet → Prop
  | rest (stack : Octet) : StackPath stack [] stack
  | moment (moment : Moment) {moments : List Moment} {last : Octet}
      (h : StackPath moment.after.core.regs.stack moments last) :
      StackPath moment.before.core.regs.stack (moment :: moments) last

namespace StackPath

variable {first second third : Octet} {moments more : List Moment}

/-- Paths follow one another. -/
theorem trans (h : StackPath first moments second) (h' : StackPath second more third) :
    StackPath first (moments ++ more) third := by
  induction h with
  | rest => exact h'
  | moment moment _ ih => exact .moment moment (ih h')

/-- A path through two lists of moments passes a core between them. -/
theorem split (h : StackPath first (moments ++ more) third) :
    ∃ second, StackPath first moments second ∧ StackPath second more third := by
  induction moments generalizing first with
  | nil => exact ⟨first, .rest first, h⟩
  | cons moment moments ih =>
    cases h with
    | moment _ h =>
      obtain ⟨second, hmoments, hmore⟩ := ih h
      exact ⟨second, .moment moment hmoments, hmore⟩

/-- From one end to the other the stack is moved by the pushes and pops of the moments. -/
theorem perform (h : StackPath first moments second) {regs : Registers} (hregs : regs.stack = first) :
    second = (regs.perform (Moment.stackMoves moments)).stack := by
  induction h generalizing regs with
  | rest => exact hregs.symm
  | @moment moment moments _ _ ih =>
    have hmoves : Moment.stackMoves (moment :: moments) =
        moment.stackMove?.toList ++ Moment.stackMoves moments := by
      rw [Moment.stackMoves, List.filterMap_cons]
      cases moment.stackMove? <;> rfl
    have hafter : (regs.perform moment.stackMove?.toList).stack = moment.after.core.regs.stack := by
      rw [moment.after_stack]
      exact Registers.perform_stack_congr hregs _
    rw [hmoves, ih hafter, Registers.perform, Registers.perform, Registers.perform, List.foldl_append]

/-- The passes of a repeat block. -/
theorem passes (machine : Machine) (op : Op) (clocks count : Nat) :
    StackPath machine.core.regs.stack (Moment.executions (machine.passExecutions op count))
      (machine.passes op clocks count).1.core.regs.stack := by
  induction count generalizing machine clocks with
  | zero => exact .rest _
  | succ count ih =>
    rw [Machine.passExecutions, Machine.passes]
    dsimp only
    refine .moment (.execution machine op) ?_
    split
    · exact .rest _
    · exact ih (machine.pass op).1 _

/-- An instruction, with the repeat block that it may arm. -/
theorem instruction (machine : Machine) :
    StackPath machine.core.regs.stack (Moment.executions machine.instruction)
      machine.executeNext.1.core.regs.stack := by
  have hfetched (machine : Machine) : machine.fetch.core.regs.stack = machine.core.regs.stack := by
    rw [Machine.fetch_core]
  have hentered (machine : Machine) : machine.enterBlock.core.regs.stack = machine.core.regs.stack :=
    hfetched machine
  rw [← hfetched]
  refine .moment (.execution machine.fetch machine.fetch.op) ?_
  change StackPath (machine.fetch.execute machine.fetch.op).1.core.regs.stack
    (Moment.executions (machine.fetch.execute machine.fetch.op).1.blockExecutions) _
  cases hflow : (machine.fetch.execute machine.fetch.op).1.core.flow with
  | normal =>
    rw [Machine.executeNext_of_normal hflow, Machine.blockExecutions_of_normal hflow]
    exact .rest _
  | repeatBlock =>
    rw [Machine.executeNext_of_repeat hflow, Machine.blockExecutions, hflow, Machine.repeatBlock_machine,
      ← hentered]
    generalize Machine.passLimit = limit
    exact passes _ _ clk limit

end StackPath

/-- So it is along a course: between its moments nothing moves the stack. -/
theorem Course.stackPath {first last : Machine} {moments : List Moment} (h : Course first moments last) :
    StackPath first.core.regs.stack moments last.core.regs.stack := by
  induction h with
  | rest hcalm =>
    rw [hcalm.core.stack]
    exact .rest _
  | @poll before poll after moments hcalm _ ih =>
    rw [← hcalm.core.stack]
    exact .moment (.poll poll) ih
  | @instruction before ready after moments hcalm _ ih =>
    rw [← hcalm.core.stack]
    exact (StackPath.instruction ready).trans ih

/-- RET goes back to the address that a moment has pushed which calls, if the pushes and pops in between
are balanced, and leaves the entries of the time before the call that have not been driven off. -/
theorem Course.call_returns {first last returning : Machine} {before body rest : List Moment} {call : Moment}
    {address : Half} {depth : Nat}
    (h : Course first (before ++ call :: (body ++ .execution returning (.register .ret) :: rest)) last)
    (hcall : call.returnAddress? = some address)
    (hbody : StackMove.depth? (Moment.stackMoves body) = some depth) (hdepth : depth ≤ 7) :
    let returned := (returning.execute (.register .ret)).1.core.regs
    returned.pc = address ∧ ∀ below < 7 - depth, returned.entry below = call.before.core.regs.entry below := by
  intro returned
  obtain ⟨_, -, hfrom⟩ := h.stackPath.split
  -- The path goes on through the call, the body and the return.
  cases hfrom with
  | moment _ hcalled =>
    obtain ⟨_, hthrough, hreturn⟩ := hcalled.split
    cases hreturn with
    | moment _ _ =>
      have hpushed : (call.before.core.regs.push address).stack = call.after.core.regs.stack := by
        rw [call.after_stack, Moment.stackMove?_of_returnAddress? hcall]
        rfl
      have hfound : returning.core.regs.stack =
          ((call.before.core.regs.push address).perform (Moment.stackMoves body)).stack :=
        hthrough.perform hpushed
      obtain ⟨htop, hbelow⟩ := Registers.pop_perform_push hbody hdepth call.before.core.regs address
      constructor
      · exact (Registers.entry_congr hfound 0).trans htop
      · intro below hlt
        rw [← hbelow below hlt]
        exact Registers.entry_congr (Registers.apply_stack_congr hfound .pop) below

/-- The eight entries do as a stack. Whatever balanced pushes and pops follow a push, as long as they do
not nest deeper than seven, the pop that ends it finds the value and leaves the seven topmost entries of
before but for as many as they nest deep. So RET goes back from what CALL, CALA, TRAP or a service has
called, in all that a host can let a core do. Pops alone read the eight entries from the top down, and the
lowest from then on. -/
theorem hardware_stack :
    (∀ (regs : Registers) (value : Half) {moves : List StackMove} {depth : Nat},
      StackMove.depth? moves = some depth → depth ≤ 7 →
        ((regs.push value).perform moves).top = value ∧
          ∀ below < 7 - depth, ((regs.push value).perform moves).pop.entry below = regs.entry below) ∧
    (∀ {start later returning : Machine} {before body rest : List Moment} {call : Moment}
        {address : Half} {depth : Nat},
      Timeline start (before ++ call :: (body ++ .execution returning (.register .ret) :: rest)) later →
      call.returnAddress? = some address →
      StackMove.depth? (Moment.stackMoves body) = some depth → depth ≤ 7 →
        let returned := (returning.execute (.register .ret)).1.core.regs
        returned.pc = address ∧
          ∀ below < 7 - depth, returned.entry below = call.before.core.regs.entry below) ∧
    ∀ regs : Registers,
      (∀ count < 8, (Registers.pop^[count] regs).top = regs.entry count) ∧
        ∀ count, 7 ≤ count → (Registers.pop^[count] regs).top = regs.entry 7 := by
  refine ⟨fun regs value _ _ h hdepth => Registers.pop_perform_push h hdepth regs value,
    fun h hcall hbody hdepth => h.course.call_returns hcall hbody hdepth, fun regs => ⟨?_, ?_⟩⟩
  · exact fun count _ => regs.top_iterate_pop count
  · intro count hcount
    have hlowest : 7 - count = 0 := by omega
    rw [regs.top_iterate_pop]
    simp only [Registers.entry, hlowest]

/-- An instruction that arms no repeat block has one moment, after the poll. -/
theorem Machine.stepMoments_of_normal {machine : Machine} {op : Op} (hop : machine.ready.op = op)
    (hflow : (machine.ready.execute op).1.core.flow = .normal) :
    machine.stepMoments = [.poll machine, .execution machine.ready op] := by
  subst hop
  rw [stepMoments, executions, blockExecutions_of_normal hflow]
  rfl

/-- CALL 4, and at 4 a subroutine that pushes and pops before it returns. -/
theorem hardware_stack_call :
    let machine : Machine := ⟨.new .tms32025,
      (Bus.empty.loadHalves .program 0 [0xFE80, 4]).loadHalves .program 8 [0xCE1C, 0xCE1D, 0xCE26]⟩
    let returned := ((machine.steps 3).ready.execute (.register .ret)).1.core.regs
    StackMove.depth? [.push 1, .push 2, .pop, .pop] = some 2 ∧
      ((machine.core.regs.push 3).perform [.push 1, .push 2, .pop, .pop]).top = 3 ∧
      (machine.ready.op, (machine.steps 3).ready.op) = (.call, .register .ret) ∧
      returned.pc = 2 ∧ returned.entry 5 = machine.ready.core.regs.entry 5 ∧
      (Registers.pop^[9] returned).top = returned.entry 7 := by
  intro machine returned
  have hcall : machine.stepMoments = [.poll machine, .execution machine.ready .call] :=
    Machine.stepMoments_of_normal (by decide +kernel) (by decide +kernel)
  have hpush : (machine.steps 1).stepMoments =
      [.poll (machine.steps 1), .execution (machine.steps 1).ready (.register .push)] :=
    Machine.stepMoments_of_normal (by decide +kernel) (by decide +kernel)
  have hpop : (machine.steps 2).stepMoments =
      [.poll (machine.steps 2), .execution (machine.steps 2).ready (.register .pop)] :=
    Machine.stepMoments_of_normal (by decide +kernel) (by decide +kernel)
  have hret : (machine.steps 3).stepMoments =
      [.poll (machine.steps 3), .execution (machine.steps 3).ready (.register .ret)] :=
    Machine.stepMoments_of_normal (by decide +kernel) (by decide +kernel)
  have hmoments : machine.stepsMoments 4 = [.poll machine] ++ .execution machine.ready .call ::
      ([.poll (machine.steps 1), .execution (machine.steps 1).ready (.register .push),
          .poll (machine.steps 2), .execution (machine.steps 2).ready (.register .pop),
          .poll (machine.steps 3)] ++
        .execution (machine.steps 3).ready (.register .ret) :: []) := by
    rw [Machine.stepsMoments, Machine.stepsMoments, Machine.stepsMoments, Machine.stepsMoments,
      Machine.stepsMoments, hret, hpop, hpush]
    change [] ++ machine.stepMoments ++ _ ++ _ ++ _ = _
    rw [hcall]
    rfl
  have htimeline := machine.timeline_steps 4
  rw [hmoments] at htimeline
  have hdepth : StackMove.depth? [.push 1, .push 2, .pop, .pop] = some 2 := by decide
  obtain ⟨hpushes, hreturns, hpops⟩ := hardware_stack
  have haddress : (Moment.execution machine.ready .call).returnAddress? = some 2 := by decide +kernel
  obtain ⟨hpc, hentries⟩ := hreturns htimeline haddress (by decide +kernel : _ = some 1) (by decide)
  exact ⟨hdepth, (hpushes machine.core.regs 3 hdepth (by decide)).1, by decide +kernel, hpc,
    hentries 5 (by decide), (hpops returned).2 9 (by decide)⟩

end ProcessorCores.Tms

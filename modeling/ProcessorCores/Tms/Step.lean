import ProcessorCores.Tms.Move

/-!
# Steps of the TMS3202x

A step serves a pending request, if there is one, and then executes one instruction. When that
instruction arms a repeat block, the step also executes the whole block: the instruction that
follows is fetched once and executed once more than the repeat counter says. The timer does not
advance within a step.
-/

namespace ProcessorCores.Tms

namespace Core

/-- Put block B0 into program space or data space, on the parts that can. Nothing happens when the
status says that it is there already. -/
def configureB0 (core : Core) (program : Bool) : Core :=
  if core.model.hasCnfPair && core.regs.has .cnf0 != program then
    (core.mapBlock 0 program).mapRegs (·.put .cnf0 program)
  else core

/-- Choose one of four layouts of the blocks, on the parts that can. A block whose number is not
below the layout any more leaves program space; none enters it. -/
def configureBlocks (core : Core) : Core :=
  if core.model.hasConf then
    let before := 2 * (core.regs.has .cnf1).toNat + (core.regs.has .cnf0).toNat
    let layout := core.opcode.extractLsb' 0 2
    let core := core.mapRegs fun regs => (regs.put .cnf0 (layout.getLsbD 0)).put .cnf1 layout.msb
    (List.range core.model.blocks.length).foldl
      (fun core index =>
        if layout.toNat < index + 1 ∧ index + 1 ≤ before then core.mapBlock index false else core)
      core
  else core

/-- Arm a repeat block. -/
def armRepeat (core : Core) (count : Byte) : Core :=
  { core with regs := { core.regs with rptc := count }, flow := .repeatBlock }

/-- Drive the XF output and its flag. -/
def driveXf (core : Core) (on : Bool) : Core :=
  { core with regs := core.regs.put .xf on, xfPin := on }

end Core

namespace Machine

/-- Execute a branch. The auxiliary register in use is modified whether the branch is taken or not,
and whatever bit 7 of the word says. -/
def branch (machine : Machine) (op : BranchOp) : Machine :=
  let machine :=
    if op.taken machine.core.regs machine.core.bio then
      let (target, machine) := machine.readProgram machine.core.regs.pc
      machine.mapRegs fun regs => { regs with pc := target }
    else machine.mapRegs fun regs => { regs with pc := regs.pc + 1 }
  machine.mapRegs fun regs => op.settle (regs.modifyAr machine.core.opcode true)

/-- Call the address in the second word. -/
def call (machine : Machine) : Machine :=
  let operandAt := machine.core.regs.pc
  let machine := machine.mapRegs fun regs => { regs.push (operandAt + 1) with pc := operandAt + 1 }
  let (target, machine) := machine.readProgram operandAt
  machine.mapRegs fun regs => { regs with pc := target }.modifyAr machine.core.opcode true

/-- Execute the instruction word fetched last as the operation `op`. The second result is its cost
in clocks beyond the base cost. -/
def execute (machine : Machine) (op : Op) : Machine × Nat :=
  let word := machine.core.opcode
  match op with
  | .operand op =>
    let machine := machine.mapRegs op.prepare
    let (value, machine) := machine.fetchOperand op.movesPointer
    (machine.mapRegs (op.finish word value), 0)
  | .store op =>
    let value := op.value word machine.core.regs
    let machine := machine.mapRegs op.prepare
    (if op.ofStatus then machine.storeStatus value else machine.storeOperand value, 0)
  | .long op =>
    let (value, machine) := machine.fetchWord
    (machine.mapRegs (op.apply word value), 0)
  | .register op => (machine.mapRegs (op.apply word), 0)
  | .flag op => (machine.mapRegs (·.put op.change.1 op.change.2), 0)
  | .branch op => (machine.branch op, 0)
  | .move op => machine.move op
  | .call => (machine.call, 0)
  | .rpt =>
    let (value, machine) := machine.fetchOperand true
    (machine.mapCore (·.armRepeat (lowByte value)), 0)
  | .rptk => (machine.mapCore (·.armRepeat (lowByte word)), 0)
  | .idle =>
    (machine.mapCore fun core =>
      { core with regs := core.regs.put .intm false, idle := true }.report (.idle core.prevPc), 0)
  | .rxf => (machine.mapCore (·.driveXf false), 0)
  | .sxf => (machine.mapCore (·.driveXf true), 0)
  | .cnfd => (machine.mapCore (·.configureB0 false), 0)
  | .cnfp => (machine.mapCore (·.configureB0 true), 0)
  | .conf => (machine.mapCore (·.configureBlocks), 0)
  | .illegal => (machine.mapCore fun core => core.report (.illegal core.prevPc word), 0)

/-- Fetch an instruction word and note it and its address. -/
def fetch (machine : Machine) : Machine :=
  let pc := machine.core.regs.pc
  let (word, machine) := machine.fetchWord
  machine.mapCore fun core => { core with prevPc := pc, opcode := word }

/-- Execute one pass of a repeat block and count the repeat counter down. -/
def pass (machine : Machine) (op : Op) : Machine × Nat :=
  let (machine, extra) := machine.execute op
  (machine.mapCore fun core =>
      { core with firstPass := false, regs := { core.regs with rptc := core.regs.rptc - 1 } },
    clk + extra)

/-- Execute at most so many passes, up to and including the one that takes the repeat counter below
zero. The second result adds their clocks to those given. -/
def passes (machine : Machine) (op : Op) (clocks : Nat) : Nat → Machine × Nat
  | 0 => (machine, clocks)
  | count + 1 =>
    let (machine, more) := machine.pass op
    if machine.core.regs.rptc = 0xFF then (machine, clocks + more)
    else machine.passes op (clocks + more) count

/-- A bound on the passes of a repeat block that ends. An instruction that leaves the counter alone
takes at most 256 passes. One that sets it anew from its operand ends, if ever, before it has seen
all of data memory. -/
def passLimit : Nat := 65536 + 256

/-- Execute a repeat block. Every pass costs one machine cycle besides the cost of the operation. -/
def repeatBlock (machine : Machine) : Machine × Nat :=
  let machine := machine.fetch
  let op := (decode machine.core.opcode).handler
  let machine := machine.mapCore fun core =>
    core.report (.repeated core.opcode core.regs.rptc)
  let (machine, clocks) := machine.passes op clk passLimit
  (machine.mapCore fun core =>
      { core with
        regs := { core.regs with rptc := 0, pfc := core.regs.pc }
        firstPass := true
        flow := .normal },
    clocks)

/-- Execute the instruction at the program counter and the repeat block that it may arm. -/
def executeNext (machine : Machine) : Machine × Nat :=
  let machine := machine.fetch
  let entry := decode machine.core.opcode
  let (machine, extra) := machine.execute entry.handler
  let clocks := entry.cycles * clk + extra
  match machine.core.flow with
  | .normal => (machine, clocks)
  | .repeatBlock =>
    let (machine, more) := machine.repeatBlock
    (machine, clocks + more)

/-- Take one step. The second result is the clocks used. -/
def step (machine : Machine) : Machine × Nat :=
  let (core, served) := machine.core.service
  let (machine, clocks) := { machine with core := core }.executeNext
  (machine, served + clocks)

end Machine

end ProcessorCores.Tms

import ProcessorCores.Romp.Compute
import ProcessorCores.Romp.Core

/-!
# ROMP branches

A branch is described by four questions: is it taken, does it leave a link, where does it go, and
does one more instruction run first. The link is written before the target is read, so a branch
that links to its own target register goes to the link.

Conditional branches name a bit of the condition status by its number from the left of the halfword;
jumps name one of its low byte.
-/

namespace ProcessorCores.Romp

namespace BranchOp

/-- True for the forms with execute. -/
def withExecute : BranchOp → Bool
  | .bbx | .bnbx | .bbrx | .bnbrx | .balax | .balix | .balrx => true
  | .jb | .bb | .bnb | .bbr | .bnbr | .bala | .bali | .balr => false

/-- Whether the branch is taken. -/
def taken (op : BranchOp) (instruction : Instruction) (condition : Condition) : Bool :=
  let named := condition.bit (instruction.r2 ^^^ 15).toNat
  match op with
  | .jb => condition.bit ((instruction.r1 &&& 7) ^^^ 7).toNat == instruction.r1.msb
  | .bb | .bbx | .bbr | .bbrx => named
  | .bnb | .bnbx | .bnbr | .bnbrx => !named
  | .bala | .balax | .bali | .balix | .balr | .balrx => true

/-- The register that takes the return address. -/
def link? (op : BranchOp) (instruction : Instruction) : Option Reg :=
  match op with
  | .bala | .balax => some 15
  | .bali | .balix | .balr | .balrx => some instruction.r2
  | _ => none

/-- Where the branch goes. -/
def target (op : BranchOp) (instruction : Instruction) (regs : Registers) : Word :=
  match op with
  | .jb => regs.iar + instruction.jumpDisplacement
  | .bb | .bbx | .bnb | .bnbx | .bali | .balix => regs.iar + instruction.branchDisplacement
  | .bala | .balax => instruction.absoluteTarget
  | .bbr | .bbrx | .bnbr | .bnbrx | .balr | .balrx => regs.gpr.get instruction.r3 &&& ~~~1

/-- The cost of a taken branch beyond its base cost. The register branches on a clear bit have
none. -/
def takenCost : BranchOp → Nat
  | .bnbr | .bnbrx => 0
  | _ => 4

end BranchOp

/-- Execute a branch, `next` being the address of the following instruction. The return address of
a branch with execute lies after its delay slot. -/
def Core.branch (core : Core) (op : BranchOp) (instruction : Instruction) (next : Word) : Core × Nat :=
  if op.taken instruction core.regs.condition then
    let regs :=
      match op.link? instruction with
      | some r => core.regs.setGpr r (if op.withExecute then next + 4 else next)
      | none => core.regs
    (((core.withRegs regs).latch (op.target instruction regs) op.withExecute), op.takenCost)
  else (core, 0)

end ProcessorCores.Romp

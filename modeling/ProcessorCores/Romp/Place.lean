import ProcessorCores.Romp.Core
import ProcessorCores.Value

/-!
# ROMP state paths

A debugger names a place of the core by a path. A path that names no place is unknown, whatever the
value; a place either takes a value or can only be read.
-/

namespace ProcessorCores.Romp

/-- A place that a path can name. -/
inductive Place
  | gpr (r : Reg)
  | scr (r : Reg)
  | flag (flag : Flag)
  | flow
  | branchTarget
  | translateMode
  | cycles
  deriving DecidableEq, Repr

namespace Place

/-- The flag that a letter names. -/
def flagOfName? : List Char → Option Flag
  | ['l'] => some .less
  | ['e'] => some .equal
  | ['g'] => some .greater
  | ['c'] => some .carry
  | ['o'] => some .overflow
  | ['t'] => some .test
  | _ => none

/-- The system control register that a name stands for. -/
def scrOfName? (name : String) : Option Reg :=
  (Scr.names.finIdxOf? name).map BitVec.ofFin

/-- The place that a path names. -/
def ofPath? (path : String) : Option Place :=
  match Text.indexAfter? ['r'] 16 path.toList with
  | some index => some (.gpr (.ofFin index))
  | none =>
    match scrOfName? path with
    | some r => some (.scr r)
    | none =>
      match "flags.".toList.isPrefixOf? path.toList with
      | some name => (flagOfName? name).map .flag
      | none =>
        match path with
        | "flow" => some .flow
        | "branch_target" => some .branchTarget
        | "translate_mode" => some .translateMode
        | "cycles" => some .cycles
        | _ => none

/-- The paths a debugger lists. -/
def listed : List String :=
  ["r0", "r1", "r2", "r3", "r4", "r5", "r6", "r7", "r8", "r9", "r10", "r11", "r12", "r13",
    "r14", "r15", "scr0", "scr1", "scr2", "scr3", "scr4", "scr5", "cous", "cou", "ts", "scr9",
    "mq", "mpcs", "irb", "iar", "ics", "cs", "flags.l", "flags.e", "flags.g", "flags.c",
    "flags.o", "flags.t", "flow", "branch_target", "translate_mode", "cycles"]

end Place

namespace Core

/-- The value at a place. -/
def read (core : Core) : Place → Value
  | .gpr r => .word (core.regs.gpr.get r)
  | .scr r => .word (core.regs.scr.get r)
  | .flag flag => .flag (core.regs.condition.has flag)
  | .flow => .text core.flow.name
  | .branchTarget => .word core.branchTarget
  | .translateMode => .flag core.translateMode
  | .cycles => .long core.totalCycles

/-- Put a value at a place. It is narrowed to the width of the place before anything is changed. A
patch changes the register alone: the translate line stays as it is when the interrupt control status
is patched. -/
def write (core : Core) (place : Place) (path : String) (value : Value) : Attempt Core :=
  match place with
  | .gpr r => .narrow core (value.toRegister 32 path) fun register =>
    .done (core.withRegs (core.regs.setGpr r register))
  | .scr r => .narrow core (value.toRegister 32 path) fun register =>
    .done (core.withRegs (core.regs.setScr r register))
  | .flag flag => .narrow core (value.toFlag path) fun on =>
    .done (core.withRegs (core.regs.setScr Scr.cs (core.regs.condition.put flag on).raw))
  | .branchTarget => .narrow core (value.toRegister 32 path) fun register =>
    .done { core with branchTarget := register }
  | .flow | .translateMode | .cycles => .refused (.readOnly path) core

/-- The value at a path, if the path names a place. -/
def query (core : Core) (path : String) : Option Value := (Place.ofPath? path).map core.read

/-- Patch the place that a path names. -/
def poke (core : Core) (path : String) (value : Value) : Attempt Core :=
  match Place.ofPath? path with
  | some place => core.write place path value
  | none => .refused (.unknownPath path) core

end Core

end ProcessorCores.Romp

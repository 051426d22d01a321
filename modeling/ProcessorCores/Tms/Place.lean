import ProcessorCores.Tms.Core

/-!
# State paths of the TMS3202x

A debugger names a place of the core by a path. Some places can only be read: the layout flags,
because blocks move with them, and what the sequencing decides. A patch of ST1 keeps the layout
flags for the same reason, and patches of the status keep its fixed bits.
-/

namespace ProcessorCores.Tms

/-- A place that a path can name. -/
inductive Place
  | pc | pfc | acc | p | t
  | ar (pointer : Pointer)
  | stack (index : Fin 8)
  | rptc | ifr
  | st0 | st1 | arp | arb | dp | pm
  | flag (flag : StatusFlag)
  | mapped (register : MappedRegister)
  | idle | hold | repeating | cycles
  deriving DecidableEq, Repr

namespace Place

/-- The flag that a name stands for. -/
def flagOfName? (name : String) : Option StatusFlag :=
  match name with
  | "ov" => some .ov
  | "ovm" => some .ovm
  | "intm" => some .intm
  | "cnf0" => some .cnf0
  | "cnf1" => some .cnf1
  | "tc" => some .tc
  | "sxm" => some .sxm
  | "c" => some .carry
  | "hm" => some .hm
  | "fsm" => some .fsm
  | "xf" => some .xf
  | "fo" => some .fo
  | "txm" => some .txm
  | _ => none

/-- What follows `flags.` in a path. -/
def flagName? (path : String) : Option String :=
  ("flags.".toList.isPrefixOf? path.toList).map String.ofList

/-- The places with a name of their own. -/
def named? (path : String) : Option Place :=
  match path with
  | "pc" => some .pc
  | "pfc" => some .pfc
  | "st0" => some .st0
  | "st1" => some .st1
  | "ifr" => some .ifr
  | "imr" => some (.mapped .imr)
  | "rptc" => some .rptc
  | "acc" => some .acc
  | "p" => some .p
  | "t" => some .t
  | "drr" => some (.mapped .drr)
  | "dxr" => some (.mapped .dxr)
  | "tim" => some (.mapped .tim)
  | "prd" => some (.mapped .prd)
  | "greg" => some (.mapped .greg)
  | "arp" => some .arp
  | "arb" => some .arb
  | "dp" => some .dp
  | "pm" => some .pm
  | "idle" => some .idle
  | "hold" => some .hold
  | "repeating" => some .repeating
  | "cycles" => some .cycles
  | _ => none

/-- The place that a path names. -/
def ofPath? (path : String) : Option Place :=
  match Text.indexAfter? ['a', 'r'] 8 path.toList with
  | some index => some (.ar (.ofFin index))
  | none =>
    match Text.indexAfter? ['s', 't', 'k'] 8 path.toList with
    | some index => some (.stack index)
    | none =>
      match flagName? path with
      | some name => (flagOfName? name).map .flag
      | none => named? path

/-- The paths a debugger lists. -/
def listed : List String :=
  ["pc", "pfc", "st0", "st1", "ifr", "imr", "rptc", "acc", "p", "t", "ar0", "ar1", "ar2", "ar3",
    "ar4", "ar5", "ar6", "ar7", "stk0", "stk1", "stk2", "stk3", "stk4", "stk5", "stk6", "stk7",
    "drr", "dxr", "tim", "prd", "greg", "arp", "arb", "dp", "pm", "flags.ov", "flags.ovm",
    "flags.intm", "flags.cnf0", "flags.cnf1", "flags.tc", "flags.sxm", "flags.c", "flags.hm",
    "flags.fsm", "flags.xf", "flags.fo", "flags.txm", "idle", "hold", "repeating", "cycles"]

end Place

namespace Core

/-- The value at a place. -/
def read (core : Core) : Place → Value
  | .pc => .half core.regs.pc
  | .pfc => .half core.regs.pfc
  | .acc => .word core.regs.acc
  | .p => .word core.regs.p
  | .t => .half core.regs.t
  | .ar pointer => .half (core.regs.getAr pointer)
  | .stack index => .half (core.regs.stack.get index)
  | .rptc => .byte core.regs.rptc
  | .ifr => .half core.regs.ifr
  | .st0 => .half core.regs.status.st0
  | .st1 => .half core.regs.status.st1
  | .arp => .byte (core.regs.status.arp.setWidth 8)
  | .arb => .byte (core.regs.status.arb.setWidth 8)
  | .dp => .half core.regs.status.dp
  | .pm => .byte (core.regs.status.pm.setWidth 8)
  | .flag flag => .flag (core.regs.has flag)
  | .mapped register => .half (core.ram.getRegister register)
  | .idle => .flag core.idle
  | .hold => .flag core.hold
  | .repeating => .flag (core.flow == .repeatBlock)
  | .cycles => .long core.totalCycles

/-- Change the status only. -/
def mapStatus (core : Core) (f : Status → Status) : Core :=
  core.mapRegs fun regs => { regs with status := f regs.status }

/-- The flags that choose the layout of the blocks. -/
def layoutMask : Half := St1.cnf0 ||| St1.cnf1

/-- Put a value at a place. It is narrowed to the width of the place before anything is changed. -/
def write (core : Core) (place : Place) (path : String) (value : Value) : Attempt Core :=
  match place with
  | .pc => .narrow core (value.toRegister 16 path) fun register =>
    .done (core.mapRegs fun regs => { regs with pc := register })
  | .pfc => .narrow core (value.toRegister 16 path) fun register =>
    .done (core.mapRegs fun regs => { regs with pfc := register })
  | .acc => .narrow core (value.toRegister 32 path) fun register =>
    .done (core.mapRegs fun regs => { regs with acc := register })
  | .p => .narrow core (value.toRegister 32 path) fun register =>
    .done (core.mapRegs fun regs => { regs with p := register })
  | .t => .narrow core (value.toRegister 16 path) fun register =>
    .done (core.mapRegs fun regs => { regs with t := register })
  | .ar pointer => .narrow core (value.toRegister 16 path) fun register =>
    .done (core.mapRegs (·.setAr pointer register))
  | .stack index => .narrow core (value.toRegister 16 path) fun register =>
    .done (core.mapRegs fun regs =>
      { regs with stack := regs.stack.set index.val register index.isLt })
  | .rptc => .narrow core (value.toRegister 8 path) fun register =>
    .done (core.mapRegs fun regs => { regs with rptc := register })
  | .ifr => .narrow core (value.toRegister 16 path) fun register =>
    .done (core.mapRegs fun regs => { regs with ifr := register &&& Source.allBits })
  | .st0 => .narrow core (value.toRegister 16 path) fun register =>
    .done (core.mapStatus fun status => status.setWords register status.st1)
  | .st1 => .narrow core (value.toRegister 16 path) fun register =>
    .done (core.mapStatus fun status =>
      status.setWords status.st0 ((register &&& ~~~layoutMask) ||| (status.st1 &&& layoutMask)))
  | .arp => .narrow core (value.toRegister 8 path) fun register =>
    if 7 < register then .refused (.mismatch path .pointer) core
    else .done (core.mapStatus (·.setArp register))
  | .dp => .narrow core (value.toRegister 16 path) fun register =>
    .done (core.mapStatus (·.setDp register))
  | .pm => .narrow core (value.toRegister 16 path) fun register =>
    .done (core.mapStatus (·.setPm register))
  | .flag flag => .narrow core (value.toFlag path) fun on =>
    if flag = .cnf0 ∨ flag = .cnf1 then .refused (.readOnly path) core
    else .done (core.mapRegs (·.put flag on))
  | .mapped register => .narrow core (value.toRegister 16 path) fun word =>
    .done (core.mapRam (·.setRegister register word))
  | .arb | .idle | .hold | .repeating | .cycles => .refused (.readOnly path) core

/-- The value at a path, if the path names a place. -/
def query (core : Core) (path : String) : Option Value := (Place.ofPath? path).map core.read

/-- Patch the place that a path names. A value that could be no flag is refused before a flag's name
is looked at. -/
def poke (core : Core) (path : String) (value : Value) : Attempt Core :=
  match Place.ofPath? path with
  | some place => core.write place path value
  | none =>
    match Place.flagName? path with
    | some _ => .narrow core (value.toFlag path) fun _ => .refused (.unknownPath path) core
    | none => .refused (.unknownPath path) core

end Core

end ProcessorCores.Tms

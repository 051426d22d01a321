import ProcessorCores.LogLine
import ProcessorCores.Word

/-!
# Requests and events of the TMS3202x

Six sources can request an interrupt. They are served in the order in which they are listed, each
through its own program address. Events are what a core reports about itself while it runs; they
change nothing.
-/

namespace ProcessorCores.Tms

/-- The sources of interrupt requests. -/
inductive Source
  | int0
  | int1
  | int2
  /-- The timer. -/
  | tint
  /-- Serial receive. -/
  | rint
  /-- Serial transmit. -/
  | xint
  deriving DecidableEq, Repr

namespace Source

/-- The sources by falling priority. -/
def all : List Source := [.int0, .int1, .int2, .tint, .rint, .xint]

/-- The number of the input line and of the request bit. -/
def number : Source → Nat
  | .int0 => 0
  | .int1 => 1
  | .int2 => 2
  | .tint => 3
  | .rint => 4
  | .xint => 5

/-- The request bit. -/
def bit (source : Source) : Half := 1 <<< source.number

/-- The program address of the handler. -/
def vector : Source → Half
  | .int0 => 0x0002
  | .int1 => 0x0004
  | .int2 => 0x0006
  | .tint => 0x0018
  | .rint => 0x001A
  | .xint => 0x001C

/-- The name in a report. -/
def name : Source → String
  | .int0 => "INT0"
  | .int1 => "INT1"
  | .int2 => "INT2"
  | .tint => "TINT"
  | .rint => "RINT"
  | .xint => "XINT"

/-- The source of an input line. -/
def ofLine? (line : Nat) : Option Source := all[line]?

/-- The bits of all sources. -/
def allBits : Half := 0x3F

end Source

/-- The input line of the serial frame sync. -/
def frameSyncLine : Nat := 6

/-- A diagnostic event. -/
inductive Event
  /-- A request is served. -/
  | interrupt (source : Source) (pc : Half)
  /-- The timer passed zero and took up its period. -/
  | timerReload (period : Half)
  /-- An instruction is about to be repeated. -/
  | repeated (opcode : Half) (count : Byte)
  | holdAcknowledged (pc : Half)
  | holdReleased (pc : Half)
  /-- An input line is asserted. -/
  | lineAsserted (line : Nat)
  /-- A block moves to the other space. -/
  | remapped (block : String) (program : Bool)
  /-- The core stops until a request is served. -/
  | idle (pc : Half)
  /-- An undefined word is executed. -/
  | illegal (pc opcode : Half)
  deriving DecidableEq, Repr

/-- The event as a log line. -/
def Event.line : Event → LogLine
  | .interrupt source pc =>
    ⟨.debug, "interrupt",
      [("source", .text source.name), ("pc", .number pc.toNat),
        ("vector", .number source.vector.toNat)]⟩
  | .timerReload period => ⟨.trace, "timer reload", [("prd", .number period.toNat)]⟩
  | .repeated opcode count =>
    ⟨.trace, "repeat", [("opcode", .number opcode.toNat), ("count", .number count.toNat)]⟩
  | .holdAcknowledged pc => ⟨.debug, "hold acknowledged", [("pc", .number pc.toNat)]⟩
  | .holdReleased pc => ⟨.debug, "hold released", [("pc", .number pc.toNat)]⟩
  | .lineAsserted line => ⟨.trace, "interrupt request", [("line", .number line)]⟩
  | .remapped block program =>
    ⟨.debug, "on-chip RAM remap",
      [("block", .text block), ("space", .text (if program then "program" else "data"))]⟩
  | .idle pc => ⟨.trace, "idle", [("pc", .number pc.toNat)]⟩
  | .illegal pc opcode =>
    ⟨.warn, "illegal instruction", [("pc", .number pc.toNat), ("opcode", .number opcode.toNat)]⟩

end ProcessorCores.Tms

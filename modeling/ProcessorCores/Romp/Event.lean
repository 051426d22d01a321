import ProcessorCores.LogLine
import ProcessorCores.Romp.Registers

/-!
# ROMP events

What a core reports about itself while it runs. Events change nothing; they are kept as data and
turned into log lines only for a host that asks.
-/

namespace ProcessorCores.Romp

/-- A diagnostic event. -/
inductive Event
  /-- An external interrupt of a level is being taken. -/
  | interrupt (level : Nat)
  /-- A program check is raised by the instruction at an address. -/
  | programCheck (iar status : Word)
  /-- A machine check is being taken. -/
  | machineCheck (status : Word)
  /-- An instruction writes a system control register. -/
  | scrWritten (register : Reg) (value : Word)
  /-- The translate line changes. -/
  | translateMode (enabled : Bool)
  /-- An interrupt line is asserted. -/
  | lineAsserted (line : Nat)
  deriving DecidableEq, Repr

/-- The event as a log line. -/
def Event.line : Event → LogLine
  | .interrupt level => ⟨.debug, "taking interrupt request", [("level", .number level)]⟩
  | .programCheck iar status =>
    ⟨.debug, "program check", [("iar", .number iar.toNat), ("status", .number status.toNat)]⟩
  | .machineCheck status => ⟨.debug, "machine check", [("status", .number status.toNat)]⟩
  | .scrWritten register value =>
    ⟨.trace, "set_scr", [("scr", .text (Scr.name register)), ("value", .number value.toNat)]⟩
  | .translateMode enabled => ⟨.debug, "translate mode", [("enabled", .flag enabled)]⟩
  | .lineAsserted line => ⟨.trace, "interrupt request", [("line", .number line)]⟩

end ProcessorCores.Romp

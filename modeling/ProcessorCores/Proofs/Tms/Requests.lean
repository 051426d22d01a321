import Mathlib.Order.Defs.Unbundled
import ProcessorCores.Proofs.Tms.Executions
import ProcessorCores.Proofs.Tms.Frames

/-!
# Requests between services

Requests are raised in many places: by the input lines, by the frame sync, by a write to the serial
transmit register, which any store may come to, and by the timer when it reloads. They are dropped in
one: a service clears the bit of the source that it serves.

Everything but a service is quiet. It may raise requests of the six sources, drops none, and reports
no interrupt. What is no execution either is calm: it leaves all that decides what is executed
next, and all that only instructions change.
-/

namespace ProcessorCores.Tms

/-- The part of a core that only instructions change. -/
structure Workings where
  flow : Flow
  firstPass : Bool
  prevPc : Half
  opcode : Half
  acc : Word
  p : Word
  t : Half
  ar : Octet
  pfc : Half
  rptc : Byte
  b2 : Vector Half 32
  blocks : Array (Array Half)
  memAddress : Half
  externalAccess : Bool

namespace Core

/-- The part of a core that only instructions change. -/
def workings (core : Core) : Workings where
  flow := core.flow
  firstPass := core.firstPass
  prevPc := core.prevPc
  opcode := core.opcode
  acc := core.regs.acc
  p := core.regs.p
  t := core.regs.t
  ar := core.regs.ar
  pfc := core.regs.pfc
  rptc := core.regs.rptc
  b2 := core.ram.b2
  blocks := core.ram.blocks
  memAddress := core.memAddress
  externalAccess := core.externalAccess

/-- The interrupts taken so far, the latest first: each source, and the address it came at. -/
def interrupts (core : Core) : List (Source × Half) :=
  core.journal.filterMap fun
    | .interrupt source pc => some (source, pc)
    | _ => none

/-- What happens to a core between two services. -/
structure QuietTo (before after : Core) : Prop where
  requests : RaisedTo before.regs.ifr after.regs.ifr
  interrupts : after.interrupts = before.interrupts

/-- Without any report there is none of an interrupt. -/
theorem quietTo_of_journal {before after : Core} (hrequests : RaisedTo before.regs.ifr after.regs.ifr)
    (hjournal : after.journal = before.journal) : before.QuietTo after :=
  ⟨hrequests, by rw [interrupts, interrupts, hjournal]⟩

/-- Nothing at all is quiet. -/
theorem QuietTo.refl (core : Core) : core.QuietTo core := ⟨.refl _, rfl⟩

/-- Quiet stretches compose. -/
theorem QuietTo.trans {first second third : Core} (h : first.QuietTo second)
    (h' : second.QuietTo third) : first.QuietTo third :=
  ⟨h.requests.trans h'.requests, h'.interrupts.trans h.interrupts⟩

/-- Being quiet is a preorder. -/
instance isPreorder_quietTo : IsPreorder Core QuietTo where
  refl := .refl
  trans _ _ _ := .trans

/-- What happens to a core between services and executions. -/
structure CalmTo (before after : Core) : Prop extends before.QuietTo after where
  pc : after.regs.pc = before.regs.pc
  stack : after.regs.stack = before.regs.stack
  status : after.regs.status = before.regs.status
  opcode : after.opcode = before.opcode
  program : after.ram.program = before.ram.program
  workings : after.workings = before.workings

/-- Nothing at all is calm. -/
theorem CalmTo.refl (core : Core) : core.CalmTo core := ⟨.refl core, rfl, rfl, rfl, rfl, rfl, rfl⟩

/-- Calm stretches compose. -/
theorem CalmTo.trans {first second third : Core} (h : first.CalmTo second)
    (h' : second.CalmTo third) : first.CalmTo third :=
  ⟨h.toQuietTo.trans h'.toQuietTo, h'.pc.trans h.pc, h'.stack.trans h.stack,
    h'.status.trans h.status, h'.opcode.trans h.opcode, h'.program.trans h.program,
    h'.workings.trans h.workings⟩

/-- Being calm is a preorder. -/
instance isPreorder_calmTo : IsPreorder Core CalmTo where
  refl := .refl
  trans _ _ _ := .trans

/-! ## Moves of blocks -/

/-- A block that moves is reported as such. -/
theorem mapBlock_quiet (core : Core) (index : Nat) (program : Bool) :
    core.QuietTo (core.mapBlock index program) := by
  unfold mapBlock
  cases core.ram.movedBlock? index program with
  | some block => exact ⟨.refl _, rfl⟩
  | none => exact ⟨.refl _, rfl⟩

end Core

namespace Machine

/-! ## Executions -/

/-- Ordinary work reports nothing. -/
theorem EditedTo.quiet {before after : Machine} (h : before.EditedTo after) :
    before.core.QuietTo after.core :=
  Core.quietTo_of_journal h.requests (congrArg Frame.journal h.frame)

/-- Every operation is quiet. -/
theorem keptByOps_quiet : KeptByOps Core.QuietTo where
  trans := .trans
  edited h := h.quiet
  status _ _ := ⟨.refl _, rfl⟩
  armRepeat _ _ := ⟨.refl _, rfl⟩
  doze _ := ⟨.refl _, rfl⟩
  driveXf _ _ := ⟨.refl _, rfl⟩
  mapBlock := Core.mapBlock_quiet
  illegal _ _ := ⟨.refl _, rfl⟩

/-- No operation drops a request or reports an interrupt. -/
theorem execute_quiet (machine : Machine) (op : Op) :
    machine.core.QuietTo (machine.execute op).1.core :=
  keptByOps_quiet.execute machine op

/-- A fetch is quiet. -/
theorem fetch_quiet (machine : Machine) : machine.core.QuietTo machine.fetch.core := by
  rw [fetch_core]
  exact ⟨.refl _, rfl⟩

/-- One pass of a repeat block is quiet. -/
theorem pass_quiet (machine : Machine) (op : Op) :
    machine.core.QuietTo (machine.pass op).1.core := by
  rw [pass_core]
  exact (machine.execute_quiet op).trans ⟨.refl _, rfl⟩

/-- The passes of a repeat block are quiet. -/
theorem passes_quiet (machine : Machine) (op : Op) (clocks count : Nat) :
    machine.core.QuietTo (machine.passes op clocks count).1.core := by
  induction count generalizing machine clocks with
  | zero => exact .refl _
  | succ count ih =>
    rw [passes]
    dsimp only
    split
    · exact machine.pass_quiet op
    · exact (machine.pass_quiet op).trans (ih _ _)

/-- Entering a repeat block is quiet. -/
theorem enterBlock_quiet (machine : Machine) : machine.core.QuietTo machine.enterBlock.core :=
  machine.fetch_quiet.trans ⟨.refl _, rfl⟩

/-- A repeat block asks for no service between its passes. -/
theorem repeatBlock_quiet (machine : Machine) :
    machine.core.QuietTo machine.repeatBlock.1.core := by
  have hended (last : Machine) : last.core.QuietTo (last.mapCore Core.endBlock).core :=
    ⟨.refl _, rfl⟩
  rw [repeatBlock_machine]
  exact (machine.enterBlock_quiet.trans (passes_quiet _ _ _ _)).trans (hended _)

/-- The execution of a step is quiet. -/
theorem executeNext_quiet (machine : Machine) :
    machine.core.QuietTo machine.executeNext.1.core := by
  have hexecuted := machine.fetch_quiet.trans (machine.fetch.execute_quiet machine.fetch.op)
  rw [executeNext_machine]
  dsimp only
  split
  · exact hexecuted
  · exact hexecuted.trans (repeatBlock_quiet _)

/-- After its poll, readying a step is quiet. -/
theorem ready_quiet (machine : Machine) : machine.core.service.1.QuietTo machine.ready.core :=
  machine.served.fetch_quiet

/-- A step is quiet once a request has been served. -/
theorem step_quiet (machine : Machine) : machine.core.service.1.QuietTo machine.step.1.core := by
  rw [step_served]
  exact machine.served.executeNext_quiet

end Machine

namespace Core

/-! ## Clocks and lines -/

/-- Counting clocks raises at most the request of the timer. -/
theorem countClocks_quiet (core : Core) (budget : Budget) (clocks : Nat) :
    core.QuietTo (core.countClocks budget clocks).1 := by
  unfold countClocks
  dsimp only
  split
  · exact ⟨.refl _, rfl⟩
  · split
    · exact ⟨.refl _, rfl⟩
    · exact ⟨.request _ .tint, rfl⟩

/-- A line raises at most the request of its source. -/
theorem setInputLine_quiet (core : Core) (line : Nat) (asserted : Bool) :
    core.QuietTo (core.setInputLine line asserted) := by
  unfold setInputLine
  split
  · split
    · split
      · exact ⟨.request _ .xint, rfl⟩
      · exact .refl core
    · split
      · next source _ => exact ⟨.request _ source, rfl⟩
      · exact .refl core
  · exact .refl core

/-- Counting clocks is calm. -/
theorem countClocks_calm (core : Core) (budget : Budget) (clocks : Nat) :
    core.CalmTo (core.countClocks budget clocks).1 := by
  have hquiet := core.countClocks_quiet budget clocks
  obtain ⟨_, _, _, _, _, hcounted⟩ := core.countClocks_eq budget clocks
  rw [hcounted] at hquiet ⊢
  exact ⟨hquiet, rfl, rfl, rfl, rfl, rfl, rfl⟩

/-- A change of an input line is calm: it adds requests and takes none away. -/
theorem setInputLine_calm (core : Core) (line : Nat) (asserted : Bool) :
    core.CalmTo (core.setInputLine line asserted) := by
  have hquiet := core.setInputLine_quiet line asserted
  obtain ⟨_, _, _, hline⟩ := core.setInputLine_eq line asserted
  rw [hline] at hquiet ⊢
  exact ⟨hquiet, rfl, rfl, rfl, rfl, rfl, rfl⟩

end Core

end ProcessorCores.Tms

import ProcessorCores.Proofs.Romp.ControlFlow

/-!
# What an exception entry changes

An entry saves the old program status in the block of its level and loads the new one from there.
Before it, a check may have noted its status bits. Nothing else of the machine changes: the general
registers, the other control registers, the latched target and every byte apart from the saved status
are what they were, and no port is touched.

`EnteredTo` puts this down for a whole step, whatever led to the entry: a fault that the host
signalled, a request on an external line, or the instruction that the step began to execute.
-/

namespace ProcessorCores.Romp

/-- The translate bit is bit 8. -/
theorem Ics.meets_translate (ics : Word) : meets ics Ics.translate = ics.getLsbD 8 := by
  have hmask : Ics.translate = BitVec.twoPow 32 8 := by decide
  rw [hmask]
  exact meets_twoPow _ (by decide)

/-! ## The block of a level -/

namespace Exception

/-- True for the bytes that an entry writes: the old status and, for a supervisor call, its code. -/
def Saves (cause : Exception) (address : Word) : Prop :=
  (address - cause.block).toNat < 8 ∨
    (∃ code, cause = .supervisorCall code) ∧
      14 ≤ (address - cause.block).toNat ∧ (address - cause.block).toNat < 16

/-- The bus once an entry has written the old status in the block. -/
def saveStatus (cause : Exception) (bus : Bus) (old : Registers) : Bus :=
  ((bus.write32 .program cause.block old.iar).write16 .program (cause.block + 4)
    (lowHalf old.ics)).write16 .program (cause.block + 6) (lowHalf old.cs)

/-- A supervisor call writes its code besides. -/
theorem save_eq (cause : Exception) (bus : Bus) (old : Registers) :
    cause.save bus old =
      match cause with
      | .supervisorCall code =>
        (cause.saveStatus bus old).write16 .program (cause.block + 14) code
      | _ => cause.saveStatus bus old := by
  cases cause <;> rfl

/-- Every byte that an entry does not write keeps its value. -/
theorem peek8_save_of_not_saves {cause : Exception} {bus : Bus} {old : Registers} {space : Space}
    {address : Word} (h : space = .program → ¬ cause.Saves address) :
    (cause.save bus old).peek8 space address = bus.peek8 space address := by
  have hstatus : (cause.saveStatus bus old).peek8 space address = bus.peek8 space address := by
    by_cases hspace : space = .program
    · have hoffset : ¬ (address - cause.block).toNat < 8 := fun hlow => h hspace (.inl hlow)
      rw [saveStatus, Bus.peek8_write16_of_ne (by bv_omega) (by bv_omega),
        Bus.peek8_write16_of_ne (by bv_omega) (by bv_omega), Bus.write32,
        Bus.peek8_write16_of_ne (by bv_omega) (by bv_omega),
        Bus.peek8_write16_of_ne (by bv_omega) (by bv_omega)]
    · rw [saveStatus, Bus.peek8_write16_of_space_ne hspace, Bus.peek8_write16_of_space_ne hspace,
        Bus.write32, Bus.peek8_write16_of_space_ne hspace, Bus.peek8_write16_of_space_ne hspace]
  rw [save_eq]
  -- A supervisor call alone writes a code too, at offset 14 of its block.
  cases cause with
  | supervisorCall code =>
    rw [← hstatus]
    by_cases hspace : space = .program
    · have hcode : ¬ (14 ≤ (address - (supervisorCall code).block).toNat ∧
          (address - (supervisorCall code).block).toNat < 16) :=
        fun hcode => h hspace (.inr ⟨⟨code, rfl⟩, hcode⟩)
      exact Bus.peek8_write16_of_ne (by bv_omega) (by bv_omega)
    · exact Bus.peek8_write16_of_space_ne hspace
  | interrupt level => exact hstatus
  | machineCheck => exact hstatus
  | programCheck => exact hstatus

/-- The old status stands at the start of the block: instruction address, interrupt control status
and condition status. -/
theorem saved_save (cause : Exception) (bus : Bus) (old : Registers) :
    (cause.save bus old).peek32 .program cause.block = old.iar ∧
      (cause.save bus old).peek16 .program (cause.block + 4) = lowHalf old.ics ∧
      (cause.save bus old).peek16 .program (cause.block + 6) = lowHalf old.cs := by
  have hiar : (cause.saveStatus bus old).peek32 .program cause.block = old.iar := by
    rw [saveStatus, Bus.peek32_write16_of_le (by bv_omega) (by bv_omega),
      Bus.peek32_write16_of_le (by bv_omega) (by bv_omega), Bus.peek32_write32_self]
  have hics : (cause.saveStatus bus old).peek16 .program (cause.block + 4) = lowHalf old.ics := by
    rw [saveStatus, Bus.peek16_write16_of_ne (by bv_omega) (by bv_omega) (by bv_omega),
      Bus.peek16_write16_self]
  have hcs : (cause.saveStatus bus old).peek16 .program (cause.block + 6) = lowHalf old.cs :=
    Bus.peek16_write16_self _ _ _ _
  rw [save_eq]
  cases cause with
  | supervisorCall code =>
    refine ⟨?_, ?_, ?_⟩
    · exact (Bus.peek32_write16_of_le (by bv_omega) (by bv_omega)).trans hiar
    · exact (Bus.peek16_write16_of_ne (by bv_omega) (by bv_omega) (by bv_omega)).trans hics
    · exact (Bus.peek16_write16_of_ne (by bv_omega) (by bv_omega) (by bv_omega)).trans hcs
  | interrupt level => exact ⟨hiar, hics, hcs⟩
  | machineCheck => exact ⟨hiar, hics, hcs⟩
  | programCheck => exact ⟨hiar, hics, hcs⟩

/-- The new interrupt control status is the halfword at offset 12 of the block. -/
theorem load_ics (cause : Exception) (bus : Bus) (scr : Bank) :
    (cause.load bus scr).get Scr.ics = (bus.peek16 .program (cause.block + 12)).setWidth 32 := by
  have hcs : Scr.ics ≠ Scr.cs := by decide
  unfold load
  split
  · rw [Bank.get_set, if_neg hcs, Bank.get_set_self]
  · rw [Bank.get_set_self]

/-- The new condition status is the halfword at offset 14 of the block, if it is loaded at all. -/
theorem load_cs (cause : Exception) (bus : Bus) (scr : Bank) :
    (cause.load bus scr).get Scr.cs =
      if cause.loadsCondition then (bus.peek16 .program (cause.block + 14)).setWidth 32
      else scr.get Scr.cs := by
  have hics : Scr.cs ≠ Scr.ics := by decide
  have hiar : Scr.cs ≠ Scr.iar := by decide
  unfold load
  split
  · rw [Bank.get_set_self]
  · rw [Bank.get_set, if_neg hics, Bank.get_set, if_neg hiar]

/-- The registers that hold no program status are not loaded, nor is the condition status unless the
exception loads it. -/
theorem load_of_ne (cause : Exception) (bus : Bus) (scr : Bank) {r : Reg} (hiar : r ≠ Scr.iar)
    (hics : r ≠ Scr.ics) (hcs : r = Scr.cs → cause.loadsCondition = false) :
    (cause.load bus scr).get r = scr.get r := by
  unfold load
  split
  · next hloads =>
    have hne : r ≠ Scr.cs := fun h => Bool.false_ne_true ((hcs h).symm.trans hloads)
    rw [Bank.get_set, if_neg hne, Bank.get_set, if_neg hics, Bank.get_set, if_neg hiar]
  · rw [Bank.get_set, if_neg hics, Bank.get_set, if_neg hiar]

/-- Saving the old status is an access to program space only. -/
theorem accesses_save (cause : Exception) (bus : Bus) (old : Registers) {space : Space}
    (h : Space.program ≠ space) : (cause.save bus old).accesses space = bus.accesses space := by
  have hstatus : (cause.saveStatus bus old).accesses space = bus.accesses space := by
    rw [saveStatus, Bus.accesses_write16_of_ne _ _ _ h, Bus.accesses_write16_of_ne _ _ _ h,
      Bus.accesses_write32_of_ne _ _ _ h]
  rw [save_eq]
  cases cause with
  | supervisorCall code => exact (Bus.accesses_write16_of_ne _ _ _ h).trans hstatus
  | interrupt level => exact hstatus
  | machineCheck => exact hstatus
  | programCheck => exact hstatus

/-- So is reading the new status. -/
theorem accesses_readNew (cause : Exception) (bus : Bus) {space : Space}
    (h : Space.program ≠ space) : (cause.readNew bus).accesses space = bus.accesses space := by
  have hstatus : (((bus.read32 .program (cause.block + 8)).2.read16 .program
      (cause.block + 12)).2).accesses space = bus.accesses space :=
    (Bus.accesses_read16_of_ne _ _ h).trans (bus.accesses_read32_of_ne _ h)
  unfold readNew
  dsimp only
  split
  · exact (Bus.accesses_read16_of_ne _ _ h).trans hstatus
  · exact hstatus

end Exception

namespace Machine

/-! ## From one machine to the next -/

/-- A machine that is about to enter an exception: at most its check status differs from what it was
at the start of the step, and the words fetched since leave no trace in its registers. -/
structure NotedTo (before after : Machine) : Prop where
  gpr : after.core.regs.gpr = before.core.regs.gpr
  scr : ∀ r, r ≠ Scr.mpcs → after.core.regs.scr.get r = before.core.regs.scr.get r
  branchTarget : after.core.branchTarget = before.core.branchTarget
  bytes : ∀ space address, after.bus.peek8 space address = before.bus.peek8 space address
  ports : after.bus.accesses .io = before.bus.accesses .io

/-- What a step that enters an exception makes of a machine. -/
structure EnteredTo (before : Machine) (cause : Exception) (after : Machine) : Prop where
  flow : after.core.flow = .normal
  branchTarget : after.core.branchTarget = before.core.branchTarget
  gpr : after.core.regs.gpr = before.core.regs.gpr
  scr : ∀ r, r ≠ Scr.mpcs → r ≠ Scr.iar → r ≠ Scr.ics →
    (r = Scr.cs → cause.loadsCondition = false) →
      after.core.regs.scr.get r = before.core.regs.scr.get r
  iar : after.core.regs.iar = before.bus.peek32 .program (cause.block + 8)
  ics : after.core.regs.ics = (before.bus.peek16 .program (cause.block + 12)).setWidth 32
  translateMode : after.core.translateMode = after.core.regs.ics.getLsbD 8
  savedIar : after.bus.peek32 .program cause.block = before.core.regs.iar
  savedIcs : after.bus.peek16 .program (cause.block + 4) = lowHalf before.core.regs.ics
  savedCs : after.bus.peek16 .program (cause.block + 6) = lowHalf before.core.regs.cs
  bytes : ∀ space address, (space = .program → ¬ cause.Saves address) →
    after.bus.peek8 space address = before.bus.peek8 space address
  ports : after.bus.accesses .io = before.bus.accesses .io

/-- An entry saves the old status and reads the new one. -/
theorem enter_bus (machine : Machine) (cause : Exception) :
    (machine.enter cause).bus = cause.readNew (cause.save machine.bus machine.core.regs) := by
  rw [enter_eq]

/-- Reading changes no byte. -/
theorem enter_peek8 (machine : Machine) (cause : Exception) (space : Space) (address : Word) :
    (machine.enter cause).bus.peek8 space address =
      (cause.save machine.bus machine.core.regs).peek8 space address := by
  rw [enter_bus]
  cases cause <;> rfl

/-- An entry touches no port. -/
theorem enter_ports (machine : Machine) (cause : Exception) :
    (machine.enter cause).bus.accesses .io = machine.bus.accesses .io := by
  rw [enter_bus, cause.accesses_readNew _ (by decide), cause.accesses_save _ _ (by decide)]

/-- The translate line follows the new interrupt control status. -/
theorem enter_translateMode (machine : Machine) (cause : Exception) :
    (machine.enter cause).core.translateMode =
      (machine.enter cause).core.regs.ics.getLsbD 8 := by
  rw [Registers.ics, enter_regs, ← cause.load_save machine.bus machine.core.regs,
    Exception.load_ics, ← Ics.meets_translate, enter_eq]
  rfl

/-- The end of a step does not touch the registers after an entry. -/
theorem enter_endStep_regs (machine : Machine) (cause : Exception) (next : Word) :
    ((machine.enter cause).mapCore (·.endStep next)).core.regs = (machine.enter cause).core.regs := by
  have hflow : (machine.enter cause).core.flow = .exceptionEntered :=
    congrArg (·.1) (machine.enter_sequencing cause)
  rw [mapCore, Core.endStep, hflow]

/-- An entry leaves the check status as it was noted, and the end of the step does not touch it. -/
theorem enter_endStep_mpcs (machine : Machine) (cause : Exception) (next : Word) :
    ((machine.enter cause).mapCore (·.endStep next)).core.regs.scr.get Scr.mpcs =
      machine.core.regs.scr.get Scr.mpcs := by
  rw [enter_endStep_regs, enter_regs]
  exact cause.load_of_ne _ _ (by decide) (by decide) fun h => absurd h (by decide)

/-- Whatever is noted before is noted once. -/
theorem NotedTo.trans {before between after : Machine} (hfirst : before.NotedTo between)
    (hsecond : between.NotedTo after) : before.NotedTo after where
  gpr := hsecond.gpr.trans hfirst.gpr
  scr r hr := (hsecond.scr r hr).trans (hfirst.scr r hr)
  branchTarget := hsecond.branchTarget.trans hfirst.branchTarget
  bytes space address := (hsecond.bytes space address).trans (hfirst.bytes space address)
  ports := hsecond.ports.trans hfirst.ports

/-- What reports an event or clears a signalled fault leaves the registers and the latched target. -/
theorem mapCore_noted (machine : Machine) {f : Core → Core}
    (hregs : (f machine.core).regs = machine.core.regs)
    (htarget : (f machine.core).branchTarget = machine.core.branchTarget) :
    machine.NotedTo (machine.mapCore f) where
  gpr := congrArg Registers.gpr hregs
  scr r _ := congrArg (fun regs => regs.scr.get r) hregs
  branchTarget := htarget
  bytes _ _ := rfl
  ports := rfl

/-- Noting check bits leaves everything else. -/
theorem setCheckStatus_noted (machine : Machine) (field status : Word) :
    machine.NotedTo (machine.setCheckStatus field status) where
  gpr := rfl
  scr r hr := by
    rw [setCheckStatus, setScr, mapCore, Core.withRegs, Registers.setScr, Bank.get_set, if_neg hr]
  branchTarget := rfl
  bytes _ _ := rfl
  ports := rfl

/-- The machine once a check is reported and its status bits are noted. -/
def noteCheck (machine : Machine) (event : Event) (field status : Word) : Machine :=
  (machine.mapCore (·.report event)).setCheckStatus field status

/-- A noted check leaves everything but its status. -/
theorem noteCheck_noted (machine : Machine) (event : Event) (field status : Word) :
    machine.NotedTo (machine.noteCheck event field status) :=
  (machine.mapCore_noted rfl rfl).trans (setCheckStatus_noted _ field status)

/-- A fetch only reads program space. -/
theorem fetch_noted (machine : Machine) : machine.NotedTo machine.fetch.2.2 where
  gpr := by rw [fetch_core]
  scr r _ := by rw [fetch_core]
  branchTarget := by rw [fetch_core]
  bytes space address := by
    unfold fetch
    dsimp only
    split <;> rfl
  ports := by
    have hprogram : Space.program ≠ Space.io := by decide
    unfold fetch
    dsimp only
    split
    · exact (Bus.accesses_read16_of_ne _ _ hprogram).trans (Bus.accesses_read16_of_ne _ _ hprogram)
    · exact Bus.accesses_read16_of_ne _ _ hprogram

/-- A step that ends with an entry: the check status apart, the entry finds and saves what the machine
held at the start of the step. -/
theorem NotedTo.enteredTo {before noted : Machine} (h : before.NotedTo noted) (cause : Exception)
    (next : Word) : before.EnteredTo cause ((noted.enter cause).mapCore (·.endStep next)) := by
  have hsequencing := noted.enter_sequencing cause
  simp only [Core.sequencing, Prod.mk.injEq] at hsequencing
  -- The entry has set the address to go on at, so the end of the step only uses up the token.
  have hend : (noted.enter cause).mapCore (·.endStep next) =
      (noted.enter cause).mapCore fun core => { core with flow := .normal } := by
    rw [mapCore, mapCore, Core.endStep, hsequencing.1]
  have hscr (r : Reg) : (noted.enter cause).core.regs.scr.get r =
      (cause.load noted.bus noted.core.regs.scr).get r := by
    rw [noted.enter_regs cause]
  have hbytes (space : Space) (address : Word) :
      (cause.save noted.bus noted.core.regs).peek8 space address =
        (noted.enter cause).bus.peek8 space address := (noted.enter_peek8 cause space address).symm
  obtain ⟨hiar, hics, hcs⟩ := cause.saved_save noted.bus noted.core.regs
  rw [hend]
  constructor
  case flow => rfl
  case branchTarget => exact hsequencing.2.1.trans h.branchTarget
  case gpr => exact (congrArg Registers.gpr (noted.enter_regs cause)).trans h.gpr
  case scr =>
    intro r hmpcs hiar hics hcs
    exact (hscr r).trans ((cause.load_of_ne _ _ hiar hics hcs).trans (h.scr r hmpcs))
  case iar =>
    exact (hscr Scr.iar).trans ((cause.load_iar _ _).trans (Bus.peek32_of_peek8 (h.bytes _) _))
  case ics =>
    refine (hscr Scr.ics).trans ((cause.load_ics _ _).trans ?_)
    exact congrArg _ (Bus.peek16_congr (h.bytes _ _) (h.bytes _ _))
  case translateMode => exact noted.enter_translateMode cause
  case savedIar =>
    exact ((Bus.peek32_of_peek8 (hbytes _) _).symm.trans hiar).trans (h.scr Scr.iar (by decide))
  case savedIcs =>
    refine ((Bus.peek16_congr (hbytes _ _) (hbytes _ _)).symm.trans hics).trans ?_
    exact congrArg lowHalf (h.scr Scr.ics (by decide))
  case savedCs =>
    refine ((Bus.peek16_congr (hbytes _ _) (hbytes _ _)).symm.trans hcs).trans ?_
    exact congrArg lowHalf (h.scr Scr.cs (by decide))
  case bytes =>
    intro space address hsaves
    exact (hbytes space address).symm.trans
      ((Exception.peek8_save_of_not_saves hsaves).trans (h.bytes space address))
  case ports => exact (noted.enter_ports cause).trans h.ports

/-- An entry takes the condition status from the block if the exception loads one. -/
theorem NotedTo.entered_cs {before noted : Machine} (h : before.NotedTo noted) (cause : Exception)
    (next : Word) :
    ((noted.enter cause).mapCore (·.endStep next)).core.regs.cs =
      if cause.loadsCondition then (before.bus.peek16 .program (cause.block + 14)).setWidth 32
      else before.core.regs.cs := by
  rw [enter_endStep_regs, Registers.cs, enter_regs, Exception.load_cs,
    Bus.peek16_congr (h.bytes _ _) (h.bytes _ _), h.scr Scr.cs (by decide), Registers.cs]

end Machine

end ProcessorCores.Romp

import ProcessorCores.Proofs.Tms.Resets

/-!
# Fixed bits of the status

One bit of ST0 and some bits of ST1 are one in every status that a host can reach. Each setter puts
them back, or leaves them where they stand, and nothing but the setters writes a status word.

With the fixed bits in place a setter changes the field that it is for and no other bit. This is what
makes the status that a program saves and loads the status that it had.
-/

namespace ProcessorCores.Tms

/-- A status whose fixed bits are all set, whichever the part fixes. -/
structure Status.HoldsFixed (status : Status) : Prop where
  st0 : status.st0 ||| St0.fixed = status.st0
  st1 : status.st1 ||| status.st1Fixed = status.st1

/-- A status of a part whose fixed bits are all set. -/
structure Status.InPlace (status : Status) (model : Model) : Prop where
  part : status.st1Fixed = model.st1Fixed
  st0 : status.st0 ||| St0.fixed = status.st0
  st1 : status.st1 ||| status.st1Fixed = status.st1

namespace Status

variable {status : Status} {model : Model}

/-- Bits that have been set are set. -/
theorem or_fixed (word fixed : Half) : word ||| fixed ||| fixed = word ||| fixed := by
  rw [BitVec.or_assoc, BitVec.or_self]

/-! ## Any part -/

/-- Both words with their fixed bits put back. -/
theorem holdsFixed_setWords (status : Status) (st0 st1 : Half) : (status.setWords st0 st1).HoldsFixed :=
  ⟨or_fixed _ _, or_fixed _ _⟩

/-- A reset puts the fixed bits in place, whatever was there. -/
theorem holdsFixed_reset (status : Status) : status.reset.HoldsFixed :=
  have hreset : St0.reset ||| St0.fixed = St0.reset := by decide
  ⟨hreset, or_fixed _ _⟩

/-- A load of ST1 puts the pointer into ST0, where no fixed bit is. -/
theorem HoldsFixed.loadSt1 (h : status.HoldsFixed) (value : Half) :
    (status.loadSt1 value).HoldsFixed := by
  refine ⟨?_, or_fixed _ _⟩
  have hdisjoint : ∀ i < 16, St0.fixed.getLsbD i = true → St0.arp.getLsbD i = false := by decide
  apply BitVec.eq_of_getLsbD_eq
  intro i hi
  have hbit := congrArg (·.getLsbD i) h.st0
  simp only [BitVec.getLsbD_or] at hbit
  cases hfixed : St0.fixed.getLsbD i with
  | false => rw [BitVec.getLsbD_or, hfixed, Bool.or_false]
  | true =>
    rw [hfixed, Bool.or_true] at hbit
    simp only [Status.loadSt1, BitVec.getLsbD_or, BitVec.getLsbD_and, BitVec.getLsbD_not,
      hdisjoint i hi hfixed, ← hbit]
    simp [hi]

/-- Every setter leaves the fixed bits in place. -/
theorem HoldsFixed.apply (h : status.HoldsFixed) (edit : StatusEdit) :
    (edit.apply status).HoldsFixed := by
  cases edit with
  | put flag on =>
    rw [StatusEdit.apply, put]
    split
    · exact ⟨or_fixed _ _, h.st1⟩
    · exact ⟨h.st0, or_fixed _ _⟩
  | arp n => exact ⟨or_fixed _ _, or_fixed _ _⟩
  | dp page => exact ⟨or_fixed _ _, h.st1⟩
  | pm mode => exact ⟨h.st0, or_fixed _ _⟩
  | st0 value => exact ⟨or_fixed _ _, h.st1⟩
  | st1 value => exact h.loadSt1 value

/-! ## The parts that there are -/

/-- A status in place has its fixed bits set. -/
theorem InPlace.holdsFixed (h : status.InPlace model) : status.HoldsFixed := ⟨h.st0, h.st1⟩

/-- A status of the part with its fixed bits set is in place. -/
theorem HoldsFixed.inPlace (h : status.HoldsFixed) (hpart : status.st1Fixed = model.st1Fixed) :
    status.InPlace model :=
  ⟨hpart, h.st0, h.st1⟩

/-- A setter does not change the part either. -/
theorem InPlace.apply (h : status.InPlace model) (edit : StatusEdit) :
    (edit.apply status).InPlace model :=
  (h.holdsFixed.apply edit).inPlace ((edit.apply_st1Fixed status).trans h.part)

/-- So do the edits that ordinary work makes. -/
theorem EditedTo.inPlace {after : Status} (h : status.EditedTo after) (hbefore : status.InPlace model) :
    after.InPlace model := by
  induction h with
  | refl => exact hbefore
  | tail _ hlast ih =>
    obtain ⟨edit, -, rfl⟩ := hlast
    exact ih.apply edit

/-- And so do patches. -/
theorem PatchedTo.inPlace {after : Status} (h : status.PatchedTo after)
    (hbefore : status.InPlace model) : after.InPlace model := by
  cases h with
  | same => exact hbefore
  | edit edit _ => exact hbefore.apply edit
  | words st0 st1 _ => exact (holdsFixed_setWords _ st0 st1).inPlace hbefore.part

/-- The status at power on is in place. -/
theorem inPlace_new (model : Model) : (new model.st1Fixed).InPlace model :=
  (holdsFixed_reset _).inPlace rfl

end Status

namespace Core

/-- The fixed bits of the part are set. -/
def FixedBits (core : Core) : Prop := core.regs.status.InPlace core.model

/-- No operation clears a fixed bit, or changes what part it is. -/
theorem keptByOps_fixedBits : KeptByOps fun before after =>
    after.model = before.model ∧
      ∀ model, before.regs.status.InPlace model → after.regs.status.InPlace model where
  trans h h' := ⟨h'.1.trans h.1, fun model hbefore => h'.2 model (h.2 model hbefore)⟩
  edited h := ⟨congrArg Frame.model h.frame, fun _ hbefore => h.status.inPlace hbefore⟩
  status _ edit := ⟨rfl, fun _ hbefore => hbefore.apply edit⟩
  armRepeat _ _ := ⟨rfl, fun _ hbefore => hbefore⟩
  doze _ := ⟨rfl, fun _ hbefore => hbefore.apply (.put .intm false)⟩
  driveXf _ on := ⟨rfl, fun _ hbefore => hbefore.apply (.put .xf on)⟩
  mapBlock core index program := by
    obtain ⟨journal, hmoved⟩ := core.mapBlock_eq index program
    rw [hmoved]
    exact ⟨rfl, fun _ hbefore => hbefore⟩
  illegal _ _ := ⟨rfl, fun _ hbefore => hbefore⟩

/-- Every execution keeps the fixed bits. -/
theorem keeps_fixedBits (execution : Machine × Op) : Keeps FixedBits execution := by
  intro hbefore
  obtain ⟨hmodel, hkept⟩ := keptByOps_fixedBits.execute execution.1 execution.2
  rw [FixedBits, hmodel]
  exact hkept _ hbefore

/-- The bookkeeping of a run masks interrupts, and does no more to the status. -/
theorem kept_fixedBits : Kept FixedBits where
  service core h := by
    unfold service
    split
    · next source _ =>
      have hmasked := Status.InPlace.apply h (.put .intm true)
      cases source <;> exact hmasked
    · exact h
  countClocks core budget clocks h :=
    core.holds_countClocks budget clocks fun _ _ _ _ _ => h
  fetch _ _ h := h
  report _ _ h := h
  countPass _ h := h
  endBlock _ h := h
  spend _ _ h := h
  hold _ _ h := h

/-- A reset sets the fixed bits. -/
theorem fixedBits_reset (core : Core) : core.reset.FixedBits := by
  obtain ⟨_, _, _, hunmapped⟩ := core.unmapBlocks_eq
  unfold FixedBits reset
  rw [hunmapped]
  exact Status.inPlace_new core.model

/-- Every host action keeps the fixed bits. -/
theorem keptByHost_fixedBits : KeptByHost FixedBits where
  reset core _ := core.fixedBits_reset
  line core line asserted h := core.holds_setInputLine line asserted fun _ _ _ => h
  bio _ _ h := h
  hold _ _ h := h
  serialInput _ _ h := h
  serialOutput _ h := h
  poke core path value h := core.holds_poke path value (fun _ hstatus => hstatus.inPlace h) fun _ _ => h

end Core

/-- Whatever a host can reach has the fixed bits of its part in place. -/
theorem Reached.inPlace {model : Model} {fair : Machine × Op → Prop} {machine : Machine}
    (h : Reached model fair machine) : machine.core.regs.status.InPlace model := by
  have hbits : machine.core.FixedBits := by
    apply h.invariant Core.kept_fixedBits Core.keptByHost_fixedBits
    · exact Core.kept_fixedBits.keptBySteps fun e _ => Core.keeps_fixedBits e
    · exact Status.inPlace_new model
    · exact fun core _ _ => core.fixedBits_reset
  rw [Core.FixedBits, h.layout.1] at hbits
  exact hbits

end ProcessorCores.Tms

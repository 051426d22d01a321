import ProcessorCores.Proofs.Paths
import ProcessorCores.Romp.Place

/-!
# Patches of a ROMP core

A patch that is accepted puts its number at one place, where it can be read again, and changes no
other register; the flags are fields of the condition status, a register of its own name. A patch that
is refused changes nothing. Whether a path names a place does not depend on what is done there, so a
patch and a query know the same paths.
-/

namespace ProcessorCores.Romp

namespace Place

/-! ## Paths of registers -/

/-- The names of the system control registers stand for their numbers, and nothing else does. -/
theorem scrOfName?_eq_some_iff {name : String} {r : Reg} :
    scrOfName? name = some r ↔ name = Scr.name r := by
  constructor
  · intro h
    obtain ⟨index, hindex, rfl⟩ := Option.map_eq_some_iff.mp h
    rw [Vector.finIdxOf?] at hindex
    obtain ⟨spot, hspot, rfl⟩ := Option.map_eq_some_iff.mp hindex
    exact (Array.finIdxOf?_eq_some_iff.mp hspot).1.symm
  · rintro rfl
    revert r
    decide +kernel

/-- No name of a system control register begins like that of a general register. -/
theorem indexAfter?_scrName (r : Reg) : Text.indexAfter? ['r'] 16 (Scr.name r).toList = none := by
  revert r
  decide +kernel

/-- A general register is named by its number, in any spelling. -/
theorem ofPath?_eq_gpr_iff {path : String} {r : Reg} :
    ofPath? path = some (.gpr r) ↔
      ∃ plus zeros, path.toList = 'r' :: Text.spelling plus zeros r.toNat := by
  have hindex : Text.indexAfter? ['r'] 16 path.toList = some r.toFin ↔
      ∃ plus zeros, path.toList = 'r' :: Text.spelling plus zeros r.toNat :=
    Text.indexAfter?_eq_some_iff
  rw [← hindex]
  unfold ofPath?
  split
  · next index hsome =>
    rw [hsome, Option.some.injEq, Option.some.injEq, Place.gpr.injEq]
    constructor
    · rintro rfl
      rfl
    · rintro rfl
      rfl
  · next hnone =>
    rw [hnone]
    refine iff_of_false ?_ (Option.some_ne_none _).symm
    split
    · simp
    · split
      · simp
      · split <;> simp

/-- A system control register is named by its name. -/
theorem ofPath?_eq_scr_iff {path : String} {r : Reg} :
    ofPath? path = some (.scr r) ↔ path = Scr.name r := by
  constructor
  · intro h
    unfold ofPath? at h
    split at h
    · simp at h
    · split at h
      · next other hother =>
        obtain rfl : other = r := by simpa using h
        exact scrOfName?_eq_some_iff.mp hother
      · split at h
        · simp at h
        · split at h <;> simp at h
  · rintro rfl
    unfold ofPath?
    rw [indexAfter?_scrName, scrOfName?_eq_some_iff.mpr rfl]

/-! ## Registers of places -/

/-- The register that a place is or belongs to. -/
def register : Place → Place
  | .flag _ => .scr Scr.cs
  | place => place

/-- What a place holds of a number that is put there: a flag, its truth value. -/
def held (place : Place) (number : Nat) : Nat :=
  match place with
  | .flag _ => (number != 0).toNat
  | _ => number

end Place

namespace Core

variable {core after : Core} {place other : Place} {path : String} {value : Value}

/-! ## Patches -/

/-- What a place shows after a patch is the number that the value holds. -/
theorem read_write_self (h : core.write place path value = .done after) :
    ∃ number, value.number? = some number ∧ (after.read place).number? = some (place.held number) := by
  cases place with
  | gpr r =>
    obtain ⟨register, hnumber, rfl⟩ := Value.done_of_toRegister h
    refine ⟨_, hnumber, ?_⟩
    change (Value.word ((core.regs.gpr.set r register).get r)).number? = _
    rw [Bank.get_set_self]
    rfl
  | scr r =>
    obtain ⟨register, hnumber, rfl⟩ := Value.done_of_toRegister h
    refine ⟨_, hnumber, ?_⟩
    change (Value.word ((core.regs.scr.set r register).get r)).number? = _
    rw [Bank.get_set_self]
    rfl
  | flag flag =>
    obtain ⟨on, hon, hafter⟩ := Attempt.done_of_narrow h
    obtain rfl := Attempt.done.inj hafter
    obtain ⟨number, hnumber, rfl⟩ := Value.toFlag_eq_ok_iff.mp hon
    refine ⟨number, hnumber, ?_⟩
    change (Value.flag (Condition.has ⟨(core.regs.scr.set Scr.cs _).get Scr.cs⟩ flag)).number? = _
    rw [Bank.get_set_self]
    change (Value.flag ((core.regs.condition.put flag (number != 0)).has flag)).number? = _
    rw [Condition.has_put, if_pos rfl]
    rfl
  | branchTarget =>
    obtain ⟨register, hnumber, rfl⟩ := Value.done_of_toRegister h
    exact ⟨_, hnumber, rfl⟩
  | flow | translateMode | cycles => contradiction

/-- Registers in which one general register differs look the same from any other place. -/
theorem read_setGpr {r : Reg} (word : Word) (h : other.register ≠ .gpr r) :
    (core.withRegs (core.regs.setGpr r word)).read other = core.read other := by
  cases other with
  | gpr s =>
    have hother : s ≠ r := fun hsame => h (congrArg Place.gpr hsame)
    change Value.word ((core.regs.gpr.set r word).get s) = _
    rw [Bank.get_set, if_neg hother]
    rfl
  | scr | flag | flow | branchTarget | translateMode | cycles => rfl

/-- So do registers in which one system control register differs, which the flags belong to if it is
the condition status. -/
theorem read_setScr {r : Reg} (word : Word) (h : other.register ≠ .scr r) :
    (core.withRegs (core.regs.setScr r word)).read other = core.read other := by
  cases other with
  | scr s =>
    have hother : s ≠ r := fun hsame => h (congrArg Place.scr hsame)
    change Value.word ((core.regs.scr.set r word).get s) = _
    rw [Bank.get_set, if_neg hother]
    rfl
  | flag flag =>
    have hother : Scr.cs ≠ r := fun hsame => h (congrArg Place.scr hsame)
    change Value.flag (Condition.has ⟨(core.regs.scr.set r word).get Scr.cs⟩ flag) = _
    rw [Bank.get_set, if_neg hother]
    rfl
  | gpr | flow | branchTarget | translateMode | cycles => rfl

/-- What any other register shows is what it showed. -/
theorem read_write_other (h : core.write place path value = .done after)
    (hother : other.register ≠ place.register) : after.read other = core.read other := by
  cases place with
  | gpr r =>
    obtain ⟨register, -, rfl⟩ := Value.done_of_toRegister h
    exact read_setGpr register hother
  | scr r =>
    obtain ⟨register, -, rfl⟩ := Value.done_of_toRegister h
    exact read_setScr register hother
  | flag flag =>
    obtain ⟨on, -, hafter⟩ := Attempt.done_of_narrow h
    exact Attempt.done.inj hafter ▸ read_setScr _ hother
  | branchTarget =>
    obtain ⟨register, -, rfl⟩ := Value.done_of_toRegister h
    cases other with
    | branchTarget => exact absurd rfl hother
    | gpr | scr | flag | flow | translateMode | cycles => rfl
  | flow | translateMode | cycles => contradiction

/-- A place that refuses a value is known all the same. -/
theorem write_ne_unknownPath (unknown : String) (left : Core) :
    core.write place path value ≠ .refused (.unknownPath unknown) left := by
  intro h
  cases place with
  | gpr r | scr r | branchTarget =>
    rcases Attempt.refused_of_narrow h with ⟨hvalue, -⟩ | ⟨_, -, hafter⟩
    · exact StateError.noConfusion (Value.eq_of_toRegister_error hvalue)
    · contradiction
  | flag flag =>
    rcases Attempt.refused_of_narrow h with ⟨hvalue, -⟩ | ⟨_, -, hafter⟩
    · exact StateError.noConfusion (Value.eq_of_toFlag_error hvalue)
    · contradiction
  | flow | translateMode | cycles => exact StateError.noConfusion (Attempt.refused.inj h).1

/-- No arm of a write changes anything before it refuses. -/
theorem atomic_write (core : Core) (place : Place) (path : String) (value : Value) :
    Attempt.Atomic core (core.write place path value) := by
  cases place with
  | gpr r | scr r | flag flag | branchTarget => exact Attempt.atomic_narrow fun _ => Attempt.atomic_done _ _
  | flow | translateMode | cycles => exact Attempt.atomic_refused _ _

/-- A patch that is refused leaves the core as it was. -/
theorem atomic_poke (core : Core) (path : String) (value : Value) :
    Attempt.Atomic core (core.poke path value) := by
  unfold poke
  split
  · exact core.atomic_write _ path value
  · exact Attempt.atomic_refused _ _

/-- A patch that is made is a write at the place that its path names. -/
theorem write_of_poke (h : core.poke path value = .done after) :
    ∃ place, Place.ofPath? path = some place ∧ core.write place path value = .done after := by
  unfold poke at h
  split at h
  · next place hplace => exact ⟨place, hplace, h⟩
  · contradiction

/-- A patch that put a number at a place: its path shows the number, or the truth value for a flag, and
no path of another register shows anything new. -/
structure PatchedAt (before after : Core) (path : String) (place : Place) (number : Nat) : Prop where
  shown : (after.query path).bind Value.number? = some (place.held number)
  others : ∀ other, (Place.ofPath? other).map Place.register ≠ some place.register →
    after.query other = before.query other

/-- A write that is done patches its place with the number of its value. -/
theorem patchedAt_of_write (hplace : Place.ofPath? path = some place)
    (h : core.write place path value = .done after) :
    ∃ number, value.number? = some number ∧ core.PatchedAt after path place number := by
  obtain ⟨number, hnumber, hshown⟩ := read_write_self h
  refine ⟨number, hnumber, ?_, fun other hother => Option.map_congr fun spot hnamed => ?_⟩
  · rw [query, hplace]
    exact hshown
  · obtain hnamed : Place.ofPath? other = some spot := hnamed
    rw [hnamed] at hother
    exact read_write_other h fun hsame => hother (congrArg some hsame)

/-- Patches are faithful: what is accepted is shown again and disturbs no other register, what is
refused leaves the core as it was, and a path is unknown to a patch exactly when it is to a query. The
registers have the names of the two banks and no others. -/
theorem poke_faithful (core : Core) (path : String) (value : Value) :
    (∀ after, core.poke path value = .done after →
      ∃ place number, Place.ofPath? path = some place ∧ value.number? = some number ∧
        core.PatchedAt after path place number) ∧
    (∀ error left, core.poke path value = .refused error left → left = core) ∧
    ((∃ unknown left, core.poke path value = .refused (.unknownPath unknown) left) ↔
      core.query path = none) ∧
    (∀ r, Place.ofPath? path = some (.gpr r) ↔
      ∃ plus zeros, path.toList = 'r' :: Text.spelling plus zeros r.toNat) ∧
    ∀ r, Place.ofPath? path = some (.scr r) ↔ path = Scr.name r := by
  refine ⟨?_, core.atomic_poke path value, ?_, fun _ => Place.ofPath?_eq_gpr_iff,
    fun _ => Place.ofPath?_eq_scr_iff⟩
  · intro after hpoke
    obtain ⟨place, hplace, hwrite⟩ := write_of_poke hpoke
    obtain ⟨number, hnumber, hpatched⟩ := patchedAt_of_write hplace hwrite
    exact ⟨place, number, hplace, hnumber, hpatched⟩
  · unfold poke query
    cases Place.ofPath? path with
    | none => exact iff_of_true ⟨path, core, rfl⟩ rfl
    | some place =>
      refine iff_of_false ?_ (Option.some_ne_none _)
      rintro ⟨unknown, left, hunknown⟩
      exact write_ne_unknownPath unknown left hunknown

/-- A general register in a spelling of its own, and a flag that is set by a number. -/
theorem poke_faithful_spelled :
    (∃ after place number, new.poke "r+005" (.half 0xBEEF) = .done after ∧
      Place.ofPath? "r+005" = some place ∧ (Value.half 0xBEEF).number? = some number ∧
      new.PatchedAt after "r+005" place number) ∧
    ∃ after place number, new.poke "flags.t" (.byte 9) = .done after ∧
      Place.ofPath? "flags.t" = some place ∧ (Value.byte 9).number? = some number ∧
      new.PatchedAt after "flags.t" place number := by
  have hgpr : Place.ofPath? "r+005" = some (.gpr 5) := by decide +kernel
  have hflag : Place.ofPath? "flags.t" = some (.flag .test) := by decide +kernel
  constructor
  · have hpoke : new.poke "r+005" (.half 0xBEEF) = .done (new.withRegs (new.regs.setGpr 5 0xBEEF)) := by
      rw [poke, hgpr]
      rfl
    obtain ⟨place, number, h⟩ := (new.poke_faithful "r+005" (.half 0xBEEF)).1 _ hpoke
    exact ⟨_, place, number, hpoke, h⟩
  · have hpoke : new.poke "flags.t" (.byte 9) =
        .done (new.withRegs (new.regs.setScr Scr.cs (new.regs.condition.put .test true).raw)) := by
      rw [poke, hflag]
      rfl
    obtain ⟨place, number, h⟩ := (new.poke_faithful "flags.t" (.byte 9)).1 _ hpoke
    exact ⟨_, place, number, hpoke, h⟩

end Core

end ProcessorCores.Romp

import Mathlib.Algebra.GroupWithZero.Nat
import ProcessorCores.Proofs.Tms.Flags

/-!
# What a patch of a TMS3202x core shows

A patch is to put its number at one place, where it can be read again, and to change no other
register. Two kinds of patch do not. The page, the product shift mode and the interrupt flags have
fewer bits than the word that the value is narrowed to, and the bits beyond are dropped without a
refusal. And a patch of the pointer uses the setter of the programs, which saves the old pointer as the
backup, a field of the other status word.

These are all: a patch that is accepted is faithful exactly when its number fits the field and, for the
pointer, the backup is the old pointer already.
-/

namespace ProcessorCores.Tms

/-! ## Fields of a status word -/

section Fields

variable {word field value fixed : Half}

/-- A field that is replaced holds the bits of the new value. -/
theorem replaced_and_field (hfixed : fixed &&& field = 0) :
    ((word &&& ~~~field) ||| (value &&& field) ||| fixed) &&& field = value &&& field := by
  apply BitVec.eq_of_getLsbD_eq
  intro i hi
  have hfixed : (fixed &&& field).getLsbD i = false := by simp [hfixed]
  rw [BitVec.getLsbD_and] at hfixed
  simp only [BitVec.getLsbD_and, BitVec.getLsbD_or, BitVec.getLsbD_not, hi, decide_true]
  cases hfield : field.getLsbD i with
  | false => simp
  | true =>
    rw [hfield, Bool.and_true] at hfixed
    simp [hfixed]

end Fields

namespace Status

variable {status : Status} {model : Model}

/-- A flag that no layout depends on reads back as it was put. -/
theorem InPlace.has_put (h : status.InPlace model) {flag : StatusFlag}
    (hflag : ¬ (flag = .cnf0 ∨ flag = .cnf1)) (on : Bool) : (status.put flag on).has flag = on := by
  rw [Status.has_put (Status.frees h.part fun heq => hflag (.inr heq)), if_pos rfl]

/-- The page pointer reads back the bits of its field. -/
theorem dp_setDp (status : Status) (page : Half) : (status.setDp page).dp = page &&& St0.dp :=
  replaced_and_field (by decide)

/-- The page pointer reads back modulo 512. -/
theorem toNat_dp_setDp (status : Status) (page : Half) :
    (status.setDp page).dp.toNat = page.toNat % 2 ^ 9 := by
  have hmask : St0.dp.toNat = 2 ^ 9 - 1 := by decide
  rw [dp_setDp, BitVec.toNat_and, hmask, Nat.and_two_pow_sub_one_eq_mod]

/-- The shift mode reads back the bits of its field. -/
theorem pm_setPm (hfree : status.FreesShift) (mode : Half) :
    (status.setPm mode).pm = mode &&& St1.pm :=
  replaced_and_field hfree

/-- The shift mode reads back modulo 4. -/
theorem toNat_pm_setPm (hfree : status.FreesShift) (mode : Half) :
    (status.setPm mode).pm.toNat = mode.toNat % 2 ^ 2 := by
  have hmask : St1.pm.toNat = 2 ^ 2 - 1 := by decide
  rw [pm_setPm hfree, BitVec.toNat_and, hmask, Nat.and_two_pow_sub_one_eq_mod]

/-- A new pointer leaves every field of ST1 but the backup. -/
theorem InPlace.setArp_st1_and (h : status.InPlace model) (n : Nat) {field : Half}
    (hfield : ~~~St1.arb &&& field = field) :
    (status.setArp n).st1 &&& field = status.st1 &&& field := by
  rw [← hfield, ← BitVec.and_assoc, ← BitVec.and_assoc, (h.holdsFixed.setArp_rest n).2]

/-- A word is its highest three bits and the rest. -/
theorem eq_of_extract_of_rest {word other : Half}
    (hfield : word.extractLsb' 13 3 = other.extractLsb' 13 3)
    (hrest : word &&& ~~~St1.arb = other &&& ~~~St1.arb) : word = other := by
  apply BitVec.eq_of_getLsbD_eq
  intro i hi
  by_cases hspot : 13 ≤ i
  · have hbit := congrArg (BitVec.getLsbD · (i - 13)) hfield
    have hsmall : i - 13 < 3 := by omega
    simpa only [BitVec.getLsbD_extractLsb', hsmall, decide_true, Bool.true_and,
      Nat.add_sub_cancel' hspot] using hbit
  · have hbit := congrArg (BitVec.getLsbD · i) hrest
    have hmask : ∀ i < 13, (~~~St1.arb).getLsbD i = true := by decide
    simpa only [BitVec.getLsbD_and, hmask i (Nat.lt_of_not_le hspot), Bool.and_true] using hbit

/-- Where the backup is the pointer already, a new pointer leaves ST1. -/
theorem InPlace.setArp_st1 (h : status.InPlace model) (harb : status.arb = status.arp) (n : Nat) :
    (status.setArp n).st1 = status.st1 := by
  have hbackup := (setArp_number h.freesPointer n).2
  exact eq_of_extract_of_rest (hbackup.trans harb.symm) (h.holdsFixed.setArp_rest n).2

end Status

namespace Place

/-! ## Registers of places -/

/-- The register that a place is or belongs to. -/
def register : Place → Place
  | .arp | .dp => .st0
  | .arb | .pm => .st1
  | .flag field => if field.inSt0 then .st0 else .st1
  | place => place

/-- What a place is to hold of a number that is put there: a flag, its truth value. -/
def meant (place : Place) (number : Nat) : Nat :=
  match place with
  | .flag _ => (number != 0).toNat
  | _ => number

/-- The bits of a place that has fewer of them than the word that its value is narrowed to. -/
def narrow? : Place → Option Nat
  | .dp => some 9
  | .pm => some 2
  | .ifr => some 6
  | _ => none

/-- What it holds. -/
def held (place : Place) (number : Nat) : Nat :=
  match place.narrow? with
  | some bits => number % 2 ^ bits
  | none => place.meant number

/-- The numbers that have no more bits than the place. -/
def Fits (place : Place) (number : Nat) : Prop := ∀ bits ∈ place.narrow?, number < 2 ^ bits

/-- The places that a patch of another can change. -/
def Touches (place other : Place) : Prop :=
  other.register = place.register ∨ place = .arp ∧ (other = .arb ∨ other = .st1)

/-- The places that hold a number as they are meant to are those that it fits. -/
theorem held_eq_meant_iff (place : Place) (number : Nat) :
    place.held number = place.meant number ↔ place.Fits number := by
  have hnarrow (bits : Nat) : number % 2 ^ bits = number ↔ ∀ width ∈ some bits, number < 2 ^ width := by
    rw [Nat.mod_eq_iff_lt (Nat.ne_of_gt (Nat.two_pow_pos bits))]
    simp
  cases place with
  | dp | pm | ifr => exact hnarrow _
  | _ => exact iff_of_true rfl fun _ hbits => Option.noConfusion rfl (heq_of_eq hbits)

/-- The status words are named by their own names. -/
theorem eq_of_ofPath?_status {path : String} {place : Place} (h : ofPath? path = some place)
    (hplace : place = .st0 ∨ place = .st1) : path = "st0" ∨ path = "st1" := by
  unfold ofPath? at h
  split at h
  · rcases hplace with rfl | rfl <;> simp at h
  · split at h
    · rcases hplace with rfl | rfl <;> simp at h
    · split at h
      · obtain ⟨flag, -, rfl⟩ := Option.map_eq_some_iff.mp h
        rcases hplace with hplace | hplace <;> contradiction
      · unfold named? at h
        split at h <;> rcases hplace with rfl | rfl <;> simp at h ⊢

end Place

namespace Core

variable {core after : Core} {model : Model} {place other : Place} {path : String} {value : Value}

/-! ## What is shown -/

/-- What a place shows after a patch is what it holds of the number. -/
theorem read_write_self (hbits : core.regs.status.InPlace model)
    (hst0 : place ≠ .st0) (hst1 : place ≠ .st1) (h : core.write place path value = .done after) :
    ∃ number, value.number? = some number ∧ (after.read place).number? = some (place.held number) := by
  cases place with
  | st0 => contradiction
  | st1 => contradiction
  | pc | pfc | acc | p | t | rptc =>
    obtain ⟨register, hnumber, rfl⟩ := Value.done_of_toRegister h
    exact ⟨_, hnumber, rfl⟩
  | ar pointer =>
    obtain ⟨register, hnumber, rfl⟩ := Value.done_of_toRegister h
    refine ⟨_, hnumber, ?_⟩
    change (Value.half ((core.regs.setAr pointer register).getAr pointer)).number? = _
    rw [Registers.getAr_setAr, if_pos rfl]
    rfl
  | stack index =>
    obtain ⟨register, hnumber, rfl⟩ := Value.done_of_toRegister h
    refine ⟨_, hnumber, ?_⟩
    change (Value.half ((core.regs.stack.set index.val register index.isLt)[index.val])).number? = _
    rw [Vector.getElem_set_self]
    rfl
  | ifr =>
    obtain ⟨register, hnumber, rfl⟩ := Value.done_of_toRegister h
    refine ⟨_, hnumber, ?_⟩
    have hmask : Source.allBits.toNat = 2 ^ 6 - 1 := by decide
    change some (register &&& Source.allBits).toNat = some (register.toNat % 2 ^ 6)
    rw [BitVec.toNat_and, hmask, Nat.and_two_pow_sub_one_eq_mod]
  | arp =>
    obtain ⟨pointer, hnumber, rfl⟩ := eq_of_write_arp h
    refine ⟨_, hnumber, ?_⟩
    have hshown : (core.regs.status.setArp pointer).arp = pointer :=
      (Status.setArp_pointers hbits.freesPointer pointer).1
    change some ((core.regs.status.setArp pointer).arp.setWidth 8).toNat = some pointer.toNat
    rw [hshown, BitVec.toNat_setWidth_of_le (by decide)]
  | dp =>
    obtain ⟨register, hnumber, rfl⟩ := Value.done_of_toRegister h
    refine ⟨_, hnumber, ?_⟩
    exact congrArg some (core.regs.status.toNat_dp_setDp register)
  | pm =>
    obtain ⟨register, hnumber, rfl⟩ := Value.done_of_toRegister h
    refine ⟨_, hnumber, ?_⟩
    change some ((core.regs.status.setPm register).pm.setWidth 8).toNat =
      some (register.toNat % 2 ^ 2)
    rw [BitVec.toNat_setWidth, Status.toNat_pm_setPm (Status.freesShift hbits.part)]
    congr 1
    omega
  | flag flag =>
    obtain ⟨hflag, number, hnumber, rfl⟩ := eq_of_write_flag h
    refine ⟨number, hnumber, ?_⟩
    change some (((core.regs.status.put flag (number != 0)).has flag).toNat) = _
    rw [hbits.has_put hflag]
    rfl
  | mapped register =>
    obtain ⟨word, hnumber, rfl⟩ := Value.done_of_toRegister h
    refine ⟨_, hnumber, ?_⟩
    change (Value.half ((core.ram.setRegister register word).getRegister register)).number? = _
    rw [OnChipRam.getRegister_setRegister, if_pos rfl]
    rfl
  | arb | idle | hold | repeating | cycles => contradiction

/-! ## What is left alone -/

/-- A place shows the same in a status that has the same word for it. -/
theorem read_mapStatus {f : Status → Status}
    (hst0 : other.register = .st0 → (f core.regs.status).st0 = core.regs.status.st0)
    (hst1 : other.register = .st1 → (f core.regs.status).st1 = core.regs.status.st1) :
    (core.mapStatus f).read other = core.read other := by
  cases other with
  | st0 => exact congrArg Value.half (hst0 rfl)
  | st1 => exact congrArg Value.half (hst1 rfl)
  | arp => exact congrArg (fun word : Half => Value.byte ((word.extractLsb' 13 3).setWidth 8)) (hst0 rfl)
  | dp => exact congrArg (fun word => Value.half (word &&& St0.dp)) (hst0 rfl)
  | arb => exact congrArg (fun word : Half => Value.byte ((word.extractLsb' 13 3).setWidth 8)) (hst1 rfl)
  | pm => exact congrArg (fun word => Value.byte ((word &&& St1.pm).setWidth 8)) (hst1 rfl)
  | flag flag =>
    change Value.flag ((f core.regs.status).has flag) = Value.flag (core.regs.status.has flag)
    rw [Status.has, Status.has]
    cases hword : flag.inSt0 with
    | true => rw [if_pos rfl, if_pos rfl, hst0 (if_pos hword)]
    | false =>
      have hnot : ¬ flag.inSt0 = true := by simp [hword]
      rw [if_neg Bool.false_ne_true, if_neg Bool.false_ne_true, hst1 (if_neg hnot)]
  | _ => rfl

/-- A flag shows in its own word only. -/
theorem read_put (flag : StatusFlag) (on : Bool) (h : other.register ≠ Place.register (.flag flag)) :
    (core.mapStatus (·.put flag on)).read other = core.read other := by
  rw [Place.register] at h
  cases hword : flag.inSt0 with
  | true =>
    rw [hword, if_pos rfl] at h
    refine read_mapStatus (fun hsame => absurd hsame h) fun _ => ?_
    rw [Status.put, hword]
    rfl
  | false =>
    rw [hword, if_neg Bool.false_ne_true] at h
    refine read_mapStatus (fun _ => ?_) fun hsame => absurd hsame h
    rw [Status.put, hword]
    rfl

/-- A new pointer shows nowhere in ST1 but in the backup and the word itself. -/
theorem read_setArp (hbits : core.regs.status.InPlace model) (pointer : Pointer)
    (h : ¬ Place.Touches .arp other) :
    (core.mapStatus (·.setArp pointer)).read other = core.read other := by
  rw [Place.Touches, not_or] at h
  cases other with
  | st0 | arp | dp => exact absurd rfl h.1
  | arb => exact absurd ⟨rfl, .inl rfl⟩ h.2
  | st1 => exact absurd ⟨rfl, .inr rfl⟩ h.2
  | pm =>
    exact congrArg (fun word : Half => Value.byte (word.setWidth 8))
      (hbits.setArp_st1_and pointer (by decide))
  | flag flag =>
    cases hword : flag.inSt0 with
    | true => exact absurd (if_pos hword) h.1
    | false =>
      have hmask : ~~~St1.arb &&& flag.mask = flag.mask := by
        cases flag <;> first | contradiction | decide
      change Value.flag ((core.regs.status.setArp pointer).has flag) =
        Value.flag (core.regs.status.has flag)
      rw [Status.has, Status.has, hword, if_neg Bool.false_ne_true, if_neg Bool.false_ne_true, meets,
        meets, hbits.setArp_st1_and pointer hmask]
  | _ => rfl

/-- What a patch does not touch shows what it showed. -/
theorem read_write_other (hbits : core.regs.status.InPlace model)
    (h : core.write place path value = .done after) (hother : ¬ place.Touches other) :
    after.read other = core.read other := by
  have hregister : other.register ≠ place.register := fun hsame => hother (.inl hsame)
  -- Two places of one kind are told apart by what they name; the fields of the status by their word.
  cases place with
  | pc | pfc | acc | p | t | rptc | ifr =>
    obtain ⟨register, -, rfl⟩ := Value.done_of_toRegister h
    cases other <;> first | rfl | contradiction
  | ar pointer =>
    obtain ⟨register, -, rfl⟩ := Value.done_of_toRegister h
    cases other with
    | ar spot =>
      have hspot : spot ≠ pointer := fun hsame => hregister (congrArg Place.ar hsame)
      change Value.half ((core.regs.setAr pointer register).getAr spot) = _
      rw [Registers.getAr_setAr, if_neg hspot]
      rfl
    | _ => rfl
  | stack index =>
    obtain ⟨register, -, rfl⟩ := Value.done_of_toRegister h
    cases other with
    | stack spot =>
      have hspot : index.val ≠ spot.val := fun hsame =>
        hregister (congrArg Place.stack (Fin.ext hsame.symm))
      change Value.half ((core.regs.stack.set index.val register index.isLt)[spot.val]) = _
      rw [Vector.getElem_set_ne _ _ hspot]
      rfl
    | _ => rfl
  | st0 =>
    obtain ⟨register, -, rfl⟩ := Value.done_of_toRegister h
    exact read_mapStatus (fun hsame => absurd hsame hregister) fun _ => hbits.st1
  | st1 =>
    obtain ⟨register, -, rfl⟩ := Value.done_of_toRegister h
    exact read_mapStatus (fun _ => hbits.st0) fun hsame => absurd hsame hregister
  | arp =>
    obtain ⟨pointer, -, rfl⟩ := eq_of_write_arp h
    exact read_setArp hbits pointer hother
  | dp =>
    obtain ⟨register, -, rfl⟩ := Value.done_of_toRegister h
    exact read_mapStatus (fun hsame => absurd hsame hregister) fun _ => rfl
  | pm =>
    obtain ⟨register, -, rfl⟩ := Value.done_of_toRegister h
    exact read_mapStatus (fun _ => rfl) fun hsame => absurd hsame hregister
  | flag flag =>
    obtain ⟨-, number, -, rfl⟩ := eq_of_write_flag h
    exact read_put flag (number != 0) hregister
  | mapped register =>
    obtain ⟨word, -, rfl⟩ := Value.done_of_toRegister h
    cases other with
    | mapped spot =>
      have hspot : spot ≠ register := fun hsame => hregister (congrArg Place.mapped hsame)
      change Value.half ((core.ram.setRegister register word).getRegister spot) = _
      rw [OnChipRam.getRegister_setRegister, if_neg hspot]
      rfl
    | _ => rfl
  | arb | idle | hold | repeating | cycles => contradiction

/-! ## Patches -/

/-- A patch that put a number at a place: its path shows the number, or the truth value for a flag, and
no path of another register shows anything new. -/
structure PatchedAt (before after : Core) (path : String) (place : Place) (number : Nat) : Prop where
  shown : (after.query path).bind Value.number? = some (place.meant number)
  others : ∀ other, (Place.ofPath? other).map Place.register ≠ some place.register →
    after.query other = before.query other

/-- A query shows what its place shows. -/
theorem query_of_ofPath? (hplace : Place.ofPath? path = some place) :
    core.query path = some (core.read place) := by
  rw [query, hplace]
  rfl

/-- ARB is queried as a byte. -/
theorem query_arb (core : Core) :
    core.query "arb" = some (.byte (core.regs.status.arb.setWidth 8)) := by
  have hnamed : Place.ofPath? "arb" = some .arb := by decide +kernel
  exact query_of_ofPath? hnamed

/-- After a patch of the pointer the backup shows the pointer before. -/
theorem query_arb_of_write_arp (hbits : core.regs.status.InPlace model)
    (h : core.write .arp path value = .done after) :
    after.query "arb" = some (.byte (core.regs.status.arp.setWidth 8)) := by
  obtain ⟨pointer, -, rfl⟩ := eq_of_write_arp h
  have hbackup : (core.mapStatus (·.setArp pointer)).regs.status.arb = core.regs.status.arp :=
    (Status.setArp_pointers hbits.freesPointer pointer).2
  rw [query_arb, hbackup]

/-- With the backup in agreement a patch of the pointer touches its own word only. -/
theorem read_write_other_of_backup (hbits : core.regs.status.InPlace model)
    (harb : place = .arp → core.regs.status.arb = core.regs.status.arp)
    (h : core.write place path value = .done after) (hother : other.register ≠ place.register) :
    after.read other = core.read other := by
  by_cases hpointer : place = .arp
  · subst hpointer
    obtain ⟨pointer, -, rfl⟩ := eq_of_write_arp h
    exact read_mapStatus (fun hsame => absurd hsame hother) fun _ =>
      hbits.setArp_st1 (harb rfl) pointer
  · refine read_write_other hbits h ?_
    rintro (hsame | ⟨hsame, -⟩)
    · exact hother hsame
    · exact hpointer hsame

/-- The patches that put their number at their place and nothing anywhere else. -/
theorem patchedAt_iff {number : Nat} (hbits : core.regs.status.InPlace model)
    (hst0 : place ≠ .st0) (hst1 : place ≠ .st1) (hplace : Place.ofPath? path = some place)
    (hnumber : value.number? = some number) (h : core.write place path value = .done after) :
    core.PatchedAt after path place number ↔
      place.Fits number ∧ (place = .arp → core.regs.status.arb = core.regs.status.arp) := by
  have hshown : (after.query path).bind Value.number? = some (place.held number) := by
    obtain ⟨held, hheld, hread⟩ := read_write_self hbits hst0 hst1 h
    obtain rfl := Option.some.inj (hnumber.symm.trans hheld)
    rw [query_of_ofPath? hplace]
    exact hread
  constructor
  · intro hpatched
    refine ⟨?_, ?_⟩
    · exact (place.held_eq_meant_iff number).mp
        (Option.some.inj (hshown.symm.trans hpatched.shown))
    · rintro rfl
      have hother : (Place.ofPath? "arb").map Place.register ≠ some (Place.register .arp) := by
        decide +kernel
      have hsame := hpatched.others "arb" hother
      rw [query_arb_of_write_arp hbits h, query_arb] at hsame
      have hwide : core.regs.status.arp.setWidth 8 = core.regs.status.arb.setWidth 8 :=
        Value.byte.inj (Option.some.inj hsame)
      have hback := congrArg (BitVec.setWidth 3) hwide
      rw [BitVec.setWidth_setWidth_of_le _ (by decide), BitVec.setWidth_setWidth_of_le _ (by decide),
        BitVec.setWidth_eq, BitVec.setWidth_eq] at hback
      exact hback.symm
  · rintro ⟨hfits, harb⟩
    refine ⟨?_, fun other hother => Option.map_congr fun spot hnamed => ?_⟩
    · rw [hshown, (place.held_eq_meant_iff number).mpr hfits]
    · obtain hnamed : Place.ofPath? other = some spot := hnamed
      rw [hnamed] at hother
      exact read_write_other_of_backup hbits harb h fun hsame => hother (congrArg some hsame)

end Core

/-- Patches by any path but those of the whole status words, exactly. A refusal leaves the core as it
was. A patch that is accepted is faithful if and only if its number fits the place and, for the pointer,
the backup is the old pointer already. Otherwise the place shows the low bits of the number, and a
patch of the pointer shows the old pointer in the backup; nothing else that it does not touch shows
anything new. -/
theorem Reached.poke_faithful_iff {model : Model} {fair : Machine × Op → Prop} {machine : Machine}
    (h : Reached model fair machine) {path : String} (value : Value) (hst0 : path ≠ "st0")
    (hst1 : path ≠ "st1") :
    (∀ error left, machine.core.poke path value = .refused error left → left = machine.core) ∧
    ∀ after, machine.core.poke path value = .done after →
      ∃ place number, Place.ofPath? path = some place ∧ value.number? = some number ∧
        (machine.core.PatchedAt after path place number ↔
          place.Fits number ∧
            (place = .arp → machine.core.regs.status.arb = machine.core.regs.status.arp)) ∧
        (after.query path).bind Value.number? = some (place.held number) ∧
        (place = .arp →
          after.query "arb" = some (.byte (machine.core.regs.status.arp.setWidth 8))) ∧
        ∀ other, (∀ spot, Place.ofPath? other = some spot → ¬ place.Touches spot) →
          after.query other = machine.core.query other := by
  refine ⟨machine.core.atomic_poke path value, fun after hpoke => ?_⟩
  have hbits := h.inPlace
  obtain ⟨place, hplace, hwrite⟩ := Core.write_of_poke hpoke
  generalize machine.core = core at hbits hwrite
  have hword : ¬ (place = .st0 ∨ place = .st1) := fun hword =>
    (Place.eq_of_ofPath?_status hplace hword).elim hst0 hst1
  rw [not_or] at hword
  obtain ⟨number, hnumber, hshown⟩ := Core.read_write_self hbits hword.1 hword.2 hwrite
  refine ⟨place, number, hplace, hnumber,
    Core.patchedAt_iff hbits hword.1 hword.2 hplace hnumber hwrite, ?_, ?_, ?_⟩
  · rw [Core.query_of_ofPath? hplace]
    exact hshown
  · rintro rfl
    exact Core.query_arb_of_write_arp hbits hwrite
  · exact fun other hother => Option.map_congr fun spot hnamed =>
      Core.read_write_other hbits hwrite (hother spot hnamed)

/-- The last page fits its nine bits. -/
theorem poke_faithful_page :
    let core : Core := .new .tms32025
    ∃ after, core.poke "dp" (.half 0x01FF) = .done after ∧ core.PatchedAt after "dp" .dp 0x01FF := by
  intro core
  have hreached : Reached .tms32025 (fun _ => True) ⟨core, .empty⟩ := .new _
  have hnamed : Place.ofPath? "dp" = some .dp := by decide +kernel
  have hpoke : core.poke "dp" (.half 0x01FF) = .done (core.mapStatus (·.setDp 0x01FF)) := by
    rw [Core.poke, hnamed]
    rfl
  obtain ⟨place, number, hplace, hnumber, hfaithful, -⟩ :=
    (hreached.poke_faithful_iff (.half 0x01FF) (by decide) (by decide)).2 _ hpoke
  obtain rfl : Place.dp = place := Option.some.inj (hnamed.symm.trans hplace)
  obtain rfl : 0x01FF = number := Option.some.inj hnumber
  have hfits : Place.dp.Fits 0x01FF := by
    intro bits hbits
    obtain rfl : 9 = bits := Option.some.inj hbits
    decide
  exact ⟨_, hpoke, hfaithful.mpr ⟨hfits, Place.noConfusion⟩⟩

/-- Patches are not faithful: one bit more than the page has is accepted, and shows as page 0. -/
theorem page_patch_truncated :
    ¬ ∀ machine path value after, Reached .tms32025 (fun _ => True) machine →
      path ≠ "st0" → path ≠ "st1" → machine.core.poke path value = .done after →
        ∃ place number, Place.ofPath? path = some place ∧ value.number? = some number ∧
          machine.core.PatchedAt after path place number := by
  intro hall
  have hreached : Reached .tms32025 (fun _ => True) ⟨.new .tms32025, .empty⟩ := .new _
  have hnamed : Place.ofPath? "dp" = some .dp := by decide +kernel
  have hpoke : (Core.new .tms32025).poke "dp" (.half 0x0200) =
      .done ((Core.new .tms32025).mapStatus (·.setDp 0x0200)) := by
    rw [Core.poke, hnamed]
    rfl
  obtain ⟨place, number, hplace, hnumber, hpatched⟩ :=
    hall _ "dp" (.half 0x0200) _ hreached (by decide) (by decide) hpoke
  obtain rfl : Place.dp = place := Option.some.inj (hnamed.symm.trans hplace)
  obtain rfl : 0x0200 = number := Option.some.inj hnumber
  exact absurd hpatched.shown (by decide +kernel)

end ProcessorCores.Tms

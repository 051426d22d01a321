import ProcessorCores.Proofs.Paths
import ProcessorCores.Proofs.Tms.StatusEdits
import ProcessorCores.Tms.Place

/-!
# Patches of a TMS3202x core

A debugger that patches a place reaches the register file or one mapped register, and nothing else.
In the register file it can change the status by the setters that operations use too, but neither the
bits that the part fixes nor the flags that choose the layout of the blocks.
-/

namespace ProcessorCores.Tms

/-- A new status with the fixed bits and the layout flag of the old one. -/
def Status.SameLayout (before after : Status) : Prop :=
  after.st1Fixed = before.st1Fixed ∧ (before.FreesLayout → after.has .cnf0 = before.has .cnf0)

/-- Edits that leave the layout flag. -/
theorem Status.sameLayout_apply (edit : StatusEdit) (hedit : edit.leavesLayout = true)
    (status : Status) : status.SameLayout (edit.apply status) :=
  ⟨edit.apply_st1Fixed status, StatusEdit.apply_cnf0 hedit⟩

/-- Both words replaced at once, with the layout flag of ST1 kept. -/
theorem Status.sameLayout_setWords (status : Status) (st0 st1 : Half)
    (hst1 : st1.getLsbD 12 = status.st1.getLsbD 12) :
    status.SameLayout (status.setWords st0 st1) := by
  refine ⟨rfl, fun hfree => ?_⟩
  rw [Status.has_cnf0, Status.has_cnf0]
  change (st1 ||| status.st1Fixed).getLsbD 12 = _
  rw [BitVec.getLsbD_or, hfree, Bool.or_false, hst1]

/-- What a patch can make of the status: nothing, an edit that leaves the layout flag, or two new
words with the layout flag of the old ones. -/
inductive Status.PatchedTo (status : Status) : Status → Prop
  | same : PatchedTo status status
  | edit (edit : StatusEdit) : edit.leavesLayout = true → PatchedTo status (edit.apply status)
  | words (st0 st1 : Half) : st1.getLsbD 12 = status.st1.getLsbD 12 →
    PatchedTo status (status.setWords st0 st1)

/-- A patched status has the same layout. -/
theorem Status.PatchedTo.sameLayout {before after : Status} (h : before.PatchedTo after) :
    before.SameLayout after := by
  cases h with
  | same => exact ⟨rfl, fun _ => rfl⟩
  | edit edit hedit => exact before.sameLayout_apply edit hedit
  | words st0 st1 hst1 => exact before.sameLayout_setWords st0 st1 hst1

namespace Core

/-- What a patch makes of a core: other registers, with the status patched, or another word in a
mapped register. -/
def Patched (before after : Core) : Prop :=
  (∃ regs : Registers, after = { before with regs := regs } ∧
    before.regs.status.PatchedTo regs.status) ∨
  ∃ register word, after = before.mapRam (·.setRegister register word)

/-- Registers with the same status. -/
theorem patched_of_status {core : Core} {regs : Registers} (h : regs.status = core.regs.status) :
    core.Patched { core with regs := regs } :=
  .inl ⟨regs, rfl, h ▸ .same⟩

/-- Registers with an edited status. -/
theorem patched_of_edit (core : Core) (edit : StatusEdit) (hedit : edit.leavesLayout = true) :
    core.Patched (core.mapStatus edit.apply) :=
  .inl ⟨_, rfl, .edit edit hedit⟩

variable {core after : Core} {place : Place} {path : String} {value : Value}

/-- A pointer takes the numbers that it can hold, by the setter of the programs. -/
theorem eq_of_write_arp (hwrite : core.write .arp path value = .done after) :
    ∃ pointer : Pointer, value.number? = some pointer.toNat ∧
      core.mapStatus (·.setArp pointer) = after := by
  obtain ⟨register, hregister, hafter⟩ := Attempt.done_of_narrow hwrite
  split at hafter
  · contradiction
  · next hpointer =>
    have hsmall : register.toNat < 2 ^ 3 :=
      Nat.lt_succ_of_le (BitVec.le_def.mp (BitVec.not_lt.mp hpointer))
    have hnumber : (register.setWidth 3).toNat = register.toNat := by
      rw [BitVec.toNat_setWidth, Nat.mod_eq_of_lt hsmall]
    refine ⟨register.setWidth 3, ?_, ?_⟩
    · rw [hnumber]
      exact Value.toRegister_eq_ok_iff.mp hregister
    · rw [hnumber]
      exact Attempt.done.inj hafter

/-- A flag takes any number, but not if the layout depends on it. -/
theorem eq_of_write_flag {flag : StatusFlag} (hwrite : core.write (.flag flag) path value = .done after) :
    ¬ (flag = .cnf0 ∨ flag = .cnf1) ∧ ∃ number, value.number? = some number ∧
      core.mapStatus (·.put flag (number != 0)) = after := by
  obtain ⟨on, hon, hafter⟩ := Attempt.done_of_narrow hwrite
  split at hafter
  · contradiction
  · next hflag =>
    obtain ⟨number, hnumber, rfl⟩ := Value.toFlag_eq_ok_iff.mp hon
    exact ⟨hflag, number, hnumber, Attempt.done.inj hafter⟩

/-- Every patch that a place accepts is one of the two. -/
theorem patched_of_write (hwrite : core.write place path value = .done after) : core.Patched after := by
  cases place with
  | pc | pfc | acc | p | t | ar _ | stack _ | rptc | ifr =>
    obtain ⟨register, -, rfl⟩ := Value.done_of_toRegister hwrite
    exact patched_of_status rfl
  | st0 =>
    obtain ⟨register, -, rfl⟩ := Value.done_of_toRegister hwrite
    exact .inl ⟨_, rfl, .words register core.regs.status.st1 rfl⟩
  | st1 =>
    obtain ⟨register, -, rfl⟩ := Value.done_of_toRegister hwrite
    have hmask : layoutMask.getLsbD 12 = true := by decide
    have hlayout : ((register &&& ~~~layoutMask) ||| (core.regs.status.st1 &&& layoutMask)).getLsbD 12
        = core.regs.status.st1.getLsbD 12 := by
      simp only [BitVec.getLsbD_or, BitVec.getLsbD_and, BitVec.getLsbD_not, hmask]
      simp
    exact .inl ⟨_, rfl, .words _ _ hlayout⟩
  | arp =>
    obtain ⟨pointer, -, rfl⟩ := eq_of_write_arp hwrite
    exact core.patched_of_edit (.arp pointer) rfl
  | dp =>
    obtain ⟨register, -, rfl⟩ := Value.done_of_toRegister hwrite
    exact core.patched_of_edit (.dp register) rfl
  | pm =>
    obtain ⟨register, -, rfl⟩ := Value.done_of_toRegister hwrite
    exact core.patched_of_edit (.pm register) rfl
  | flag flag =>
    obtain ⟨hflag, number, -, rfl⟩ := eq_of_write_flag hwrite
    have hedit : (StatusEdit.put flag (number != 0)).leavesLayout = true := by
      cases flag <;> first | exact absurd (.inl rfl) hflag | rfl
    exact core.patched_of_edit _ hedit
  | mapped register =>
    obtain ⟨word, -, rfl⟩ := Value.done_of_toRegister hwrite
    exact .inr ⟨register, word, rfl⟩
  | arb | idle | hold | repeating | cycles => contradiction

/-- No arm of a write changes anything before it refuses. -/
theorem atomic_write (core : Core) (place : Place) (path : String) (value : Value) :
    Attempt.Atomic core (core.write place path value) := by
  cases place with
  | arp =>
    refine Attempt.atomic_narrow fun register => ?_
    split
    · exact Attempt.atomic_refused _ _
    · exact Attempt.atomic_done _ _
  | flag flag =>
    refine Attempt.atomic_narrow fun on => ?_
    split
    · exact Attempt.atomic_refused _ _
    · exact Attempt.atomic_done _ _
  | arb | idle | hold | repeating | cycles => exact Attempt.atomic_refused _ _
  | _ => exact Attempt.atomic_narrow fun _ => Attempt.atomic_done _ _

/-- A patch that is refused leaves the core as it was. -/
theorem atomic_poke (core : Core) (path : String) (value : Value) :
    Attempt.Atomic core (core.poke path value) := by
  unfold poke
  split
  · exact core.atomic_write _ path value
  · split
    · exact Attempt.atomic_narrow fun _ => Attempt.atomic_refused _ _
    · exact Attempt.atomic_refused _ _

/-- A patch that is made is a write at the place that its path names. -/
theorem write_of_poke (hpoke : core.poke path value = .done after) :
    ∃ place, Place.ofPath? path = some place ∧ core.write place path value = .done after := by
  unfold poke at hpoke
  split at hpoke
  · next place hplace => exact ⟨place, hplace, hpoke⟩
  · split at hpoke
    · obtain ⟨_, -, hafter⟩ := Attempt.done_of_narrow hpoke
      contradiction
    · contradiction

/-- Whether a patch is made or refused, the core that it leaves is patched. -/
theorem patched_poke (core : Core) (path : String) (value : Value) :
    core.Patched (core.poke path value).state := by
  cases hpoke : core.poke path value with
  | done after =>
    obtain ⟨place, -, hwrite⟩ := write_of_poke hpoke
    exact patched_of_write hwrite
  | refused error left =>
    obtain rfl := core.atomic_poke path value error left hpoke
    exact patched_of_status rfl

/-- What other registers and other words in mapped registers keep is kept by a patch, made or refused. -/
theorem holds_poke {P : Core → Prop} (core : Core) (path : String) (value : Value)
    (hregs : ∀ regs : Registers, core.regs.status.PatchedTo regs.status → P { core with regs := regs })
    (hstored : ∀ register word, P (core.mapRam (·.setRegister register word))) :
    P (core.poke path value).state := by
  rcases core.patched_poke path value with ⟨regs, hpoke, hstatus⟩ | ⟨register, word, hpoke⟩
  · rw [hpoke]
    exact hregs regs hstatus
  · rw [hpoke]
    exact hstored register word

end Core

end ProcessorCores.Tms

import Mathlib.Algebra.GroupWithZero.Basic
import Mathlib.Data.Nat.Find
import Mathlib.Order.Bounds.Defs
import ProcessorCores.Proofs.Tms.RepeatBlocks
import ProcessorCores.Proofs.Tms.Saturation

/-!
# Normalization by repeated NORM

NORM doubles the accumulator if its two upper bits agree, which they do as long as the double still fits
in a signed word, and modifies the auxiliary register in use. Otherwise it sets TC and does nothing else,
and nothing else is done by any NORM after that. So a repeated NORM doubles a number as often as it has
redundant sign bits, or as often as it is repeated, and the auxiliary register counts the doublings.

The number 0 has no highest bit that tells of its sign. NORM leaves it as it is.
-/

namespace ProcessorCores.Tms

/-! ## Redundant sign bits -/

/-- One doubling more. -/
theorem mul_pow_succ_two (exact : Int) (count : Nat) :
    exact * 2 ^ (count + 1) = exact * 2 ^ count + exact * 2 ^ count := by
  rw [pow_succ, ← mul_assoc, mul_two]

/-- A number that fits when doubled so often fits when doubled less often. -/
theorem FitsSigned.of_le {exact : Int} {count more : Nat} (hle : count ≤ more)
    (hfits : FitsSigned (exact * 2 ^ more)) : FitsSigned (exact * 2 ^ count) := by
  induction more, hle using Nat.le_induction with
  | base => exact hfits
  | succ more _ ih =>
    apply ih
    rw [mul_pow_succ_two] at hfits
    unfold FitsSigned at hfits ⊢
    omega

/-- The number of sign bits of a word besides the first: how often its number can be doubled. -/
def redundantSigns (acc : Word) : Nat :=
  Nat.findGreatest (fun count => FitsSigned (acc.toInt * 2 ^ count)) 31

/-- There is no such bound for 0 only. -/
theorem isGreatest_redundantSigns {acc : Word} (hacc : acc ≠ 0) :
    IsGreatest {count | FitsSigned (acc.toInt * 2 ^ count)} (redundantSigns acc) := by
  have hundoubled : FitsSigned (acc.toInt * 2 ^ 0) := by
    rw [pow_zero, mul_one]
    exact ⟨acc.le_toInt, acc.toInt_lt⟩
  refine ⟨Nat.findGreatest_spec (Nat.zero_le 31) hundoubled, fun count hfits => ?_⟩
  refine Nat.le_findGreatest ?_ hfits
  by_contra hmany
  have hwide : FitsSigned (acc.toInt * 2 ^ 32) := hfits.of_le (by omega)
  have hzero : acc.toInt = 0 := by
    unfold FitsSigned at hwide
    omega
  exact hacc (BitVec.eq_of_toInt_eq hzero)

/-- A shift by one is a sum. -/
theorem shiftLeft_one_eq_add (acc : Word) : acc <<< 1 = acc + acc := by
  rw [← BitVec.mul_two, BitVec.shiftLeft_eq_mul_twoPow]
  rfl

/-- As long as the number fits, shifts double it. -/
theorem toInt_shiftLeft {acc : Word} {count : Nat} (hfits : FitsSigned (acc.toInt * 2 ^ count)) :
    (acc <<< count).toInt = acc.toInt * 2 ^ count := by
  induction count with
  | zero => simp
  | succ count ih =>
    have hbefore := ih (hfits.of_le (Nat.le_succ count))
    have hdouble : acc.toInt * 2 ^ (count + 1) =
        Accumulation.exact (.sum (acc <<< count)) (acc <<< count) := by
      rw [Accumulation.exact, hbefore, mul_pow_succ_two]
    rw [hdouble] at hfits ⊢
    rw [BitVec.shiftLeft_add, shiftLeft_one_eq_add]
    exact Accumulation.toInt_result hfits

/-! ## One pass -/

/-- The accumulators that NORM doubles. -/
def Doubles (acc : Word) : Prop := acc ≠ 0 ∧ (acc ^^^ (acc <<< 1)).msb = false

/-- Whether NORM doubles an accumulator is decided by its two top bits. -/
instance : DecidablePred Doubles := fun _ => inferInstanceAs (Decidable (_ ∧ _))

/-- They are those whose double fits, but for 0. -/
theorem doubles_iff (acc : Word) : Doubles acc ↔ acc ≠ 0 ∧ FitsSigned (acc.toInt + acc.toInt) := by
  have htest := Accumulation.sumOverflows_eq acc acc
  rw [sumOverflows, BitVec.xor_comm (acc + acc) acc, BitVec.and_self, ← shiftLeft_one_eq_add] at htest
  rw [Doubles, htest, Bool.not_eq_false', decide_eq_true_eq]

/-- How often NORM doubles a number before it stops. -/
def doublings (acc : Word) : Nat := if acc = 0 then 0 else redundantSigns acc

/-- It stops when the redundant signs are used up, and at 0 at once. -/
theorem doubles_shiftLeft_iff {acc : Word} {count : Nat} (hcount : count ≤ doublings acc) :
    Doubles (acc <<< count) ↔ count < doublings acc := by
  by_cases hacc : acc = 0
  · subst hacc
    obtain rfl : count = 0 := Nat.le_zero.mp hcount
    decide
  rw [doublings, if_neg hacc] at hcount ⊢
  obtain ⟨hfits, hgreatest⟩ := isGreatest_redundantSigns hacc
  have hnumber := toInt_shiftLeft (FitsSigned.of_le hcount hfits)
  have hdouble : (acc <<< count).toInt + (acc <<< count).toInt = acc.toInt * 2 ^ (count + 1) := by
    rw [hnumber, mul_pow_succ_two]
  have hsome : acc <<< count ≠ 0 := by
    intro hzero
    rw [hzero] at hnumber
    have hnone := (mul_eq_zero.mp hnumber.symm).resolve_right (pow_ne_zero count two_ne_zero)
    exact hacc (BitVec.eq_of_toInt_eq hnone)
  rw [doubles_iff, hdouble]
  constructor
  · intro h
    exact hgreatest h.2
  · intro hlt
    exact ⟨hsome, FitsSigned.of_le hlt hfits⟩

namespace Registers

/-- What a modification makes of the auxiliary register in use. It may be AR0 itself, whose value then is
the one that it has at the time. -/
def modification (regs : Registers) (word ar : Half) : Half :=
  modifiedAr word ar (if regs.status.arp = 0 then ar else regs.getAr 0)

/-- Registers with the accumulator shifted and the auxiliary register in use modified so many times. -/
structure ShiftedTo (start : Registers) (word : Half) (shifts : Nat) (now : Registers) : Prop where
  acc : now.acc = start.acc <<< shifts
  ar : ∀ pointer, now.getAr pointer =
    if pointer = start.status.arp then (start.modification word)^[shifts] start.currentAr
    else start.getAr pointer
  arp : now.status.arp = start.status.arp
  part : now.status.st1Fixed = start.status.st1Fixed

/-- Registers shifted by no place are the same. -/
theorem ShiftedTo.refl (regs : Registers) (word : Half) : regs.ShiftedTo word 0 regs where
  acc := (BitVec.shiftLeft_zero ..).symm
  ar pointer := by
    split
    · next heq => rw [heq]; rfl
    · rfl
  arp := rfl
  part := rfl

variable {start now : Registers} {model : Model} {word : Half} {shifts : Nat}

/-- A NORM that doubles shifts once more and clears TC. -/
theorem ShiftedTo.double (h : start.ShiftedTo word shifts now)
    (hpart : start.status.st1Fixed = model.st1Fixed) (hstays : word.getLsbD 3 = false)
    (hdoubles : Doubles now.acc) :
    start.ShiftedTo word (shifts + 1) (RegisterOp.norm.apply word now) ∧
      (RegisterOp.norm.apply word now).has .tc = false := by
  let shifted : Registers := { now.put .tc false with acc := now.acc <<< 1 }
  have happlied : RegisterOp.norm.apply word now = shifted.modifyAr word true := if_pos hdoubles
  have hstatus : (shifted.modifyAr word true).status = now.status.put .tc false :=
    modifyAr_status hstays
  have hsteers := now.status.steersAs_put .tc false
  have har := shifted.getAr_modifyAr word true
  have harp : shifted.status.arp = start.status.arp := hsteers.arp.trans h.arp
  have hcurrent : shifted.currentAr = (start.modification word)^[shifts] start.currentAr := by
    rw [currentAr, harp]
    exact (h.ar _).trans (if_pos rfl)
  have har0 : shifted.getAr 0 = if start.status.arp = 0 then shifted.currentAr else start.getAr 0 := by
    split
    · next hzero => rw [currentAr, harp, hzero]
    · next hother => exact (h.ar 0).trans (if_neg (Ne.symm hother))
  rw [happlied]
  refine ⟨⟨?_, fun pointer => ?_, ?_, ?_⟩, ?_⟩
  · have hkept := (shifted.computesAs_modifyAr word true).acc
    rw [hkept, BitVec.shiftLeft_add, ← h.acc]
  · rw [har, harp]
    split
    · rw [Function.iterate_succ_apply', ← hcurrent, modification, har0]
    · next hother => exact (h.ar pointer).trans (if_neg hother)
  · rw [hstatus]
    exact hsteers.arp.trans h.arp
  · rw [hstatus]
    exact hsteers.part.trans h.part
  · rw [has, hstatus]
    exact Status.has_put (Status.frees (h.part.trans hpart) (by decide)) .tc false

/-- One that does not sets TC and does nothing else. -/
theorem ShiftedTo.stop (h : start.ShiftedTo word shifts now)
    (hpart : start.status.st1Fixed = model.st1Fixed) (hstops : ¬ Doubles now.acc) :
    start.ShiftedTo word shifts (RegisterOp.norm.apply word now) ∧
      (RegisterOp.norm.apply word now).has .tc = true := by
  have happlied : RegisterOp.norm.apply word now = now.put .tc true := if_neg hstops
  have hsteers := now.status.steersAs_put .tc true
  rw [happlied]
  exact ⟨⟨h.acc, h.ar, hsteers.arp.trans h.arp, hsteers.part.trans h.part⟩,
    Status.has_put (Status.frees (h.part.trans hpart) (by decide)) .tc true⟩

/-- The count of the passes is none of it. -/
theorem ShiftedTo.count (h : start.ShiftedTo word shifts now) (rptc : Byte) :
    start.ShiftedTo word shifts { now with rptc := rptc } := ⟨h.acc, h.ar, h.arp, h.part⟩

end Registers

/-! ## The block -/

/-- The words of NORM: bits 6 to 4 are free for a modification, and bit 3 is clear. -/
theorem decode_eq_norm_iff (word : Half) :
    (decode word).handler = .register .norm ↔
      highByte word = 0xCE ∧ lowByte word &&& 0x8F = 0x82 := by
  have hcontrol : ∀ low : Byte, (controlTable.get low.toNat).handler = .register .norm ↔
      low &&& 0x8F = 0x82 := by decide +kernel
  have hmain : ∀ entry ∈ mainTable.toList, entry.handler ≠ .register .norm := by decide +kernel
  have hlong : ∀ entry ∈ longTable.toList, entry.handler ≠ .register .norm := by decide +kernel
  unfold decode
  split
  · next hhigh =>
    rw [hcontrol]
    exact (and_iff_right hhigh).symm
  · next hhigh =>
    refine iff_of_false ?_ fun h => hhigh h.1
    split
    · exact hlong _ (OpcodeTable.get_mem_toList _ _)
    · exact hmain _ (OpcodeTable.get_mem_toList _ _)

/-- So NORM chooses no other auxiliary register. -/
theorem getLsbD_three_of_norm {word : Half} (hnorm : (decode word).handler = .register .norm) :
    word.getLsbD 3 = false := by
  have hbit : (lowByte word &&& 0x8F).getLsbD 3 = false := by
    rw [((decode_eq_norm_iff word).mp hnorm).2]
    decide
  simpa [lowByte] using hbit

namespace Machine

/-- Between the passes of a repeated NORM the accumulator has been doubled as often as it could be, and
TC tells whether it still can be. -/
theorem shiftedTo_beforePass {machine : Machine} {model : Model}
    (hpart : machine.core.regs.status.st1Fixed = model.st1Fixed)
    (hstays : machine.core.opcode.getLsbD 3 = false) (passes : Nat) :
    let before := machine.beforePass (.register .norm) passes
    let limit := doublings machine.core.regs.acc
    before.core.opcode = machine.core.opcode ∧
      machine.core.regs.ShiftedTo machine.core.opcode (min limit passes) before.core.regs ∧
      (0 < passes → before.core.regs.has .tc = decide (limit < passes)) := by
  intro before limit
  induction passes with
  | zero =>
    rw [Nat.min_zero]
    exact ⟨rfl, .refl _ _, fun hpos => absurd hpos (Nat.lt_irrefl 0)⟩
  | succ passes ih =>
    obtain ⟨hopcode, hshifted, -⟩ := ih
    let before := machine.beforePass (.register .norm) passes
    have hregs : (machine.beforePass (.register .norm) (passes + 1)).core.regs =
        { RegisterOp.norm.apply machine.core.opcode before.core.regs with
          rptc := (RegisterOp.norm.apply machine.core.opcode before.core.regs).rptc - 1 } := by
      rw [← hopcode]
      rfl
    have htest := doubles_shiftLeft_iff (Nat.min_le_left limit passes)
    rw [← hshifted.acc] at htest
    refine ⟨hopcode, ?_⟩
    rw [hregs]
    by_cases hleft : passes < limit
    · obtain ⟨hdoubled, htc⟩ := hshifted.double hpart hstays (htest.mpr (by omega))
      have hshifts : min limit passes + 1 = min limit (passes + 1) := by omega
      rw [hshifts] at hdoubled
      exact ⟨hdoubled.count _, fun _ => htc.trans (decide_eq_false (by omega)).symm⟩
    · obtain ⟨hstopped, htc⟩ := hshifted.stop hpart fun hdoubles => by
        have := htest.mp hdoubles
        omega
      have hshifts : min limit passes = min limit (passes + 1) := by omega
      rw [hshifts] at hstopped
      exact ⟨hstopped.count _, fun _ => htc.trans (decide_eq_true (by omega)).symm⟩

end Machine

namespace Registers

/-- What so many passes of NORM leave of the registers. -/
structure Normalized (start : Registers) (word : Half) (passes : Nat) (after : Registers) : Prop where
  /-- The redundant signs are what the name says. -/
  signs : start.acc ≠ 0 →
    IsGreatest {count | FitsSigned (start.acc.toInt * 2 ^ count)} (redundantSigns start.acc)
  acc : start.acc ≠ 0 →
    after.acc.toInt = start.acc.toInt * 2 ^ min (redundantSigns start.acc) passes
  ar : start.acc ≠ 0 → after.currentAr =
    (start.modification word)^[min (redundantSigns start.acc) passes] start.currentAr
  tc : start.acc ≠ 0 → (after.has .tc = true ↔ redundantSigns start.acc < passes)
  zero : start.acc = 0 → 0 < passes →
    after.acc = 0 ∧ after.currentAr = start.currentAr ∧ after.has .tc = true
  others : ∀ pointer ≠ start.status.arp, after.getAr pointer = start.getAr pointer
  arp : after.status.arp = start.status.arp

/-- Where NORM has stopped or been stopped. -/
theorem ShiftedTo.normalized {start after : Registers} {word : Half} {passes : Nat}
    (h : start.ShiftedTo word (min (doublings start.acc) passes) after)
    (htc : after.has .tc = decide (doublings start.acc < passes)) :
    start.Normalized word passes after := by
  have hcurrent : after.currentAr =
      (start.modification word)^[min (doublings start.acc) passes] start.currentAr := by
    rw [currentAr, h.arp]
    exact (h.ar _).trans (if_pos rfl)
  have hacc := h.acc
  by_cases hzero : start.acc = 0
  · have hnone : doublings start.acc = 0 := if_pos hzero
    rw [hnone, Nat.zero_min] at hcurrent hacc
    rw [hnone] at htc
    refine ⟨absurd hzero, absurd hzero, absurd hzero, absurd hzero, fun _ hpasses => ?_,
      fun pointer hpointer => (h.ar pointer).trans (if_neg hpointer), h.arp⟩
    rw [BitVec.shiftLeft_zero, hzero] at hacc
    exact ⟨hacc, hcurrent, htc.trans (decide_eq_true hpasses)⟩
  · have hsigns : doublings start.acc = redundantSigns start.acc := if_neg hzero
    have hgreatest := isGreatest_redundantSigns hzero
    have hfits : FitsSigned (start.acc.toInt * 2 ^ min (redundantSigns start.acc) passes) :=
      FitsSigned.of_le (Nat.min_le_left _ _) hgreatest.1
    rw [hsigns] at hcurrent hacc htc
    refine ⟨fun _ => hgreatest, fun _ => ?_, fun _ => hcurrent, fun _ => ?_, fun h => absurd h hzero,
      fun pointer hpointer => (h.ar pointer).trans (if_neg hpointer), h.arp⟩
    · rw [hacc, toInt_shiftLeft hfits]
    · rw [htc, decide_eq_true_eq]

end Registers

/-- RPTK and NORM double the accumulator until its number has no redundant sign, but at most once more
than the count says; each time the auxiliary register in use is modified. TC tells whether they have come
to the end. The number 0 is left as it is. -/
theorem repeated_norm {machine : Machine} {model : Model} {count : Nat}
    (hpart : machine.served.core.regs.status.st1Fixed = model.st1Fixed)
    (hrptk : machine.ready.op = .rptk) (hcount : (lowByte machine.ready.core.opcode).toNat = count)
    (hnorm : machine.block.op = .register .norm) :
    machine.served.core.regs.Normalized machine.block.core.opcode (count + 1)
      machine.step.1.core.regs := by
  obtain ⟨hblock, -⟩ := Machine.block_of_rptk hrptk
  have hpart' : machine.block.core.regs.status.st1Fixed = model.st1Fixed := by
    rw [hblock]
    exact hpart
  have hpasses : machine.ready.repeatCount.toNat + 1 = count + 1 := by
    rw [Machine.repeatCount, hrptk, if_pos rfl, hcount]
  have hstep := Machine.step_of_repeat (.inr hrptk) (by rw [hnorm]; decide) (by rw [hnorm]; decide)
  rw [hpasses, Machine.before, hnorm] at hstep
  obtain ⟨-, hshifted, htc⟩ := Machine.shiftedTo_beforePass hpart' (getLsbD_three_of_norm hnorm)
    (count + 1)
  rw [hblock] at hshifted htc
  rw [hstep]
  exact Registers.ShiftedTo.normalized ⟨hshifted.acc, hshifted.ar, hshifted.arp, hshifted.part⟩
    (htc (Nat.succ_pos count))

/-- The number -1, doubled 31 times to the least there is; the 32nd NORM finds no more to do. -/
theorem repeated_norm_minus_one :
    let core := Core.new .tms32025
    let machine : Machine :=
      ⟨{ core with regs := { core.regs.setAr 0 40 with acc := 0xFFFFFFFF } },
        Bus.empty.loadHalves .program 0 [0xCB1F, 0xCE92]⟩
    let after := machine.step.1.core.regs
    after.acc.toInt = -2 ^ 31 ∧ after.currentAr = 9 ∧ after.has .tc = true ∧ after.status.arp = 0 := by
  intro core machine after
  have hnormalized := @repeated_norm machine .tms32025 31
    (by decide +kernel) (by decide +kernel) (by decide +kernel) (by decide +kernel)
  have hsome : machine.served.core.regs.acc ≠ 0 := by decide +kernel
  exact ⟨(hnormalized.acc hsome).trans (by decide +kernel),
    (hnormalized.ar hsome).trans (by decide +kernel), (hnormalized.tc hsome).mpr (by decide +kernel),
    hnormalized.arp.trans (by decide +kernel)⟩

end ProcessorCores.Tms

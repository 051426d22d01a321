import ProcessorCores.Proofs.Tms.Saturation

/-!
# Accumulation in the high half

ADDH and SUBH have a test for overflow and limits of their own, of halfwords. The test comes out as that of
the accumulation of a word with a clear low half: the signs are those of the high halves, and the low half of
the accumulator takes no part. So the overflow flag agrees, and so does the accumulator as long as the result
is kept.

In overflow mode an overflow puts a limit in the high half, but not in the low half, which rides along. The
limit of a word is reached only when its low half happens to be there already.
-/

namespace ProcessorCores.Tms

/-! ## Words with a clear low half -/

/-- The sign of a word is that of its high half. -/
theorem msb_joinHalves (high low : Half) : (joinHalves high low).msb = high.msb := BitVec.msb_append

/-- The high half has the sign of its word. -/
theorem msb_highHalf (value : Word) : (highHalf value).msb = value.msb := by
  rw [← msb_joinHalves (highHalf value) (lowHalf value), joinHalves_split]

/-- Its signed value is that of its high half, moved up. -/
theorem toInt_joinHalves_zero (value : Half) : (joinHalves value 0).toInt = value.toInt * 0x10000 := by
  have hlimit := value.isLt
  rw [BitVec.toInt_eq_toNat_cond, BitVec.toInt_eq_toNat_cond, joinHalves_toNat]
  simp only [BitVec.ofNat_eq_ofNat, BitVec.toNat_ofNat]
  split <;> split <;> omega

/-- Adding a word with a clear low half adds to the high half alone. -/
theorem add_joinHalves_zero (acc : Word) (value : Half) :
    acc + joinHalves value 0 = joinHalves (highHalf acc + value) (lowHalf acc) := by
  apply BitVec.eq_of_toNat_eq
  rw [BitVec.toNat_add, joinHalves_toNat, joinHalves_toNat, BitVec.toNat_add, highHalf_toNat,
    lowHalf_toNat]
  have hclear : (0 : Half).toNat = 0 := rfl
  omega

/-- Subtracting a word with a clear low half subtracts from the high half alone. -/
theorem sub_joinHalves_zero (acc : Word) (value : Half) :
    acc - joinHalves value 0 = joinHalves (highHalf acc - value) (lowHalf acc) := by
  rw [BitVec.sub_eq_iff_eq_add, add_joinHalves_zero, highHalf_joinHalves, lowHalf_joinHalves,
    BitVec.sub_add_cancel, joinHalves_split]

/-- The test by signs looks at the high halves only. -/
theorem sumOverflows_highHalf (old value result : Word) :
    sumOverflows (highHalf old) (highHalf value) (highHalf result) = sumOverflows old value result := by
  simp only [sumOverflows, BitVec.msb_and, BitVec.msb_xor, msb_highHalf]

/-- A difference overflows exactly when that of the high halves does. -/
theorem differenceOverflows_highHalf (old value result : Word) :
    differenceOverflows (highHalf old) (highHalf value) (highHalf result) =
      differenceOverflows old value result := by
  simp only [differenceOverflows, BitVec.msb_and, BitVec.msb_xor, msb_highHalf]

/-- Replacing the low half of a word changes it unless it is the same half. -/
theorem joinHalves_highHalf_eq_iff {value : Word} {low : Half} :
    joinHalves (highHalf value) low = value ↔ low = lowHalf value := by
  constructor
  · intro h
    have hlow := congrArg lowHalf h
    rwa [lowHalf_joinHalves] at hlow
  · rintro rfl
    exact joinHalves_split value

/-- The limit of the sign of a word. -/
def limitOf (acc : Word) : Word := if acc.msb then leastSigned else greatestSigned

/-- The high half of the limit. -/
theorem highHalf_limitOf (acc : Word) :
    highHalf (limitOf acc) = if (highHalf acc).msb then 0x8000 else 0x7FFF := by
  rw [msb_highHalf, limitOf]
  split <;> rfl

namespace Registers

variable {before held judged : Registers} {accumulation : Accumulation}

/-! ## The general routine -/

/-- The accumulator that an accumulation leaves. -/
theorem acc_apply (accumulation : Accumulation) (regs : Registers) :
    (accumulation.apply regs).acc =
      if FitsSigned (accumulation.exact regs.acc) ∨ regs.has .ovm = false then
        accumulation.result regs.acc
      else limitOf regs.acc := by
  rw [apply_eq]
  change (regs.settle accumulation).acc = _
  by_cases hfits : FitsSigned (accumulation.exact regs.acc)
  · rw [settle, if_pos hfits, if_pos (.inl hfits)]
  · have hovm : ({ regs with acc := accumulation.result regs.acc } : Registers).has .ovm = regs.has .ovm :=
      rfl
    rw [settle, if_neg hfits, overflow_acc, hovm]
    cases h : regs.has .ovm <;> simp [hfits, limitOf]

/-- The overflow flag that it leaves. -/
theorem has_apply_ov (accumulation : Accumulation) (regs : Registers) :
    (accumulation.apply regs).has .ov =
      (regs.has .ov || !decide (FitsSigned (accumulation.exact regs.acc))) := by
  have hjudged (settled : Registers) (carry : Bool) :
      (settled.put .carry carry).has .ov = settled.has .ov := Status.has_put (.inl rfl) .carry carry
  rw [apply_eq, hjudged, settle]
  split
  · next hfits => rw [decide_eq_true hfits, Bool.not_true, Bool.or_false]; rfl
  · next hfits => rw [decide_eq_false hfits, Bool.not_false, Bool.or_true, has_overflow]

/-! ## The routine for high halves -/

/-- What an accumulation of a word with a clear low half makes of the accumulator and the overflow flag, when
it is made in the high half. -/
structure AccumulatedHighTo (before : Registers) (accumulation : Accumulation) (after : Registers) :
    Prop where
  rides : lowHalf after.acc = lowHalf before.acc
  overflow : after.has .ov = (accumulation.apply before).has .ov
  fits : FitsSigned (accumulation.exact before.acc) →
    after.acc.toInt = accumulation.exact before.acc ∧ after.has .ov = before.has .ov
  overflows : ¬ FitsSigned (accumulation.exact before.acc) → after.has .ov = true
  wraps : ¬ FitsSigned (accumulation.exact before.acc) → before.has .ovm = false →
    after.acc = BitVec.ofInt 32 (accumulation.exact before.acc)
  saturates : ¬ FitsSigned (accumulation.exact before.acc) → before.has .ovm = true →
    after.acc = joinHalves (highHalf (limitOf before.acc)) (lowHalf before.acc)
  agrees : after.acc = (accumulation.apply before).acc ↔
    FitsSigned (accumulation.exact before.acc) ∨ before.has .ovm = false ∨
      lowHalf before.acc = lowHalf (limitOf before.acc)

/-- Put the result into the high half, or its limit. -/
def keepHigh (regs : Registers) (old result : Half) (overflows : Bool) : Registers :=
  let kept := if overflows then regs.overflowHigh old result else (result, regs)
  { kept.2 with acc := joinHalves kept.1 (lowHalf kept.2.acc) }

/-- An addition to the high half is the common routine behind a carry. -/
theorem addHigh_eq (regs : Registers) (value : Half) :
    regs.addHigh value =
      (if highHalf regs.acc + value < highHalf regs.acc then regs.put .carry true else regs).keepHigh
        (highHalf regs.acc) (highHalf regs.acc + value)
        (sumOverflows (highHalf regs.acc) value (highHalf regs.acc + value)) := rfl

/-- A subtraction from the high half is the common routine behind a borrow. -/
theorem subHigh_eq (regs : Registers) (value : Half) :
    regs.subHigh value =
      (if highHalf regs.acc < highHalf regs.acc - value then regs.put .carry false else regs).keepHigh
        (highHalf regs.acc) (highHalf regs.acc - value)
        (differenceOverflows (highHalf regs.acc) value (highHalf regs.acc - value)) := rfl

/-- The carry is judged before, and neither the flags of overflow nor the accumulator depend on it. -/
theorem HoldsAs.judgeIf (h : before.HoldsAs held) (changed : Prop) [Decidable changed] (on : Bool) :
    let judged := if changed then held.put .carry on else held
    judged.acc = before.acc ∧ judged.has .ov = before.has .ov ∧ judged.has .ovm = before.has .ovm := by
  intro judged
  have hput (flag : StatusFlag) (hword : flag.inSt0 = true) (hcarry : flag ≠ .carry) :
      judged.has flag = before.has flag := by
    have hheld := h.status.has flag (.inl hword)
    unfold judged
    split
    · exact ((Status.has_put (.inl hword) .carry on).trans (if_neg hcarry)).trans hheld
    · exact hheld
  refine ⟨?_, hput .ov rfl (by decide), hput .ovm rfl (by decide)⟩
  unfold judged
  split <;> exact h.acc

/-- The accumulator after the routine: the result or its limit over the old low half. -/
theorem acc_keepHigh (regs : Registers) (old result : Half) (overflows : Bool) :
    (regs.keepHigh old result overflows).acc =
      joinHalves (if overflows && regs.has .ovm then if old.msb then 0x8000 else 0x7FFF else result)
        (lowHalf regs.acc) := by
  cases overflows with
  | false => rfl
  | true =>
    have hovm : (regs.put .ov true).has .ovm = regs.has .ovm := Status.has_put (.inl rfl) .ov true
    change joinHalves (if (regs.put .ov true).has .ovm then _ else _) _ = _
    rw [hovm]
    rfl

/-- The overflow flag after the routine. -/
theorem has_keepHigh_ov (regs : Registers) (old result : Half) (overflows : Bool) :
    (regs.keepHigh old result overflows).has .ov = (regs.has .ov || overflows) := by
  cases overflows with
  | false => exact (Bool.or_false _).symm
  | true => exact (Status.has_put (.inl rfl) .ov true).trans (Bool.or_true _).symm

/-- The two routines part where the general one leaves a limit. -/
theorem accumulatedHighTo_of_eq {after : Registers}
    (hlow : lowHalf (accumulation.result before.acc) = lowHalf before.acc)
    (hacc : after.acc = if FitsSigned (accumulation.exact before.acc) ∨ before.has .ovm = false then
        accumulation.result before.acc
      else joinHalves (highHalf (limitOf before.acc)) (lowHalf before.acc))
    (hov : after.has .ov = (before.has .ov || !decide (FitsSigned (accumulation.exact before.acc)))) :
    before.AccumulatedHighTo accumulation after := by
  constructor
  case rides =>
    rw [hacc]
    split
    · exact hlow
    · exact lowHalf_joinHalves _ _
  case overflow => rw [hov, has_apply_ov]
  case fits =>
    intro hfits
    rw [hacc, if_pos (.inl hfits), hov, decide_eq_true hfits, Bool.not_true, Bool.or_false]
    exact ⟨Accumulation.toInt_result hfits, rfl⟩
  case overflows =>
    intro hfits
    rw [hov, decide_eq_false hfits, Bool.not_false, Bool.or_true]
  case wraps =>
    intro _ hclear
    rw [hacc, if_pos (.inr hclear), Accumulation.result_eq_ofInt]
  case saturates =>
    intro hfits hset
    rw [hacc, if_neg]
    rintro (h | h)
    · exact hfits h
    · exact Bool.false_ne_true (h.symm.trans hset)
  case agrees =>
    rw [hacc, acc_apply, ← or_assoc]
    by_cases h : FitsSigned (accumulation.exact before.acc) ∨ before.has .ovm = false
    · rw [if_pos h, if_pos h]
      exact iff_of_true rfl (.inl h)
    · rw [if_neg h, if_neg h, joinHalves_highHalf_eq_iff]
      exact (or_iff_right h).symm

/-- So the result that is kept in the high half is told from registers as they were before the carry was
judged. -/
theorem accumulatedHighTo_keepHigh
    (hjudged : judged.acc = before.acc ∧ judged.has .ov = before.has .ov ∧
      judged.has .ovm = before.has .ovm) {result : Half} {overflows : Bool}
    (hresult : accumulation.result before.acc = joinHalves result (lowHalf before.acc))
    (htest : overflows = !decide (FitsSigned (accumulation.exact before.acc))) :
    before.AccumulatedHighTo accumulation
      (judged.keepHigh (highHalf before.acc) result overflows) := by
  obtain ⟨hacc, hov, hovm⟩ := hjudged
  apply accumulatedHighTo_of_eq
  · rw [hresult, lowHalf_joinHalves]
  · rw [acc_keepHigh, hacc, hovm, ← highHalf_limitOf, htest, hresult]
    by_cases hfits : FitsSigned (accumulation.exact before.acc) <;>
      cases before.has .ovm <;> simp [hfits]
  · rw [has_keepHigh_ov, hov, htest]

/-- ADDH adds a word whose low half is clear. -/
theorem accumulatedHighTo_addHigh (h : before.HoldsAs held) (value : Half) :
    before.AccumulatedHighTo (.sum (joinHalves value 0)) (held.addHigh value) := by
  have hresult := add_joinHalves_zero before.acc value
  have htest : sumOverflows (highHalf before.acc) value (highHalf before.acc + value) =
      !decide (FitsSigned (Accumulation.exact (.sum (joinHalves value 0)) before.acc)) := by
    rw [Accumulation.exact, ← Accumulation.sumOverflows_eq, ← sumOverflows_highHalf, hresult,
      highHalf_joinHalves, highHalf_joinHalves]
  rw [addHigh_eq, h.acc]
  exact accumulatedHighTo_keepHigh (h.judgeIf _ true) hresult htest

/-- SUBH subtracts one. -/
theorem accumulatedHighTo_subHigh (h : before.HoldsAs held) (value : Half) :
    before.AccumulatedHighTo (.difference (joinHalves value 0)) (held.subHigh value) := by
  have hresult := sub_joinHalves_zero before.acc value
  have htest : differenceOverflows (highHalf before.acc) value (highHalf before.acc - value) =
      !decide (FitsSigned (Accumulation.exact (.difference (joinHalves value 0)) before.acc)) := by
    rw [Accumulation.exact, ← Accumulation.differenceOverflows_eq, ← differenceOverflows_highHalf,
      hresult, highHalf_joinHalves, highHalf_joinHalves]
  rw [subHigh_eq, h.acc]
  exact accumulatedHighTo_keepHigh (h.judgeIf _ false) hresult htest

end Registers

open Registers

namespace Machine

/-- ADDH and SUBH accumulate their operand times 65536. The low half of the accumulator rides along, the
overflow flag is always that of the general routine, and so is the accumulator exactly when the result fits,
or when the overflow mode is clear, or when its low half is already that of the limit. Where they part, the
general routine leaves the limit, and these leave the high half of the limit above the old low half. -/
theorem high_accumulation (machine : Machine) :
    let value := (machine.fetchOperand true).1
    let before := machine.core.regs
    (Accumulation.exact (.sum (joinHalves value 0)) before.acc = before.acc.toInt + value.toInt * 0x10000 ∧
        before.AccumulatedHighTo (.sum (joinHalves value 0))
          (machine.execute (.operand .addh)).1.core.regs) ∧
      Accumulation.exact (.difference (joinHalves value 0)) before.acc =
          before.acc.toInt - value.toInt * 0x10000 ∧
        before.AccumulatedHighTo (.difference (joinHalves value 0))
          (machine.execute (.operand .subh)).1.core.regs := by
  intro value before
  have hfetched : before.HoldsAs (machine.fetchOperand true).2.core.regs :=
    (machine.computesAs_fetchOperand true).toHoldsAs
  refine ⟨⟨?_, ?_⟩, ?_, ?_⟩
  · rw [Accumulation.exact, toInt_joinHalves_zero]
  · rw [execute_finish machine rfl rfl]
    exact accumulatedHighTo_addHigh hfetched value
  · rw [Accumulation.exact, toInt_joinHalves_zero]
  · rw [execute_finish machine rfl rfl]
    exact accumulatedHighTo_subHigh hfetched value

/-- In overflow mode ADDH 1 finds the greatest high half above a clear low half, and leaves both. -/
theorem high_limit_above_old_low_half :
    let core : Core := (Core.new .tms32025).mapRegs fun regs =>
      { regs.put .ovm true with acc := 0x7FFF0000 }
    let machine : Machine :=
      ⟨core, (Bus.empty.loadHalves .program 0 [0x4806]).loadHalves .data 12 [1]⟩
    let general := (Accumulation.sum (joinHalves 1 0)).apply machine.core.regs
    (machine.ready.fetchOperand true).1 = 1 ∧
      machine.step.1.core.regs = (machine.ready.execute (.operand .addh)).1.core.regs ∧
      general.acc.toInt = 2 ^ 31 - 1 ∧ ¬ machine.step.1.core.regs.acc = general.acc := by
  intro core machine general
  refine ⟨by decide +kernel, by decide +kernel, by decide +kernel, by decide +kernel⟩

end Machine

end ProcessorCores.Tms

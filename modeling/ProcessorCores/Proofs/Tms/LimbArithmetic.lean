import Mathlib.Algebra.GroupWithZero.Nat
import Mathlib.Algebra.Ring.Int.Defs
import ProcessorCores.Proofs.Tms.HighHalves
import ProcessorCores.Proofs.Tms.StraightCode

/-!
# Numbers of many words

A number that takes several words is added or subtracted word by word, from the least significant, and
each word by its halves: ADDC adds the low half and the carry, ADDH the high half. The rules by which
these judge the carry are not those of a sum of words. ADDC leaves the carry alone when the accumulator
comes out unchanged, and ADDH can only set it; so it is with the borrow of SUBB and SUBH.

Out of overflow mode the two together are exact. `Unclamped` says what is known of the registers in
between, and each operation satisfies an equation of natural numbers, in which the carry weighs as much
as the word after. What a program does between the words, such as storing the results, is of no concern
as long as it leaves the carry and the overflow mode.
-/

namespace ProcessorCores.Tms

/-! ## Limbs -/

namespace Limbs

/-- The number that limbs stand for, the least significant first. -/
def number : List Word → Nat
  | [] => 0
  | limb :: limbs => limb.toNat + 2 ^ 32 * number limbs

/-- So many limbs of a number, the least significant first. -/
def ofNumber : Nat → Nat → List Word
  | 0, _ => []
  | count + 1, value => BitVec.ofNat 32 value :: ofNumber count (value / 2 ^ 32)

/-- So many limbs stand for the numbers up to their power. -/
theorem number_lt (limbs : List Word) : number limbs < 2 ^ (32 * limbs.length) := by
  induction limbs with
  | nil => exact Nat.one_pos
  | cons limb limbs ih =>
    have hlimb := limb.isLt
    rw [number, List.length_cons, Nat.mul_succ, Nat.pow_add]
    omega

/-- A limb and what is carried on. -/
theorem ofNumber_succ {count value rest : Nat} {limb : Word} (h : value = limb.toNat + 2 ^ 32 * rest) :
    ofNumber (count + 1) value = limb :: ofNumber count rest := by
  have hlimb := limb.isLt
  have hvalue : BitVec.ofNat 32 value = limb := by
    apply BitVec.eq_of_toNat_eq
    rw [BitVec.toNat_ofNat]
    omega
  have hrest : value / 2 ^ 32 = rest := by omega
  rw [ofNumber, hvalue, hrest]

/-- Limbs do not show their power. -/
theorem ofNumber_add_pow (count value : Nat) :
    ofNumber count (value + 2 ^ (32 * count)) = ofNumber count value := by
  induction count generalizing value with
  | zero => rfl
  | succ count ih =>
    have hvalue : value = (BitVec.ofNat 32 value).toNat + 2 ^ 32 * (value / 2 ^ 32) := by
      rw [BitVec.toNat_ofNat]
      omega
    have hsum : value + 2 ^ (32 * (count + 1)) =
        (BitVec.ofNat 32 value).toNat + 2 ^ 32 * (value / 2 ^ 32 + 2 ^ (32 * count)) := by
      rw [Nat.mul_succ, Nat.pow_add]
      omega
    rw [ofNumber_succ hsum, ih, ofNumber]

/-- The limbs of a difference are those of its residue. -/
theorem ofNumber_sub {count first second : Nat} (hfirst : first < 2 ^ (32 * count))
    (hsecond : second < 2 ^ (32 * count)) :
    ofNumber count (first + 2 ^ (32 * count) - second) =
      ofNumber count (((first : Int) - second) % 2 ^ (32 * count)).toNat := by
  have hcast : (2 : Int) ^ (32 * count) = ((2 ^ (32 * count) : Nat) : Int) := by push_cast; rfl
  rw [hcast]
  generalize hpower : 2 ^ (32 * count) = power at hfirst hsecond
  rcases Nat.lt_or_ge first second with hless | hge
  · have hresidue : ((first : Int) - second) % (power : Int) = first + power - second := by
      rw [← Int.add_emod_right, Int.emod_eq_of_lt (by omega) (by omega)]
      omega
    rw [hresidue]
    exact congrArg _ (by omega)
  · have hresidue : ((first : Int) - second) % (power : Int) = first - second :=
      Int.emod_eq_of_lt (by omega) (by omega)
    have hsum : first + power - second = (first - second) + 2 ^ (32 * count) := by omega
    rw [hresidue, hsum, ofNumber_add_pow]
    exact congrArg _ (by omega)

end Limbs

/-! ## The four operations -/

namespace Registers

/-- Registers of a part, out of overflow mode, with this accumulator and this carry. -/
structure Unclamped (regs : Registers) (model : Model) (acc : Word) (carry : Bool) : Prop where
  part : regs.status.st1Fixed = model.st1Fixed
  ovm : regs.has .ovm = false
  acc : regs.acc = acc
  carry : regs.has .carry = carry

namespace Unclamped

variable {regs : Registers} {model : Model} {acc : Word} {carry : Bool}

/-- No part fixes the carry. -/
theorem frees (h : regs.Unclamped model acc carry) : regs.status.Frees .carry :=
  Status.frees h.part (by decide)

/-- An access to memory leaves them so. -/
theorem of_holdsAs (h : regs.Unclamped model acc carry) {after : Registers}
    (hafter : regs.HoldsAs after) : after.Unclamped model acc carry where
  part := hafter.status.part.trans h.part
  ovm := (hafter.status.has .ovm (.inl rfl)).trans h.ovm
  acc := hafter.acc.trans h.acc
  carry := (hafter.status.has .carry h.frees).trans h.carry

/-- A written accumulator is held, and the carry stays. -/
theorem write (h : regs.Unclamped model acc carry) (acc' : Word) :
    Unclamped { regs with acc := acc' } model acc' carry := ⟨h.part, h.ovm, rfl, h.carry⟩

/-- A carry that is judged is the carry. -/
theorem judge (h : regs.Unclamped model acc carry) (on : Bool) :
    (regs.put .carry on).Unclamped model acc on where
  part := (regs.status.steersAs_put .carry on).part.trans h.part
  ovm := (Status.has_put (.inl rfl) .carry on).trans h.ovm
  acc := h.acc
  carry := (Status.has_put h.frees .carry on).trans (if_pos rfl)

/-- An overflow that is noted is of no concern. -/
theorem note (h : regs.Unclamped model acc carry) : (regs.put .ov true).Unclamped model acc carry where
  part := (regs.status.steersAs_put .ov true).part.trans h.part
  ovm := (Status.has_put (.inl rfl) .ov true).trans h.ovm
  acc := h.acc
  carry := (Status.has_put h.frees .ov true).trans h.carry

/-- Out of overflow mode nothing more comes of it. -/
theorem overflow (h : regs.Unclamped model acc carry) (old : Word) :
    (regs.overflow old).Unclamped model acc carry := by
  have hnoted := h.note
  rw [Registers.overflow, hnoted.ovm]
  exact hnoted

/-- A sum or a difference that may have overflowed. -/
theorem settle (h : regs.Unclamped model acc carry) (result old : Word) (overflows : Bool) :
    Unclamped (if overflows then Registers.overflow { regs with acc := result } old
      else { regs with acc := result }) model result carry := by
  split
  · exact (h.write result).overflow old
  · exact h.write result

/-- The carry, judged when the accumulator has changed. -/
theorem judgeIf (h : regs.Unclamped model acc carry) (changed : Prop) [Decidable changed] (on : Bool) :
    (if changed then regs.put .carry on else regs).Unclamped model acc
      (if changed then on else carry) := by
  split
  · exact h.judge on
  · exact h

/-- ADDC adds its operand and the carry. -/
theorem addWithCarry (h : regs.Unclamped model acc carry) (value : Half) :
    ∃ acc' carry', (regs.addWithCarry value).Unclamped model acc' carry' ∧
      acc'.toNat + 2 ^ 32 * carry'.toNat = acc.toNat + carry.toNat + value.toNat := by
  obtain rfl := h.acc
  obtain ⟨sum, hsum⟩ :
      ∃ sum, sum = regs.acc + (if carry then 1 else 0) + value.setWidth 32 := ⟨_, rfl⟩
  have hsettled := h.settle sum regs.acc (sumOverflows regs.acc (value.setWidth 32) sum)
  refine ⟨sum, if sum ≠ regs.acc then sum < regs.acc else carry, ?_, ?_⟩
  · simp only [Registers.addWithCarry, h.carry, ← hsum, hsettled.acc]
    exact hsettled.judgeIf _ _
  · have hnumber : sum.toNat = (regs.acc.toNat + carry.toNat + value.toNat) % 2 ^ 32 := by
      rw [hsum]
      cases carry <;> simp [BitVec.toNat_add]
    have hvalue := value.isLt
    have hcarry := carry.toNat_le
    by_cases hsame : sum = regs.acc
    -- The sum goes once around only if nothing is added.
    · rw [if_neg (not_not.mpr hsame)]
      rw [hsame] at hnumber ⊢
      omega
    · rw [if_pos hsame]
      have hne : sum.toNat ≠ regs.acc.toNat := fun heq => hsame (BitVec.eq_of_toNat_eq heq)
      have hacc := regs.acc.isLt
      simp only [BitVec.lt_def]
      by_cases hless : sum.toNat < regs.acc.toNat
      · rw [decide_eq_true hless, Bool.toNat_true]
        omega
      · rw [decide_eq_false hless, Bool.toNat_false]
        omega

/-- SUBB subtracts its operand and the borrow, which is a clear carry. -/
theorem subWithBorrow (h : regs.Unclamped model acc carry) (value : Half) :
    ∃ acc' carry', (regs.subWithBorrow value).Unclamped model acc' carry' ∧
      acc'.toNat + value.toNat + (!carry).toNat = acc.toNat + 2 ^ 32 * (!carry').toNat := by
  obtain rfl := h.acc
  obtain ⟨difference, hdifference⟩ :
      ∃ difference, difference = regs.acc - (if carry then 0 else 1) - value.setWidth 32 := ⟨_, rfl⟩
  have hsettled := h.settle difference regs.acc
    (differenceOverflows regs.acc (value.setWidth 32) difference)
  refine ⟨difference, if difference ≠ regs.acc then difference ≤ regs.acc else carry, ?_, ?_⟩
  · simp only [Registers.subWithBorrow, h.carry, ← hdifference, hsettled.acc]
    exact hsettled.judgeIf _ _
  · have hnumber : (difference.toNat + value.toNat + (!carry).toNat) % 2 ^ 32 = regs.acc.toNat := by
      have hback : difference + value.setWidth 32 + (if carry then 0 else 1) = regs.acc := by
        rw [hdifference, BitVec.sub_add_cancel, BitVec.sub_add_cancel]
      rw [← hback]
      cases carry <;> simp [BitVec.toNat_add]
    have hvalue := value.isLt
    have hborrow := (!carry).toNat_le
    by_cases hsame : difference = regs.acc
    · rw [if_neg (not_not.mpr hsame)]
      rw [hsame] at hnumber ⊢
      omega
    · rw [if_pos hsame]
      have hne : difference.toNat ≠ regs.acc.toNat := fun heq => hsame (BitVec.eq_of_toNat_eq heq)
      have hlimit := difference.isLt
      simp only [BitVec.le_def]
      by_cases hless : difference.toNat ≤ regs.acc.toNat
      · rw [decide_eq_true hless, Bool.not_true, Bool.toNat_false]
        omega
      · rw [decide_eq_false hless, Bool.not_false, Bool.toNat_true]
        omega

/-- A high half that may have overflowed is kept as it is. -/
theorem settleHigh (h : regs.Unclamped model acc carry) (result old : Half) (overflows : Bool) :
    (regs.keepHigh old result overflows).Unclamped model (joinHalves result (lowHalf acc)) carry := by
  obtain rfl := h.acc
  have hnoted := h.note
  cases overflows with
  | true =>
    dsimp only [keepHigh, overflowHigh]
    rw [hnoted.ovm]
    exact hnoted.write _
  | false => exact h.write _

/-- ADDH adds its operand to the high half, and nothing more can be carried out of it than has been. -/
theorem addHigh (h : regs.Unclamped model acc carry) (hroom : carry = true → acc.toNat < 0x10000)
    (value : Half) :
    ∃ acc' carry', (regs.addHigh value).Unclamped model acc' carry' ∧
      acc'.toNat + 2 ^ 32 * carry'.toNat =
        acc.toNat + 2 ^ 32 * carry.toNat + 0x10000 * value.toNat := by
  obtain rfl := h.acc
  obtain ⟨sum, hsum⟩ : ∃ sum, sum = highHalf regs.acc + value := ⟨_, rfl⟩
  have hjudged := h.judgeIf (sum < highHalf regs.acc) true
  refine ⟨joinHalves sum (lowHalf regs.acc), if sum < highHalf regs.acc then true else carry, ?_, ?_⟩
  · rw [addHigh_eq, ← hsum]
    exact hjudged.settleHigh sum _ _
  · have hnumber : sum.toNat = (regs.acc.toNat / 0x10000 + value.toNat) % 2 ^ 16 := by
      rw [hsum, BitVec.toNat_add, highHalf_toNat]
    have hvalue := value.isLt
    have hacc := regs.acc.isLt
    rw [joinHalves_toNat, lowHalf_toNat]
    split
    · next hless =>
      rw [BitVec.lt_def, highHalf_toNat] at hless
      cases carry with
      | true =>
        have hsmall := hroom rfl
        omega
      | false =>
        rw [Bool.toNat_true, Bool.toNat_false]
        omega
    · next hless =>
      rw [BitVec.lt_def, highHalf_toNat] at hless
      omega

/-- SUBH subtracts its operand from the high half, and nothing more can be borrowed than has been. -/
theorem subHigh (h : regs.Unclamped model acc carry)
    (hroom : carry = false → 2 ^ 32 - 0x10000 ≤ acc.toNat) (value : Half) :
    ∃ acc' carry', (regs.subHigh value).Unclamped model acc' carry' ∧
      acc'.toNat + 0x10000 * value.toNat + 2 ^ 32 * (!carry).toNat =
        acc.toNat + 2 ^ 32 * (!carry').toNat := by
  obtain rfl := h.acc
  obtain ⟨difference, hdifference⟩ :
      ∃ difference, difference = highHalf regs.acc - value := ⟨_, rfl⟩
  have hjudged := h.judgeIf (highHalf regs.acc < difference) false
  refine ⟨joinHalves difference (lowHalf regs.acc),
    if highHalf regs.acc < difference then false else carry, ?_, ?_⟩
  · rw [subHigh_eq, ← hdifference]
    exact hjudged.settleHigh difference _ _
  · have hnumber : (difference.toNat + value.toNat) % 2 ^ 16 = regs.acc.toNat / 0x10000 := by
      have hback : difference + value = highHalf regs.acc := by
        rw [hdifference, BitVec.sub_add_cancel]
      rw [← highHalf_toNat, ← hback, BitVec.toNat_add]
    have hvalue := value.isLt
    have hacc := regs.acc.isLt
    have hlimit := difference.isLt
    rw [joinHalves_toNat, lowHalf_toNat]
    split
    · next hless =>
      rw [BitVec.lt_def, highHalf_toNat] at hless
      cases carry with
      | true =>
        rw [Bool.not_true, Bool.not_false, Bool.toNat_true, Bool.toNat_false]
        omega
      | false =>
        have hgreat := hroom rfl
        omega
    · next hless =>
      rw [BitVec.lt_def, highHalf_toNat] at hless
      omega

end Unclamped

end Registers

/-! ## Operations on words of memory -/

/-- A word is its low half set below its high half. -/
theorem or_halves (value : Word) :
    ((highHalf value).setWidth 32 <<< 16) ||| (lowHalf value).setWidth 32 = value := by
  apply BitVec.eq_of_getLsbD_eq
  intro i hi
  simp only [highHalf, lowHalf, BitVec.getLsbD_or, BitVec.getLsbD_shiftLeft, BitVec.getLsbD_setWidth,
    BitVec.getLsbD_extractLsb']
  by_cases h : i < 16
  · simp [h, hi]
  · have hadd : 16 + (i - 16) = i := by omega
    have hsub : i - 16 < 16 := by omega
    simp [h, hi, hadd, hsub]
    omega

namespace Machine

/-- The word at the address of the operand. -/
def operand (machine : Machine) : Half :=
  (machine.readData (machine.core.regs.operandAddress machine.core.opcode)).1

end Machine

/-- The operation that is executed at a moment, if one is, with the word at the address of its
operand. -/
def Moment.read? : Moment → Option (Op × Half)
  | .poll _ => none
  | .execution machine op => some (op, machine.operand)

namespace Machine

/-- These operations, on these words of data memory, and no others are executed from one machine to
another, and no request is served. -/
def Reads (start : Machine) (reads : List (Op × Half)) (later : Machine) : Prop :=
  ∃ moments, Timeline start moments later ∧ moments.filterMap Moment.read? = reads ∧
    ∀ moment ∈ moments, moment.served? = none

/-- They are executed one after the other. -/
def Works (start : Machine) (reads : List (Op × Half)) (later : Machine) : Prop :=
  ∃ executions, Executes start executions later ∧
    (executions.map fun e => (e.2, e.1.operand)) = reads

/-- Plain code that reads its operands works on them, and stays in normal flow. -/
theorem Reads.works {start later : Machine} {reads : List (Op × Half)} (h : start.Reads reads later)
    (hflow : start.core.flow = .normal) (hplain : ∀ read ∈ reads, read.1.isPlain = true) :
    start.Works reads later ∧ later.core.flow = .normal := by
  obtain ⟨moments, htimeline, hreads, hserved⟩ := h
  have hmap : (moments.filterMap Moment.execution?).map (fun e => (e.2, e.1.operand)) = reads := by
    rw [← hreads, List.map_filterMap]
    exact List.filterMap_congr fun moment _ => by cases moment <;> rfl
  have hplain' : ∀ e ∈ moments.filterMap Moment.execution?, e.2.isPlain = true := fun e he =>
    hplain (e.2, e.1.operand) (hmap ▸ List.mem_map_of_mem he)
  have hexecutes := htimeline.course.executes hserved hflow fun e he _ => hplain' e he
  exact ⟨⟨_, hexecutes, hmap⟩, (hexecutes.flow hplain').trans hflow⟩

/-- A calm stretch leaves all that an accumulation depends on. -/
theorem CalmTo.holdsAs {before after : Machine} (h : before.CalmTo after) :
    before.core.regs.HoldsAs after.core.regs :=
  ⟨congrArg Workings.acc h.core.workings, h.core.status ▸ .refl _⟩

namespace Works

variable {start later : Machine} {reads : List (Op × Half)} {model : Model} {acc : Word} {carry : Bool}

/-- Work on several operands starts with the first of them. -/
theorem uncons {op : Op} {value : Half} (h : start.Works ((op, value) :: reads) later) :
    ∃ ready, start.CalmTo ready ∧ ready.fetch.operand = value ∧
      (ready.fetch.execute op).1.Works reads later := by
  obtain ⟨executions, hexecutes, hreads⟩ := h
  cases hexecutes with
  | rest _ => cases hreads
  | instruction hcalm hrest =>
    obtain ⟨hfirst, hlater⟩ := List.cons.inj hreads
    obtain ⟨rfl, hvalue⟩ := Prod.mk.inj hfirst
    exact ⟨_, hcalm, hvalue, _, hrest, hlater⟩

/-- Nothing executed leaves the accumulator and the carry. -/
theorem rest (h : start.Works [] later) (hstart : start.core.regs.Unclamped model acc carry) :
    later.core.regs.Unclamped model acc carry := by
  obtain ⟨executions, hexecutes, hreads⟩ := h
  obtain rfl := List.map_eq_nil_iff.mp hreads
  cases hexecutes with
  | rest hcalm => exact hstart.of_holdsAs hcalm.holdsAs

/-- An operation works on the accumulator and the carry that the one before it leaves. -/
theorem next {P : Registers → Prop} {op : OperandOp} {value : Half}
    (h : start.Works ((.operand op, value) :: reads) later)
    (hstart : start.core.regs.Unclamped model acc carry)
    (hprepare : ∀ machine : Machine, machine.mapRegs op.prepare = machine)
    (hpointer : op.movesPointer = true)
    (hfinish : ∀ word regs, regs.Unclamped model acc carry → P (op.finish word value regs)) :
    ∃ done : Machine, P done.core.regs ∧ done.Works reads later := by
  obtain ⟨ready, hcalm, hvalue, hrest⟩ := h.uncons
  have hfetch : start.core.regs.HoldsAs ready.fetch.core.regs := by
    rw [fetch_core]
    exact hcalm.holdsAs.trans ⟨rfl, .refl _⟩
  have hfetched := hfetch.trans (ready.fetch.computesAs_fetchOperand true).toHoldsAs
  refine ⟨_, ?_, hrest⟩
  rw [operand] at hvalue
  rw [execute_finish _ (hprepare _) hpointer, fetchOperand_eq, hvalue]
  rw [fetchOperand_eq] at hfetched
  exact hfinish _ _ (hstart.of_holdsAs hfetched)

/-- ZALH and OR load a word by its halves. -/
theorem load {x : Word}
    (h : start.Works ((.operand .zalh, highHalf x) :: (.operand .or, lowHalf x) :: reads) later)
    (hstart : start.core.regs.Unclamped model acc carry) :
    ∃ done : Machine, done.core.regs.Unclamped model x carry ∧ done.Works reads later := by
  obtain ⟨_, hhigh, h⟩ := h.next
    (P := fun after => after.Unclamped model ((highHalf x).setWidth 32 <<< 16) carry) hstart
    (fun _ => rfl) rfl fun _ _ hregs => hregs.write _
  refine h.next (P := fun after => after.Unclamped model x carry) hhigh (fun _ => rfl) rfl
    fun _ regs hregs => ?_
  have hword := hregs.write (regs.acc ||| (lowHalf x).setWidth 32)
  rw [hregs.acc, or_halves] at hword
  change Registers.Unclamped { regs with acc := regs.acc ||| (lowHalf x).setWidth 32 } model x carry
  rw [hregs.acc, or_halves]
  exact hword

end Works

end Machine

/-! ## Word by word -/

/-- The operations that add a word of one number and a word of another. -/
def additionReads (x y : Word) : List (Op × Half) :=
  [(.operand .zalh, highHalf x), (.operand .or, lowHalf x), (.operand .addc, lowHalf y),
    (.operand .addh, highHalf y)]

/-- Those that subtract them. -/
def subtractionReads (x y : Word) : List (Op × Half) :=
  [(.operand .zalh, highHalf x), (.operand .or, lowHalf x), (.operand .subb, lowHalf y),
    (.operand .subh, highHalf y)]

namespace Machine.Works

variable {start later : Machine} {x y : Word} {model : Model} {acc : Word} {carry : Bool}

/-- The sum of two words and the carry, with the carry out of it. -/
theorem addition (h : start.Works (additionReads x y) later)
    (hstart : start.core.regs.Unclamped model acc carry) :
    ∃ sum carry', later.core.regs.Unclamped model sum carry' ∧
      sum.toNat + 2 ^ 32 * carry'.toNat = x.toNat + y.toNat + carry.toNat := by
  obtain ⟨_, hloaded, h⟩ := h.load hstart
  obtain ⟨_, ⟨low, carried, hlow, hlowSum⟩, h⟩ := h.next
    (P := fun after => ∃ low carried, after.Unclamped model low carried ∧
      low.toNat + 2 ^ 32 * carried.toNat = x.toNat + carry.toNat + (lowHalf y).toNat)
    hloaded (fun _ => rfl) rfl fun _ _ hregs => hregs.addWithCarry _
  have hx := x.isLt
  have hcarry := carry.toNat_le
  rw [lowHalf_toNat] at hlowSum
  have hroom : carried = true → low.toNat < 0x10000 := by
    rintro rfl
    rw [Bool.toNat_true] at hlowSum
    omega
  obtain ⟨_, ⟨sum, carry', hsum, hhighSum⟩, h⟩ := h.next
    (P := fun after => ∃ sum carry', after.Unclamped model sum carry' ∧
      sum.toNat + 2 ^ 32 * carry'.toNat =
        low.toNat + 2 ^ 32 * carried.toNat + 0x10000 * (highHalf y).toNat)
    hlow (fun _ => rfl) rfl fun _ _ hregs => hregs.addHigh hroom _
  rw [highHalf_toNat] at hhighSum
  exact ⟨sum, carry', h.rest hsum, by omega⟩

/-- The difference of two words and the borrow, with the borrow out of it. -/
theorem subtraction (h : start.Works (subtractionReads x y) later)
    (hstart : start.core.regs.Unclamped model acc carry) :
    ∃ difference carry', later.core.regs.Unclamped model difference carry' ∧
      difference.toNat + y.toNat + (!carry).toNat = x.toNat + 2 ^ 32 * (!carry').toNat := by
  obtain ⟨_, hloaded, h⟩ := h.load hstart
  obtain ⟨_, ⟨low, carried, hlow, hlowDifference⟩, h⟩ := h.next
    (P := fun after => ∃ low carried, after.Unclamped model low carried ∧
      low.toNat + (lowHalf y).toNat + (!carry).toNat = x.toNat + 2 ^ 32 * (!carried).toNat)
    hloaded (fun _ => rfl) rfl fun _ _ hregs => hregs.subWithBorrow _
  have hborrow := (!carry).toNat_le
  rw [lowHalf_toNat] at hlowDifference
  have hroom : carried = false → 2 ^ 32 - 0x10000 ≤ low.toNat := by
    rintro rfl
    rw [Bool.not_false, Bool.toNat_true] at hlowDifference
    omega
  obtain ⟨_, ⟨difference, carry', hdifference, hhighDifference⟩, h⟩ := h.next
    (P := fun after => ∃ difference carry', after.Unclamped model difference carry' ∧
      difference.toNat + 0x10000 * (highHalf y).toNat + 2 ^ 32 * (!carried).toNat =
        low.toNat + 2 ^ 32 * (!carry').toNat)
    hlow (fun _ => rfl) rfl fun _ _ hregs => hregs.subHigh hroom _
  rw [highHalf_toNat] at hhighDifference
  exact ⟨difference, carry', h.rest hdifference, by omega⟩

end Machine.Works

namespace Machine

/-- What may happen between two words: anything that leaves the carry and the overflow mode. -/
structure Resumes (before after : Machine) : Prop where
  part : after.core.regs.status.st1Fixed = before.core.regs.status.st1Fixed
  flow : after.core.flow = before.core.flow
  ovm : after.core.regs.has .ovm = before.core.regs.has .ovm
  carry : after.core.regs.has .carry = before.core.regs.has .carry

/-- A machine resumes from itself. -/
theorem Resumes.refl (machine : Machine) : machine.Resumes machine := ⟨rfl, rfl, rfl, rfl⟩

/-- Operations are performed on the words of two numbers, from the least significant on, and after each
word the accumulator is a word of the result. -/
inductive Limbwise (reads : Word → Word → List (Op × Half)) :
    Machine → List (Word × Word) → List Word → Machine → Prop
  | done (machine : Machine) : Limbwise reads machine [] [] machine
  | limb {start later next final : Machine} {x y : Word} {pairs : List (Word × Word)}
    {results : List Word} : start.Reads (reads x y) later → later.Resumes next →
      Limbwise reads next pairs results final →
        Limbwise reads start ((x, y) :: pairs) (later.core.regs.acc :: results) final

end Machine

/-- Registers resumed are out of overflow mode as before, with the same carry. -/
theorem Registers.Unclamped.resumes {before after : Machine} {model : Model} {acc : Word} {carry : Bool}
    (h : before.core.regs.Unclamped model acc carry) (hresumes : before.Resumes after) :
    after.core.regs.Unclamped model after.core.regs.acc carry where
  part := hresumes.part.trans h.part
  ovm := hresumes.ovm.trans h.ovm
  acc := rfl
  carry := hresumes.carry.trans h.carry

namespace Machine.Limbwise

open Limbs

variable {start final : Machine} {model : Model} {acc : Word} {carry : Bool}
  {pairs : List (Word × Word)} {results : List Word}

/-- The sum of two numbers and the carry. -/
theorem addition (h : start.Limbwise additionReads pairs results final)
    (hstart : start.core.regs.Unclamped model acc carry) (hflow : start.core.flow = .normal) :
    let total := number (pairs.map Prod.fst) + number (pairs.map Prod.snd) + carry.toNat
    results = ofNumber pairs.length total ∧
      final.core.regs.has .carry = decide (2 ^ (32 * pairs.length) ≤ total) := by
  induction h generalizing acc carry with
  | done machine =>
    rw [hstart.carry]
    cases carry <;> exact ⟨rfl, rfl⟩
  | @limb start later next final x y pairs results hreads hresumes hrest ih =>
    have hplain : ∀ read ∈ additionReads x y, read.1.isPlain = true := by
      simp [additionReads, Op.isPlain]
    obtain ⟨hworks, hnormal⟩ := hreads.works hflow hplain
    obtain ⟨sum, carry', hsum, hnumber⟩ := hworks.addition hstart
    obtain ⟨hresults, hcarry⟩ := ih (hsum.resumes hresumes) (hresumes.flow.trans hnormal)
    -- The lowest limb of the total is the sum of the lowest limbs, and its carry goes to the others.
    have hlimb := sum.isLt
    simp only [List.map_cons, number, List.length_cons]
    have htotal : x.toNat + 2 ^ 32 * number (pairs.map Prod.fst) +
        (y.toNat + 2 ^ 32 * number (pairs.map Prod.snd)) + carry.toNat =
          sum.toNat + 2 ^ 32 * (number (pairs.map Prod.fst) + number (pairs.map Prod.snd) +
            carry'.toNat) := by omega
    refine ⟨?_, ?_⟩
    · rw [ofNumber_succ htotal, hsum.acc, hresults]
    · rw [hcarry, decide_eq_decide, htotal, Nat.mul_succ, Nat.pow_add]
      omega

/-- The difference of two numbers and the borrow. -/
theorem subtraction (h : start.Limbwise subtractionReads pairs results final)
    (hstart : start.core.regs.Unclamped model acc carry) (hflow : start.core.flow = .normal) :
    let taken := number (pairs.map Prod.snd) + (!carry).toNat
    results = ofNumber pairs.length
        (number (pairs.map Prod.fst) + 2 ^ (32 * pairs.length) - taken) ∧
      final.core.regs.has .carry = decide (taken ≤ number (pairs.map Prod.fst)) := by
  induction h generalizing acc carry with
  | done machine =>
    rw [hstart.carry]
    cases carry <;> exact ⟨rfl, rfl⟩
  | @limb start later next final x y pairs results hreads hresumes hrest ih =>
    have hplain : ∀ read ∈ subtractionReads x y, read.1.isPlain = true := by
      simp [subtractionReads, Op.isPlain]
    obtain ⟨hworks, hnormal⟩ := hreads.works hflow hplain
    obtain ⟨difference, carry', hdifference, hnumber⟩ := hworks.subtraction hstart
    obtain ⟨hresults, hcarry⟩ := ih (hdifference.resumes hresumes)
      (hresumes.flow.trans hnormal)
    have hlimb := difference.isLt
    have hborrow := (!carry').toNat_le
    have hpower := number_lt (pairs.map Prod.snd)
    rw [List.length_map] at hpower
    simp only [List.map_cons, number, List.length_cons]
    have htotal : x.toNat + 2 ^ 32 * number (pairs.map Prod.fst) + 2 ^ (32 * (pairs.length + 1)) -
        (y.toNat + 2 ^ 32 * number (pairs.map Prod.snd) + (!carry).toNat) =
          difference.toNat + 2 ^ 32 * (number (pairs.map Prod.fst) + 2 ^ (32 * pairs.length) -
            (number (pairs.map Prod.snd) + (!carry').toNat)) := by
      rw [Nat.mul_succ, Nat.pow_add]
      omega
    refine ⟨?_, ?_⟩
    · rw [ofNumber_succ htotal, hdifference.acc, hresults]
    · rw [hcarry, decide_eq_decide]
      omega

end Machine.Limbwise

open Limbs in
/-- Numbers of any length are added and subtracted word by word. Started with a clear carry, the four
operations with carry leave the words of the sum, and in the end its carry; started with a set carry, the
four with borrow leave those of the difference, and a clear carry exactly when it is negative. The
overflow mode is off, the sign-extension mode is of no concern, and the operands may be addressed in any
way. -/
theorem limb_arithmetic (start : Machine) (model : Model) {final : Machine}
    {pairs : List (Word × Word)} {results : List Word}
    (hpart : start.core.regs.status.st1Fixed = model.st1Fixed)
    (hflow : start.core.flow = .normal) (hovm : start.core.regs.has .ovm = false) :
    let first := number (pairs.map Prod.fst)
    let second := number (pairs.map Prod.snd)
    (start.core.regs.has .carry = false → start.Limbwise additionReads pairs results final →
      results = ofNumber pairs.length (first + second) ∧
        (final.core.regs.has .carry = true ↔ 2 ^ (32 * pairs.length) ≤ first + second)) ∧
      (start.core.regs.has .carry = true → start.Limbwise subtractionReads pairs results final →
        results = ofNumber pairs.length
            (((first : Int) - second) % 2 ^ (32 * pairs.length)).toNat ∧
          (final.core.regs.has .carry = false ↔ first < second)) := by
  intro first second
  refine ⟨fun hcarry h => ?_, fun hcarry h => ?_⟩
  · obtain ⟨hresults, hfinal⟩ := h.addition ⟨hpart, hovm, rfl, hcarry⟩ hflow
    refine ⟨hresults, ?_⟩
    rw [hfinal, decide_eq_true_eq]
    rfl
  · obtain ⟨hresults, hfinal⟩ := h.subtraction ⟨hpart, hovm, rfl, hcarry⟩ hflow
    refine ⟨?_, ?_⟩
    · have hfirst := number_lt (pairs.map Prod.fst)
      have hsecond := number_lt (pairs.map Prod.snd)
      rw [List.length_map] at hfirst hsecond
      exact hresults.trans (ofNumber_sub hfirst hsecond)
    · rw [hfinal, decide_eq_false_iff_not]
      exact Nat.not_le

/-- Steps over the four operations read what they execute on. -/
theorem Machine.reads_steps {machine : Machine} {reads : List (Op × Half)} (count : Nat)
    (hreads : (machine.stepsMoments count).filterMap Moment.read? = reads)
    (hserved : ∀ moment ∈ machine.stepsMoments count, moment.served? = none) :
    machine.Reads reads (machine.steps count) :=
  ⟨_, machine.timeline_steps count, hreads, hserved⟩

/-- Two words of each of two numbers stand in data memory from word 10h on. A program with these
operations sets the carry, works on the lower words, stores the result and works on the higher words. -/
def limbProgram (carry low high : Half) : Machine :=
  ⟨.new .tms32025,
    (Bus.empty.loadHalves .program 0
      [carry, 0x4010, 0x4D11, low ||| 0x13, high ||| 0x12, 0x6020, 0x6821,
        0x4014, 0x4D15, low ||| 0x17, high ||| 0x16]).loadHalves .data 0x20
      [0xFFFF, 0xFFFF, 0x0000, 0x0001, 0x0000, 0x0001, 0x0000, 0x0002]⟩

/-- 1FFFFFFFFh and 200000001h make 400000000h, and the difference, -2, takes a borrow. -/
theorem limb_arithmetic_two_words :
    let adding := (limbProgram 0xCE30 0x4300 0x4800).steps 1
    let added := (adding.steps 4).steps 2
    let subtracting := (limbProgram 0xCE31 0x4F00 0x4400).steps 1
    let subtracted := (subtracting.steps 4).steps 2
    [(adding.steps 4).core.regs.acc, (added.steps 4).core.regs.acc] = [0x00000000, 0x00000004] ∧
      (added.steps 4).core.regs.has .carry = false ∧
      [(subtracting.steps 4).core.regs.acc, (subtracted.steps 4).core.regs.acc] =
        [0xFFFFFFFE, 0xFFFFFFFF] ∧
      (subtracted.steps 4).core.regs.has .carry = false := by
  intro adding added subtracting subtracted
  have haddHigh : added.Limbwise additionReads [(1, 2)] [(added.steps 4).core.regs.acc]
      (added.steps 4) :=
    .limb (Machine.reads_steps 4 (by decide +kernel) (by decide +kernel)) (.refl _) (.done _)
  have hadd : adding.Limbwise additionReads [(0xFFFFFFFF, 1), (1, 2)]
      [(adding.steps 4).core.regs.acc, (added.steps 4).core.regs.acc] (added.steps 4) :=
    .limb (Machine.reads_steps 4 (by decide +kernel) (by decide +kernel))
      ⟨by decide +kernel, by decide +kernel, by decide +kernel, by decide +kernel⟩ haddHigh
  have hsubHigh : subtracted.Limbwise subtractionReads [(1, 2)] [(subtracted.steps 4).core.regs.acc]
      (subtracted.steps 4) :=
    .limb (Machine.reads_steps 4 (by decide +kernel) (by decide +kernel)) (.refl _) (.done _)
  have hsub : subtracting.Limbwise subtractionReads [(0xFFFFFFFF, 1), (1, 2)]
      [(subtracting.steps 4).core.regs.acc, (subtracted.steps 4).core.regs.acc]
      (subtracted.steps 4) :=
    .limb (Machine.reads_steps 4 (by decide +kernel) (by decide +kernel))
      ⟨by decide +kernel, by decide +kernel, by decide +kernel, by decide +kernel⟩ hsubHigh
  obtain ⟨hsum, hcarry⟩ := (limb_arithmetic adding .tms32025 (by decide +kernel) (by decide +kernel)
    (by decide +kernel)).1 (by decide +kernel) hadd
  obtain ⟨hdifference, hborrow⟩ := (limb_arithmetic subtracting .tms32025 (by decide +kernel)
    (by decide +kernel) (by decide +kernel)).2 (by decide +kernel) hsub
  exact ⟨hsum.trans (by decide +kernel),
    Bool.eq_false_iff.mpr fun h => absurd (hcarry.mp h) (by decide +kernel),
    hdifference.trans (by decide +kernel), hborrow.mpr (by decide +kernel)⟩

end ProcessorCores.Tms

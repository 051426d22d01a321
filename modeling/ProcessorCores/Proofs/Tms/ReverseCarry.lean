import Mathlib.Algebra.GroupWithZero.Nat
import Mathlib.Logic.Function.Iterate
import ProcessorCores.Proofs.Tms.Pointers

/-!
# Addition with reverse carry

Addition with the carry running downwards is addition of the words read from the other end: reversing
the bits turns the one into the other. The loop that adds bit by bit keeps this at every bit, with the
carry of the reversed words as its own.

So the indices of a table whose size is a power of two form a cyclic group under it, and adding half the
size goes once around the group, through the entries in bit-reversed order.

The modification written `*BR0-` adds the negated AR0. The negation is an ordinary one and does not take
back an addition that runs the other way: only for AR0 = 0 is it the inverse of `*BR0+`.
-/

namespace ProcessorCores.Tms

/-- A word is known by its reversal. -/
theorem reverse_inj {w : Nat} {a b : BitVec w} : a.reverse = b.reverse ↔ a = b := by
  constructor
  · intro h
    rw [← BitVec.reverse_reverse_eq (x := a), h, BitVec.reverse_reverse_eq]
  · exact congrArg BitVec.reverse

/-! ## The loop -/

/-- A word shifted down to a bit is the word shifted down past it, with the bit put in. -/
theorem shiftRight_succ_or_bit (word : Half) (count : Nat) :
    (word >>> (count + 1)) <<< 1 ||| (BitVec.ofBool (word.getLsbD count)).setWidth 16 =
      word >>> count := by
  apply BitVec.eq_of_getLsbD_eq
  intro i hi
  cases i with
  | zero => simp
  | succ i =>
    have hindex : count + (i + 1) = count + 1 + i := by omega
    simp [hi, hindex]

/-- The loop, after some of the bits: what is left of the operands is shifted up, the carry is the one
that the reversed operands have come to, and the upper bits of the result stand at the bottom. -/
theorem addDownwards_eq (a b : Half) {done count : Nat} (hcount : done + count = 16) :
    addDownwards (a <<< done) (b <<< done) (BitVec.carry done a.reverse b.reverse false)
        ((a.reverse + b.reverse).reverse >>> count) count =
      (a.reverse + b.reverse).reverse := by
  induction count generalizing done with
  | zero => simp [addDownwards]
  | succ count ih =>
    have hcarry := BitVec.carry_succ done a.reverse b.reverse false
    have hbit : (a.reverse + b.reverse).reverse.getLsbD count =
        (a.getMsbD done ^^ (b.getMsbD done ^^ BitVec.carry done a.reverse b.reverse false)) := by
      have hmirror : 16 - 1 - count = done := by omega
      rw [BitVec.getLsbD_reverse, BitVec.getMsbD_eq_getLsbD, decide_eq_true (by omega), Bool.true_and,
        hmirror, BitVec.getLsbD_add (by omega), BitVec.getLsbD_reverse, BitVec.getLsbD_reverse]
    have hrest := @ih (done + 1) (by omega)
    rw [BitVec.getLsbD_reverse, BitVec.getLsbD_reverse] at hcarry
    rw [hcarry, ← shiftRight_succ_or_bit, hbit, ← Bool.xor_assoc] at hrest
    rw [addDownwards, BitVec.msb_shiftLeft, BitVec.msb_shiftLeft, ← BitVec.shiftLeft_add,
      ← BitVec.shiftLeft_add]
    exact hrest

/-- Addition with reverse carry is addition of the reversed words. -/
theorem reverseCarryAdd_eq (a b : Half) : reverseCarryAdd a b = (a.reverse + b.reverse).reverse := by
  have hloop := addDownwards_eq a b (Nat.zero_add 16)
  rw [BitVec.carry_zero, BitVec.shiftLeft_zero, BitVec.shiftLeft_zero,
    BitVec.ushiftRight_eq_zero (Nat.le_refl 16)] at hloop
  exact hloop

/-- Read in reverse, the sum is an ordinary one. -/
theorem reverse_reverseCarryAdd (a b : Half) :
    (reverseCarryAdd a b).reverse = a.reverse + b.reverse := by
  rw [reverseCarryAdd_eq, BitVec.reverse_reverse_eq]

/-! ## The walk -/

/-- The index that so many additions of a step reach from 0. -/
def walk (step : Half) (count : Nat) : Half := (reverseCarryAdd · step)^[count] 0

/-- Half the size of a table, reversed. -/
theorem reverse_twoPow {width : Nat} (hpos : 1 ≤ width) (hwidth : width ≤ 16) :
    (BitVec.twoPow 16 (width - 1)).reverse = 1#16 <<< (16 - width) := by
  apply BitVec.eq_of_getLsbD_eq
  intro i hi
  rw [BitVec.getLsbD_reverse, BitVec.getMsbD_eq_getLsbD, BitVec.getLsbD_twoPow,
    BitVec.getLsbD_shiftLeft, BitVec.getLsbD_one, Bool.eq_iff_iff]
  simp only [Bool.and_eq_true, Bool.not_eq_true', decide_eq_true_eq, decide_eq_false_iff_not]
  omega

/-- Reversed, the walk counts in the upper bits. -/
theorem reverse_walk {width : Nat} (hpos : 1 ≤ width) (hwidth : width ≤ 16) (count : Nat) :
    (walk (BitVec.twoPow 16 (width - 1)) count).reverse =
      BitVec.ofNat 16 count <<< (16 - width) := by
  induction count with
  | zero => simp [walk, BitVec.reverse_eq_zero_iff]
  | succ count ih =>
    rw [walk, Function.iterate_succ_apply', reverse_reverseCarryAdd, ← walk, ih,
      reverse_twoPow hpos hwidth, ← BitVec.shiftLeft_add_distrib, BitVec.ofNat_add]

/-- The walk visits the reversals of 0, 1, 2 and so on, read as indices of the table. -/
theorem walk_eq {width : Nat} (hpos : 1 ≤ width) (hwidth : width ≤ 16) (count : Nat) :
    walk (BitVec.twoPow 16 (width - 1)) count =
      (BitVec.ofNat width count).reverse.setWidth 16 := by
  rw [← reverse_inj, reverse_walk hpos hwidth]
  apply BitVec.eq_of_getLsbD_eq
  intro i hi
  rw [BitVec.getLsbD_shiftLeft, BitVec.getLsbD_ofNat, BitVec.getLsbD_reverse,
    BitVec.getMsbD_eq_getLsbD, BitVec.getLsbD_setWidth, BitVec.getLsbD_reverse,
    BitVec.getMsbD_eq_getLsbD, BitVec.getLsbD_ofNat]
  -- The lower bits are 0 on either side, and above them both show the bits of the count in order.
  by_cases hlow : i < 16 - width
  · have houtside : ¬ 16 - 1 - i < width := by omega
    simp [hlow, houtside]
  · have hmirror : width - 1 - (16 - 1 - i) = i - (16 - width) := by omega
    have hinside : 16 - 1 - i < 16 ∧ 16 - 1 - i < width ∧ i - (16 - width) < width ∧
        i - (16 - width) < 16 := by omega
    simp only [hi, hlow, hmirror, hinside, decide_true, decide_false, Bool.not_false, Bool.true_and]

/-- How the indices of a table are walked through by half its size. -/
structure WalksReversed (width : Nat) : Prop where
  order : ∀ count < 2 ^ width, walk (BitVec.twoPow 16 (width - 1)) count =
    (BitVec.ofNat width count).reverse.setWidth 16
  once : ∀ index : BitVec width, ∃! count, count < 2 ^ width ∧
    walk (BitVec.twoPow 16 (width - 1)) count = index.setWidth 16
  returns : walk (BitVec.twoPow 16 (width - 1)) (2 ^ width) = 0

/-- Addition with reverse carry is addition in the reversed order of the bits. Adding half the size of a
table therefore visits its entries in bit-reversed order, each once, and comes back to the first. -/
theorem reverse_carry_addition :
    (∀ a b, reverseCarryAdd a b = (a.reverse + b.reverse).reverse) ∧
      ∀ width, 1 ≤ width → width ≤ 16 → WalksReversed width := by
  refine ⟨reverseCarryAdd_eq, fun width hpos hwidth => ?_⟩
  have hwalk := walk_eq hpos hwidth
  constructor
  case order =>
    intro count _
    exact hwalk count
  case once =>
    intro index
    refine ⟨index.reverse.toNat, ⟨index.reverse.isLt, ?_⟩, ?_⟩
    · rw [hwalk, BitVec.ofNat_toNat, BitVec.setWidth_eq, BitVec.reverse_reverse_eq]
    · rintro count ⟨hcount, hvisited⟩
      have hindex : (BitVec.ofNat width count).reverse = index := by
        have hnumber := congrArg BitVec.toNat ((hwalk count).symm.trans hvisited)
        rw [BitVec.toNat_setWidth_of_le hwidth, BitVec.toNat_setWidth_of_le hwidth] at hnumber
        exact BitVec.eq_of_toNat_eq hnumber
      rw [← hindex, BitVec.reverse_reverse_eq, BitVec.toNat_ofNat, Nat.mod_eq_of_lt hcount]
  case returns =>
    have hagain : BitVec.ofNat width (2 ^ width) = BitVec.ofNat width 0 := by
      apply BitVec.eq_of_toNat_eq
      rw [BitVec.toNat_ofNat, BitVec.toNat_ofNat, Nat.mod_self, Nat.zero_mod]
    rw [hwalk, hagain, BitVec.reverse_eq_zero_iff.mpr rfl, BitVec.setWidth_zero]
    rfl

/-- A table of eight entries, and a carry from the lowest bit that is lost. -/
theorem reverse_carry_addition_eight :
    1 ≤ 3 ∧ 3 ≤ 16 ∧ WalksReversed 3 ∧
      (List.range 9).map (walk 4) = [0, 4, 2, 6, 1, 5, 3, 7, 0] ∧
      reverseCarryAdd 0x8001 0x4001 = ((0x8001 : Half).reverse + (0x4001 : Half).reverse).reverse := by
  have hone : 1 ≤ 3 := by decide
  have hall : 3 ≤ 16 := by decide
  exact ⟨hone, hall, reverse_carry_addition.2 3 hone hall, by decide,
    reverse_carry_addition.1 0x8001 0x4001⟩

/-! ## Modifications -/

/-- Reverse carry addition is associative. -/
theorem reverseCarryAdd_assoc (a b c : Half) :
    reverseCarryAdd (reverseCarryAdd a b) c = reverseCarryAdd a (reverseCarryAdd b c) := by
  rw [← reverse_inj]
  simp only [reverse_reverseCarryAdd, BitVec.add_assoc]

/-- Reverse carry addition is commutative. -/
theorem reverseCarryAdd_comm (a b : Half) : reverseCarryAdd a b = reverseCarryAdd b a := by
  rw [← reverse_inj, reverse_reverseCarryAdd, reverse_reverseCarryAdd, BitVec.add_comm]

/-- Only adding 0 changes nothing. -/
theorem reverseCarryAdd_eq_self_iff (a b : Half) : reverseCarryAdd a b = a ↔ b = 0 := by
  rw [← reverse_inj, reverse_reverseCarryAdd, BitVec.add_right_eq_self, BitVec.reverse_eq_zero_iff]
  rfl

/-- The ordinary negation of a word is its inverse under this addition for 0 only. -/
theorem reverseCarryAdd_neg_eq_zero_iff (a : Half) : reverseCarryAdd a (-a) = 0 ↔ a = 0 := by
  constructor
  · intro hzero
    by_contra hne
    by_cases hmin : a = BitVec.intMin 16
    · subst hmin
      exact absurd hzero (by decide)
    -- A word and its negation differ in the sign, which is the bit that has no carry.
    · have hsign : (-a).msb = !a.msb := BitVec.msb_neg_of_ne_intMin_of_ne_zero hmin hne
      have hbit := congrArg BitVec.msb hzero
      rw [reverseCarryAdd_eq, BitVec.msb_reverse, BitVec.getLsbD_add (by decide), BitVec.carry_zero,
        BitVec.getLsbD_reverse, BitVec.getLsbD_reverse, Bool.xor_false, ← BitVec.msb, ← BitVec.msb,
        hsign, Bool.xor_not_self] at hbit
      exact absurd hbit (by decide)
  · rintro rfl
    decide

/-- Code 111 adds AR0 with reverse carry. -/
theorem modifiedAr_add {word : Half} (hcode : word.extractLsb' 4 3 = 7) (ar ar0 : Half) :
    modifiedAr word ar ar0 = reverseCarryAdd ar ar0 := by
  rw [modifiedAr, hcode]
  rfl

/-- Code 100 adds the negative of AR0 with reverse carry. -/
theorem modifiedAr_subtract {word : Half} (hcode : word.extractLsb' 4 3 = 4) (ar ar0 : Half) :
    modifiedAr word ar ar0 = reverseCarryAdd ar (-ar0) := by
  rw [modifiedAr, hcode]
  rfl

namespace Registers

/-- Of the words of two modifications, one says `*BR0+` and the other `*BR0-`. -/
def OppositeCarries (first second : Half) : Prop :=
  first.extractLsb' 4 3 = 7 ∧ second.extractLsb' 4 3 = 4 ∨
    first.extractLsb' 4 3 = 4 ∧ second.extractLsb' 4 3 = 7

/-- Whether two operands carry opposite ways is decided by their codes. -/
instance (first second : Half) : Decidable (OppositeCarries first second) :=
  inferInstanceAs (Decidable (_ ∨ _))

/-- The two modifications of one auxiliary register other than AR0, in either order, together add to it
AR0 and the negated AR0 with reverse carry. This leaves the register as it was only where AR0 is 0. -/
theorem opposite_carries_undo_iff {regs : Registers} {first second : Half} {moves moves' : Bool}
    (harp : regs.status.arp ≠ 0) (hcodes : OppositeCarries first second)
    (hstays : (moves && first.getLsbD 3) = false) :
    let after := (regs.modifyAr first moves).modifyAr second moves'
    after.getAr regs.status.arp =
        reverseCarryAdd regs.currentAr (reverseCarryAdd (regs.getAr 0) (-regs.getAr 0)) ∧
      (∀ pointer ≠ regs.status.arp, after.getAr pointer = regs.getAr pointer) ∧
      (after.getAr regs.status.arp = regs.currentAr ↔ regs.getAr 0 = 0) := by
  have hstatus : (regs.modifyAr first moves).status = regs.status := modifyAr_status hstays
  have hsecond := (regs.modifyAr first moves).getAr_modifyAr second moves'
  have hfirst := regs.getAr_modifyAr first moves
  rw [currentAr, hstatus] at hsecond
  have hmodified : ((regs.modifyAr first moves).modifyAr second moves').getAr regs.status.arp =
      reverseCarryAdd regs.currentAr (reverseCarryAdd (regs.getAr 0) (-regs.getAr 0)) := by
    rw [hsecond, if_pos rfl, hfirst, hfirst, if_pos rfl, if_neg (Ne.symm harp)]
    rcases hcodes with ⟨hup, hdown⟩ | ⟨hdown, hup⟩
    · rw [modifiedAr_add hup, modifiedAr_subtract hdown, reverseCarryAdd_assoc]
    · rw [modifiedAr_add hup, modifiedAr_subtract hdown, reverseCarryAdd_assoc,
        reverseCarryAdd_comm (-regs.getAr 0)]
  refine ⟨hmodified, fun pointer hpointer => ?_, ?_⟩
  · rw [hsecond, if_neg hpointer, hfirst, if_neg hpointer]
  · rw [hmodified, reverseCarryAdd_eq_self_iff, reverseCarryAdd_neg_eq_zero_iff]

/-- New registers about to modify AR1, which is 0. -/
def indexed (ar0 : Half) : Registers :=
  let regs := Registers.new Model.tms32025.st1Fixed
  { regs.setAr 0 ar0 with status := regs.status.setArp 1 }

/-- With AR0 = 0 a MAR written `*BR0-` takes back one written `*BR0+`. -/
theorem opposite_carries_undo_zero :
    (((indexed 0).modifyAr 0x55F0 true).modifyAr 0x55C0 true).getAr 1 = 0 := by
  have hundone := @opposite_carries_undo_iff (indexed 0) 0x55F0 0x55C0 true true (by decide)
    (by decide) (by decide)
  exact hundone.2.2.mpr (by decide)

/-- With AR0 = 4 it does not. -/
theorem opposite_carries_drift :
    ¬ ∀ (regs : Registers) first second moves moves', regs.status.arp ≠ 0 →
      OppositeCarries first second →
      (moves && first.getLsbD 3) = false →
      ((regs.modifyAr first moves).modifyAr second moves').getAr regs.status.arp =
        regs.currentAr := by
  intro hundone
  have hback := hundone (indexed 4) 0x55F0 0x55C0 true true (by decide) (by decide) (by decide)
  exact absurd hback (by decide +kernel)

end Registers

end ProcessorCores.Tms

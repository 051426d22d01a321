/-!
# Machine words

Bytes, halfwords, words and counts are bit vectors, so every sum and difference wraps at its width.
Besides the two ways of joining and splitting them, this module holds the only two operations the
cores perform on flag bits: asking whether a mask meets a word, and assigning a mask.
-/

namespace ProcessorCores

/-- Eight bits. -/
abbrev Byte := BitVec 8

/-- Sixteen bits. -/
abbrev Half := BitVec 16

/-- Thirty-two bits. -/
abbrev Word := BitVec 32

/-- Sixty-four bits, the width of a count of cycles. -/
abbrev Long := BitVec 64

/-- Bits stand for their number where a number is expected. -/
instance coeNumber {w : Nat} : CoeOut (BitVec w) Nat := ⟨BitVec.toNat⟩

/-- The halfword whose more significant byte is `high`. -/
def joinBytes (high low : Byte) : Half := high ++ low

/-- The word whose more significant halfword is `high`. -/
def joinHalves (high low : Half) : Word := high ++ low

/-- The more significant byte of a halfword. -/
def highByte (value : Half) : Byte := value.extractLsb' 8 8

/-- The less significant byte of a halfword. -/
def lowByte (value : Half) : Byte := value.extractLsb' 0 8

/-- The more significant halfword of a word. -/
def highHalf (value : Word) : Half := value.extractLsb' 16 16

/-- The less significant halfword of a word. -/
def lowHalf (value : Word) : Half := value.extractLsb' 0 16

/-- True when `value` has a bit of `mask`. -/
def meets {w : Nat} (value mask : BitVec w) : Bool := value &&& mask != 0

/-- Set every bit of `mask`, or clear every one, leaving the other bits. -/
def assign {w : Nat} (value mask : BitVec w) (on : Bool) : BitVec w :=
  if on then value ||| mask else value &&& ~~~mask

/-- A halfword is the join of its two bytes. -/
@[simp] theorem joinBytes_split (value : Half) : joinBytes (highByte value) (lowByte value) = value := by
  apply BitVec.eq_of_getLsbD_eq
  intro i hi
  simp only [joinBytes, highByte, lowByte, BitVec.getLsbD_append, BitVec.getLsbD_extractLsb']
  by_cases h : i < 8
  · simp [h]
  · have : i - 8 < 8 := by omega
    have hadd : 8 + (i - 8) = i := by omega
    simp [h, this, hadd]

/-- A word is the join of its two halves. -/
@[simp] theorem joinHalves_split (value : Word) : joinHalves (highHalf value) (lowHalf value) = value := by
  apply BitVec.eq_of_getLsbD_eq
  intro i hi
  simp only [joinHalves, highHalf, lowHalf, BitVec.getLsbD_append, BitVec.getLsbD_extractLsb']
  by_cases h : i < 16
  · simp [h]
  · have : i - 16 < 16 := by omega
    have hadd : 16 + (i - 16) = i := by omega
    simp [h, this, hadd]

/-- The high byte of a join. -/
@[simp] theorem highByte_joinBytes (high low : Byte) : highByte (joinBytes high low) = high := by
  apply BitVec.eq_of_getLsbD_eq
  intro i hi
  rw [joinBytes, highByte, BitVec.getLsbD_extractLsb', BitVec.getLsbD_append]
  simp [hi]

/-- The low byte of a join. -/
@[simp] theorem lowByte_joinBytes (high low : Byte) : lowByte (joinBytes high low) = low := by
  apply BitVec.eq_of_getLsbD_eq
  intro i hi
  rw [joinBytes, lowByte, BitVec.getLsbD_extractLsb', BitVec.getLsbD_append]
  simp [hi]

/-- The high half of a join. -/
@[simp] theorem highHalf_joinHalves (high low : Half) : highHalf (joinHalves high low) = high := by
  apply BitVec.eq_of_getLsbD_eq
  intro i hi
  rw [joinHalves, highHalf, BitVec.getLsbD_extractLsb', BitVec.getLsbD_append]
  simp [hi]

/-- The low half of a join. -/
@[simp] theorem lowHalf_joinHalves (high low : Half) : lowHalf (joinHalves high low) = low := by
  apply BitVec.eq_of_getLsbD_eq
  intro i hi
  rw [joinHalves, lowHalf, BitVec.getLsbD_extractLsb', BitVec.getLsbD_append]
  simp [hi]

/-! ### Numbers -/

/-- The value of two words written side by side. -/
theorem append_toNat {v w : Nat} (high : BitVec v) (low : BitVec w) :
    (high ++ low).toNat = (high.toNat <<< w) + low.toNat := by
  rw [BitVec.toNat_append, Nat.shiftLeft_add_eq_or_of_lt low.isLt]

/-- The value of a join of bytes. -/
theorem joinBytes_toNat (high low : Byte) :
    (joinBytes high low).toNat = high.toNat * 0x100 + low.toNat := by
  rw [joinBytes, append_toNat, Nat.shiftLeft_eq]

/-- The value of a join of halves. -/
theorem joinHalves_toNat (high low : Half) :
    (joinHalves high low).toNat = high.toNat * 0x10000 + low.toNat := by
  rw [joinHalves, append_toNat, Nat.shiftLeft_eq]

/-- The value of the high half. -/
theorem highHalf_toNat (value : Word) : (highHalf value).toNat = value.toNat / 0x10000 := by
  have hjoined := joinHalves_toNat (highHalf value) (lowHalf value)
  rw [joinHalves_split] at hjoined
  omega

/-- The value of the low half. -/
theorem lowHalf_toNat (value : Word) : (lowHalf value).toNat = value.toNat % 0x10000 := by
  have hjoined := joinHalves_toNat (highHalf value) (lowHalf value)
  rw [joinHalves_split] at hjoined
  omega

/-! ### Counts -/

/-- A count grows by a sum as it grows by its parts, wherever it wraps. -/
theorem count_add_add (count : Long) (first second : Nat) :
    count + BitVec.ofNat 64 first + BitVec.ofNat 64 second = count + BitVec.ofNat 64 (first + second) := by
  rw [BitVec.ofNat_add, BitVec.add_assoc]

/-- By how much a count has grown, as long as that is within its width. -/
theorem count_growth (count : Long) {clocks : Nat} (hclocks : clocks < 0x10000000000000000) :
    (count + BitVec.ofNat 64 clocks - count).toNat = clocks := by
  rw [BitVec.add_comm, BitVec.add_sub_cancel, BitVec.toNat_ofNat, Nat.mod_eq_of_lt hclocks]

/-! ### Flag bits -/

/-- Bit by bit, an assignment replaces the bits of the mask and keeps the others. -/
theorem getLsbD_assign {w : Nat} (value mask : BitVec w) (on : Bool) (i : Nat) :
    (assign value mask on).getLsbD i = if mask.getLsbD i then on else value.getLsbD i := by
  by_cases hi : i < w
  · rw [BitVec.getLsbD_eq_getElem hi, BitVec.getLsbD_eq_getElem hi, BitVec.getLsbD_eq_getElem hi]
    cases on <;> cases h : mask[i] <;> simp [assign, h]
  · simp [BitVec.getLsbD_of_ge _ i (by omega : w ≤ i)]

/-- A mask of one bit meets a value exactly when the value has that bit. -/
theorem meets_twoPow {w n : Nat} (value : BitVec w) (h : n < w) :
    meets value (BitVec.twoPow w n) = value.getLsbD n := by
  rw [meets, BitVec.and_twoPow]
  cases hbit : value.getLsbD n
  · simp
  · have : BitVec.twoPow w n ≠ 0#w := fun hzero => by
      have := congrArg (fun v => v.getLsbD n) hzero
      simp [h] at this
    simp [this]

end ProcessorCores

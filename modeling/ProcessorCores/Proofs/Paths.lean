import Mathlib.Data.List.Basic
import Mathlib.Data.List.Induction
import ProcessorCores.Value

/-!
# State paths and their values

A patch narrows its value before anything is written, so that one that is refused leaves everything as
it was. What a value is narrowed to is known from the number that it holds, and a value is never refused
for the path that it is meant for.

An index inside a path may carry a plus sign and leading zeros, and has no other freedom: the digits
that are left are those of the number. So the texts that are read as a given index are known, and a
text is read as one index at most.
-/

namespace ProcessorCores

/-! ## Attempts -/

namespace Attempt

variable {σ α : Type} {state after left : σ} {narrowed : Except StateError α} {next : α → Attempt σ}
  {error : StateError}

/-- A change that waited for a narrowed value is made of one that fits. -/
theorem done_of_narrow (h : narrow state narrowed next = .done after) :
    ∃ content, narrowed = .ok content ∧ next content = .done after := by
  cases narrowed with
  | error error => contradiction
  | ok content => exact ⟨content, rfl, h⟩

/-- It is refused with the value, which leaves the state, or after it. -/
theorem refused_of_narrow (h : narrow state narrowed next = .refused error left) :
    (narrowed = .error error ∧ left = state) ∨
      ∃ content, narrowed = .ok content ∧ next content = .refused error left := by
  cases narrowed with
  | error error =>
    obtain ⟨rfl, rfl⟩ := refused.inj h
    exact .inl ⟨rfl, rfl⟩
  | ok content => exact .inr ⟨content, rfl, h⟩

/-- An attempt that leaves a state as it was when it is refused. -/
def Atomic (before : σ) (attempt : Attempt σ) : Prop :=
  ∀ error left, attempt = .refused error left → left = before

/-- A change that is made is not refused. -/
theorem atomic_done (before after : σ) : Atomic before (.done after) :=
  fun _ _ h => Attempt.noConfusion rfl (heq_of_eq h)

/-- A refusal may leave the state that there was. -/
theorem atomic_refused (before : σ) (error : StateError) : Atomic before (.refused error before) :=
  fun _ _ h => (refused.inj h).2.symm

/-- So may one of a value, and then it matters what comes after. -/
theorem atomic_narrow {before : σ} (h : ∀ content, Atomic before (next content)) :
    Atomic before (narrow before narrowed next) := by
  intro error left hrefused
  rcases refused_of_narrow hrefused with ⟨-, hleft⟩ | ⟨content, -, hafter⟩
  · exact hleft
  · exact h content error left hafter

end Attempt

/-! ## Values -/

namespace Value

variable {value : Value} {path : String}

/-- A register that refuses a value says how wide it is. -/
theorem eq_of_toRegister_error {bits : Nat} {refusal : StateError}
    (h : value.toRegister bits path = .error refusal) : refusal = .mismatch path (.unsigned bits) := by
  unfold toRegister at h
  split at h
  · dsimp only at h
    split at h
    · contradiction
    · exact (Except.error.inj h).symm
  · exact (Except.error.inj h).symm

/-- A register that takes a value takes the number that it holds. -/
theorem done_of_toRegister {σ : Type} {state after : σ} {bits : Nat} {next : BitVec bits → σ}
    (h : .narrow state (value.toRegister bits path) (fun register => .done (next register)) =
      Attempt.done after) :
    ∃ register, value.number? = some register.toNat ∧ next register = after := by
  obtain ⟨register, hregister, hafter⟩ := Attempt.done_of_narrow h
  exact ⟨register, toRegister_eq_ok_iff.mp hregister, Attempt.done.inj hafter⟩

/-- A flag takes the truth value of any number. -/
theorem toFlag_eq_ok_iff {on : Bool} :
    value.toFlag path = .ok on ↔ ∃ number, value.number? = some number ∧ (number != 0) = on := by
  unfold toFlag truth?
  cases value.number? with
  | none => simp
  | some number => simp

/-- A flag that refuses a value says that it is one. -/
theorem eq_of_toFlag_error {refusal : StateError} (h : value.toFlag path = .error refusal) :
    refusal = .mismatch path .boolean := by
  unfold toFlag at h
  split at h
  · contradiction
  · exact (Except.error.inj h).symm

end Value

/-! ## Digits -/

namespace Text

/-- A spelling of a number as an index. -/
def spelling (plus : Bool) (zeros number : Nat) : List Char :=
  (if plus then ['+'] else []) ++ (List.replicate zeros '0' ++ Nat.toDigits 10 number)

/-- One more digit: ten times the number before it, and the digit. -/
theorem decimalValue_append (front : List Char) (digit : Char) :
    decimalValue (front ++ [digit]) = 10 * decimalValue front + (digit.toNat - '0'.toNat) := by
  rw [decimalValue, List.foldl_append]
  rfl

/-- The digits of a number, after any zeros, are read as the number. -/
theorem decimalValue_zeros (zeros number : Nat) :
    decimalValue (List.replicate zeros '0' ++ Nat.toDigits 10 number) = number := by
  have hzeros : decimalValue (List.replicate zeros '0') = 0 := by
    induction zeros with
    | zero => rfl
    | succ zeros ih =>
      rw [List.replicate_succ', decimalValue_append, ih]
      rfl
  have hdigits : Nat.ofDigitChars 10 (Nat.toDigits 10 number) 0 = number :=
    Nat.ofDigitChars_toDigits (by decide) (by decide)
  rw [decimalValue, List.foldl_append]
  rw [decimalValue] at hzeros
  rw [hzeros]
  exact hdigits

/-- Zeros and the digits of a number are digits. -/
theorem isDigit_of_mem_zeros {zeros number : Nat} {letter : Char}
    (h : letter ∈ List.replicate zeros '0' ++ Nat.toDigits 10 number) : letter.isDigit = true := by
  rcases List.mem_append.mp h with hzero | hdigit
  · rw [List.eq_of_mem_replicate hzero]
    decide
  · exact Nat.isDigit_of_mem_toDigits (by decide) (by decide) hdigit

/-- A digit is the digit of its value. -/
theorem toDigits_of_isDigit {digit : Char} (h : digit.isDigit = true) :
    digit.toNat - '0'.toNat < 10 ∧ Nat.toDigits 10 (digit.toNat - '0'.toNat) = [digit] := by
  have hrange : 48 ≤ digit.toNat ∧ digit.toNat ≤ 57 := by
    simpa [Char.isDigit, UInt32.le_iff_toNat_le] using h
  have hvalue : digit.toNat - '0'.toNat < 10 := by
    change digit.toNat - 48 < 10
    omega
  refine ⟨hvalue, ?_⟩
  rw [Nat.toDigits_of_lt_base hvalue]
  congr 1
  apply Char.toNat_inj.mp
  rw [Nat.toNat_digitChar_of_lt_ten hvalue]
  change 48 + (digit.toNat - 48) = digit.toNat
  omega

/-- Any digits are those of their value, after so many zeros. The last digit is taken off, because a
digit that is added at the end makes the number ten times as great. -/
theorem eq_zeros_append_toDigits {digits : List Char} (hsome : digits ≠ [])
    (hdigits : digits.all Char.isDigit = true) :
    ∃ zeros, digits = List.replicate zeros '0' ++ Nat.toDigits 10 (decimalValue digits) := by
  induction digits using List.reverseRecOn with
  | nil => contradiction
  | append_singleton front digit ih =>
    rw [List.all_append, List.all_cons, List.all_nil, Bool.and_true, Bool.and_eq_true] at hdigits
    obtain ⟨hvalue, hdigit⟩ := toDigits_of_isDigit hdigits.2
    rw [decimalValue_append]
    generalize digit.toNat - '0'.toNat = value at hvalue hdigit ⊢
    by_cases hfront : front = []
    · subst hfront
      have hnothing : 10 * decimalValue [] + value = value := Nat.zero_add value
      refine ⟨0, ?_⟩
      rw [hnothing, hdigit]
      rfl
    · obtain ⟨zeros, hzeros⟩ := ih hfront hdigits.1
      rcases Nat.eq_zero_or_pos (decimalValue front) with hnothing | hnumber
      · rw [hnothing] at hzeros ⊢
        refine ⟨zeros + 1, ?_⟩
        rw [Nat.mul_zero, Nat.zero_add, hdigit, List.replicate_succ', hzeros]
        rfl
      · refine ⟨zeros, ?_⟩
        rw [← Nat.toDigits_append_toDigits (by decide) hnumber hvalue, hdigit, ← List.append_assoc,
          ← hzeros]

/-- Digits alone, read as a number. -/
def unsigned? (digits : List Char) : Option Nat :=
  if digits ≠ [] ∧ digits.all Char.isDigit then some (decimalValue digits) else none

/-- The digits of a number are its decimal ones behind any number of zeros. -/
theorem unsigned?_eq_some_iff {digits : List Char} {number : Nat} :
    unsigned? digits = some number ↔
      ∃ zeros, digits = List.replicate zeros '0' ++ Nat.toDigits 10 number := by
  unfold unsigned?
  constructor
  · intro h
    split at h
    · next hdigits =>
      obtain rfl := Option.some.inj h
      exact eq_zeros_append_toDigits hdigits.1 hdigits.2
    · contradiction
  · rintro ⟨zeros, rfl⟩
    have hsome : List.replicate zeros '0' ++ Nat.toDigits 10 number ≠ [] := by
      simp [Nat.toDigits_ne_nil]
    have hdigits : (List.replicate zeros '0' ++ Nat.toDigits 10 number).all Char.isDigit = true :=
      List.all_eq_true.mpr fun _ => isDigit_of_mem_zeros
    rw [if_pos ⟨hsome, hdigits⟩, decimalValue_zeros]

/-! ## Indices -/

/-- A text without the sign that it may begin with. -/
def withoutSign (text : List Char) : List Char :=
  match text with
  | '+' :: rest => rest
  | _ => text

/-- A text without a plus sign is left as it is. -/
theorem withoutSign_of_plain {text : List Char} (h : ∀ rest, text ≠ '+' :: rest) :
    withoutSign text = text := by
  unfold withoutSign
  split
  · exact absurd rfl (h _)
  · rfl

/-- An index is read behind its sign. -/
theorem index?_eq (text : List Char) : index? text = unsigned? (withoutSign text) := rfl

/-- The texts that are read as an index. -/
theorem index?_eq_some_iff {text : List Char} {number : Nat} :
    index? text = some number ↔ ∃ plus zeros, text = spelling plus zeros number := by
  by_cases hsign : ∃ rest, text = '+' :: rest
  · obtain ⟨rest, rfl⟩ := hsign
    rw [index?_eq, withoutSign, unsigned?_eq_some_iff]
    constructor
    · rintro ⟨zeros, rfl⟩
      exact ⟨true, zeros, rfl⟩
    · rintro ⟨plus, zeros, htext⟩
      cases plus with
      | true => exact ⟨zeros, (List.cons.inj htext).2⟩
      | false =>
        have hdigit : '+'.isDigit = true := isDigit_of_mem_zeros (htext ▸ List.mem_cons_self)
        exact absurd hdigit (by decide)
  · rw [not_exists] at hsign
    rw [index?_eq, withoutSign_of_plain hsign, unsigned?_eq_some_iff]
    constructor
    · rintro ⟨zeros, rfl⟩
      exact ⟨false, zeros, rfl⟩
    · rintro ⟨plus, zeros, htext⟩
      cases plus with
      | true => exact absurd htext (hsign _)
      | false => exact ⟨zeros, htext⟩

/-- The texts that are read as an index after a name. -/
theorem indexAfter?_eq_some_iff {name text : List Char} {bound : Nat} {index : Fin bound} :
    indexAfter? name bound text = some index ↔
      ∃ plus zeros, text = name ++ spelling plus zeros index.val := by
  unfold indexAfter?
  simp only [Option.bind_eq_bind, Option.bind_eq_some_iff, List.isPrefixOf?_eq_some_iff_append_eq,
    index?_eq_some_iff]
  constructor
  · rintro ⟨rest, rfl, number, ⟨plus, zeros, rfl⟩, hindex⟩
    split at hindex
    · obtain rfl := Option.some.inj hindex
      exact ⟨plus, zeros, rfl⟩
    · contradiction
  · rintro ⟨plus, zeros, rfl⟩
    exact ⟨_, rfl, index.val, ⟨plus, zeros, rfl⟩, dif_pos index.isLt⟩

end Text

end ProcessorCores

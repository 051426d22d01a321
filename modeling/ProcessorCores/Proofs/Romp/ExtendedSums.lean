import Mathlib.Data.Nat.Digits.Defs
import Mathlib.Tactic.Ring
import ProcessorCores.Proofs.Romp.SumConditions

/-!
# ROMP sums with carry

AE and AEI add the carry to the second operand and judge the sum of the first operand and what that
gives. The word they leave is always that of the exact sum. The flags are those of the sum of two words,
so they do not see what is lost where the carry wraps the second operand: from all ones to zero, which
loses the carry out, and from the largest signed number to the smallest, which turns the overflow over.

A number of many words is added word by word, from the least significant. Each word satisfies an equation
of natural numbers in which a lost carry weighs as much as the word after, and the sum falls short of the
exact one by what is lost.
-/

namespace ProcessorCores.Romp

/-! ## One word -/

/-- A sum of two words and the carry it shows make up the exact sum. -/
theorem Condition.setSum_exact (condition : Condition) (a b : Word) :
    (a + b).toNat + 2 ^ 32 * ((condition.setSum a b).has .carry).toNat = a.toNat + b.toNat := by
  have hcarry := condition.carry_setSum a b
  have ha := a.isLt
  have hb := b.isLt
  rw [BitVec.toNat_add]
  cases hshown : (condition.setSum a b).has .carry with
  | false =>
    rw [hshown] at hcarry
    have hsmall : a.toNat + b.toNat < 2 ^ 32 := not_le.mp fun h => Bool.false_ne_true (hcarry.mpr h)
    rw [Nat.mod_eq_of_lt hsmall, Bool.toNat_false]
    omega
  | true =>
    have hlarge := hcarry.mp hshown
    rw [Bool.toNat_true]
    omega

/-! ### The carry that comes in -/

/-- The second operand wraps where the carry meets all ones. -/
theorem carried_toNat (condition : Condition) (b : Word) : (b + carryIn condition).toNat =
    if condition.has .carry = true ∧ b = 0xFFFFFFFF then 0
    else b.toNat + (condition.has .carry).toNat := by
  have hb := b.isLt
  rw [carryIn, BitVec.toNat_add]
  cases condition.has .carry with
  | false => simpa using hb
  | true =>
    rw [if_pos rfl, Bool.toNat_true]
    split
    · next hones => rw [hones.2]; rfl
    · next hones =>
      have hne : b.toNat ≠ 2 ^ 32 - 1 := fun h => hones ⟨rfl, BitVec.eq_of_toNat_eq h⟩
      exact Nat.mod_eq_of_lt (by change b.toNat + 1 < 2 ^ 32; omega)

/-- As a signed number the second operand wraps where the carry meets the largest one. -/
theorem carried_toInt (condition : Condition) (b : Word) : (b + carryIn condition).toInt =
    if condition.has .carry = true ∧ b = 0x7FFFFFFF then -2 ^ 31
    else b.toInt + (condition.has .carry).toNat := by
  have hb := b.isLt
  have hcarried := carried_toNat condition b
  rw [carryIn] at hcarried ⊢
  cases hcarry : condition.has .carry with
  | false => simp
  | true =>
    rw [hcarry, if_pos rfl, Bool.toNat_true] at hcarried
    rw [if_pos rfl, Bool.toNat_true]
    have hones : b = 0xFFFFFFFF ↔ b.toNat = 2 ^ 32 - 1 := BitVec.toNat_inj.symm
    have hlargest : b = 0x7FFFFFFF ↔ b.toNat = 2 ^ 31 - 1 := BitVec.toNat_inj.symm
    simp only [true_and, hones, hlargest] at hcarried ⊢
    rw [BitVec.toInt_eq_toNat_cond, BitVec.toInt_eq_toNat_cond, hcarried]
    repeat' split
    all_goals omega

variable (condition : Condition) (a b : Word)

/-- A sum with carry: the word, the carry out, and what is lost where the carry meets all ones. -/
theorem setSum_carryIn_exact :
    (a + (b + carryIn condition)).toNat +
        2 ^ 32 * ((condition.setSum a (b + carryIn condition)).has .carry).toNat +
        (if condition.has .carry = true ∧ b = 0xFFFFFFFF then 2 ^ 32 else 0) =
      a.toNat + b.toNat + (condition.has .carry).toNat := by
  rw [condition.setSum_exact, carried_toNat]
  split
  · next hlost =>
    have hones : b.toNat = 2 ^ 32 - 1 := congrArg BitVec.toNat hlost.2
    rw [hlost.1, hones, Bool.toNat_true]
    omega
  · rw [Nat.add_zero, Nat.add_assoc]

/-- The carry out of a sum with carry is that of the exact sum unless the carry in meets all ones. -/
theorem carry_setSum_carryIn :
    ((condition.setSum a (b + carryIn condition)).has .carry = true ↔
        2 ^ 32 ≤ a.toNat + b.toNat + (condition.has .carry).toNat) ↔
      ¬ (condition.has .carry = true ∧ b = 0xFFFFFFFF) := by
  have ha := a.isLt
  rw [condition.carry_setSum, carried_toNat]
  split
  · next hlost =>
    have hones : b.toNat = 2 ^ 32 - 1 := congrArg BitVec.toNat hlost.2
    refine iff_of_false (fun h => ?_) fun h => h hlost
    rw [hlost.1, hones, Bool.toNat_true] at h
    omega
  · next hkept =>
    rw [Nat.add_assoc]
    exact iff_of_true Iff.rfl hkept

/-- The overflow of a sum with carry is that of the exact sum unless the carry in meets the largest
signed number. -/
theorem overflow_setSum_carryIn :
    ((condition.setSum a (b + carryIn condition)).has .overflow = true ↔
        ¬ FitsWord (a.toInt + b.toInt + (condition.has .carry).toNat)) ↔
      ¬ (condition.has .carry = true ∧ b = 0x7FFFFFFF) := by
  have ha := fitsWord_toInt a
  rw [condition.overflow_setSum, carried_toInt]
  split
  · next hturned =>
    have hlargest : b.toInt = 2 ^ 31 - 1 := congrArg BitVec.toInt hturned.2
    refine iff_of_false (fun h => ?_) fun h => h hturned
    rw [hturned.1, hlargest, Bool.toNat_true] at h
    unfold FitsWord at *
    omega
  · next hkept =>
    rw [Int.add_assoc]
    exact iff_of_true Iff.rfl hkept

/-! ## One step -/

/-- The two words that a sum adds besides the carry. -/
def ComputeOp.addends? (op : ComputeOp) (instruction : Instruction) (regs : Registers) :
    Option (Word × Word) :=
  match op with
  | .a | .ae => some (regs.gpr.get instruction.r2, regs.gpr.get instruction.r3)
  | .aei => some (regs.gpr.get instruction.r3, instruction.immediate)
  | _ => none

namespace Machine

/-- The carry as the condition status shows it. -/
def carry (machine : Machine) : Bool := machine.core.regs.condition.has .carry

/-- What the step leaves in the register that its instruction names second. -/
def result (machine : Machine) : Word := machine.step.1.core.regs.gpr.get machine.current.r2

/-- The step executes one of the operations, which adds the words `a` and `b`. -/
def Adds (machine : Machine) (ops : List ComputeOp) (a b : Word) : Prop :=
  ∃ op ∈ ops, machine.operation? = some (.compute op) ∧
    op.addends? machine.current machine.core.regs = some (a, b)

/-- What a sum with carry of two words makes of a machine. The word is always right. The carry out is
that of the exact sum unless the carry in meets all ones, and the overflow unless it meets the largest
signed number. -/
structure ExtendedSum (before after : Machine) (a b : Word) : Prop where
  gpr : after.core.regs.gpr = before.core.regs.gpr.set before.current.r2
    (BitVec.ofNat 32 (a.toNat + b.toNat + before.carry.toNat))
  carry : (after.carry = true ↔ 2 ^ 32 ≤ a.toNat + b.toNat + before.carry.toNat) ↔
    ¬ (before.carry = true ∧ b = 0xFFFFFFFF)
  overflow : (after.core.regs.condition.has .overflow = true ↔
      ¬ FitsWord (a.toInt + b.toInt + before.carry.toNat)) ↔
    ¬ (before.carry = true ∧ b = 0x7FFFFFFF)

variable {machine : Machine} {a b : Word}

/-- A sum without carry leaves the sum of its words and shows its flags. -/
theorem Adds.step_a (h : machine.Adds [.a] a b) :
    machine.step.1.core.regs.gpr = machine.core.regs.gpr.set machine.current.r2 (a + b) ∧
      machine.step.1.core.regs.condition = machine.core.regs.condition.setSum a b := by
  obtain ⟨op, hmem, hop, haddends⟩ := h
  obtain rfl := List.mem_singleton.mp hmem
  obtain ⟨rfl, rfl⟩ := Prod.mk.inj (Option.some.inj haddends)
  obtain ⟨hgpr, hcs⟩ := step_of_compute hop
  exact ⟨hgpr, congrArg Condition.mk (hcs.trans (Outcome.apply_cs _ _))⟩

/-- A sum with carry adds the carry to its second word, leaves the sum and shows its flags. -/
theorem Adds.step_extended (h : machine.Adds [.ae, .aei] a b) :
    machine.step.1.core.regs.gpr = machine.core.regs.gpr.set machine.current.r2
        (a + (b + carryIn machine.core.regs.condition)) ∧
      machine.step.1.core.regs.condition =
        machine.core.regs.condition.setSum a (b + carryIn machine.core.regs.condition) := by
  obtain ⟨op, hmem, hop, haddends⟩ := h
  obtain ⟨hgpr, hcs⟩ := step_of_compute hop
  rw [List.mem_cons, List.mem_singleton] at hmem
  obtain rfl | rfl := hmem
  all_goals
    obtain ⟨rfl, rfl⟩ := Prod.mk.inj (Option.some.inj haddends)
    exact ⟨hgpr, congrArg Condition.mk (hcs.trans (Outcome.apply_cs _ _))⟩

/-- What an extended addition of two words makes of the machine. -/
theorem Adds.extendedSum (h : machine.Adds [.ae, .aei] a b) : machine.ExtendedSum machine.step.1 a b := by
  obtain ⟨hgpr, hcondition⟩ := h.step_extended
  constructor
  case gpr =>
    rw [hgpr]
    congr 1
    apply BitVec.eq_of_toNat_eq
    have hexact := setSum_carryIn_exact machine.core.regs.condition a b
    rw [BitVec.toNat_ofNat, carry, ← hexact]
    have hword := (a + (b + carryIn machine.core.regs.condition)).isLt
    split <;> omega
  case carry =>
    rw [carry, hcondition]
    exact carry_setSum_carryIn machine.core.regs.condition a b
  case overflow =>
    rw [hcondition]
    exact overflow_setSum_carryIn machine.core.regs.condition a b

/-- The word that a sum without carry leaves and its carry out make up the exact sum. -/
theorem Adds.exact_a (h : machine.Adds [.a] a b) :
    machine.result.toNat + 2 ^ 32 * machine.step.1.carry.toNat = a.toNat + b.toNat := by
  obtain ⟨hgpr, hcondition⟩ := h.step_a
  rw [result, hgpr, Bank.get_set_self, carry, hcondition]
  exact Condition.setSum_exact _ a b

/-- The word that a sum with carry leaves, its carry out and what it loses make up the exact sum. -/
theorem Adds.exact_extended (h : machine.Adds [.ae, .aei] a b) :
    machine.result.toNat + 2 ^ 32 * machine.step.1.carry.toNat +
        (if machine.carry = true ∧ b = 0xFFFFFFFF then 2 ^ 32 else 0) =
      a.toNat + b.toNat + machine.carry.toNat := by
  obtain ⟨hgpr, hcondition⟩ := h.step_extended
  rw [result, hgpr, Bank.get_set_self, carry, hcondition]
  exact setSum_carryIn_exact machine.core.regs.condition a b

/-- No carry comes out where the carry that comes in is lost. -/
theorem Adds.carry_out (h : machine.Adds [.ae, .aei] a b) : machine.step.1.carry =
    if machine.carry = true ∧ b = 0xFFFFFFFF then false
    else decide (2 ^ 32 ≤ a.toNat + b.toNat + machine.carry.toNat) := by
  have hexact := h.exact_extended
  split at hexact
  · next hlost =>
    have hones : b.toNat = 2 ^ 32 - 1 := congrArg BitVec.toNat hlost.2
    have ha := a.isLt
    rw [if_pos hlost]
    cases hout : machine.step.1.carry with
    | false => rfl
    | true =>
      rw [hlost.1, hones, hout, Bool.toNat_true] at hexact
      omega
  · next hlost =>
    rw [if_neg hlost, Bool.eq_iff_iff, decide_eq_true_iff]
    exact h.extendedSum.carry.mpr hlost

end Machine

/-! ## Numbers of many words -/

/-- The number that words stand for, the least significant first. -/
def numberOf (words : List Word) : Nat := Nat.ofDigits (2 ^ 32) (words.map BitVec.toNat)

/-- The number that words and a carry out of the last stand for. -/
def carriedNumber (words : List Word) (carry : Bool) : Nat :=
  numberOf words + (2 ^ 32) ^ words.length * carry.toNat

/-- The sum of two numbers that are given by the pairs of their words. -/
def exactSum (pairs : List (Word × Word)) : Nat :=
  numberOf (pairs.map Prod.fst) + numberOf (pairs.map Prod.snd)

/-- The number that a row of words spells, lowest word first. -/
theorem numberOf_cons (word : Word) (words : List Word) :
    numberOf (word :: words) = word.toNat + 2 ^ 32 * numberOf words := by
  simp [numberOf, Nat.ofDigits_cons]

/-- The number that a row of words and a last carry spell, lowest word first. -/
theorem carriedNumber_cons (word : Word) (words : List Word) (carry : Bool) :
    carriedNumber (word :: words) carry = word.toNat + 2 ^ 32 * carriedNumber words carry := by
  rw [carriedNumber, carriedNumber, numberOf_cons, List.length_cons]
  ring

/-- The exact sum of a row of pairs, lowest pair first. -/
theorem exactSum_cons (a b : Word) (pairs : List (Word × Word)) :
    exactSum ((a, b) :: pairs) = a.toNat + b.toNat + 2 ^ 32 * exactSum pairs := by
  rw [exactSum, exactSum, List.map_cons, List.map_cons, numberOf_cons, numberOf_cons]
  ring

/-- What sums with carry of these words lose, the least significant first: the weight of each carry that
meets all ones. -/
def lostCarries (carry : Bool) : List (Word × Word) → Nat
  | [] => 0
  | (a, b) :: pairs =>
    if carry = true ∧ b = 0xFFFFFFFF then 2 ^ 32 + 2 ^ 32 * lostCarries false pairs
    else 2 ^ 32 * lostCarries (decide (2 ^ 32 ≤ a.toNat + b.toNat + carry.toNat)) pairs

/-- No carry is lost where no second operand is all ones. -/
theorem lostCarries_eq_zero {pairs : List (Word × Word)} (h : ∀ pair ∈ pairs, pair.2 ≠ 0xFFFFFFFF)
    (carry : Bool) : lostCarries carry pairs = 0 := by
  induction pairs generalizing carry with
  | nil => rfl
  | cons pair pairs ih =>
    rw [List.forall_mem_cons] at h
    rw [lostCarries, if_neg fun hlost => h.1 hlost.2, ih h.2, Nat.mul_zero]

namespace Machine

/-- Sums with carry, one for each of these pairs of words, leave the words of the list. What is done
between them is of no concern as long as it leaves the carry. -/
inductive Extends (final : Machine) : Machine → List (Word × Word) → List Word → Prop
  | done {before : Machine} (kept : final.carry = before.carry) : Extends final before [] []
  | next {before next : Machine} {a b : Word} {pairs : List (Word × Word)} {results : List Word}
      (kept : next.carry = before.carry) (adds : next.Adds [.ae, .aei] a b)
      (rest : Extends final next.step.1 pairs results) :
      Extends final before ((a, b) :: pairs) (next.result :: results)

/-- The words of a chain of sums with carry, its carry out and what it loses make up the exact sum. -/
theorem Extends.exact {before final : Machine} {pairs : List (Word × Word)} {results : List Word}
    (h : final.Extends before pairs results) :
    carriedNumber results final.carry + lostCarries before.carry pairs =
      exactSum pairs + before.carry.toNat := by
  induction h with
  | done kept => simp [kept, lostCarries, carriedNumber, exactSum, numberOf]
  | @next before next a b pairs results kept adds rest ih =>
    have hword := adds.exact_extended
    have hout := adds.carry_out
    rw [kept] at hword hout
    rw [carriedNumber_cons, exactSum_cons, lostCarries]
    split at hword
    · next hlost =>
      rw [if_pos hlost] at hout ⊢
      rw [← hout]
      omega
    · next hlost =>
      rw [if_neg hlost] at hout ⊢
      rw [← hout]
      omega

/-- There is one result for each pair. -/
theorem Extends.length {before final : Machine} {pairs : List (Word × Word)} {results : List Word}
    (h : final.Extends before pairs results) : results.length = pairs.length := by
  induction h with
  | done => rfl
  | next _ _ _ ih => exact congrArg (· + 1) ih

/-- What a sum of two numbers of many words leaves: `words` and the carry of the machine after it, the
numbers being given by the pairs of their words. They fall short of the exact sum by the carries lost,
so they are exact just when none is, and whenever no word after the first of the second number is all
ones. -/
structure NumberSum (final : Machine) (first : Word × Word) (pairs : List (Word × Word))
    (words : List Word) : Prop where
  length : words.length = (first :: pairs).length
  short : carriedNumber words final.carry +
      2 ^ 32 * lostCarries (decide (2 ^ 32 ≤ first.1.toNat + first.2.toNat)) pairs =
    exactSum (first :: pairs)
  exact_iff : carriedNumber words final.carry = exactSum (first :: pairs) ↔
    lostCarries (decide (2 ^ 32 ≤ first.1.toNat + first.2.toNat)) pairs = 0
  exact : (∀ pair ∈ pairs, pair.2 ≠ 0xFFFFFFFF) →
    carriedNumber words final.carry = exactSum (first :: pairs)

/-- The first words are added without carry and the others with it. -/
theorem Adds.numberSum {start final : Machine} {a b : Word} {pairs : List (Word × Word)}
    {results : List Word} (hfirst : start.Adds [.a] a b) (hrest : final.Extends start.step.1 pairs results) :
    final.NumberSum (a, b) pairs (start.result :: results) := by
  have hout : start.step.1.carry = decide (2 ^ 32 ≤ a.toNat + b.toNat) := by
    rw [Bool.eq_iff_iff, decide_eq_true_iff, carry, hfirst.step_a.2]
    exact Condition.carry_setSum _ a b
  have hshort : carriedNumber (start.result :: results) final.carry +
      2 ^ 32 * lostCarries (decide (2 ^ 32 ≤ a.toNat + b.toNat)) pairs = exactSum ((a, b) :: pairs) := by
    have hword := hfirst.exact_a
    have hwords := hrest.exact
    rw [carriedNumber_cons, exactSum_cons, ← hout]
    omega
  have hiff : carriedNumber (start.result :: results) final.carry = exactSum ((a, b) :: pairs) ↔
      lostCarries (decide (2 ^ 32 ≤ a.toNat + b.toNat)) pairs = 0 := by
    rw [← hshort]
    omega
  exact {
    length := congrArg (· + 1) hrest.length
    short := hshort
    exact_iff := hiff
    exact := fun hpairs => hiff.mpr (lostCarries_eq_zero hpairs _) }

/-- Every sum with carry leaves the exact word, and its carry and overflow are exact but for one second
operand each. From a sum without carry on, sums with carry add numbers of any length, short of what is
lost at words that are all ones. -/
theorem extended_sums (machine : Machine) :
    (∀ {a b : Word}, machine.Adds [.ae, .aei] a b → machine.ExtendedSum machine.step.1 a b) ∧
    ∀ {final : Machine} {a b : Word} {pairs : List (Word × Word)} {results : List Word},
      machine.Adds [.a] a b → final.Extends machine.step.1 pairs results →
        final.NumberSum (a, b) pairs (machine.result :: results) :=
  ⟨fun h => h.extendedSum, fun hfirst hrest => hfirst.numberSum hrest⟩

/-- A machine about to execute A R1,R2 and AE R3,R4. -/
def addingTwoWords (r1 r2 r3 r4 : Word) : Machine :=
  ((((started [0xE1, 0x12, 0xF1, 0x34]).setGpr 1 r1).setGpr 2 r2).setGpr 3 r3).setGpr 4 r4

/-- The carry out of A R1,R2 reaches the high words, which AE R3,R4 adds. -/
theorem extended_sums_two_words :
    let start := addingTwoWords 0xFFFFFFFF 1 2 3
    start.Adds [.a] 0xFFFFFFFF 1 ∧ start.step.1.Adds [.ae, .aei] 2 3 ∧
      start.step.1.ExtendedSum start.step.1.step.1 2 3 ∧
      start.step.1.step.1.NumberSum (0xFFFFFFFF, 1) [(2, 3)] [0, 6] := by
  intro start
  have hfirst : start.Adds [.a] 0xFFFFFFFF 1 :=
    ⟨.a, by decide, by decide +kernel, by decide +kernel⟩
  have hsecond : start.step.1.Adds [.ae, .aei] 2 3 :=
    ⟨.ae, by decide, by decide +kernel, by decide +kernel⟩
  have hresults : [start.result, start.step.1.result] = [0, 6] := by decide +kernel
  refine ⟨hfirst, hsecond, (extended_sums start.step.1).1 hsecond, ?_⟩
  rw [← hresults]
  exact (extended_sums start).2 hfirst (.next rfl hsecond (.done rfl))

/-- Zero, all ones and a carry: the word is right, and the carry out is lost. -/
theorem carry_lost_at_all_ones :
    let machine := (addingTwoWords 0xFFFFFFFF 1 0 0xFFFFFFFF).step.1
    machine.Adds [.ae, .aei] 0 0xFFFFFFFF ∧ machine.carry = true ∧ machine.result = 0 ∧
      ¬ (machine.step.1.carry = true ↔
        2 ^ 32 ≤ (0 : Word).toNat + (0xFFFFFFFF : Word).toNat + machine.carry.toNat) := by
  intro machine
  have hadds : machine.Adds [.ae, .aei] 0 0xFFFFFFFF :=
    ⟨.ae, by decide, by decide +kernel, by decide +kernel⟩
  exact ⟨hadds, by decide +kernel, by decide +kernel, by decide +kernel⟩

end Machine

end ProcessorCores.Romp

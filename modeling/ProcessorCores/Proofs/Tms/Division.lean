import Mathlib.Tactic.Ring
import ProcessorCores.Proofs.Tms.Flags
import ProcessorCores.Proofs.Tms.RepeatBlocks

/-!
# Division by repeated SUBC

SUBC subtracts its operand, shifted left by fifteen, from the accumulator if it goes into it, and shifts
the accumulator left by one with the digit that this gives. Repeated sixteen times it is a long division
in base two. One register holds all of it: the digits of the quotient come in from the right as what is
left of the dividend moves out to the left.

`PartDivided` says what the register holds in between. It holds before every pass, and in it lies that
nothing is ever lost on the left: the accumulator stays below twice the shifted divisor, which is a word
whatever the divisor is. That each pass finds the same divisor is a matter of the operand, whose address
no pass changes unless the addressing modifies what it goes by.
-/

namespace ProcessorCores.Tms

/-! ## The shared register -/

/-- A number that is divided, after so many binary digits of the quotient have been taken and with so
many left: the digits taken stand at the bottom and above them is what is left of the dividend. -/
structure PartDivided (dividend divisor taken left shared quotient rest : Nat) : Prop where
  shared : shared = rest * 2 ^ taken + quotient
  digits : quotient < 2 ^ taken
  divided : dividend = quotient * (divisor * 2 ^ left) + rest
  rest : rest < divisor * 2 ^ left

namespace PartDivided

variable {dividend divisor taken left shared quotient rest : Nat}

/-- At first all of the dividend is left. -/
theorem start (h : dividend < divisor * 2 ^ left) :
    PartDivided dividend divisor 0 left dividend 0 dividend where
  shared := by omega
  digits := Nat.one_pos
  divided := by omega
  rest := h

/-- At last what is left is the remainder. -/
theorem shared_eq (h : PartDivided dividend divisor taken 0 shared quotient rest) :
    shared = dividend % divisor * 2 ^ taken + dividend / divisor := by
  have hrest : rest < divisor := by simpa using h.rest
  have hdivided : rest + divisor * quotient = dividend := by
    rw [h.divided, Nat.pow_zero, Nat.mul_one, Nat.mul_comm divisor, Nat.add_comm]
  obtain ⟨hquotient, hremainder⟩ :=
    (Nat.div_mod_unique (Nat.zero_lt_of_lt hrest)).mpr ⟨hdivided, hrest⟩
  rw [hquotient, hremainder]
  exact h.shared

/-- What is left stands above the digits. -/
theorem shared_lt_iff (h : PartDivided dividend divisor taken left shared quotient rest) (bound : Nat) :
    shared < bound * 2 ^ taken ↔ rest < bound := by
  have hrest : shared / 2 ^ taken = rest := by
    rw [h.shared, Nat.mul_comm, Nat.mul_add_div (Nat.two_pow_pos taken), Nat.div_eq_of_lt h.digits,
      Nat.add_zero]
  rw [← Nat.div_lt_iff_lt_mul (Nat.two_pow_pos taken), hrest]

/-- Where the divisor does not go into what is left, the next digit is 0. -/
theorem keep (h : PartDivided dividend divisor taken (left + 1) shared quotient rest)
    (hshort : rest < divisor * 2 ^ left) :
    PartDivided dividend divisor (taken + 1) left (2 * shared) (2 * quotient) rest where
  shared := by
    rw [h.shared, Nat.pow_succ]
    ring
  digits := by
    have hdigits := h.digits
    rw [Nat.pow_succ]
    omega
  divided := by
    rw [h.divided, Nat.pow_succ]
    ring
  rest := hshort

/-- Where it does, the next digit is 1. -/
theorem subtract (h : PartDivided dividend divisor taken (left + 1) shared quotient rest)
    (hgoes : divisor * 2 ^ left ≤ rest) :
    PartDivided dividend divisor (taken + 1) left (2 * (shared - divisor * 2 ^ left * 2 ^ taken) + 1)
      (2 * quotient + 1) (rest - divisor * 2 ^ left) := by
  obtain ⟨rest, rfl⟩ := Nat.exists_eq_add_of_le hgoes
  have hshared : shared - divisor * 2 ^ left * 2 ^ taken = rest * 2 ^ taken + quotient := by
    rw [h.shared, Nat.add_mul, Nat.add_assoc, Nat.add_sub_cancel_left]
  have hdigits := h.digits
  have hrest := h.rest
  rw [Nat.add_sub_cancel_left]
  constructor
  case shared =>
    rw [hshared, Nat.pow_succ]
    ring
  case digits =>
    rw [Nat.pow_succ]
    omega
  case divided =>
    rw [h.divided, Nat.pow_succ]
    ring
  case rest =>
    rw [Nat.pow_succ, ← Nat.mul_assoc] at hrest
    omega

end PartDivided

/-! ## A step of the division -/

/-- A word with room for it is doubled by a shift. -/
theorem toNat_double {word : Word} (hroom : 2 * word.toNat < 2 ^ 32) :
    (word <<< 1).toNat = 2 * word.toNat := by
  rw [BitVec.toNat_shiftLeft, Nat.shiftLeft_eq, Nat.pow_one, Nat.mul_comm, Nat.mod_eq_of_lt hroom]

/-- A digit 1 is set at the bottom of a word that is doubled. -/
theorem toNat_double_or_one {word : Word} (hroom : 2 * word.toNat < 2 ^ 32) :
    ((word <<< 1) ||| 1).toNat = 2 * word.toNat + 1 := by
  have hone : (1 : Word).toNat = 1 := rfl
  rw [BitVec.toNat_or, toNat_double hroom, hone]
  exact (Nat.two_pow_add_eq_or_of_lt (i := 1) (by decide : 1 < 2 ^ 1) word.toNat).symm

namespace Registers

variable {regs : Registers} {value : Half}

/-- A halfword that is widened without its sign, or has none, is widened to its number. -/
theorem toNat_extend (hsign : regs.has .sxm = false ∨ value.toNat < 0x8000) {shift : Nat}
    (hshift : shift ≤ 16) : (regs.extend value shift).toNat = value.toNat * 2 ^ shift := by
  have hwide : (if regs.has .sxm then value.signExtend 32 else value.setWidth 32) =
      value.setWidth 32 := by
    rcases hsign with hclear | hsmall
    · rw [hclear, if_neg Bool.false_ne_true]
    · have hmsb : value.msb = false := BitVec.msb_eq_false_iff_two_mul_lt.mpr (by omega)
      rw [BitVec.signExtend_eq_setWidth_of_msb_false hmsb, ite_self]
  have hword : value.toNat * 2 ^ shift < 2 ^ 32 :=
    calc value.toNat * 2 ^ shift
      _ < 2 ^ 16 * 2 ^ shift := Nat.mul_lt_mul_of_pos_right value.isLt (Nat.two_pow_pos shift)
      _ ≤ 2 ^ 16 * 2 ^ 16 := Nat.mul_le_mul_left _ (Nat.pow_le_pow_right Nat.two_pos hshift)
  rw [extend, hwide, BitVec.toNat_shiftLeft, BitVec.toNat_setWidth_of_le (by decide),
    Nat.shiftLeft_eq, Nat.mod_eq_of_lt hword]

/-- A step in numbers, where the accumulator has room for what is shifted in it. -/
theorem toNat_divideStep {scaled : Nat} (hscaled : (regs.extend value 15).toNat = scaled)
    (hroom : regs.acc.toNat < 2 * scaled) (hword : 2 * scaled ≤ 2 ^ 32) :
    (regs.divideStep value).acc.toNat =
      if scaled ≤ regs.acc.toNat then 2 * (regs.acc.toNat - scaled) + 1 else 2 * regs.acc.toNat := by
  simp only [divideStep, BitVec.le_def, hscaled]
  split
  · next hgoes =>
    have hle : regs.extend value 15 ≤ regs.acc := by
      rw [BitVec.le_def, hscaled]
      exact hgoes
    have hdifference := BitVec.toNat_sub_of_le hle
    rw [hscaled] at hdifference
    rw [toNat_double_or_one (by omega), hdifference]
  · exact toNat_double (by omega)

/-- A step takes one more digit of the quotient. -/
theorem partDivided_divideStep {dividend taken left quotient rest : Nat}
    (hsign : regs.has .sxm = false ∨ value.toNat < 0x8000) (hdigits : taken + left = 15)
    (h : PartDivided dividend value.toNat taken (left + 1) regs.acc.toNat quotient rest) :
    ∃ quotient rest, PartDivided dividend value.toNat (taken + 1) left
      (regs.divideStep value).acc.toNat quotient rest := by
  have hscaled : (regs.extend value 15).toNat = value.toNat * 2 ^ left * 2 ^ taken := by
    rw [toNat_extend hsign (by decide), ← hdigits, Nat.add_comm, Nat.pow_add, Nat.mul_assoc]
  have hroom : regs.acc.toNat < 2 * (value.toNat * 2 ^ left * 2 ^ taken) := by
    have hbelow := (h.shared_lt_iff _).mpr h.rest
    rwa [Nat.pow_succ, ← Nat.mul_assoc, Nat.mul_comm _ 2, Nat.mul_assoc 2] at hbelow
  have hword : 2 * (value.toNat * 2 ^ left * 2 ^ taken) ≤ 2 ^ 32 := by
    have hvalue := value.isLt
    rw [Nat.mul_assoc, ← Nat.pow_add, Nat.add_comm left, hdigits]
    omega
  rw [toNat_divideStep hscaled hroom hword]
  split
  · next hgoes =>
    have hrest := Nat.le_of_not_lt fun hshort => Nat.not_lt.mpr hgoes ((h.shared_lt_iff _).mpr hshort)
    exact ⟨_, _, h.subtract hrest⟩
  · next hshort => exact ⟨_, _, h.keep ((h.shared_lt_iff _).mp (Nat.lt_of_not_le hshort))⟩

end Registers

/-! ## The operand of every pass -/

namespace Registers

/-- Registers that find an operand in the same place and widen it in the same way. -/
structure FetchesAs (before after : Registers) : Prop where
  part : after.status.st1Fixed = before.status.st1Fixed
  ar : ∀ pointer, after.getAr pointer = before.getAr pointer
  arp : after.status.arp = before.status.arp
  dp : after.status.dp = before.status.dp
  sxm : after.has .sxm = before.has .sxm

/-- Registers fetch as themselves. -/
theorem FetchesAs.refl (regs : Registers) : regs.FetchesAs regs := ⟨rfl, fun _ => rfl, rfl, rfl, rfl⟩

/-- Fetching alike is transitive. -/
theorem FetchesAs.trans {first second third : Registers} (h : first.FetchesAs second)
    (h' : second.FetchesAs third) : first.FetchesAs third where
  part := h'.part.trans h.part
  ar pointer := (h'.ar pointer).trans (h.ar pointer)
  arp := h'.arp.trans h.arp
  dp := h'.dp.trans h.dp
  sxm := h'.sxm.trans h.sxm

/-- Registers that fetch alike find an operand at the same address. -/
theorem FetchesAs.operandAddress {before after : Registers} (h : before.FetchesAs after) (word : Half) :
    after.operandAddress word = before.operandAddress word := by
  rw [operandAddress_eq, operandAddress_eq, h.ar, h.arp, h.dp]

/-- An operand whose addressing modifies neither the auxiliary register in use nor the pointer. -/
def SteadyOperand (regs : Registers) (word : Half) : Prop :=
  isIndirect word = true →
    (word.extractLsb' 4 3 = 0 ∨ word.extractLsb' 4 3 = 3) ∧
      (word.getLsbD 3 = true → word.extractLsb' 0 3 = regs.status.arp)

/-- Whether an operand is steady is decided by its word and the pointer. -/
instance (regs : Registers) (word : Half) : Decidable (regs.SteadyOperand word) :=
  inferInstanceAs (Decidable (_ → _))

variable {regs : Registers} {model : Model}

/-- A flag other than SXM has no part in fetches. -/
theorem fetchesAs_put (hpart : regs.status.st1Fixed = model.st1Fixed) {flag : StatusFlag}
    (hflag : .sxm ≠ flag) (on : Bool) : regs.FetchesAs (regs.put flag on) :=
  have hsteers := regs.status.steersAs_put flag on
  have hsxm := Status.has_put (Status.frees hpart (by decide)) flag on
  ⟨hsteers.part, fun _ => rfl, hsteers.arp, hsteers.dp, hsxm.trans (if_neg hflag)⟩

/-- The accumulator has no part in fetches. -/
theorem fetchesAs_acc (regs : Registers) (acc : Word) : regs.FetchesAs { regs with acc := acc } :=
  ⟨rfl, fun _ => rfl, rfl, rfl, rfl⟩

/-- A step of the division sets two flags, on which no fetch depends. -/
theorem fetchesAs_divideStep (hpart : regs.status.st1Fixed = model.st1Fixed) (value : Half) :
    regs.FetchesAs (regs.divideStep value) := by
  have hov (overflows : Bool) : regs.FetchesAs (if overflows then regs.put .ov true else regs) := by
    cases overflows with
    | true => exact fetchesAs_put hpart (by decide) true
    | false => exact .refl regs
  refine .trans ?_ (fetchesAs_acc _ _)
  exact (hov _).trans (fetchesAs_put ((hov _).part.trans hpart) (by decide) _)

/-- The repeat counter has no part in fetches. -/
theorem fetchesAs_rptc (regs : Registers) (rptc : Byte) : regs.FetchesAs { regs with rptc := rptc } :=
  ⟨rfl, fun _ => rfl, rfl, rfl, rfl⟩

/-- The addressing of a steady operand leaves what it goes by. -/
theorem fetchesAs_afterOperand (hpart : regs.status.st1Fixed = model.st1Fixed) {word : Half}
    (hsteady : regs.SteadyOperand word) (movesPointer : Bool) :
    regs.FetchesAs (regs.afterOperand word movesPointer) := by
  rw [afterOperand]
  split
  · next hindirect =>
    obtain ⟨hunmodified, hpointer⟩ := hsteady hindirect
    have hsame : modifiedAr word regs.currentAr (regs.getAr 0) = regs.currentAr := by
      rw [modifiedAr]
      rcases hunmodified with hmode | hmode
      · rw [hmode]
        rfl
      · rw [hmode]
        rfl
    rw [modifyAr, hsame, regs.setCurrentAr_currentAr]
    split
    · next hmoves =>
      rw [hpointer (Bool.and_eq_true_iff.mp hmoves).2]
      have hfree := Status.freesPointer hpart
      exact ⟨rfl, fun _ => rfl, (Status.setArp_pointers hfree _).1, Status.setArp_dp _ _,
        Status.has_setArp (Status.frees hpart (by decide)) _⟩
    · exact .refl regs
  · exact .refl regs

/-- The modification behind an operand leaves the accumulator. -/
theorem afterOperand_acc (regs : Registers) (word : Half) (movesPointer : Bool) :
    (regs.afterOperand word movesPointer).acc = regs.acc := by
  unfold afterOperand modifyAr
  split
  · dsimp only
    split <;> rfl
  · rfl

end Registers

namespace Machine

/-- A pass of SUBC: a step of the division by the word at the address of the operand. -/
theorem pass_subc (machine : Machine) :
    let address := machine.core.regs.operandAddress machine.core.opcode
    let divided := (machine.core.regs.afterOperand machine.core.opcode true).divideStep
      (machine.readData address).1
    let after := (machine.pass (.operand .subc)).1
    after.core.opcode = machine.core.opcode ∧ after.core.ram = machine.core.ram ∧
      after.bus.memory = machine.bus.memory ∧
      after.core.regs = { divided with rptc := divided.rptc - 1 } := by
  have hfetched := machine.fetchOperand_eq true
  have hexecuted : (machine.execute (.operand .subc)).1 =
      (machine.fetchOperand true).2.mapRegs (·.divideStep (machine.fetchOperand true).1) := rfl
  dsimp only
  rw [pass_core, hexecuted, hfetched]
  exact ⟨rfl, rfl, machine.readData_keeps _, rfl⟩

/-- Before a pass of SUBC that divides by a word: the operand is this word, and it will be again. -/
structure Divides (machine : Machine) (model : Model) (divisor : Half) : Prop where
  part : machine.core.regs.status.st1Fixed = model.st1Fixed
  steady : machine.core.regs.SteadyOperand machine.core.opcode
  operand : (machine.readData (machine.core.regs.operandAddress machine.core.opcode)).1 = divisor
  sign : machine.core.regs.has .sxm = false ∨ divisor.toNat < 0x8000

namespace Divides

variable {machine : Machine} {model : Model} {divisor : Half}

/-- A pass leaves it so, and takes one more digit of the quotient. -/
theorem pass (h : machine.Divides model divisor) {dividend taken left quotient rest : Nat}
    (hdigits : taken + left = 15)
    (hdivided : PartDivided dividend divisor.toNat taken (left + 1) machine.core.regs.acc.toNat
      quotient rest) :
    (machine.pass (.operand .subc)).1.Divides model divisor ∧
      ∃ quotient rest, PartDivided dividend divisor.toNat (taken + 1) left
        (machine.pass (.operand .subc)).1.core.regs.acc.toNat quotient rest := by
  obtain ⟨hopcode, hram, hmemory, hregs⟩ := machine.pass_subc
  rw [h.operand] at hregs
  have haddressed := Registers.fetchesAs_afterOperand h.part h.steady true
  have hstepped := Registers.fetchesAs_divideStep (haddressed.part.trans h.part) divisor
  have hfetches := (haddressed.trans hstepped).trans (Registers.fetchesAs_rptc _
    (((machine.core.regs.afterOperand machine.core.opcode true).divideStep divisor).rptc - 1))
  rw [← hregs] at hfetches
  constructor
  · constructor
    case part => exact hfetches.part.trans h.part
    case steady =>
      rw [hopcode]
      intro hindirect
      obtain ⟨hunmodified, hpointer⟩ := h.steady hindirect
      exact ⟨hunmodified, fun hmoves => (hpointer hmoves).trans hfetches.arp.symm⟩
    case operand =>
      rw [hopcode, hfetches.operandAddress, readData_of_memory hram hmemory]
      exact h.operand
    case sign =>
      rw [hfetches.sxm]
      exact h.sign
  · have hsign := h.sign
    rw [← haddressed.sxm] at hsign
    rw [← machine.core.regs.afterOperand_acc machine.core.opcode true] at hdivided
    have hacc := congrArg Registers.acc hregs
    dsimp only at hacc
    rw [hacc]
    exact Registers.partDivided_divideStep hsign hdigits hdivided

/-- So every pass of a block does, up to the sixteenth. -/
theorem beforePass (h : machine.Divides model divisor)
    (hdividend : machine.core.regs.acc.toNat < divisor.toNat * 2 ^ 16) {taken left : Nat}
    (hdigits : taken + left = 16) :
    (machine.beforePass (.operand .subc) taken).Divides model divisor ∧
      ∃ quotient rest, PartDivided machine.core.regs.acc.toNat divisor.toNat taken left
        (machine.beforePass (.operand .subc) taken).core.regs.acc.toNat quotient rest := by
  -- With each pass one digit goes over from those that are left to those of the quotient.
  induction taken generalizing left with
  | zero =>
    obtain rfl : left = 16 := by omega
    exact ⟨h, _, _, .start hdividend⟩
  | succ taken ih =>
    have hbefore : taken + (left + 1) = 16 := by omega
    obtain ⟨hdivides, _, _, hdivided⟩ := ih hbefore
    rw [Machine.beforePass, ← pass_core]
    exact hdivides.pass (by omega) hdivided

end Divides

/-! ## The block -/

/-- Nothing before the first pass of a block that RPTK arms changes the accumulator or ST1. -/
theorem dividend_of_rptk {machine : Machine} (hrptk : machine.ready.op = .rptk) :
    machine.block.core.regs.acc = machine.core.regs.acc ∧
      machine.block.core.regs.status.st1 = machine.core.regs.status.st1 ∧
      machine.block.core.regs.status.st1Fixed = machine.core.regs.status.st1Fixed := by
  have hserved : machine.core.service.1.regs.acc = machine.core.regs.acc ∧
      machine.core.service.1.regs.status.st1 = machine.core.regs.status.st1 ∧
      machine.core.service.1.regs.status.st1Fixed = machine.core.regs.status.st1Fixed := by
    unfold Core.service
    split
    · next source _ => cases source <;> exact ⟨rfl, rfl, rfl⟩
    · exact ⟨rfl, rfl, rfl⟩
  rw [(Machine.block_of_rptk hrptk).1]
  exact hserved

end Machine

/-- RPTK 15 and SUBC divide the accumulator by a data word: the remainder is left in the high half and
the quotient in the low half. The quotient must fit there, which asks for a divisor other than zero. -/
theorem repeated_subc_divides {machine : Machine} {model : Model} {divisor : Half}
    (hpart : machine.core.regs.status.st1Fixed = model.st1Fixed)
    (hrptk : machine.ready.op = .rptk) (hcount : lowByte machine.ready.core.opcode = 15)
    (hsubc : machine.block.op = .operand .subc)
    (hsteady : machine.block.core.regs.SteadyOperand machine.block.core.opcode)
    (hoperand : (machine.block.readData
      (machine.block.core.regs.operandAddress machine.block.core.opcode)).1 = divisor)
    (hsign : machine.core.regs.has .sxm = false ∨ divisor.toNat < 0x8000)
    (hdividend : machine.core.regs.acc.toNat < divisor.toNat * 65536) :
    machine.step.1.core.regs.acc.toNat =
      machine.core.regs.acc.toNat % divisor.toNat * 65536 +
        machine.core.regs.acc.toNat / divisor.toNat := by
  obtain ⟨hacc, hst1, hfixed⟩ := Machine.dividend_of_rptk hrptk
  have hdivides : machine.block.Divides model divisor := by
    refine ⟨hfixed.trans hpart, hsteady, hoperand, ?_⟩
    have hsxm : machine.block.core.regs.has .sxm = machine.core.regs.has .sxm :=
      congrArg (meets · St1.sxm) hst1
    rw [hsxm]
    exact hsign
  rw [← hacc] at hdividend ⊢
  have hpasses : machine.ready.repeatCount.toNat + 1 = 16 := by
    rw [Machine.repeatCount, hrptk, if_pos rfl, hcount]
    rfl
  have hstep := Machine.step_of_repeat (.inr hrptk) (by rw [hsubc]; decide) (by rw [hsubc]; decide)
  have hended (last : Machine) : (last.mapCore Core.endBlock).core.regs.acc = last.core.regs.acc := rfl
  obtain ⟨-, _, _, hdivided⟩ := hdivides.beforePass hdividend (Nat.add_zero 16)
  rw [hstep, hended, hpasses, Machine.before, hsubc]
  exact hdivided.shared_eq

/-- 3000012345 by 50000, through AR0: neither number has a sign. -/
theorem repeated_subc_divides_unsigned :
    let core := Core.new .tms32025
    let regs := { (core.regs.put .sxm false).setAr 0 0x60 with acc := 3000012345 }
    let machine : Machine := ⟨{ core with regs := regs, ram := core.ram.set (.b2 0) 50000 },
      Bus.empty.loadHalves .program 0 [0xCB0F, 0x4780]⟩
    machine.step.1.core.regs.acc.toNat = 12345 * 65536 + 60000 := by
  intro core regs machine
  have hpart : machine.core.regs.status.st1Fixed = Model.tms32025.st1Fixed := rfl
  have hsteady : machine.block.core.regs.SteadyOperand machine.block.core.opcode := by decide +kernel
  have hoperand : (machine.block.readData
      (machine.block.core.regs.operandAddress machine.block.core.opcode)).1 = 50000 := by
    decide +kernel
  have hdivided := repeated_subc_divides hpart (by decide +kernel) (by decide +kernel)
    (by decide +kernel) hsteady hoperand (.inl (by decide +kernel)) (by decide +kernel)
  exact hdivided.trans (by decide +kernel)

end ProcessorCores.Tms

import ProcessorCores.Tms.Accumulator
import ProcessorCores.Tms.Addressing
import ProcessorCores.Tms.Decode

/-!
# Register effects of TMS3202x operations

What an operation makes of the register file once its operand is known. The operations that also
accumulate the previous product do so before they fetch the operand, the others afterwards.
-/

namespace ProcessorCores.Tms

/-- The program address of the software trap. -/
def trapVector : Half := 0x001E

namespace OperandOp

/-- The part of an operation that precedes the fetch of its operand. -/
def prepare (op : OperandOp) (regs : Registers) : Registers :=
  match op with
  | .mpya | .sqra => regs.addAcc regs.shiftedProduct
  | .mpys | .sqrs => regs.subAcc regs.shiftedProduct
  | _ => regs

/-- True unless addressing must leave the pointer alone, as for the loads of the status. -/
def movesPointer : OperandOp → Bool
  | .lst | .lst1 => false
  | _ => true

/-- The part of an operation that uses its operand. -/
def finish (op : OperandOp) (word value : Half) (regs : Registers) : Registers :=
  let wide : Word := value.setWidth 32
  let shift := shiftField word
  let tShift := (regs.t &&& 0xF).toNat
  match op with
  | .add => regs.addAcc (regs.extend value shift)
  | .sub => regs.subAcc (regs.extend value shift)
  | .lac => { regs with acc := regs.extend value shift }
  | .lact => { regs with acc := regs.extend value tShift }
  | .addt => regs.addAcc (regs.extend value tShift)
  | .subt => regs.subAcc (regs.extend value tShift)
  | .adds => regs.addAcc wide
  | .subs => regs.subAcc wide
  | .addc => regs.addWithCarry value
  | .subb => regs.subWithBorrow value
  | .addh => regs.addHigh value
  | .subh => regs.subHigh value
  | .subc => regs.divideStep value
  | .zalh => { regs with acc := wide <<< 16 }
  | .zals => { regs with acc := wide }
  | .zalr => { regs with acc := (wide <<< 16) ||| 0x8000 }
  | .xor => { regs with acc := regs.acc ^^^ wide }
  | .or => { regs with acc := regs.acc ||| wide }
  | .and => { regs with acc := regs.acc &&& wide }
  | .lt => { regs with t := value }
  | .lta =>
    let regs := { regs with t := value }
    regs.addAcc regs.shiftedProduct
  | .lts =>
    let regs := { regs with t := value }
    regs.subAcc regs.shiftedProduct
  | .ltp =>
    let regs := { regs with t := value }
    { regs with acc := regs.shiftedProduct }
  | .mpy | .mpya | .mpys => { regs with p := signedProduct value regs.t }
  | .mpyu => { regs with p := wide * regs.t.setWidth 32 }
  | .sqra | .sqrs => { regs with t := value, p := signedProduct value value }
  | .lph => { regs with p := joinHalves value (lowHalf regs.p) }
  | .lar => regs.setAr (pointerField word) value
  | .ldp => { regs with status := regs.status.setDp value }
  | .pshd => regs.push value
  | .bit => regs.put .tc (meets value (0x8000 >>> shift))
  | .bitt => regs.put .tc (meets value (0x8000 >>> tShift))
  | .lst => { regs with status := regs.status.loadSt0 value }
  | .lst1 => { regs with status := regs.status.loadSt1 value }

end OperandOp

namespace StoreOp

/-- The word that a store writes. -/
def value (op : StoreOp) (word : Half) (regs : Registers) : Half :=
  let shifted := regs.acc <<< (pointerField word).toNat
  match op with
  | .sacl => lowHalf shifted
  | .sach => highHalf shifted
  | .spl => lowHalf regs.shiftedProduct
  | .sph => highHalf regs.shiftedProduct
  | .sar => regs.getAr (pointerField word)
  | .popd => regs.top
  | .sst => regs.status.st0
  | .sst1 => regs.status.st1

/-- The registers once the word is taken from them: only a pop changes any. -/
def prepare (op : StoreOp) (regs : Registers) : Registers :=
  match op with
  | .popd => regs.pop
  | _ => regs

/-- True for the stores of the status, whose direct addresses are on page 0 and which leave the
pointer alone. -/
def ofStatus : StoreOp → Bool
  | .sst | .sst1 => true
  | _ => false

end StoreOp

/-- What an operation makes of its second word. -/
def LongOp.apply (op : LongOp) (word value : Half) (regs : Registers) : Registers :=
  let shift := shiftField word
  let shifted : Word := value.setWidth 32 <<< shift
  match op with
  | .lalk => { regs with acc := regs.extend value shift }
  | .adlk => regs.addAcc (regs.extend value shift)
  | .sblk => regs.subAcc (regs.extend value shift)
  | .andk => { regs with acc := regs.acc &&& shifted }
  | .ork => { regs with acc := regs.acc ||| shifted }
  | .xork => { regs with acc := regs.acc ^^^ shifted }
  | .lrlk => regs.setAr (pointerField word) value

/-- The flag that an operation changes, and what it becomes. -/
def FlagOp.change : FlagOp → StatusFlag × Bool
  | .eint => (.intm, false)
  | .dint => (.intm, true)
  | .rovm => (.ovm, false)
  | .sovm => (.ovm, true)
  | .rsxm => (.sxm, false)
  | .ssxm => (.sxm, true)
  | .rc => (.carry, false)
  | .sc => (.carry, true)
  | .rtc => (.tc, false)
  | .stc => (.tc, true)
  | .rhm => (.hm, false)
  | .shm => (.hm, true)
  | .rfsm => (.fsm, false)
  | .sfsm => (.fsm, true)
  | .rtxm => (.txm, false)
  | .stxm => (.txm, true)

/-- Compare the auxiliary register in use with AR0, as the low two bits of the word ask. -/
def Registers.compareAr (regs : Registers) (word : Half) : Bool :=
  let ar := regs.currentAr
  let ar0 := regs.getAr 0
  match word.extractLsb' 0 2 with
  | 0 => ar == ar0
  | 1 => ar < ar0
  | 2 => ar0 < ar
  | _ => ar != ar0

/-- What an operation on registers alone does to them. -/
def RegisterOp.apply (op : RegisterOp) (word : Half) (regs : Registers) : Registers :=
  let constant := shortConstant word
  match op with
  | .lack => { regs with acc := constant.setWidth 32 }
  | .addk => regs.addAcc (constant.setWidth 32)
  | .subk => regs.subAcc (constant.setWidth 32)
  | .abs => regs.absolute
  | .neg => regs.negate
  | .cmpl => { regs with acc := ~~~regs.acc }
  | .sfl => regs.shiftLeft
  | .sfr => regs.shiftRight
  | .rol => regs.rotateLeft
  | .ror => regs.rotateRight
  | .norm =>
    if regs.acc ≠ 0 ∧ (regs.acc ^^^ (regs.acc <<< 1)).msb = false then
      let regs := regs.put .tc false
      { regs with acc := regs.acc <<< 1 }.modifyAr word true
    else regs.put .tc true
  | .mpyk => { regs with p := regs.t.signExtend 32 * (word.extractLsb' 0 13).signExtend 32 }
  | .pac => { regs with acc := regs.shiftedProduct }
  | .apac => regs.addAcc regs.shiftedProduct
  | .spac => regs.subAcc regs.shiftedProduct
  | .spm => { regs with status := regs.status.setPm (word &&& 3) }
  | .lark => regs.setAr (pointerField word) constant
  | .adrk => regs.setCurrentAr (regs.currentAr + constant)
  | .sbrk => regs.setCurrentAr (regs.currentAr - constant)
  | .mar => regs.afterOperand word true
  | .cmpr => regs.put .tc (regs.compareAr word)
  | .ldpk => { regs with status := regs.status.setDp word }
  | .fort => regs.put .fo (word.getLsbD 0)
  | .push => regs.push (lowHalf regs.acc)
  | .pop => { regs.pop with acc := regs.top.setWidth 32 }
  | .cala => { regs.push regs.pc with pc := lowHalf regs.acc }
  | .bacc => { regs with pc := lowHalf regs.acc }
  | .ret => { regs.pop with pc := regs.top }
  | .trap => { regs.push regs.pc with pc := trapVector }

/-- Whether a branch is taken, given the register file and the BIO input. -/
def BranchOp.taken (op : BranchOp) (regs : Registers) (bio : Bool) : Bool :=
  match op with
  | .b => true
  | .bc => regs.has .carry
  | .bnc => !regs.has .carry
  | .bz => regs.acc == 0
  | .bnz => regs.acc != 0
  | .bgz => !regs.acc.msb && regs.acc != 0
  | .bgez => !regs.acc.msb
  | .blz => regs.acc.msb
  | .blez => regs.acc.msb || regs.acc == 0
  | .bbz => !regs.has .tc
  | .bbnz => regs.has .tc
  | .bioz => bio
  | .banz => regs.currentAr != 0
  | .bv => regs.has .ov
  | .bnv => !regs.has .ov

/-- What a branch does after it has gone its way: those on overflow clear the flag. -/
def BranchOp.settle (op : BranchOp) (regs : Registers) : Registers :=
  match op with
  | .bv | .bnv => regs.put .ov false
  | _ => regs

end ProcessorCores.Tms

import ProcessorCores.Proofs.Tms.Pointers
import ProcessorCores.Proofs.Tms.StraightCode

/-!
# Contexts of the TMS3202x

An interrupted program is saved in four words of block B2: the two status words, whose stores address
page 0 by themselves, and the halves of the accumulator, for which the page has to be set. The restore
goes the other way round. Adding the low half changes the carry, so the status is loaded after the
accumulator; loading ST1 puts the backup of the pointer into the pointer, so ST0 is loaded last. The
interrupt mask is the one bit that no load of ST0 reaches.
-/

namespace ProcessorCores.Tms

/-! ## The code -/

/-- The word of an instruction that addresses a word of block B2 directly. -/
def directB2 (opcode : Half) (offset : Fin 32) : Half := opcode + 0x60 + BitVec.ofNat 16 offset

/-- SST, SST1, LDPK 0, SACH and SACL. -/
def saveContext (st0 st1 high low : Fin 32) : List Half :=
  [directB2 0x7800 st0, directB2 0x7900 st1, 0xC800, directB2 0x6800 high, directB2 0x6000 low]

/-- LDPK 0, ZALH, ADDS and LST1. -/
def restoreContext (st1 high low : Fin 32) : List Half :=
  [0xC800, directB2 0x4000 high, directB2 0x4900 low, directB2 0x5100 st1]

/-- LST, the last instruction of a restore. -/
def restoreSt0 (st0 : Fin 32) : List Half := [directB2 0x5000 st0]

/-! ## Instruction words -/

/-- The main table is keyed by the high byte. -/
theorem decode_of_highByte {word : Half} (hcontrol : highByte word ≠ 0xCE)
    (hlong : highByte word &&& 0xF0 ≠ 0xD0) :
    decode word = mainTable.get (highByte word).toNat := by
  have hmasked : word &&& 0xF0F8 ≠ 0xD000 := by
    intro hword
    apply hlong
    have hhigh := congrArg highByte hword
    rw [highByte, BitVec.extractLsb'_and] at hhigh
    exact hhigh
  rw [decode, if_neg hcontrol, if_neg hmasked]

/-- The opcode of an operation that leaves the low byte of its words to an operand. -/
structure IsOpcode (opcode : Half) (op : Op) : Prop where
  handler : (decode opcode).handler = op
  low : opcode.toNat % 0x100 = 0
  control : highByte opcode ≠ 0xCE
  long : highByte opcode &&& 0xF0 ≠ 0xD0

/-- `SST` is the direct opcode `0x7800`. -/
theorem isOpcode_sst : IsOpcode 0x7800 (.store .sst) :=
  ⟨by decide +kernel, rfl, by decide, by decide⟩

/-- `SST1` is the direct opcode `0x7900`. -/
theorem isOpcode_sst1 : IsOpcode 0x7900 (.store .sst1) :=
  ⟨by decide +kernel, rfl, by decide, by decide⟩

/-- `SACH` without a shift is the direct opcode `0x6800`. -/
theorem isOpcode_sach : IsOpcode 0x6800 (.store .sach) :=
  ⟨by decide +kernel, rfl, by decide, by decide⟩

/-- `SACL` without a shift is the direct opcode `0x6000`. -/
theorem isOpcode_sacl : IsOpcode 0x6000 (.store .sacl) :=
  ⟨by decide +kernel, rfl, by decide, by decide⟩

/-- `ZALH` is the direct opcode `0x4000`. -/
theorem isOpcode_zalh : IsOpcode 0x4000 (.operand .zalh) :=
  ⟨by decide +kernel, rfl, by decide, by decide⟩

/-- `ADDS` is the direct opcode `0x4900`. -/
theorem isOpcode_adds : IsOpcode 0x4900 (.operand .adds) :=
  ⟨by decide +kernel, rfl, by decide, by decide⟩

/-- `LST1` is the direct opcode `0x5100`. -/
theorem isOpcode_lst1 : IsOpcode 0x5100 (.operand .lst1) :=
  ⟨by decide +kernel, rfl, by decide, by decide⟩

/-- `LST` is the direct opcode `0x5000`. -/
theorem isOpcode_lst : IsOpcode 0x5000 (.operand .lst) :=
  ⟨by decide +kernel, rfl, by decide, by decide⟩

/-- `LDPK 0` is the word `0xC800`. -/
theorem decode_ldpk : (decode 0xC800).handler = .register .ldpk := by decide +kernel

/-- An instruction word that addresses a word of block B2 directly when the page is 0. -/
structure NamesB2 (word : Half) (offset : Fin 32) : Prop where
  direct : isIndirect word = false
  address : (word &&& 0x7F).toNat = 0x60 + offset.val

namespace IsOpcode

variable {opcode : Half} {op : Op}

/-- The offset of a word of block B2 stands in the low bits, so it adds to the opcode. -/
theorem directB2_toNat (h : IsOpcode opcode op) (offset : Fin 32) :
    (directB2 opcode offset).toNat = opcode.toNat + 0x60 + offset.val := by
  have hlow := h.low
  have := opcode.isLt
  have := offset.isLt
  have hbase : (0x60 : Half).toNat = 0x60 := rfl
  simp only [directB2, BitVec.toNat_add, BitVec.toNat_ofNat, hbase]
  omega

/-- A direct opcode with an offset of block B2 names that word. -/
theorem namesB2 (h : IsOpcode opcode op) (offset : Fin 32) :
    NamesB2 (directB2 opcode offset) offset := by
  have hlow := h.low
  constructor
  · rw [isIndirect, BitVec.getLsbD, h.directB2_toNat, Nat.testBit_eq_decide_div_mod_eq]
    simp only [decide_eq_false_iff_not]
    omega
  · have hmask : (0x7F : Half).toNat = 2 ^ 7 - 1 := rfl
    rw [BitVec.toNat_and, hmask, Nat.and_two_pow_sub_one_eq_mod, h.directB2_toNat]
    omega

/-- The offset is no part of the operation. -/
theorem decode_directB2 (h : IsOpcode opcode op) (offset : Fin 32) :
    (decode (directB2 opcode offset)).handler = op := by
  have hhigh : highByte (directB2 opcode offset) = highByte opcode := by
    have hlow := h.low
    have := offset.isLt
    apply BitVec.eq_of_toNat_eq
    simp only [highByte, BitVec.extractLsb'_toNat, Nat.shiftRight_eq_div_pow, h.directB2_toNat]
    omega
  rw [decode_of_highByte (by rw [hhigh]; exact h.control) (by rw [hhigh]; exact h.long), hhigh,
    ← decode_of_highByte h.control h.long, h.handler]

/-- Nor is it part of a shift. -/
theorem pointerField_directB2 (h : IsOpcode opcode op) (offset : Fin 32) :
    pointerField (directB2 opcode offset) = pointerField opcode := by
  have hlow := h.low
  have := offset.isLt
  apply BitVec.eq_of_toNat_eq
  simp only [pointerField, BitVec.extractLsb'_toNat, Nat.shiftRight_eq_div_pow, h.directB2_toNat]
  omega

end IsOpcode

/-- A save and a restore arm no repeat block. -/
theorem isPlain_saveContext (st0 st1 high low : Fin 32) :
    ∀ word ∈ saveContext st0 st1 high low, (decode word).handler.isPlain = true := by
  simp only [saveContext, List.forall_mem_cons, isOpcode_sst.decode_directB2,
    isOpcode_sst1.decode_directB2, decode_ldpk, isOpcode_sach.decode_directB2,
    isOpcode_sacl.decode_directB2]
  exact ⟨rfl, rfl, rfl, rfl, rfl, nofun⟩

/-- Every word that restores the registers is a plain instruction. -/
theorem isPlain_restoreContext (st1 high low : Fin 32) :
    ∀ word ∈ restoreContext st1 high low, (decode word).handler.isPlain = true := by
  simp only [restoreContext, List.forall_mem_cons, decode_ldpk, isOpcode_zalh.decode_directB2,
    isOpcode_adds.decode_directB2, isOpcode_lst1.decode_directB2]
  exact ⟨rfl, rfl, rfl, rfl, nofun⟩

/-- Every word that restores ST0 is a plain instruction. -/
theorem isPlain_restoreSt0 (st0 : Fin 32) :
    ∀ word ∈ restoreSt0 st0, (decode word).handler.isPlain = true := by
  simp only [restoreSt0, List.forall_mem_cons, isOpcode_lst.decode_directB2]
  exact ⟨rfl, nofun⟩

/-! ## Contexts -/

/-- What a save and a restore work on. -/
structure Context where
  acc : Word
  status : Status
  b2 : Vector Half 32

/-- The part of a core that a save and a restore work on. -/
def Core.context (core : Core) : Context := ⟨core.regs.acc, core.regs.status, core.ram.b2⟩

/-- Four words of block B2 hold the status and the accumulator. -/
structure Context.SavedIn (context : Context) (st0 st1 high low : Fin 32) (b2 : Vector Half 32) :
    Prop where
  st0 : b2.get st0 = context.status.st0
  st1 : b2.get st1 = context.status.st1
  high : b2.get high = highHalf context.acc
  low : b2.get low = lowHalf context.acc

namespace Context

/-- Store a word in block B2. -/
def put (context : Context) : Fin 32 → Half → Context
  | ⟨word, hword⟩, value => { context with b2 := context.b2.set word value hword }

/-- Choose page 0. -/
def onPageZero (context : Context) : Context :=
  { context with status := context.status.setDp 0 }

/-- Reading block B2 of a context after a put. -/
theorem get_put (context : Context) (offset other : Fin 32) (value : Half) :
    (context.put offset value).b2.get other =
      if other = offset then value else context.b2.get other := by
  have hword := context.b2.getElem_set offset.isLt (x := value) other.isLt
  simp only [Fin.ext_iff, eq_comm (a := other.val)]
  exact hword

end Context

/-- A calm stretch keeps the context. -/
theorem Machine.CalmTo.context {before after : Machine} (h : before.CalmTo after) :
    after.core.context = before.core.context := by
  rw [Core.context, h.core.status]
  exact congrArg (fun workings => (⟨workings.acc, before.core.regs.status, workings.b2⟩ : Context))
    h.core.workings

/-- A fetch keeps the context. -/
theorem Machine.fetch_context (machine : Machine) :
    machine.fetch.core.context = machine.core.context := by
  rw [fetch_core]
  rfl

namespace Straight

variable {before after : Machine} {word : Half} {words : List Half}

/-- Straight code of no words keeps the context. -/
theorem context (h : Straight before [] after) : after.core.context = before.core.context := by
  cases h with
  | rest hcalm => exact hcalm.context

/-- The first instruction is executed in the context that there is. -/
theorem uncons (h : Straight before (word :: words) after) :
    ∃ executing : Machine, executing.core.opcode = word ∧
      executing.core.context = before.core.context ∧
      Straight (executing.execute (decode word).handler).1 words after := by
  cases h with
  | @instruction _ ready _ _ hcalm hrest =>
    exact ⟨ready.fetch, rfl, ready.fetch_context.trans hcalm.context, hrest⟩

end Straight

/-! ## Halves and pages -/

namespace Status

/-- No load of ST1 reaches the page. -/
theorem loadSt1_dp (status : Status) (value : Half) : (status.loadSt1 value).dp = status.dp := by
  have hkept : ~~~St0.arp &&& St0.dp = St0.dp := by decide
  have hapart : St1.arb &&& St0.dp = 0 := by decide
  rw [dp, dp, loadSt1, BitVec.and_or_distrib_right, BitVec.and_assoc, BitVec.and_assoc, hkept, hapart]
  simp

/-- After the page pointer is cleared it reads zero. -/
theorem setDp_zero (status : Status) : (status.setDp 0).dp = 0 := by
  have hcleared : ~~~St0.dp &&& St0.dp = 0 := by decide
  have hfixed : St0.fixed &&& St0.dp = 0 := by decide
  rw [dp, setDp, BitVec.and_or_distrib_right, BitVec.and_or_distrib_right, BitVec.and_assoc,
    hcleared, hfixed]
  simp

end Status

/-- A low half added to a high half makes the word of the two. -/
theorem Registers.addAcc_low {regs : Registers} {high : Half} (low : Half)
    (hacc : regs.acc = high.setWidth 32 <<< 16) :
    (regs.addAcc (low.setWidth 32)).acc = joinHalves high low := by
  have hzero : (0 : Half).toNat = 0 := rfl
  have := high.isLt
  have := low.isLt
  have hold : regs.acc = joinHalves high 0 := by
    apply BitVec.eq_of_toNat_eq
    rw [hacc, joinHalves_toNat, BitVec.toNat_shiftLeft, BitVec.toNat_setWidth, Nat.shiftLeft_eq]
    omega
  have hsum : regs.acc + low.setWidth 32 = joinHalves high low := by
    apply BitVec.eq_of_toNat_eq
    rw [hold, BitVec.toNat_add, joinHalves_toNat, joinHalves_toNat, BitVec.toNat_setWidth]
    omega
  -- The sign is that of the high half before and after.
  have hsign : sumOverflows regs.acc (low.setWidth 32) (joinHalves high low) = false := by
    have hmsb (half : Half) : (joinHalves high half).msb = high.msb := by
      rw [joinHalves, BitVec.msb_append, if_neg (by decide)]
    rw [sumOverflows, BitVec.msb_and, BitVec.msb_xor, BitVec.msb_xor, hold, hmsb, hmsb, Bool.xor_self,
      Bool.and_false]
  simp only [addAcc, hsum, hsign]
  rfl

/-! ## Words of block B2 -/

namespace NamesB2

variable {word : Half} {offset : Fin 32}

/-- The page zero address of a word that names B2 is its low seven bits. -/
theorem pageZeroAddress (h : NamesB2 word offset) (regs : Registers) :
    regs.pageZeroAddress word = word &&& 0x7F :=
  if_neg (Bool.eq_false_iff.mp h.direct)

/-- On page zero the operand of a word that names B2 is at its low seven bits. -/
theorem operandAddress (h : NamesB2 word offset) {regs : Registers} (hpage : regs.status.dp = 0) :
    regs.operandAddress word = word &&& 0x7F := by
  rw [Registers.operandAddress, if_neg (Bool.eq_false_iff.mp h.direct), hpage]
  simp

/-- Nothing is modified with a direct operand. -/
theorem afterOperand (h : NamesB2 word offset) (regs : Registers) (movesPointer : Bool) :
    regs.afterOperand word movesPointer = regs :=
  if_neg (Bool.eq_false_iff.mp h.direct)

end NamesB2

/-- Block B2 answers at its data addresses, wherever the other blocks are. -/
theorem OnChipRam.b2_answers (ram : OnChipRam) {address : Half} {offset : Fin 32}
    (h : address.toNat = 0x60 + offset.val) :
    MappedRegister.ofAddress? address = none ∧ ram.dataCell? address = some (.b2 offset) := by
  constructor
  · rw [Option.eq_none_iff_forall_ne_some]
    intro register hregister
    have hlow := register.address_lt
    rw [MappedRegister.ofAddress?_eq_some hregister] at h
    omega
  · exact (ram.dataCell?_eq_some_iff _ _).mpr (.inl ((b2Cell?_eq_some_iff _ _).mpr ⟨offset, h, rfl⟩))

namespace Machine

variable {machine : Machine} {offset : Fin 32}

/-- A read of a data address of block B2 gives the stored word and touches nothing. -/
theorem readData_b2 (machine : Machine) {address : Half} (h : address.toNat = 0x60 + offset.val) :
    machine.readData address = (machine.core.ram.b2.get offset, machine) := by
  obtain ⟨hregister, hcell⟩ := machine.core.ram.b2_answers h
  rw [readData, OnChipRam.data, hregister, hcell]
  rfl

/-- A write to a data address of block B2 changes that word alone. -/
theorem writeData_b2 (machine : Machine) {address : Half} (h : address.toNat = 0x60 + offset.val)
    (value : Half) :
    machine.writeData address value = machine.mapCore (·.mapRam (·.set (.b2 offset) value)) := by
  obtain ⟨hregister, hcell⟩ := machine.core.ram.b2_answers h
  rw [writeData, hregister, hcell]

/-! ## Instructions -/

/-- A store changes the word of block B2 that it names, on page 0 or with an address that is always
there. -/
theorem context_store {op : StoreOp} (hnames : NamesB2 machine.core.opcode offset)
    (hpage : op.ofStatus = false → machine.core.regs.status.dp = 0) (hop : op ≠ .popd) :
    (machine.execute (.store op)).1.core.context =
      machine.core.context.put offset (op.value machine.core.opcode machine.core.regs) := by
  have hprepare : machine.mapRegs op.prepare = machine := by
    cases op <;> first | contradiction | rfl
  dsimp only [execute]
  rw [hprepare]
  cases hstatus : op.ofStatus with
  | true =>
    rw [if_pos rfl, storeStatus, hnames.pageZeroAddress, writeData_b2 _ hnames.address]
    dsimp only [mapRegs, mapCore, Core.mapRegs, Core.mapRam, noteOperand, Core.context,
      Context.put, OnChipRam.set]
    rw [hnames.afterOperand]
  | false =>
    rw [if_neg Bool.false_ne_true, storeOperand, hnames.operandAddress (hpage hstatus),
      writeData_b2 _ hnames.address]
    dsimp only [mapRegs, mapCore, Core.mapRegs, Core.mapRam, noteOperand, Core.context,
      Context.put, OnChipRam.set]
    rw [hnames.afterOperand]

/-- An operation on registers works on the word of block B2 that it names, on page 0. -/
theorem context_operand {op : OperandOp} (hnames : NamesB2 machine.core.opcode offset)
    (hpage : machine.core.regs.status.dp = 0) (hop : ∀ regs, op.prepare regs = regs) :
    (machine.execute (.operand op)).1.core.context =
      let regs := op.finish machine.core.opcode (machine.core.ram.b2.get offset) machine.core.regs
      ⟨regs.acc, regs.status, machine.core.ram.b2⟩ := by
  have hprepare : machine.mapRegs op.prepare = machine := by
    dsimp only [mapRegs, mapCore, Core.mapRegs]
    rw [hop]
  dsimp only [execute]
  rw [hprepare, fetchOperand]
  dsimp only
  rw [hnames.operandAddress hpage, readData_b2 _ hnames.address]
  dsimp only [mapRegs, mapCore, Core.mapRegs, noteOperand, Core.context]
  rw [hnames.afterOperand]

end Machine

/-- SACH without a shift stores the high half of the accumulator. -/
theorem StoreOp.value_sach (offset : Fin 32) (regs : Registers) :
    StoreOp.sach.value (directB2 0x6800 offset) regs = highHalf regs.acc := by
  rw [value, isOpcode_sach.pointerField_directB2]
  exact congrArg highHalf (BitVec.shiftLeft_zero regs.acc)

/-- SACL without a shift stores the low half. -/
theorem StoreOp.value_sacl (offset : Fin 32) (regs : Registers) :
    StoreOp.sacl.value (directB2 0x6000 offset) regs = lowHalf regs.acc := by
  rw [value, isOpcode_sacl.pointerField_directB2]
  exact congrArg lowHalf (BitVec.shiftLeft_zero regs.acc)

namespace Straight

variable {before after : Machine} {context : Context} {words : List Half} {offset : Fin 32}
  {opcode : Half}

/-- LDPK 0 chooses page 0. -/
theorem ldpk (hbefore : before.core.context = context)
    (h : Straight before (0xC800 :: words) after) :
    ∃ next, next.core.context = context.onPageZero ∧ Straight next words after := by
  obtain ⟨executing, hword, hcontext, hrest⟩ := h.uncons
  refine ⟨_, ?_, hrest⟩
  have hpage : executing.core.regs.status.setDp 0xC800 = executing.core.regs.status.setDp 0 := rfl
  rw [decode_ldpk, ← hbefore, ← hcontext]
  dsimp only [Core.context, Context.onPageZero]
  rw [← hpage, ← hword]
  rfl

/-- A store changes the word of block B2 that it names. -/
theorem store (op : StoreOp) (value : Half) (hbefore : before.core.context = context)
    (h : Straight before (directB2 opcode offset :: words) after) (hopcode : IsOpcode opcode (.store op))
    (hpage : op.ofStatus = false → context.status.dp = 0) (hop : op ≠ .popd)
    (hvalue : ∀ regs : Registers, regs.acc = context.acc → regs.status = context.status →
      op.value (directB2 opcode offset) regs = value) :
    ∃ next, next.core.context = context.put offset value ∧ Straight next words after := by
  obtain ⟨executing, hword, hcontext, hrest⟩ := h.uncons
  rw [hbefore] at hcontext
  subst hcontext
  refine ⟨_, ?_, hrest⟩
  rw [hopcode.decode_directB2, ← hvalue executing.core.regs rfl rfl, ← hword]
  exact Machine.context_store (hword ▸ hopcode.namesB2 offset) hpage hop

/-- An operation on registers works on the word of block B2 that it names. -/
theorem operand (op : OperandOp) (hbefore : before.core.context = context)
    (h : Straight before (directB2 opcode offset :: words) after)
    (hopcode : IsOpcode opcode (.operand op)) (hpage : context.status.dp = 0)
    (hop : ∀ regs, op.prepare regs = regs) :
    ∃ regs next, regs.acc = context.acc ∧ regs.status = context.status ∧
      (next.core.context =
        let finished := op.finish (directB2 opcode offset) (context.b2.get offset) regs
        ⟨finished.acc, finished.status, context.b2⟩) ∧ Straight next words after := by
  obtain ⟨executing, hword, hcontext, hrest⟩ := h.uncons
  rw [hbefore] at hcontext
  subst hcontext
  refine ⟨executing.core.regs, _, rfl, rfl, ?_, hrest⟩
  rw [hopcode.decode_directB2, ← hword]
  exact Machine.context_operand (hword ▸ hopcode.namesB2 offset) hpage hop

/-! ## Save and restore -/

/-- After a save the four words hold the context. -/
theorem savedIn {start saved : Machine} {st0 st1 high low : Fin 32}
    (h : Straight start (saveContext st0 st1 high low) saved)
    (hdistinct : [st0, st1, high, low].Nodup) :
    start.core.context.SavedIn st0 st1 high low saved.core.ram.b2 := by
  generalize hcontext : start.core.context = context
  obtain ⟨_, hsst, h⟩ := store .sst context.status.st0 hcontext h isOpcode_sst nofun nofun
    fun _ _ hstatus => congrArg Status.st0 hstatus
  obtain ⟨_, hsst1, h⟩ := store .sst1 context.status.st1 hsst h isOpcode_sst1 nofun nofun
    fun _ _ hstatus => congrArg Status.st1 hstatus
  obtain ⟨_, hldpk, h⟩ := ldpk hsst1 h
  obtain ⟨_, hsach, h⟩ := store .sach (highHalf context.acc) hldpk h isOpcode_sach
    (fun _ => Status.setDp_zero _) nofun fun regs hacc _ =>
      (StoreOp.value_sach high regs).trans (congrArg highHalf hacc)
  obtain ⟨_, hsacl, h⟩ := store .sacl (lowHalf context.acc) hsach h isOpcode_sacl
    (fun _ => Status.setDp_zero _) nofun fun regs hacc _ =>
      (StoreOp.value_sacl low regs).trans (congrArg lowHalf hacc)
  -- The last of the stores to an offset counts, and the four offsets are distinct.
  have hsaved := h.context.trans hsacl
  have hget (offset : Fin 32) : saved.core.ram.b2.get offset =
      if offset = low then lowHalf context.acc
      else if offset = high then highHalf context.acc
      else if offset = st1 then context.status.st1
      else if offset = st0 then context.status.st0
      else context.b2.get offset := by
    have hword := congrArg (·.b2.get offset) hsaved
    simp only [Context.get_put, Context.onPageZero] at hword
    exact hword
  simp only [List.nodup_cons, List.mem_cons, List.not_mem_nil, or_false, not_or,
    not_false_eq_true, List.nodup_nil, and_true] at hdistinct
  obtain ⟨⟨hst1, hhigh, hlow⟩, ⟨hhigh', hlow'⟩, hlow''⟩ := hdistinct
  constructor
  case st0 => rw [hget, if_neg hlow, if_neg hhigh, if_neg hst1, if_pos rfl]
  case st1 => rw [hget, if_neg hlow', if_neg hhigh', if_pos rfl]
  case high => rw [hget, if_neg hlow'', if_pos rfl]
  case low => rw [hget, if_pos rfl]

/-- After a restore up to LST1 the accumulator and ST1 are those that were saved. -/
theorem restores {resumed last : Machine} {context : Context} {st0 st1 high low : Fin 32}
    (h : Straight resumed (restoreContext st1 high low) last)
    (hsaved : context.SavedIn st0 st1 high low resumed.core.ram.b2)
    (hpart : resumed.core.regs.status.st1Fixed = context.status.st1Fixed)
    (hfixed : context.status.st1 ||| context.status.st1Fixed = context.status.st1) :
    last.core.regs.acc = context.acc ∧ last.core.regs.status.st1 = context.status.st1 ∧
      last.core.regs.status.dp = 0 ∧ last.core.ram.b2 = resumed.core.ram.b2 := by
  obtain ⟨_, hldpk, h⟩ := ldpk rfl h
  obtain ⟨_, high', -, hpage, hzalh, h⟩ := operand .zalh hldpk h isOpcode_zalh
    (Status.setDp_zero _) fun _ => rfl
  replace hzalh : high'.core.context =
      ⟨(resumed.core.ram.b2.get high).setWidth 32 <<< 16, resumed.core.regs.status.setDp 0,
        resumed.core.ram.b2⟩ := by
    dsimp only [OperandOp.finish] at hzalh
    rw [hzalh, hpage]
    rfl
  obtain ⟨adds, sum, hhigh, hpage, hadds, h⟩ := operand .adds hzalh h isOpcode_adds
    (Status.setDp_zero _) fun _ => rfl
  replace hpage : adds.status = resumed.core.regs.status.setDp 0 := hpage
  let summed := adds.addAcc ((resumed.core.ram.b2.get low).setWidth 32)
  have hsteers : (resumed.core.regs.status.setDp 0).SteersAs summed.status := by
    rw [← hpage]
    exact (Registers.keptByArithmetic_steersAs.addAcc adds _).status
  have hzero : summed.status.dp = 0 := hsteers.dp.trans (Status.setDp_zero _)
  have hwhole : summed.acc = context.acc := by
    rw [Registers.addAcc_low _ hhigh, hsaved.high, hsaved.low, joinHalves_split]
  obtain ⟨_, _, hacc, hstatus, hlst1, h⟩ := operand .lst1 hadds h isOpcode_lst1 hzero
    fun _ => rfl
  obtain ⟨hlastAcc, hlastStatus, hb2⟩ := Context.mk.inj (h.context.trans hlst1)
  replace hlastStatus : last.core.regs.status =
      summed.status.loadSt1 (resumed.core.ram.b2.get st1) :=
    hlastStatus.trans (congrArg (Status.loadSt1 · _) hstatus)
  refine ⟨hlastAcc.trans (hacc.trans hwhole), ?_, ?_, hb2⟩
  · have hloaded : last.core.regs.status.st1 =
        resumed.core.ram.b2.get st1 ||| resumed.core.regs.status.st1Fixed := by
      rw [hlastStatus]
      exact congrArg (_ ||| ·) hsteers.part
    rw [hloaded, hsaved.st1, hpart, hfixed]
  · rw [hlastStatus, Status.loadSt1_dp, hzero]

/-- LST loads all of ST0 but the interrupt mask, and changes nothing else. -/
theorem restoresSt0 {last restored : Machine} {st0 : Fin 32}
    (h : Straight last (restoreSt0 st0) restored) (hpage : last.core.regs.status.dp = 0) :
    restored.core.regs.acc = last.core.regs.acc ∧
      restored.core.regs.status =
        last.core.regs.status.loadSt0 (last.core.ram.b2.get st0) := by
  obtain ⟨_, _, hacc, hstatus, hlst, h⟩ := operand .lst rfl h isOpcode_lst hpage fun _ => rfl
  dsimp only [OperandOp.finish] at hlst
  rw [hacc, hstatus] at hlst
  obtain ⟨hacc, hstatus, -⟩ := Context.mk.inj (h.context.trans hlst)
  exact ⟨hacc, hstatus⟩

end Straight

/-- A load of ST0 from a word that has the fixed bit keeps the interrupt mask and takes the rest. -/
theorem Status.loadSt0_of_fixed (status : Status) {value : Half}
    (hfixed : value ||| St0.fixed = value) :
    (status.loadSt0 value).st0 = (value &&& ~~~St0.intm) ||| (status.st0 &&& St0.intm) := by
  have hapart : St0.fixed &&& ~~~St0.intm = St0.fixed := by decide
  have hrest : (value &&& ~~~St0.intm) ||| St0.fixed = value &&& ~~~St0.intm := by
    rw [← hapart, ← BitVec.and_or_distrib_right, hfixed]
  rw [loadSt0, BitVec.or_assoc, hrest, BitVec.or_comm]

/-- A program that is saved, and restored by whatever comes after, goes on with the accumulator and
the status that it had. Only the interrupt mask is the one that there is by then. -/
theorem Reached.context_restored {model : Model} {start saved resumed last restored : Machine}
    {body : List Moment} {st0 st1 high low : Fin 32} (h : Reached model (fun _ => True) start)
    (hdistinct : [st0, st1, high, low].Nodup)
    (hsave : start.Performs (saveContext st0 st1 high low) saved)
    (hbody : Timeline saved body resumed)
    (hkept : ∀ word ∈ [st0, st1, high, low],
      resumed.core.ram.b2.get word = saved.core.ram.b2.get word)
    (hrestore : resumed.Performs (restoreContext st1 high low) last)
    (hlast : last.Performs (restoreSt0 st0) restored) :
    restored.core.regs.acc = start.core.regs.acc ∧
      restored.core.regs.status.st1 = start.core.regs.status.st1 ∧
      restored.core.regs.status.st0 =
        (start.core.regs.status.st0 &&& ~~~St0.intm) |||
          (last.core.regs.status.st0 &&& St0.intm) := by
  have hsaved := h.performs hsave
  have hresumed := hsaved.timeline hbody
  have hreached := hresumed.performs hrestore
  have hbits := h.inPlace
  have hholds := (hsave.straight h.steady.flow (isPlain_saveContext _ _ _ _)).savedIn hdistinct
  have hheld : start.core.context.SavedIn st0 st1 high low resumed.core.ram.b2 := by
    constructor
    case st0 => rw [hkept _ (by simp), hholds.st0]
    case st1 => rw [hkept _ (by simp), hholds.st1]
    case high => rw [hkept _ (by simp), hholds.high]
    case low => rw [hkept _ (by simp), hholds.low]
  obtain ⟨hacc, hst1, hpage, hb2⟩ :=
    (hrestore.straight hresumed.steady.flow (isPlain_restoreContext _ _ _)).restores hheld
      (hresumed.inPlace.part.trans hbits.part.symm) hbits.st1
  obtain ⟨hacc', hstatus⟩ :=
    (hlast.straight hreached.steady.flow (isPlain_restoreSt0 _)).restoresSt0 hpage
  rw [hb2, hheld.st0] at hstatus
  refine ⟨hacc'.trans hacc, ?_, ?_⟩
  · rw [hstatus]
    exact hst1
  · rw [hstatus]
    exact last.core.regs.status.loadSt0_of_fixed hbits.st0

/-- A TMS32025 over LACK 2Ah, CMPL and LDPK 3, a save, LACK 1, SPM 2 and EINT, and a restore. -/
def interrupted : Machine :=
  ⟨.new .tms32025, Bus.empty.loadHalves .program 0 ([0xCA2A, 0xCE27, 0xC803] ++
    saveContext 0 1 2 3 ++ [0xCA01, 0xCE0A, 0xCE00] ++ restoreContext 1 2 3 ++ restoreSt0 0)⟩

/-- The accumulator, the page and the product mode come back, and interrupts are enabled by then. -/
theorem context_restored_interrupted :
    let start := interrupted.steps 3
    let saved := start.steps 5
    let resumed := saved.steps 3
    let last := resumed.steps 4
    let restored := last.steps 1
    (Reached .tms32025 (fun _ => True) start ∧ start.Performs (saveContext 0 1 2 3) saved ∧
      resumed.Performs (restoreContext 1 2 3) last ∧ last.Performs (restoreSt0 0) restored) ∧
      restored.core.regs.acc = 0xFFFFFFD5 ∧ restored.core.regs.status.st1 = 0x07F0 ∧
        restored.core.regs.status.st0 = 0x0403 := by
  intro start saved resumed last restored
  have hreached : Reached .tms32025 (fun _ => True) start :=
    Reached.timeline (.new _) (interrupted.timeline_steps 3)
  have hsave : start.Performs (saveContext 0 1 2 3) saved :=
    Machine.performs_steps (by decide +kernel) (by decide +kernel)
  have hrestore : resumed.Performs (restoreContext 1 2 3) last :=
    Machine.performs_steps (by decide +kernel) (by decide +kernel)
  have hlast : last.Performs (restoreSt0 0) restored :=
    Machine.performs_steps (by decide +kernel) (by decide +kernel)
  obtain ⟨hacc, hst1, hst0⟩ := hreached.context_restored (by decide) hsave
    (saved.timeline_steps 3) (by decide +kernel) hrestore hlast
  exact ⟨⟨hreached, hsave, hrestore, hlast⟩, hacc.trans (by decide +kernel),
    hst1.trans (by decide +kernel), hst0.trans (by decide +kernel)⟩

end ProcessorCores.Tms

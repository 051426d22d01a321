import ProcessorCores.Proofs.Romp.ConditionFrame

/-!
# ROMP storage transfers

A store puts the bytes of an item, a byte, a halfword or a word, at its address, and a store of several
registers the bytes of one word after the other. Nothing else in storage changes, and no register. A load
that finds the bytes of an item gives back the part of the word that was stored, extended as the load
extends it; a load of several registers gives back the words, also to the register that it took its address
from. What comes between a store and a load does not matter as long as it leaves the bytes alone.

The short formats are another way to write an address: with the same address a short access and the one
with a displacement of sixteen bits have the same effect.
-/

namespace ProcessorCores.Romp

/-! ## Items -/

/-- What a transfer of one register moves. -/
inductive Item
  | byte
  | half
  | word
  deriving DecidableEq

namespace Item

/-- The number of bytes of an item. -/
def size : Item → Nat
  | .byte => 1
  | .half => 2
  | .word => 4

/-- The bytes of the item at the low end of a word. -/
def bytes (item : Item) (value : Word) : List Byte :=
  match item with
  | .byte => [lowByte (lowHalf value)]
  | .half => Bus.halfBytes (lowHalf value)
  | .word => Bus.wordBytes value

/-- An item is as many bytes as its size says. -/
theorem length_bytes (item : Item) (value : Word) : (item.bytes value).length = item.size := by
  cases item <;> rfl

end Item

/-- What a store puts into storage. -/
def StoreOp.item : StoreOp → Item
  | .stcs | .stc => .byte
  | .sths | .sth => .half
  | .sts | .st => .word

/-- The form of a store with a displacement of sixteen bits. -/
def StoreOp.long : StoreOp → StoreOp
  | .stcs => .stc
  | .sths => .sth
  | .sts => .st
  | op => op

namespace LoadOp

/-- What a load takes from storage. -/
def item : LoadOp → Item
  | .lcs | .lc => .byte
  | .lhas | .lha | .lhs | .lh => .half
  | .ls | .l => .word

/-- The form of a load with a displacement of sixteen bits. -/
def long : LoadOp → LoadOp
  | .lcs => .lc
  | .lhas => .lha
  | .lhs => .lh
  | .ls => .l
  | op => op

/-- What a load gives that finds the item at the low end of a word. -/
def recovered (op : LoadOp) (value : Word) : Word :=
  match op with
  | .lcs | .lc => (lowByte (lowHalf value)).setWidth 32
  | .lhas | .lha => (lowHalf value).signExtend 32
  | .lhs | .lh => (lowHalf value).setWidth 32
  | .ls | .l => value

end LoadOp

namespace Op

/-- True for the loads and stores of one register. -/
def movesItem : Op → Bool
  | .load _ | .store _ => true
  | _ => false

/-- They have one base cost. -/
theorem cycles_of_movesItem {word : Half} (h : (decode word).handler.movesItem = true) :
    (decode word).cycles = 5 := by
  have hall : ∀ entry ∈ opcodeTable.toList, entry.handler.movesItem = true → entry.cycles = 5 := by
    decide +kernel
  exact hall _ (opcodeTable.get_mem_toList _) h

end Op

/-- The bytes of so many registers, from one upwards. -/
def Bank.bytesFrom (bank : Bank) (r : Reg) : Nat → List Byte
  | 0 => []
  | count + 1 => Bus.wordBytes (bank.get r) ++ bank.bytesFrom (r + 1) count

/-- The registers of a multiple store take four bytes each. -/
theorem Bank.length_bytesFrom (bank : Bank) (r : Reg) (count : Nat) :
    (bank.bytesFrom r count).length = 4 * count := by
  induction count generalizing r with
  | zero => rfl
  | succ count ih =>
    rw [bytesFrom, List.length_append, ih, Bus.length_wordBytes]
    omega

/-- A transfer of several registers reaches those from its first one up. -/
theorem lt_transferCount_iff (first r : Reg) : (r - first).toNat < transferCount first ↔ first ≤ r := by
  have hfirst := first.isLt
  have hr := r.isLt
  rw [transferCount, BitVec.toNat_sub, BitVec.le_def]
  omega

namespace Machine

variable {machine : Machine}

/-! ## Stores -/

/-- A store puts the bytes of its item at its address. -/
theorem puts_store (machine : Machine) (op : StoreOp) (instruction : Instruction) :
    machine.bus.Puts .program (op.address instruction machine.core.regs)
      (op.item.bytes (machine.core.regs.gpr.get instruction.r2)) (machine.store op instruction).bus := by
  cases op with
  | stcs | stc => exact Bus.Puts.store8 machine.bus .program _ _
  | sths | sth => exact Bus.Puts.write16 machine.bus .program _ _
  | sts | st => exact Bus.Puts.write32 machine.bus .program _ _

/-- A store of several registers puts one word after the other. -/
theorem puts_storeRegisters (machine : Machine) (r : Reg) (address : Word) {count : Nat}
    (h : count ≤ 16) :
    machine.bus.Puts .program address (machine.core.regs.gpr.bytesFrom r count)
      (machine.storeRegisters r address count).bus := by
  induction count generalizing machine r address with
  | zero => exact Bus.Puts.nil machine.bus .program address
  | succ count ih =>
    have hword := Bus.Puts.write32 machine.bus .program address (machine.core.regs.gpr.get r)
    have hrest := ih (machine.write32 .program address (machine.core.regs.gpr.get r)) (r + 1) (address + 4)
      (Nat.le_of_succ_le h)
    refine hword.append hrest ?_
    rw [Bus.length_wordBytes, Bank.length_bytesFrom]
    omega

/-! ## Loads -/

/-- A load changes no byte of the storage. -/
theorem load_bytes (machine : Machine) (op : LoadOp) (instruction : Instruction) (space : Space)
    (spot : Word) : (machine.load op instruction).bus.peek8 space spot = machine.bus.peek8 space spot := by
  cases op <;> rfl

/-- A multiple load changes no byte of the storage. -/
theorem loadRegisters_bytes (machine : Machine) (r : Reg) (address : Word) (count : Nat) (space : Space)
    (spot : Word) :
    (machine.loadRegisters r address count).bus.peek8 space spot = machine.bus.peek8 space spot := by
  induction count generalizing machine r address with
  | zero => rfl
  | succ count ih => exact ih ..

/-- A load that finds the item of a word writes what it gives for it to its register. -/
theorem load_core {op : LoadOp} {instruction : Instruction} {value : Word}
    (h : machine.bus.peekBytes .program (op.address instruction machine.core.regs) op.item.size =
      op.item.bytes value) :
    (machine.load op instruction).core =
      machine.core.withRegs (machine.core.regs.setGpr instruction.r2 (op.recovered value)) := by
  cases op with
  | lcs | lc =>
    have hfound := (List.cons.inj h).1
    exact congrArg
      (fun found : Byte => machine.core.withRegs
        (machine.core.regs.setGpr instruction.r2 (found.setWidth 32))) hfound
  | lhas | lha =>
    exact congrArg
      (fun found : Half => machine.core.withRegs
        (machine.core.regs.setGpr instruction.r2 (found.signExtend 32))) (Bus.peek16_of_peekBytes h)
  | lhs | lh =>
    exact congrArg
      (fun found : Half => machine.core.withRegs
        (machine.core.regs.setGpr instruction.r2 (found.setWidth 32))) (Bus.peek16_of_peekBytes h)
  | ls | l =>
    exact congrArg
      (fun found : Word => machine.core.withRegs (machine.core.regs.setGpr instruction.r2 found))
      (Bus.peek32_of_peekBytes h)

/-- A load of several registers changes no other one. -/
theorem loadRegisters_scr (machine : Machine) (r : Reg) (address : Word) (count : Nat) :
    (machine.loadRegisters r address count).core.regs.scr = machine.core.regs.scr := by
  obtain ⟨_, hloaded⟩ := machine.loadRegisters_core r address count
  rw [hloaded]
  rfl

/-- A load of several registers that finds the bytes of a bank copies them, whether or not the register of
its address is among them. -/
theorem loadRegisters_gpr {bank : Bank} {r : Reg} {address : Word} {count : Nat} (hcount : count ≤ 16)
    (h : machine.bus.peekBytes .program address (4 * count) = bank.bytesFrom r count) (reg : Reg) :
    (machine.loadRegisters r address count).core.regs.gpr.get reg =
      if (reg - r).toNat < count then bank.get reg else machine.core.regs.gpr.get reg := by
  induction count generalizing machine r address with
  | zero => rfl
  | succ count ih =>
    rw [Nat.mul_succ, Nat.add_comm, Bus.peekBytes_add] at h
    obtain ⟨hword, hrest⟩ := List.append_inj h (Bus.length_peekBytes ..)
    have hvalue : (machine.read32 .program address).1 = bank.get r := Bus.peek32_of_peekBytes hword
    let read := (machine.read32 .program address).2.setGpr r (bank.get r)
    have hbytes (spot : Word) : read.bus.peek8 .program spot = machine.bus.peek8 .program spot := rfl
    have hread := (Bus.peekBytes_congr hbytes (address + 4) (4 * count)).trans hrest
    have hset : read.core.regs.gpr.get reg =
        if reg = r then bank.get r else machine.core.regs.gpr.get reg := Bank.get_set ..
    rw [loadRegisters]
    dsimp only
    rw [hvalue, ih (Nat.le_of_succ_le hcount) hread, hset]
    by_cases hreg : reg = r
    -- The first register is written once: as there are sixteen, the others do not come round to it.
    · have hbeyond : ¬ (r - (r + 1)).toNat < count := by bv_omega
      have hfirst : (r - r).toNat < count + 1 := by bv_omega
      rw [hreg, if_neg hbeyond, if_pos rfl, if_pos hfirst]
    · have hoffset : (reg - r).toNat = (reg - (r + 1)).toNat + 1 := by bv_omega
      rw [if_neg hreg, hoffset]
      simp only [Nat.succ_lt_succ_iff]

/-! ## Steps -/

/-- What a step makes of a machine that puts bytes into program space: nothing else in storage changes,
and no register but the instruction address. -/
structure Stores (before : Machine) (address : Word) (bytes : List Byte) (after : Machine) : Prop where
  puts : before.bus.Puts .program address bytes after.bus
  gpr : after.core.regs.gpr = before.core.regs.gpr
  scr : ∀ r : Reg, r ≠ Scr.iar → after.core.regs.scr.get r = before.core.regs.scr.get r

/-- What a step makes of a machine that loads the general registers with some contents: storage is left
alone, and so are the other registers but the instruction address. -/
structure Loads (before : Machine) (contents : Reg → Word) (after : Machine) : Prop where
  gpr : ∀ r : Reg, after.core.regs.gpr.get r = contents r
  scr : ∀ r : Reg, r ≠ Scr.iar → after.core.regs.scr.get r = before.core.regs.scr.get r
  bytes : ∀ space spot, after.bus.peek8 space spot = before.bus.peek8 space spot

/-- A step leaves what executing its operation leaves, but for the instruction address. -/
theorem step_leaves {op : Op} (h : machine.operation? = some op) (hclass : op.isBranchClass = false) :
    let executed := machine.fetch.2.2.execute op machine.current machine.following
    machine.step.1.core.regs.gpr = executed.1.core.regs.gpr ∧
      (∀ r : Reg, r ≠ Scr.iar → machine.step.1.core.regs.scr.get r = executed.1.core.regs.scr.get r) ∧
      machine.step.1.bus = executed.1.bus ∧
      machine.step.2 = (decode machine.current.word).cycles + executed.2 := by
  have hslot : ¬ (machine.core.flow = .branchPending ∧ op.isBranchClass = true) :=
    fun hboth => Bool.false_ne_true (hclass.symm.trans hboth.2)
  rw [step_of_operation h hslot]
  exact ⟨(Core.endStep_regs _ _).1, fun r hr => Core.endStep_scr _ _ hr, rfl, rfl⟩

/-- A step stores bytes if its execution puts them on any bus and leaves the registers. -/
theorem stores_of_puts {op : Op} {address : Word} {bytes : List Byte}
    (h : machine.operation? = some op) (hclass : op.isBranchClass = false)
    (hputs : ∀ fetched : Machine, fetched.core = machine.core →
      fetched.bus.Puts .program address bytes
        (fetched.execute op machine.current machine.following).1.bus)
    (hcore : ∀ fetched : Machine,
      (fetched.execute op machine.current machine.following).1.core = fetched.core) :
    machine.Stores address bytes machine.step.1 := by
  obtain ⟨hgpr, hscr, hbus, -⟩ := step_leaves h hclass
  rw [hcore, machine.fetch_core] at hgpr
  refine ⟨fun space spot => ?_, hgpr, fun r hr => ?_⟩
  · rw [hbus, hputs _ machine.fetch_core space spot, machine.fetch_noted.bytes]
  · rw [hscr r hr, hcore, machine.fetch_core]

/-- A step loads contents if its execution gives them to the registers. -/
theorem loads_of_contents {op : Op} {contents : Reg → Word}
    (h : machine.operation? = some op) (hclass : op.isBranchClass = false)
    (hgpr : ∀ r : Reg, (machine.fetch.2.2.execute op machine.current
      machine.following).1.core.regs.gpr.get r = contents r)
    (hscr : (machine.fetch.2.2.execute op machine.current machine.following).1.core.regs.scr =
      machine.core.regs.scr)
    (hbytes : ∀ space spot, (machine.fetch.2.2.execute op machine.current
      machine.following).1.bus.peek8 space spot = machine.fetch.2.2.bus.peek8 space spot) :
    machine.Loads contents machine.step.1 := by
  obtain ⟨hstepGpr, hstepScr, hbus, -⟩ := step_leaves h hclass
  refine ⟨fun r => ?_, fun r hr => ?_, fun space spot => ?_⟩
  · rw [hstepGpr, hgpr]
  · rw [hstepScr r hr, hscr]
  · rw [hbus, hbytes, machine.fetch_noted.bytes]

/-- Before its operation is executed a machine has the bytes that it had before the step. -/
theorem fetch_peekBytes (machine : Machine) (address : Word) (count : Nat) :
    machine.fetch.2.2.bus.peekBytes .program address count =
      machine.bus.peekBytes .program address count :=
  Bus.peekBytes_congr (machine.fetch_noted.bytes .program) address count

/-- A step of a store stores the bytes of its item. -/
theorem stores_of_store {op : StoreOp} (h : machine.operation? = some (.store op)) :
    machine.Stores (op.address machine.current machine.core.regs)
      (op.item.bytes (machine.core.regs.gpr.get machine.current.r2)) machine.step.1 := by
  refine stores_of_puts h rfl (fun fetched hcore => ?_) fun fetched => fetched.store_core op _
  rw [← hcore]
  exact fetched.puts_store op machine.current

/-- A step of STM stores the bytes of its registers. -/
theorem stores_of_stm (h : machine.operation? = some .stm) :
    machine.Stores (displacedAddress machine.current machine.core.regs)
      (machine.core.regs.gpr.bytesFrom machine.current.r2 (transferCount machine.current.r2))
      machine.step.1 := by
  refine stores_of_puts h rfl (fun fetched hcore => ?_) fun fetched => fetched.storeRegisters_core _ _ _
  rw [← hcore]
  exact fetched.puts_storeRegisters _ _ (transferCount_le _)

/-- A step of a load recovers the value whose bytes it finds. -/
theorem loads_of_load {op : LoadOp} {value : Word} (h : machine.operation? = some (.load op))
    (hfound : machine.bus.peekBytes .program (op.address machine.current machine.core.regs) op.item.size =
      op.item.bytes value) :
    machine.Loads
      (fun r => if r = machine.current.r2 then op.recovered value else machine.core.regs.gpr.get r)
      machine.step.1 := by
  rw [← machine.fetch_peekBytes, ← machine.fetch_core] at hfound
  have hcore := load_core hfound
  rw [machine.fetch_core] at hcore
  refine loads_of_contents h rfl (fun r => ?_) ?_ fun space spot => load_bytes ..
  · exact (congrArg (·.regs.gpr.get r) hcore).trans (Bank.get_set ..)
  · exact congrArg (·.regs.scr) hcore

/-- A step of LM loads the registers whose bytes it finds. -/
theorem loads_of_lm {bank : Bank} (h : machine.operation? = some .lm)
    (hfound : machine.bus.peekBytes .program (displacedAddress machine.current machine.core.regs)
      (4 * transferCount machine.current.r2) =
        bank.bytesFrom machine.current.r2 (transferCount machine.current.r2)) :
    machine.Loads
      (fun r => if machine.current.r2 ≤ r then bank.get r else machine.core.regs.gpr.get r)
      machine.step.1 := by
  rw [← machine.fetch_peekBytes, ← machine.fetch_core] at hfound
  refine loads_of_contents h rfl (fun r => ?_) ?_ fun space spot => loadRegisters_bytes ..
  · rw [← machine.fetch_core]
    have hcopied := loadRegisters_gpr (transferCount_le _) hfound r
    simp only [lt_transferCount_iff] at hcopied
    exact hcopied
  · rw [← machine.fetch_core]
    exact machine.fetch.2.2.loadRegisters_scr _ _ _

/-- A step that moves one item costs five. -/
theorem cost_of_movesItem {op : Op} (h : machine.operation? = some op) (hmoves : op.movesItem = true) :
    machine.step.2 = 5 := by
  have hhandler := (operation?_eq_some_iff.mp h).2
  have hcycles : (decode machine.current.word).cycles = 5 := Op.cycles_of_movesItem (hhandler ▸ hmoves)
  cases op with
  | load op | store op =>
    obtain ⟨-, -, -, hcost⟩ := step_leaves h rfl
    rw [hcost, hcycles]
    rfl
  | compute | tsh | lm | stm | port | trap | branch | control | svc | lps | illegal => contradiction

/-! ## Forms -/

/-- With one address a store does the same in its short format and with a displacement of sixteen bits. -/
theorem execute_store_long {op : StoreOp} {short long : Instruction} (hr2 : short.r2 = long.r2)
    (haddress : op.address short machine.core.regs = op.long.address long machine.core.regs)
    (next other : Word) :
    machine.execute (.store op) short next = machine.execute (.store op.long) long other := by
  cases op with
  | stcs | stc | sths | sth | sts | st =>
    simp only [StoreOp.long] at haddress
    simp only [execute, store, StoreOp.long, haddress, hr2]

/-- And so does a load. -/
theorem execute_load_long {op : LoadOp} {short long : Instruction} (hr2 : short.r2 = long.r2)
    (haddress : op.address short machine.core.regs = op.long.address long machine.core.regs)
    (next other : Word) :
    machine.execute (.load op) short next = machine.execute (.load op.long) long other := by
  cases op with
  | lcs | lc | lhas | lha | lhs | lh | ls | l =>
    simp only [LoadOp.long] at haddress
    simp only [execute, load, LoadOp.long, haddress, hr2]

/-! ## Round trips -/

/-- A store puts the bytes of its item at its address and changes nothing else, and a load of the same item
from the same address recovers it at any later time, as long as the bytes are left alone. A store of several
registers puts four bytes for each, and a load of as many from the same address gives them all back and
changes no other one. Short formats do what those with a displacement of sixteen bits do. -/
theorem storage_round_trips (machine : Machine) :
    (∀ op : StoreOp, machine.operation? = some (.store op) →
      let address := op.address machine.current machine.core.regs
      let value := machine.core.regs.gpr.get machine.current.r2
      (op.item.bytes value).length = op.item.size ∧
        machine.Stores address (op.item.bytes value) machine.step.1 ∧ machine.step.2 = 5 ∧
        ∀ (later : Machine) (loadOp : LoadOp), later.operation? = some (.load loadOp) →
          loadOp.item = op.item → loadOp.address later.current later.core.regs = address →
          later.bus.peekBytes .program address op.item.size =
            machine.step.1.bus.peekBytes .program address op.item.size →
          later.Loads
              (fun r => if r = later.current.r2 then loadOp.recovered value else later.core.regs.gpr.get r)
              later.step.1 ∧
            later.step.2 = 5) ∧
      (machine.operation? = some .stm →
        let first := machine.current.r2
        let address := displacedAddress machine.current machine.core.regs
        let bytes := machine.core.regs.gpr.bytesFrom first (transferCount first)
        bytes.length = 4 * (16 - first.toNat) ∧ machine.Stores address bytes machine.step.1 ∧
          ∀ later : Machine, later.operation? = some .lm → later.current.r2 = first →
            displacedAddress later.current later.core.regs = address →
            later.bus.peekBytes .program address bytes.length =
              machine.step.1.bus.peekBytes .program address bytes.length →
            later.Loads
              (fun r => if first ≤ r then machine.core.regs.gpr.get r else later.core.regs.gpr.get r)
              later.step.1) ∧
      ∀ (short long : Instruction) (next other : Word), short.r2 = long.r2 →
        (∀ op : StoreOp, op.address short machine.core.regs = op.long.address long machine.core.regs →
          machine.execute (.store op) short next = machine.execute (.store op.long) long other) ∧
        ∀ op : LoadOp, op.address short machine.core.regs = op.long.address long machine.core.regs →
          machine.execute (.load op) short next = machine.execute (.load op.long) long other := by
  refine ⟨fun op hop => ?_, fun hop => ?_, fun short long next other hr2 => ⟨?_, ?_⟩⟩
  · intro address value
    have hstores : machine.Stores address (op.item.bytes value) machine.step.1 := stores_of_store hop
    have hsize : (op.item.bytes value).length = op.item.size := Item.length_bytes ..
    refine ⟨hsize, hstores, cost_of_movesItem hop rfl,
      fun later loadOp hload hitem haddress hkept => ?_⟩
    have hlength : (op.item.bytes value).length ≤ 0x100000000 := by
      rw [hsize]
      cases op.item <;> decide
    have hput := hstores.puts.peekBytes hlength
    rw [hsize, ← hkept, ← haddress, ← hitem] at hput
    exact ⟨loads_of_load hload hput, cost_of_movesItem hload rfl⟩
  · intro first address bytes
    have hstores : machine.Stores address bytes machine.step.1 := stores_of_stm hop
    have hcount : bytes.length = 4 * transferCount first := Bank.length_bytesFrom ..
    refine ⟨hcount, hstores, fun later hload hfirst haddress hkept => ?_⟩
    have hlength : bytes.length ≤ 0x100000000 := by
      have hle := transferCount_le first
      omega
    have hput := hstores.puts.peekBytes hlength
    rw [← hkept, hcount, ← haddress, ← hfirst] at hput
    have hbytes : bytes =
        machine.core.regs.gpr.bytesFrom later.current.r2 (transferCount later.current.r2) := by
      rw [hfirst]
    rw [← hfirst]
    exact loads_of_lm hload (hput.trans hbytes)
  · exact fun op haddress => execute_store_long hr2 haddress next other
  · exact fun op haddress => execute_load_long hr2 haddress next other

/-- Two registers go to storage across its end and come back; a halfword that a short store puts comes back
with its sign extended, and its long form puts it in the same way. -/
theorem storage_round_trips_wrapped :
    let words := ((started [0xD9, 0xE0, 0xFF, 0xFB, 0xC9, 0xE0, 0xFF, 0xFB]).setGpr 14 1).setGpr 15 2
    let cleared := (words.step.1.setGpr 14 0).setGpr 15 0
    let half := ((started [0x21, 0x52, 0xCA, 0x60, 0x01, 0x02]).setGpr 2 0x100).setGpr 5 0x1234FFFE
    displacedAddress words.current words.core.regs = 0xFFFFFFFB ∧
      cleared.step.1.core.regs.gpr.get 14 = 1 ∧ cleared.step.1.core.regs.gpr.get 15 = 2 ∧
      half.step.1.step.1.core.regs.gpr.get 6 = 0xFFFFFFFE ∧
      half.execute (.store .sths) ⟨0x2152, 0⟩ 6 = half.execute (.store .sth) ⟨0xDC52, 2⟩ 8 := by
  intro words cleared half
  obtain ⟨-, hmultiple, -⟩ := storage_round_trips words
  obtain ⟨-, -, hrestored⟩ := hmultiple (by decide +kernel)
  have hwords := hrestored cleared (by decide +kernel) (by decide +kernel) (by decide +kernel) rfl
  obtain ⟨hsingle, -, hforms⟩ := storage_round_trips half
  obtain ⟨-, -, -, hrecovered⟩ := hsingle .sths (by decide +kernel)
  have hhalf := hrecovered half.step.1 .lha (by decide +kernel) rfl (by decide +kernel) rfl
  have hsixth := hhalf.1.gpr 6
  have hfields : half.step.1.current.r2 = 6 ∧
      half.core.regs.gpr.get half.current.r2 = 0x1234FFFE := by decide +kernel
  rw [if_pos hfields.1.symm, hfields.2] at hsixth
  refine ⟨by decide +kernel, (hwords.gpr 14).trans ?_, (hwords.gpr 15).trans ?_, hsixth.trans ?_, ?_⟩
  · decide +kernel
  · decide +kernel
  · decide
  · exact (hforms ⟨0x2152, 0⟩ ⟨0xDC52, 2⟩ 6 8 (by decide)).1 .sths (by decide +kernel)

end Machine

end ProcessorCores.Romp

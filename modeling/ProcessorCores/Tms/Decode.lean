import ProcessorCores.OpcodeTable
import ProcessorCores.Tms.Op
import ProcessorCores.Word

/-!
# Decoding TMS3202x instructions

Three tables give the operation and its base cost in machine cycles. The main table is keyed by the
high byte of the word. A high byte of 0xCE leads to the control table, keyed by the low byte. A word
0xDn00 to 0xDn07, n being a shift or a register, leads to the table of operations with a long
immediate, keyed by the low three bits. The other words with 0xD as their first digit are undefined,
and an undefined word costs nothing.
-/

namespace ProcessorCores.Tms

/-- The entry of an undefined word. -/
def undefinedEntry : OpcodeEntry Op := ⟨.illegal, 0⟩

/-- Entries of one machine cycle. -/
def single (ops : List Op) : List (OpcodeEntry Op) := ops.map fun op => ⟨op, 1⟩

/-- Entries of two machine cycles. -/
def double (ops : List Op) : List (OpcodeEntry Op) := ops.map fun op => ⟨op, 2⟩

/-- So many entries of one machine cycle for the same operation. -/
def repeated (count : Nat) (op : Op) : List (OpcodeEntry Op) := List.replicate count ⟨op, 1⟩

/-- So many undefined entries. -/
def undefinedEntries (count : Nat) : List (OpcodeEntry Op) := List.replicate count undefinedEntry

/-- Loads of auxiliary registers, and products. -/
def row3 : List (OpcodeEntry Op) :=
  repeated 8 (.operand .lar) ++
    single [.operand .mpy, .operand .sqra, .operand .mpya, .operand .mpys, .operand .lt,
      .operand .lta, .operand .ltp, .move .ltd]

/-- Accumulator loads, sums and logic. -/
def row4 : List (OpcodeEntry Op) :=
  single [.operand .zalh, .operand .zals, .operand .lact, .operand .addc, .operand .subh,
    .operand .subs, .operand .subt, .operand .subc, .operand .addh, .operand .adds,
    .operand .addt, .rpt, .operand .xor, .operand .or, .operand .and, .operand .subb]

/-- Status, pages, moves and products with a coefficient in program memory. -/
def row5 : List (OpcodeEntry Op) :=
  single [.operand .lst, .operand .lst1, .operand .ldp, .operand .lph, .operand .pshd,
      .register .mar, .move .dmov, .operand .bitt] ++
    [⟨.move .tblr, 3⟩, ⟨.move .tblw, 2⟩] ++ single [.operand .sqrs, .operand .lts] ++
    double [.move .macd, .move .mac, .branch .bc, .branch .bnc]

/-- Stores of auxiliary registers and status. -/
def row7 : List (OpcodeEntry Op) :=
  repeated 8 (.store .sar) ++
    single [.store .sst, .store .sst1, .store .popd, .operand .zalr, .store .spl, .store .sph,
      .register .adrk, .register .sbrk]

/-- Short constants. -/
def rowC : List (OpcodeEntry Op) :=
  repeated 8 (.register .lark) ++ repeated 2 (.register .ldpk) ++
    single [.register .lack, .rptk, .register .addk, .register .subk] ++ undefinedEntries 1 ++
    single [.operand .mpyu]

/-- Branches, block moves and the call. -/
def rowF : List (OpcodeEntry Op) :=
  double [.branch .bv, .branch .bgz, .branch .blez, .branch .blz, .branch .bgez, .branch .bnz,
    .branch .bz, .branch .bnv, .branch .bbz, .branch .bbnz, .branch .bioz, .branch .banz,
    .move .blkp, .move .blkd, .call, .branch .b]

/-- The rows of the main table, one for each high digit. -/
def mainRows : List (List (OpcodeEntry Op)) :=
  [ repeated 16 (.operand .add), repeated 16 (.operand .sub), repeated 16 (.operand .lac),
    row3, row4, row5,
    repeated 8 (.store .sacl) ++ repeated 8 (.store .sach),
    row7,
    double (List.replicate 16 (.move .input)),
    repeated 16 (.operand .bit), repeated 16 (.register .mpyk), repeated 16 (.register .mpyk),
    rowC,
    undefinedEntries 16,
    double (List.replicate 16 (.move .output)),
    rowF ]

/-- Interrupts, modes and the block layout. -/
def controlRow0 : List (OpcodeEntry Op) :=
  single [.flag .eint, .flag .dint, .flag .rovm, .flag .sovm, .cnfd, .cnfp, .flag .rsxm,
    .flag .ssxm, .register .spm, .register .spm, .register .spm, .register .spm, .rxf, .sxf,
    .register .fort, .register .fort]

/-- Product, shifts, stack and waiting. -/
def controlRow1 : List (OpcodeEntry Op) :=
  undefinedEntries 4 ++ single [.register .pac, .register .apac, .register .spac] ++
    undefinedEntries 1 ++ single [.register .sfl, .register .sfr] ++ undefinedEntries 1 ++
    single [.register .abs, .register .push, .register .pop] ++ [⟨.register .trap, 2⟩, ⟨.idle, 3⟩]

/-- Transmit mode, negation and computed jumps. -/
def controlRow2 : List (OpcodeEntry Op) :=
  single [.flag .rtxm, .flag .stxm] ++ undefinedEntries 1 ++ single [.register .neg] ++
    double [.register .cala, .register .bacc, .register .ret] ++ single [.register .cmpl] ++
    undefinedEntries 8

/-- Flags, rotations and the choice of a layout. -/
def controlRow3 : List (OpcodeEntry Op) :=
  single [.flag .rc, .flag .sc, .flag .rtc, .flag .stc, .register .rol, .register .ror,
      .flag .rfsm, .flag .sfsm, .flag .rhm, .flag .shm] ++
    undefinedEntries 2 ++ repeated 4 .conf

/-- A row that holds only the normalisation, whose modification of an auxiliary register is the high
digit. -/
def normRow : List (OpcodeEntry Op) :=
  undefinedEntries 2 ++ single [.register .norm] ++ undefinedEntries 13

/-- The rows of the control table, one for each high digit of the low byte. -/
def controlRows : List (List (OpcodeEntry Op)) :=
  [ controlRow0, controlRow1, controlRow2, controlRow3,
    undefinedEntries 16,
    repeated 4 (.register .cmpr) ++ undefinedEntries 12,
    undefinedEntries 16, undefinedEntries 16,
    normRow, normRow, normRow, normRow, normRow, normRow, normRow, normRow ]

/-- The operations with a long immediate. -/
def longEntries : List (OpcodeEntry Op) :=
  double [.long .lrlk, .long .lalk, .long .adlk, .long .sblk, .long .andk, .long .ork,
    .long .xork] ++ undefinedEntries 1

/-- The main table, keyed by the high byte. -/
def mainTable : OpcodeTable Op 256 :=
  ⟨⟨mainRows.flatten.toArray, by decide +kernel⟩, OpcodeTable.pos_of_byte⟩

/-- The control table, keyed by the low byte. -/
def controlTable : OpcodeTable Op 256 :=
  ⟨⟨controlRows.flatten.toArray, by decide +kernel⟩, OpcodeTable.pos_of_byte⟩

/-- The table of long immediates, keyed by the low three bits. -/
def longTable : OpcodeTable Op 8 :=
  ⟨⟨longEntries.toArray, by decide +kernel⟩, OpcodeTable.pos_of_three_bits⟩

/-- The entry of an instruction word. -/
def decode (word : Half) : OpcodeEntry Op :=
  if highByte word = 0xCE then controlTable.get (lowByte word).toNat
  else if word &&& 0xF0F8 = 0xD000 then longTable.get (word.extractLsb' 0 3).toNat
  else mainTable.get (highByte word).toNat

/-! ## Fields -/

/-- A shift or a port number: the second digit. -/
def shiftField (word : Half) : Nat := (word.extractLsb' 8 4).toNat

/-- An auxiliary register: bits 10 to 8. -/
def pointerField (word : Half) : BitVec 3 := word.extractLsb' 8 3

/-- A constant of eight bits. -/
def shortConstant (word : Half) : Half := (lowByte word).setWidth 16

/-- What holds of every entry of the three tables holds of the entry of a word. -/
theorem decode_of_tables {P : OpcodeEntry Op → Prop} (hmain : ∀ entry ∈ mainTable.toList, P entry)
    (hcontrol : ∀ entry ∈ controlTable.toList, P entry)
    (hlong : ∀ entry ∈ longTable.toList, P entry) (word : Half) : P (decode word) := by
  unfold decode
  split
  · exact hcontrol _ (OpcodeTable.get_mem_toList _ _)
  · split
    · exact hlong _ (OpcodeTable.get_mem_toList _ _)
    · exact hmain _ (OpcodeTable.get_mem_toList _ _)

/-- Only undefined words are free. -/
theorem illegal_of_cycles_eq_zero {word : Half} (h : (decode word).cycles = 0) :
    (decode word).handler = .illegal := by
  have hfree := decode_of_tables
    (P := fun entry => entry.cycles = 0 → entry.handler = .illegal)
    (by decide +kernel) (by decide +kernel) (by decide +kernel) word
  exact hfree h

end ProcessorCores.Tms

import ProcessorCores.OpcodeTable
import ProcessorCores.Romp.Op
import ProcessorCores.Romp.Registers

/-!
# Decoding ROMP instructions

The first byte of an instruction decides everything: its operation, its base cost and, through its
high digit, its length.

| high digit | format | halfwords |
|---|---|---|
| 0 | jump on a condition bit | 1 |
| 1 to 7 | storage access with a four-bit displacement, and CAS | 1 |
| 8 | branch with an immediate or absolute target | 2 |
| 9, A, B, E, F | register with register | 1 |
| C, D | immediate or displacement of sixteen bits | 2 |

The base cost covers the step and whatever the operation always incurs. Taken branches, exception
entries and transfers of several registers add the rest.
-/

namespace ProcessorCores.Romp

/-! ## The table -/

/-- The entry of an undefined first byte. -/
def undefinedEntry : OpcodeEntry Op := ⟨.illegal, 1⟩

/-- Entries of the computations that cost one cycle. -/
def quick (ops : List ComputeOp) : List (OpcodeEntry Op) := ops.map fun op => ⟨.compute op, 1⟩

/-- Entries of the branches, whose base cost is one cycle. -/
def branches (ops : List BranchOp) : List (OpcodeEntry Op) := ops.map fun op => ⟨.branch op, 1⟩

/-- So many undefined entries. -/
def undefinedEntries (count : Nat) : List (OpcodeEntry Op) := List.replicate count undefinedEntry

/-- Branches with an immediate or absolute target. -/
def row8 : List (OpcodeEntry Op) :=
  undefinedEntries 8 ++ branches [.bnb, .bnbx, .bala, .balax, .bali, .balix, .bb, .bbx]

/-- Short immediates, control registers and single bits. -/
def row9 : List (OpcodeEntry Op) :=
  quick [.ais, .inc, .sis, .dec, .cis] ++
    [⟨.control .clrsb, 4⟩, ⟨.control .mfs, 2⟩, ⟨.control .setsb, 4⟩] ++
    quick [.clrbu, .clrbl, .setbu, .setbl, .mftbiu, .mftbil, .mttbiu, .mttbil]

/-- Shifts by an amount in the instruction. -/
def rowA : List (OpcodeEntry Op) :=
  quick [.sari, .sari16] ++ undefinedEntries 2 ++ quick [.lis] ++ undefinedEntries 3 ++
    quick [.sri, .sri16, .sli, .sli16, .srpi, .srpi16, .slpi, .slpi16]

/-- Comparisons, traps and shifts by an amount in a register. -/
def rowB : List (OpcodeEntry Op) :=
  quick [.sar, .exts, .sf, .cl, .c] ++ [⟨.control .mts, 3⟩] ++ undefinedEntries 2 ++
    quick [.sr, .srp, .sl, .slp, .mftb] ++ [⟨.trap .tgte, 2⟩, ⟨.trap .tlt, 2⟩] ++ quick [.mttb]

/-- Immediates and displacements of sixteen bits, first half. -/
def rowC : List (OpcodeEntry Op) :=
  [⟨.svc, 1⟩] ++ quick [.ai, .cal16, .oiu, .oil, .nilz, .nilo, .xil, .cal] ++
    [⟨.lm, 1⟩, ⟨.load .lha, 5⟩, ⟨.port .ior, 1⟩, ⟨.trap .ti, 1⟩, ⟨.load .l, 5⟩, ⟨.load .lc, 5⟩,
      ⟨.tsh, 5⟩]

/-- Immediates and displacements of sixteen bits, second half. -/
def rowD : List (OpcodeEntry Op) :=
  [⟨.lps, 1⟩] ++ quick [.aei, .sfi, .cli, .ci, .niuz, .niuo, .xiu, .cau] ++
    [⟨.stm, 1⟩, ⟨.load .lh, 5⟩, ⟨.port .iow, 2⟩, ⟨.store .sth, 5⟩, ⟨.store .st, 5⟩,
      ⟨.store .stc, 5⟩] ++ undefinedEntries 1

/-- Register arithmetic and branches to a register. -/
def rowE : List (OpcodeEntry Op) :=
  [⟨.compute .abs, 2⟩] ++ quick [.a, .s, .o, .twoc, .n] ++ undefinedEntries 1 ++ quick [.x] ++
    branches [.bnbr, .bnbrx] ++ undefinedEntries 1 ++ [⟨.load .lhs, 5⟩] ++
    branches [.balr, .balrx, .bbr, .bbrx]

/-- Extended arithmetic and character moves. -/
def rowF : List (OpcodeEntry Op) :=
  undefinedEntries 1 ++ quick [.ae, .se, .ca16, .onec, .clz] ++ undefinedEntries 3 ++
    quick [.mc03, .mc13, .mc23, .mc33, .mc30, .mc31, .mc32]

/-- The sixteen rows of the table, one for each high digit of the first byte. The short formats fill
a row each. -/
def opcodeRows : List (List (OpcodeEntry Op)) :=
  [ List.replicate 16 ⟨.branch .jb, 1⟩, List.replicate 16 ⟨.store .stcs, 5⟩,
    List.replicate 16 ⟨.store .sths, 5⟩, List.replicate 16 ⟨.store .sts, 5⟩,
    List.replicate 16 ⟨.load .lcs, 5⟩, List.replicate 16 ⟨.load .lhas, 5⟩,
    List.replicate 16 ⟨.compute .cas, 1⟩, List.replicate 16 ⟨.load .ls, 5⟩,
    row8, row9, rowA, rowB, rowC, rowD, rowE, rowF ]

/-- The table keyed by the first byte. -/
def opcodeTable : OpcodeTable Op 256 :=
  ⟨⟨opcodeRows.flatten.toArray, by decide +kernel⟩, OpcodeTable.pos_of_byte⟩

/-- The entry of an instruction, found from its first halfword. -/
def decode (word : Half) : OpcodeEntry Op := opcodeTable.get (highByte word).toNat

/-! ## Fields -/

/-- The halfwords of one instruction, the second being zero where there is none. -/
structure Instruction where
  word : Half
  extension : Half
  deriving DecidableEq, Repr

/-- True for the formats of two halfwords. -/
def hasExtension (word : Half) : Bool :=
  match word.extractLsb' 12 4 with
  | 0x8 | 0xC | 0xD => true
  | _ => false

namespace Instruction

/-- The register named by the third digit. -/
def r2 (instruction : Instruction) : Reg := instruction.word.extractLsb' 4 4

/-- The register named by the last digit. -/
def r3 (instruction : Instruction) : Reg := instruction.word.extractLsb' 0 4

/-- The second digit: a register in CAS, a displacement in the short storage formats. -/
def r1 (instruction : Instruction) : Reg := instruction.word.extractLsb' 8 4

/-- The last digit as an operand. -/
def shortImmediate (instruction : Instruction) : Word := instruction.r3.setWidth 32

/-- The second halfword with its sign extended. -/
def immediate (instruction : Instruction) : Word := instruction.extension.signExtend 32

/-- The second halfword with zeros above it. -/
def lowImmediate (instruction : Instruction) : Word := instruction.extension.setWidth 32

/-- The second halfword with zeros below it. -/
def highImmediate (instruction : Instruction) : Word := instruction.lowImmediate <<< 16

/-- The other register of the pair that R2 belongs to. -/
def twin (instruction : Instruction) : Reg := instruction.r2 ^^^ 1

/-- The last digit as a shift amount. -/
def nearShift (instruction : Instruction) : Nat := instruction.r3.toNat

/-- The last digit plus sixteen as a shift amount. -/
def farShift (instruction : Instruction) : Nat := instruction.r3.toNat + 16

/-- The displacement of a short storage access to items of `2 ^ scale` bytes. -/
def shortDisplacement (instruction : Instruction) (scale : Nat) : Word :=
  instruction.r1.setWidth 32 <<< scale

/-- The displacement of a jump: a signed count of halfwords in the low byte. -/
def jumpDisplacement (instruction : Instruction) : Word :=
  (lowByte instruction.word).signExtend 32 <<< 1

/-- The displacement of a branch: a signed count of halfwords in twenty bits. -/
def branchDisplacement (instruction : Instruction) : Word :=
  (instruction.r3 ++ instruction.extension).signExtend 32 <<< 1

/-- The target of an absolute branch: an even address of twenty-four bits. -/
def absoluteTarget (instruction : Instruction) : Word :=
  (lowByte instruction.word ++ instruction.extension).setWidth 32 &&& ~~~1

end Instruction

/-- No instruction is free. -/
theorem one_le_cycles (word : Half) : 1 ≤ (decode word).cycles := by
  have all : ∀ entry ∈ opcodeTable.toList, 1 ≤ entry.cycles := by decide +kernel
  exact all _ (opcodeTable.get_mem_toList _)

end ProcessorCores.Romp

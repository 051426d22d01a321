/-!
# Operations of the TMS3202x

One constructor for each mnemonic, gathered by what the operation does with memory and the program
counter. The grouping is what arguments about a class of instructions lean on.
-/

namespace ProcessorCores.Tms

/-- Operations that read a data operand and change only registers: those on the accumulator, on the
multiplier, and on auxiliary registers, page, stack, single bits and status. -/
inductive OperandOp
  | add | sub | lac | lact | addt | subt | adds | subs | addc | subb | addh | subh | subc
  | zalh | zals | zalr | xor | or | and
  | lt | lta | lts | ltp | mpy | mpya | mpys | mpyu | sqra | sqrs | lph
  | lar | ldp | pshd | bit | bitt | lst | lst1
  deriving DecidableEq, Repr

/-- Operations that write a data operand. -/
inductive StoreOp
  | sacl | sach | spl | sph | sar | popd | sst | sst1
  deriving DecidableEq, Repr

/-- Operations with a second word as operand. -/
inductive LongOp
  | lalk | adlk | sblk | andk | ork | xork | lrlk
  deriving DecidableEq, Repr

/-- Operations on registers alone: those on the accumulator, on the multiplier, on auxiliary
registers, page and format, and on the stack with the computed jumps. -/
inductive RegisterOp
  | lack | addk | subk | abs | neg | cmpl | sfl | sfr | rol | ror | norm
  | mpyk | pac | apac | spac | spm
  | lark | adrk | sbrk | mar | cmpr | ldpk | fort
  | push | pop | cala | bacc | ret | trap
  deriving DecidableEq, Repr

/-- Operations that set or clear one status flag. -/
inductive FlagOp
  | eint | dint | rovm | sovm | rsxm | ssxm | rc | sc | rtc | stc | rhm | shm | rfsm | sfsm
  | rtxm | stxm
  deriving DecidableEq, Repr

/-- Branches to the address in the second word. -/
inductive BranchOp
  | b | bc | bnc | bz | bnz | bgz | bgez | blz | blez | bbz | bbnz | bioz | banz | bv | bnv
  deriving DecidableEq, Repr

/-- Operations that move words between memories, or within one. -/
inductive MoveOp
  | dmov | ltd | mac | macd | blkd | blkp | tblr | tblw
  /-- Read a port. -/
  | input
  /-- Write a port. -/
  | output
  deriving DecidableEq, Repr

/-- What an instruction does. -/
inductive Op
  | operand (op : OperandOp)
  | store (op : StoreOp)
  | long (op : LongOp)
  | register (op : RegisterOp)
  | flag (op : FlagOp)
  | branch (op : BranchOp)
  | move (op : MoveOp)
  | call
  /-- Repeat, with the count in memory. -/
  | rpt
  /-- Repeat, with the count in the instruction. -/
  | rptk
  | idle
  /-- Clear the XF output. -/
  | rxf
  /-- Set the XF output. -/
  | sxf
  /-- Put block B0 into data space. -/
  | cnfd
  /-- Put block B0 into program space. -/
  | cnfp
  /-- Choose a layout of the blocks. -/
  | conf
  | illegal
  deriving DecidableEq, Repr

end ProcessorCores.Tms

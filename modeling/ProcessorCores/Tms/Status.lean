import ProcessorCores.Text.Digits
import ProcessorCores.Word

/-!
# Status words of the TMS3202x

Two packed words hold the pointers, the page, the modes and the flags.

| word | 15 14 13 | 12 | 11 | 10 | 9 | 8 | 7 | 6 | 5 | 4 | 3 | 2 | 1 0 |
|---|---|---|---|---|---|---|---|---|---|---|---|---|---|
| ST0 | ARP | OV | OVM | 1 | INTM | DP | DP | DP | DP | DP | DP | DP | DP |
| ST1 | ARB | CNF0 | TC | SXM | C | 1 | 1 or CNF1 | HM | FSM | XF | FO | TXM | PM |

Some bits are fixed to one: bit 10 of ST0, and in ST1 those that the part fixes. Every setter puts
them back, so a status that has its fixed bits keeps them.
-/

namespace ProcessorCores.Tms

/-! ## Fields of ST0 -/

namespace St0

/-- Auxiliary register pointer. -/
def arp : Half := 0xE000

/-- Overflow. -/
def ov : Half := 0x1000

/-- Overflow (saturation) mode. -/
def ovm : Half := 0x0800

/-- The fixed one. -/
def fixed : Half := 0x0400

/-- Interrupt mask: set, it holds back every request. -/
def intm : Half := 0x0200

/-- Data page. -/
def dp : Half := 0x01FF

/-- The value after a reset. -/
def reset : Half := 0x0600

end St0

/-! ## Fields of ST1 -/

namespace St1

/-- Backup of the auxiliary register pointer. -/
def arb : Half := 0xE000

/-- Block configuration, low bit. -/
def cnf0 : Half := 0x1000

/-- Test and control flag. -/
def tc : Half := 0x0800

/-- Sign-extension mode. -/
def sxm : Half := 0x0400

/-- Carry. -/
def c : Half := 0x0200

/-- Block configuration, high bit, on the parts that have one. -/
def cnf1 : Half := 0x0080

/-- Hold mode. -/
def hm : Half := 0x0040

/-- Frame synchronisation mode. -/
def fsm : Half := 0x0020

/-- XF output. -/
def xf : Half := 0x0010

/-- Serial format. -/
def fo : Half := 0x0008

/-- Transmit mode. -/
def txm : Half := 0x0004

/-- Product shift mode. -/
def pm : Half := 0x0003

/-- The value after a reset, before the part's fixed bits. -/
def reset : Half := 0x0770

end St1

/-- The flags of one bit. -/
inductive StatusFlag
  | ov | ovm | intm
  | cnf0 | cnf1 | tc | sxm | carry | hm | fsm | xf | fo | txm
  deriving DecidableEq, Repr

namespace StatusFlag

/-- True for the flags that stand in ST0. -/
def inSt0 : StatusFlag → Bool
  | .ov | .ovm | .intm => true
  | _ => false

/-- The bit of a flag in its word. -/
def mask : StatusFlag → Half
  | .ov => St0.ov
  | .ovm => St0.ovm
  | .intm => St0.intm
  | .cnf0 => St1.cnf0
  | .cnf1 => St1.cnf1
  | .tc => St1.tc
  | .sxm => St1.sxm
  | .carry => St1.c
  | .hm => St1.hm
  | .fsm => St1.fsm
  | .xf => St1.xf
  | .fo => St1.fo
  | .txm => St1.txm

end StatusFlag

/-- The number of an auxiliary register. -/
abbrev Pointer := BitVec 3

/-- The status words, and the bits of ST1 that the part fixes to one. -/
structure Status where
  st0 : Half
  st1 : Half
  st1Fixed : Half
  deriving DecidableEq, Repr

namespace Status

/-- The status after a reset: INTM, SXM, C, HM, FSM and XF set and the rest clear. -/
def reset (status : Status) : Status :=
  { status with st0 := St0.reset, st1 := St1.reset ||| status.st1Fixed }

/-- The power-on status of a part that fixes some bits of ST1. -/
def new (st1Fixed : Half) : Status := reset ⟨0, 0, st1Fixed⟩

/-- Read a flag. -/
def has (status : Status) (flag : StatusFlag) : Bool :=
  meets (if flag.inSt0 then status.st0 else status.st1) flag.mask

/-- Set or clear a flag. -/
def put (status : Status) (flag : StatusFlag) (on : Bool) : Status :=
  if flag.inSt0 then { status with st0 := assign status.st0 flag.mask on ||| St0.fixed }
  else { status with st1 := assign status.st1 flag.mask on ||| status.st1Fixed }

/-- The auxiliary register in use. -/
def arp (status : Status) : Pointer := status.st0.extractLsb' 13 3

/-- The backup of the pointer. -/
def arb (status : Status) : Pointer := status.st1.extractLsb' 13 3

/-- The data page, in units of 128 words. -/
def dp (status : Status) : Half := status.st0 &&& St0.dp

/-- The product shift mode, 0 to 3. -/
def pm (status : Status) : Half := status.st1 &&& St1.pm

/-- Choose an auxiliary register by the low three bits of a number. The pointer it had is saved as the
backup. -/
def setArp (status : Status) (n : Nat) : Status :=
  { status with
    st0 := (status.st0 &&& ~~~St0.arp) ||| ((BitVec.ofNat 16 n <<< 13) &&& St0.arp) ||| St0.fixed
    st1 := (status.st1 &&& ~~~St1.arb) ||| (status.st0 &&& St0.arp) ||| status.st1Fixed }

/-- Choose a data page by the low nine bits of a word. -/
def setDp (status : Status) (page : Half) : Status :=
  { status with st0 := (status.st0 &&& ~~~St0.dp) ||| (page &&& St0.dp) ||| St0.fixed }

/-- Choose a product shift mode by the low two bits of a word. -/
def setPm (status : Status) (mode : Half) : Status :=
  { status with st1 := (status.st1 &&& ~~~St1.pm) ||| (mode &&& St1.pm) ||| status.st1Fixed }

/-- Load ST0 from a word; the interrupt mask is not affected. -/
def loadSt0 (status : Status) (value : Half) : Status :=
  { status with st0 := (status.st0 &&& St0.intm) ||| (value &&& ~~~St0.intm) ||| St0.fixed }

/-- Load ST1 from a word. The backup pointer goes to the pointer as well. -/
def loadSt1 (status : Status) (value : Half) : Status :=
  let st1 := value ||| status.st1Fixed
  { status with st0 := (status.st0 &&& ~~~St0.arp) ||| (st1 &&& St1.arb), st1 := st1 }

/-- Replace both words, keeping the fixed bits. -/
def setWords (status : Status) (st0 st1 : Half) : Status :=
  { status with st0 := st0 ||| St0.fixed, st1 := st1 ||| status.st1Fixed }

/-- The letters of ST1 in a listing: each mask with the character for a set and for a clear bit. -/
def st1Letters : List (Half × Char × Char) :=
  [(St1.cnf0, 'P', 'D'), (St1.tc, 'T', '.'), (St1.sxm, 'S', '.'), (St1.c, 'C', '?'),
    (0x0100, '.', '?'), (St1.cnf1, '.', '?'), (St1.hm, 'H', '.'), (St1.fsm, 'F', '.'),
    (St1.xf, 'X', '.'), (St1.fo, 'f', '.'), (St1.txm, 'o', 'i')]

/-- The letters of ST0 between its pointer and its page. -/
def st0Letters : List (Half × Char × Char) :=
  [(St0.ov, 'O', '.'), (St0.ovm, 'M', '.'), (St0.fixed, '.', '?'), (St0.intm, 'I', '.')]

/-- One character for each listed bit of a word. -/
def marks (letters : List (Half × Char × Char)) (word : Half) : String :=
  String.ofList (letters.map fun (mask, yes, no) => if meets word mask then yes else no)

/-- The status as a debugger shows it. -/
def render (status : Status) : String :=
  "arp" ++ toString status.arp.toNat ++ marks st0Letters status.st0 ++
    "dp" ++ Text.hexLower 3 status.dp.toNat ++
    "  arb" ++ toString status.arb.toNat ++ marks st1Letters status.st1 ++
    "pm" ++ toString status.pm.toNat

end Status

end ProcessorCores.Tms

/-!
# ROMP operations

One constructor for each mnemonic, gathered by what the operation can change. The grouping is what
frame arguments lean on: a computation writes at most one general register and the condition
status, a branch at most one general register and the control flow, and so on.
-/

namespace ProcessorCores.Romp

/-- Operations that compute from registers alone: address arithmetic, sums and differences,
comparisons, logic, changes of single bits and their moves to and from the test bit, shifts,
shifts into the other register of a pair, changes of representation, and character moves. -/
inductive ComputeOp
  | cas | cal | cal16 | cau | ca16 | lis | inc | dec
  | ai | aei | sfi | ais | sis | sf | a | s | ae | se | twoc
  | cli | ci | cis | cl | c
  | oiu | oil | nilz | nilo | niuz | niuo | xil | xiu | o | n | x | onec
  | clrbu | clrbl | setbu | setbl | mftbiu | mftbil | mftb | mttbiu | mttbil | mttb
  | sari | sari16 | sar | sri | sri16 | sr | sli | sli16 | sl
  | srpi | srpi16 | srp | slpi | slpi16 | slp
  | exts | abs | clz
  | mc03 | mc13 | mc23 | mc33 | mc30 | mc31 | mc32
  deriving DecidableEq, Repr

/-- Operations that load one register from storage. -/
inductive LoadOp
  | lcs | lc | lhas | lha | lhs | lh | ls | l
  deriving DecidableEq, Repr

/-- Operations that store one register. -/
inductive StoreOp
  | stcs | stc | sths | sth | sts | st
  deriving DecidableEq, Repr

/-- Operations on the input and output ports. -/
inductive PortOp
  | ior | iow
  deriving DecidableEq, Repr

/-- Operations that compare two operands and trap. -/
inductive TrapOp
  | ti | tgte | tlt
  deriving DecidableEq, Repr

/-- Branches. A name that ends in x is the form with execute, which runs one more instruction
before control is transferred. -/
inductive BranchOp
  | jb | bb | bbx | bnb | bnbx
  | bbr | bbrx | bnbr | bnbrx
  | bala | balax | bali | balix | balr | balrx
  deriving DecidableEq, Repr

/-- Operations on the system control registers one at a time. -/
inductive ControlOp
  | mfs | mts | clrsb | setsb
  deriving DecidableEq, Repr

/-- What an instruction does. -/
inductive Op
  | compute (op : ComputeOp)
  | load (op : LoadOp)
  | store (op : StoreOp)
  /-- Test and set half. -/
  | tsh
  /-- Load multiple. -/
  | lm
  /-- Store multiple. -/
  | stm
  | port (op : PortOp)
  | trap (op : TrapOp)
  | branch (op : BranchOp)
  | control (op : ControlOp)
  /-- Supervisor call. -/
  | svc
  /-- Load program status. -/
  | lps
  /-- Undefined, multiply step, divide step and wait. -/
  | illegal
  deriving DecidableEq, Repr

/-- True for the operations that may not stand in a delay slot. -/
def Op.isBranchClass : Op → Bool
  | .branch _ | .trap _ | .svc | .lps => true
  | _ => false

end ProcessorCores.Romp

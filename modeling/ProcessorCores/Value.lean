import ProcessorCores.Text.Digits
import ProcessorCores.Word

/-!
# Values behind state paths

A debugger reads and patches a core through typed values. A patch narrows the value to the width
of the register, and is refused, never truncated, when it does not fit. A refusal is a cause; its
wording is in one place.

A change that can be refused leaves a state in either case, and the refusal stands beside it.
-/

namespace ProcessorCores

/-- A typed value of a state query or patch. -/
inductive Value
  | flag (on : Bool)
  | byte (value : Byte)
  | half (value : Half)
  | word (value : Word)
  | long (value : Long)
  | text (value : String)
  deriving DecidableEq, Repr

/-- What a register accepts, named when it refuses a value. -/
inductive Expected
  /-- A number of at most so many bits. -/
  | unsigned (bits : Nat)
  /-- A number or a truth value. -/
  | boolean
  /-- An auxiliary register number. -/
  | pointer
  /-- A count of clocks within one timer tick. -/
  | timerPhase
  /-- Block storage in the shape of its model. -/
  | blockLayout
  deriving DecidableEq, Repr

/-- Why a state path could not be patched. -/
inductive StateError
  /-- No state lives at the path. -/
  | unknownPath (path : String)
  /-- The path can only be queried. -/
  | readOnly (path : String)
  /-- The value does not fit what lives at the path. -/
  | mismatch (path : String) (expected : Expected)
  deriving DecidableEq, Repr

namespace Expected

/-- The accepted values in words. -/
def describe : Expected → String
  | .unsigned bits => "u" ++ toString bits
  | .boolean => "bool"
  | .pointer => "0..=7"
  | .timerPhase => "0..CLK"
  | .blockLayout => "the model's block layout"

end Expected

namespace StateError

/-- The wording of a refusal. -/
def message : StateError → String
  | .unknownPath path => "unknown state path `" ++ path ++ "`"
  | .readOnly path => "state path `" ++ path ++ "` is read-only"
  | .mismatch path expected => "state path `" ++ path ++ "` expects " ++ expected.describe

end StateError

/-- How a change of a state that can be refused ends. -/
inductive Attempt (σ : Type)
  /-- The change is made. -/
  | done (state : σ)
  /-- The change is refused, and the state is left as it has become by then. -/
  | refused (error : StateError) (state : σ)
  deriving DecidableEq, Repr

namespace Attempt

variable {σ α : Type}

/-- The state that is left. -/
def state : Attempt σ → σ
  | .done state => state
  | .refused _ state => state

/-- Go on with what a value is narrowed to. If it does not fit, the attempt ends there, and leaves the
state as it is. -/
def narrow (state : σ) (narrowed : Except StateError α) (next : α → Attempt σ) : Attempt σ :=
  match narrowed with
  | .ok content => next content
  | .error error => .refused error state

/-- Where a refusal ends everything, only the state of a change that is made goes on. -/
instance : MonadLift Attempt (Except StateError) where
  monadLift
    | .done state => .ok state
    | .refused error _ => .error error

end Attempt

namespace Value

/-- The number a value holds; a text holds none. -/
def number? : Value → Option Nat
  | .flag on => some on.toNat
  | .byte value => some value.toNat
  | .half value => some value.toNat
  | .word value => some value.toNat
  | .long value => some value.toNat
  | .text _ => none

/-- The truth value of a number: true when it is not zero. -/
def truth? (value : Value) : Option Bool := value.number?.map (· != 0)

/-- Narrow a value to a register of `bits` bits patched through `path`. -/
def toRegister (value : Value) (bits : Nat) (path : String) : Except StateError (BitVec bits) :=
  match value.number? with
  | some number =>
    let register := BitVec.ofNat bits number
    if register.toNat = number then .ok register else .error (.mismatch path (.unsigned bits))
  | none => .error (.mismatch path (.unsigned bits))

/-- Narrow a value to a flag patched through `path`. -/
def toFlag (value : Value) (path : String) : Except StateError Bool :=
  match value.truth? with
  | some on => .ok on
  | none => .error (.mismatch path .boolean)

/-- A value as text: registers in hexadecimal with all their digits, long counts in decimal. -/
def render : Value → String
  | .flag true => "true"
  | .flag false => "false"
  | .byte value => "0x" ++ Text.hexUpper 2 value.toNat
  | .half value => "0x" ++ Text.hexUpper 4 value.toNat
  | .word value => "0x" ++ Text.hexUpper 8 value.toNat
  | .long value => toString value.toNat
  | .text value => value

/-- A register takes exactly the numbers of its width, and keeps them whole. -/
theorem toRegister_eq_ok_iff {value : Value} {bits : Nat} {path : String} {register : BitVec bits} :
    value.toRegister bits path = .ok register ↔ value.number? = some register.toNat := by
  unfold toRegister
  cases value.number? with
  | none => simp
  | some number =>
    by_cases fits : (BitVec.ofNat bits number).toNat = number
    · simp only [fits, if_true, Except.ok.injEq, Option.some.injEq]
      constructor
      · rintro rfl
        exact fits.symm
      · rintro rfl
        simp
    · have hne : number ≠ register.toNat := by
        rintro rfl
        simp at fits
      simp only [fits, if_false]
      simp [hne]

end Value

end ProcessorCores

import ProcessorCores.Text.Blank
import ProcessorCores.Word

/-!
# Models of the TMS3202x

The two parts share an instruction set. They differ in the size and place of the on-chip blocks, in
the instruction that moves those blocks between data and program space, and in bit 7 of ST1, which
is a fixed one on the TMS32025 and a configuration bit on the TMS32026.
-/

namespace ProcessorCores.Tms

/-- A supported part. -/
inductive Model
  | tms32025
  | tms32026
  deriving DecidableEq, Repr

/-- An on-chip block that can answer in data space or in program space. -/
structure Block where
  name : String
  /-- Size in words. -/
  size : Half
  /-- First word of the window in data space. -/
  dataBase : Half
  /-- First word of the window in program space. -/
  programBase : Half
  deriving DecidableEq, Repr

/-- True for the addresses from `base` up that lie within `size` words. -/
def inWindow (base size address : Half) : Bool := base ≤ address && address - base < size

/-- True when an address falls in the data window. -/
def Block.inDataWindow (block : Block) (address : Half) : Bool :=
  inWindow block.dataBase block.size address

/-- True when an address falls in the program window. -/
def Block.inProgramWindow (block : Block) (address : Half) : Bool :=
  inWindow block.programBase block.size address

/-- Why a model name was refused. -/
inductive ModelError
  /-- The name matches no supported part. -/
  | unknown (name : String)
  deriving DecidableEq, Repr

/-- The wording of a refusal. -/
def ModelError.message : ModelError → String
  | .unknown name => "unknown DSP model `" ++ name ++ "` (expected tms32025 or tms32026)"

namespace Model

/-- The part name in lower case. -/
def name : Model → String
  | .tms32025 => "tms32025"
  | .tms32026 => "tms32026"

/-- True where CNFD and CNFP move block B0. -/
def hasCnfPair : Model → Bool
  | .tms32025 => true
  | .tms32026 => false

/-- True where CONF chooses the layout of the blocks. -/
def hasConf : Model → Bool
  | .tms32025 => false
  | .tms32026 => true

/-- The bits of ST1 that read as one whatever is written. -/
def st1Fixed : Model → Half
  | .tms32025 => 0x0180
  | .tms32026 => 0x0100

/-- The configurable blocks in order. Block B1 of the TMS32025 never moves, and its program window
is never mapped. -/
def blocks : Model → List Block
  | .tms32025 => [⟨"B0", 0x100, 0x0200, 0xFF00⟩, ⟨"B1", 0x100, 0x0300, 0x0000⟩]
  | .tms32026 =>
    [⟨"B0", 0x200, 0x0200, 0xFA00⟩, ⟨"B1", 0x200, 0x0400, 0xFC00⟩, ⟨"B3", 0x200, 0x0600, 0xFE00⟩]

/-- Read a part name. White space around it and the case of its letters do not matter; a refusal
keeps the name as it was given. -/
def ofName (name : String) : Except ModelError Model :=
  match String.ofList ((Text.trimBlank name.toList).map Char.toLower) with
  | "tms32025" | "32025" | "c25" => .ok .tms32025
  | "tms32026" | "32026" | "c26" => .ok .tms32026
  | _ => .error (.unknown name)

end Model

end ProcessorCores.Tms

import ProcessorCores.Proofs.Budgets
import ProcessorCores.Proofs.BusBytes
import ProcessorCores.Proofs.ByteMemory
import ProcessorCores.Proofs.Paths
import ProcessorCores.Proofs.Romp.Arbitration
import ProcessorCores.Proofs.Romp.Branches
import ProcessorCores.Proofs.Romp.Comparisons
import ProcessorCores.Proofs.Romp.ConditionFrame
import ProcessorCores.Proofs.Romp.ControlFlow
import ProcessorCores.Proofs.Romp.Entry
import ProcessorCores.Proofs.Romp.ExtendedSums
import ProcessorCores.Proofs.Romp.Patches
import ProcessorCores.Proofs.Romp.PortWindow
import ProcessorCores.Proofs.Romp.ProgramChecks
import ProcessorCores.Proofs.Romp.Return
import ProcessorCores.Proofs.Romp.Runs
import ProcessorCores.Proofs.Romp.Shifts
import ProcessorCores.Proofs.Romp.StorageTransfers
import ProcessorCores.Proofs.Romp.SumConditions
import ProcessorCores.Proofs.Romp.TestBits
import ProcessorCores.Proofs.Romp.Transfer
import ProcessorCores.Proofs.Romp.TranslateLine
import ProcessorCores.Proofs.Tms.BlockLayout
import ProcessorCores.Proofs.Tms.BlockMoves
import ProcessorCores.Proofs.Tms.CheckedTimer
import ProcessorCores.Proofs.Tms.Clocks
import ProcessorCores.Proofs.Tms.Clockwork
import ProcessorCores.Proofs.Tms.Contexts
import ProcessorCores.Proofs.Tms.Countdown
import ProcessorCores.Proofs.Tms.Courses
import ProcessorCores.Proofs.Tms.Division
import ProcessorCores.Proofs.Tms.DotProducts
import ProcessorCores.Proofs.Tms.Executions
import ProcessorCores.Proofs.Tms.FixedBits
import ProcessorCores.Proofs.Tms.FixedBlocks
import ProcessorCores.Proofs.Tms.Flags
import ProcessorCores.Proofs.Tms.Frames
import ProcessorCores.Proofs.Tms.Handlers
import ProcessorCores.Proofs.Tms.HighHalves
import ProcessorCores.Proofs.Tms.Holds
import ProcessorCores.Proofs.Tms.LimbArithmetic
import ProcessorCores.Proofs.Tms.Metering
import ProcessorCores.Proofs.Tms.Normalization
import ProcessorCores.Proofs.Tms.OffChip
import ProcessorCores.Proofs.Tms.Operands
import ProcessorCores.Proofs.Tms.PatchedPlaces
import ProcessorCores.Proofs.Tms.Patches
import ProcessorCores.Proofs.Tms.Pointers
import ProcessorCores.Proofs.Tms.Polls
import ProcessorCores.Proofs.Tms.RepeatBlocks
import ProcessorCores.Proofs.Tms.Requests
import ProcessorCores.Proofs.Tms.Resets
import ProcessorCores.Proofs.Tms.Restores
import ProcessorCores.Proofs.Tms.ReturnStack
import ProcessorCores.Proofs.Tms.ReverseCarry
import ProcessorCores.Proofs.Tms.Saturation
import ProcessorCores.Proofs.Tms.Setters
import ProcessorCores.Proofs.Tms.SingleClocks
import ProcessorCores.Proofs.Tms.Slices
import ProcessorCores.Proofs.Tms.Standstill
import ProcessorCores.Proofs.Tms.StraightCode
import ProcessorCores.Proofs.Tms.Termination
import ProcessorCores.Proofs.Tms.Transfers
import ProcessorCores.Proofs.Tms.Turns
import ProcessorCores.Proofs.Tms.Wakeups
import ProcessorCores.Romp.Place
import ProcessorCores.Romp.Run
import ProcessorCores.Tms.Place
import ProcessorCores.Tms.Run

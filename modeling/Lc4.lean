import Lc4.Main
import Lc4.Proofs.Breakpoints
import Lc4.Proofs.CutFiles
import Lc4.Proofs.Evaluation
import Lc4.Proofs.FaultAtomicity
import Lc4.Proofs.MemoryProtection
import Lc4.Proofs.PrivilegeEntry
import Lc4.Proofs.Stopping
import Lc4.Proofs.StrictMode
import Lc4.Proofs.FreshStart
import Lc4.Proofs.Accesses
import Lc4.Proofs.Numerals
import Lc4.Proofs.Lexing
import Lc4.Proofs.Offsets
import Lc4.Proofs.Operands
import Lc4.Proofs.Disassembly
import Lc4.Proofs.Sessions
import Lc4.Proofs.StatusWord
import Lc4.Proofs.IgnoredPrivilege
import Lc4.Proofs.CallStacks
import Lc4.Proofs.CommandScope
import Lc4.Proofs.RunStatus
import Lc4.Proofs.Targets
import Lc4.Proofs.Stepping
import Lc4.Proofs.StepLimit
import Lc4.Proofs.ProgramCounter
import Lc4.Proofs.Arithmetic
import Lc4.Proofs.Conditions
import Lc4.Proofs.Expansion
import Lc4.Proofs.Separators
import Lc4.Proofs.Literals
import Lc4.Proofs.CommandCase
import Lc4.Proofs.Assembling
import Lc4.Proofs.Notes
import Lc4.Proofs.BlockCopy
import Lc4.Proofs.OffsetRanges
import Lc4.Proofs.Spans

import StackVault.Lib.Range
import StackVault.Lib.Run
import StackVault.Lib.Undo
import StackVault.Lib.Trail
import StackVault.Lib.Chain
import StackVault.Lib.Links
import StackVault.Lib.Decimal
import StackVault.Lib.Worklist
import StackVault.Lib.Image
import StackVault.Lib.Twofold
import StackVault.Lib.Overlay
import StackVault.Types
import StackVault.Mapper
import StackVault.Jprobe
import StackVault.StackBuf
import StackVault.BufWords
import StackVault.System
import StackVault.UserList
import StackVault.Hash
import StackVault.LinkedHash
import StackVault.StackAreas
import StackVault.Server
import StackVault.Service
import StackVault.Client
import StackVault.Parser
import StackVault.Hello
import StackVault.StackEncrypt
import StackVault.ItemTable
import StackVault.ParseElf
import StackVault.ElfTool
import StackVault.Memset
import StackVault.Exchange
import StackVault.Probe
import StackVault.Program
import StackVault.Backup
import StackVault.Theorems.Cut
import StackVault.Theorems.Faults
import StackVault.Theorems.Saving
import StackVault.Theorems.Layout
import StackVault.Theorems.Calls
import StackVault.Theorems.Frame
import StackVault.Theorems.Clearing
import StackVault.Theorems.Restoring
import StackVault.Theorems.Holes
import StackVault.Theorems.Stacks
import StackVault.Theorems.Chase
import StackVault.Theorems.Book
import StackVault.Theorems.Vault
import StackVault.Theorems.Growth
import StackVault.Theorems.Trace
import StackVault.Theorems.Counted
import StackVault.Theorems.UserCalls
import StackVault.Theorems.Confidential
import StackVault.Theorems.Exposed
import StackVault.Theorems.WriteThrough
import StackVault.Theorems.Accounted
import StackVault.Theorems.Aliasing
import StackVault.Theorems.Complete
import StackVault.Theorems.Unresolved
import StackVault.Theorems.Doubling
import StackVault.Theorems.Sizes
import StackVault.Theorems.Involution
import StackVault.Theorems.Names
import StackVault.Theorems.Walk
import StackVault.Theorems.Survive
import StackVault.Theorems.Losses
import StackVault.Theorems.Repeat
import StackVault.Theorems.Words
import StackVault.Theorems.Table
import StackVault.Theorems.Chains
import StackVault.Theorems.Message
import StackVault.Theorems.Dispatch
import StackVault.Theorems.Areas
import StackVault.Theorems.Visits
import StackVault.Theorems.Robust
import StackVault.Theorems.Reach
import StackVault.Theorems.Listing
import StackVault.Theorems.Instrument
import StackVault.Theorems.Append
import StackVault.Theorems.Reads
import StackVault.Theorems.Symbols
import StackVault.Theorems.Malformed
import StackVault.Theorems.Unseen
import StackVault.Theorems.Sights
import StackVault.Theorems.Nesting
import StackVault.Theorems.Filling
import StackVault.Theorems.Erased
import StackVault.Theorems.Answers
import StackVault.Theorems.Physical
import StackVault.Theorems.Hosted
import StackVault.Theorems.Transparent
import StackVault.Theorems.Ledger
import StackVault.Theorems.Ported
import StackVault.Theorems.Refined
import StackVault.Theorems.Masks
import StackVault.Theorems.OneBuffer
import StackVault.Theorems.Versions

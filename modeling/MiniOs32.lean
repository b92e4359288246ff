import MiniOs32.As.Elf
import MiniOs32.As.Final
import MiniOs32.As.Insn
import MiniOs32.As.Lex
import MiniOs32.As.Pass
import MiniOs32.As.State
import MiniOs32.Boot.Uefi
import MiniOs32.Cc.Blocks
import MiniOs32.Cc.Code
import MiniOs32.Cc.Condition
import MiniOs32.Cc.Cpu
import MiniOs32.Cc.Declarator
import MiniOs32.Cc.Elf
import MiniOs32.Cc.Emits
import MiniOs32.Cc.Expand
import MiniOs32.Cc.Expr
import MiniOs32.Cc.Fold
import MiniOs32.Cc.Groups
import MiniOs32.Cc.Integers
import MiniOs32.Cc.Link
import MiniOs32.Cc.Lvalues
import MiniOs32.Cc.Pieces
import MiniOs32.Cc.Preproc
import MiniOs32.Cc.Process
import MiniOs32.Cc.Scope
import MiniOs32.Cc.StackFrame
import MiniOs32.Cc.Types
import MiniOs32.Cc.Typing
import MiniOs32.Kernel.Calls
import MiniOs32.Kernel.Clock
import MiniOs32.Kernel.Console
import MiniOs32.Kernel.Disk
import MiniOs32.Kernel.Drivers
import MiniOs32.Kernel.Exec
import MiniOs32.Kernel.Frames
import MiniOs32.Kernel.Fs
import MiniOs32.Kernel.Handles
import MiniOs32.Kernel.Heap
import MiniOs32.Kernel.Image
import MiniOs32.Kernel.Keyboard
import MiniOs32.Kernel.Nvme
import MiniOs32.Kernel.NvmeRw
import MiniOs32.Kernel.PageMap
import MiniOs32.Kernel.Paging
import MiniOs32.Kernel.Programs
import MiniOs32.Kernel.Store
import MiniOs32.Kernel.Threads
import MiniOs32.Kernel.Touched
import MiniOs32.Kernel.User
import MiniOs32.Lemmas.AsEnds
import MiniOs32.Lemmas.AsForms
import MiniOs32.Lemmas.AsLogic
import MiniOs32.Lemmas.AsNotes
import MiniOs32.Lemmas.AsOutput
import MiniOs32.Lemmas.AsPasses
import MiniOs32.Lemmas.AsSettled
import MiniOs32.Lemmas.Calls
import MiniOs32.Lemmas.CodeFlow
import MiniOs32.Lemmas.CondText
import MiniOs32.Lemmas.Console
import MiniOs32.Lemmas.ConstCode
import MiniOs32.Lemmas.Cpu
import MiniOs32.Lemmas.Emits
import MiniOs32.Lemmas.EspBuild
import MiniOs32.Lemmas.EspEntries
import MiniOs32.Lemmas.EspRead
import MiniOs32.Lemmas.EspStored
import MiniOs32.Lemmas.EspVolume
import MiniOs32.Lemmas.Expand
import MiniOs32.Lemmas.ExprTypes
import MiniOs32.Lemmas.Extents
import MiniOs32.Lemmas.Formats
import MiniOs32.Lemmas.FrameKept
import MiniOs32.Lemmas.HeapBlocks
import MiniOs32.Lemmas.Io
import MiniOs32.Lemmas.LinkTable
import MiniOs32.Lemmas.Lvalues
import MiniOs32.Lemmas.Names
import MiniOs32.Lemmas.PageLoops
import MiniOs32.Lemmas.PageTables
import MiniOs32.Lemmas.Pieces
import MiniOs32.Lemmas.PrintedNumbers
import MiniOs32.Lemmas.Process
import MiniOs32.Lemmas.Sectors
import MiniOs32.Lemmas.StackEffects
import MiniOs32.Lemmas.Steps
import MiniOs32.Lib.Chains
import MiniOs32.Lib.FatVolume
import MiniOs32.Lib.Flow
import MiniOs32.Lib.Image
import MiniOs32.Lib.Labelled
import MiniOs32.Lib.Layout
import MiniOs32.Lib.Lockstep
import MiniOs32.Lib.Memory
import MiniOs32.Lib.Modrm
import MiniOs32.Lib.Numerals
import MiniOs32.Lib.Patches
import MiniOs32.Lib.PhaseRing
import MiniOs32.Lib.Returns
import MiniOs32.Lib.Run
import MiniOs32.Lib.Segments
import MiniOs32.Lib.Words
import MiniOs32.Lib.Wrapped
import MiniOs32.Theorems.Alignment
import MiniOs32.Theorems.BlockScope
import MiniOs32.Theorems.BoundedPrint
import MiniOs32.Theorems.ConditionalGroups
import MiniOs32.Theorems.ConsoleCursor
import MiniOs32.Theorems.ConstantFolding
import MiniOs32.Theorems.ContextSwitch
import MiniOs32.Theorems.CursorOnLine
import MiniOs32.Theorems.Declarators
import MiniOs32.Theorems.DeviceWindows
import MiniOs32.Theorems.DmaZeroed
import MiniOs32.Theorems.DriverWindows
import MiniOs32.Theorems.EditorSave
import MiniOs32.Theorems.EditorText
import MiniOs32.Theorems.EspReadsBack
import MiniOs32.Theorems.ExpandBuffers
import MiniOs32.Theorems.ExtentsDisjoint
import MiniOs32.Theorems.FailedCalls
import MiniOs32.Theorems.FloatConditions
import MiniOs32.Theorems.HandleContents
import MiniOs32.Theorems.HandleIsolation
import MiniOs32.Theorems.HandleLifetime
import MiniOs32.Theorems.HandlePath
import MiniOs32.Theorems.HandleReads
import MiniOs32.Theorems.HeapBelowStack
import MiniOs32.Theorems.HeapConsistent
import MiniOs32.Theorems.ImageAgrees
import MiniOs32.Theorems.ImageLayout
import MiniOs32.Theorems.IntegerTypes
import MiniOs32.Theorems.KeyboardState
import MiniOs32.Theorems.LineUnits
import MiniOs32.Theorems.Linking
import MiniOs32.Theorems.LoaderBuffers
import MiniOs32.Theorems.LoaderConfined
import MiniOs32.Theorems.MacroUse
import MiniOs32.Theorems.ModrmRoundTrip
import MiniOs32.Theorems.NameIdentity
import MiniOs32.Theorems.NumeralsRead
import MiniOs32.Theorems.NvmeCompletion
import MiniOs32.Theorems.NvmeTransfer
import MiniOs32.Theorems.PageMapping
import MiniOs32.Theorems.PassesAgree
import MiniOs32.Theorems.PathsAlike
import MiniOs32.Theorems.PlainText
import MiniOs32.Theorems.PostfixSteps
import MiniOs32.Theorems.PreprocConditions
import MiniOs32.Theorems.PrintfAgree
import MiniOs32.Theorems.RamDiskAccess
import MiniOs32.Theorems.RandomAccess
import MiniOs32.Theorems.RecordLayout
import MiniOs32.Theorems.SaveLoad
import MiniOs32.Theorems.Scrollback
import MiniOs32.Theorems.SleepTime
import MiniOs32.Theorems.SoftDivision
import MiniOs32.Theorems.StackSlots
import MiniOs32.Theorems.StoreConfined
import MiniOs32.Theorems.StoreListing
import MiniOs32.Theorems.StoreMirror
import MiniOs32.Theorems.StoreScan
import MiniOs32.Theorems.StringFunctions
import MiniOs32.Theorems.StringToInteger
import MiniOs32.Theorems.ThreadExit
import MiniOs32.Theorems.TypesAgree
import MiniOs32.Theorems.UserPages
import MiniOs32.Theorems.ValueConversions
import MiniOs32.Tools.Lsstore
import MiniOs32.Tools.Mkesp
import MiniOs32.Tools.Mkfs
import MiniOs32.User.Editor
import MiniOs32.User.Format
import MiniOs32.User.Malloc
import MiniOs32.User.Numbers
import MiniOs32.User.Paths
import MiniOs32.User.Strings

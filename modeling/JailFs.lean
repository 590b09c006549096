import JailFs.Exec
import JailFs.Fuel
import JailFs.CInt
import JailFs.CString
import JailFs.ProbeCycle
import JailFs.OpenAddressing
import JailFs.Dict
import JailFs.DictProbe
import JailFs.DictMap
import JailFs.DictLoad
import JailFs.DictHistory
import JailFs.DictDelete
import JailFs.DictTermination
import JailFs.DictCounters
import JailFs.DictReopened
import JailFs.DictFailure
import JailFs.Ledger
import JailFs.DictMemory
import JailFs.DictMemorySim
import JailFs.DictOwnership
import JailFs.DictFilled
import JailFs.VfsCache
import JailFs.Pkg
import JailFs.PkgOpen
import JailFs.PkgLock
import JailFs.PkgImport
import JailFs.Blocking
import JailFs.PkgProcess
import JailFs.Lease
import JailFs.PkgLease
import JailFs.PkgRun
import JailFs.PkgSafety
import JailFs.Memory
import JailFs.Watch
import JailFs.Inotify
import JailFs.InotifyRun
import JailFs.InotifyDelivery
import JailFs.PkgPath
import JailFs.RankedWalk
import JailFs.DirWalk
import JailFs.DirNesting
import JailFs.DirVisits
import JailFs.LinkNodes
import JailFs.DList
import JailFs.Dlink
import JailFs.DlinkOps
import JailFs.BlockHeap
import JailFs.BlockHeapInv
import JailFs.BlockHeapChain
import JailFs.BlockHeapRun
import JailFs.BlockHeapCollect
import JailFs.BlockHeapLayout
import JailFs.BlockHeapFrame
import JailFs.BlockHeaps
import JailFs.Transducer
import JailFs.Stdio
import JailFs.ConfLoad
import JailFs.ConfFaults
import JailFs.ConfText
import JailFs.ConfValue
import JailFs.ConfComment
import JailFs.DictEntries
import JailFs.DictEnumerate
import JailFs.ConfWrite
import JailFs.ConfEntry
import JailFs.ConfRoundTrip
import JailFs.History
import JailFs.LsdList
import JailFs.LsdListRun
import JailFs.Threads
import JailFs.Module
import JailFs.DictBlob
import JailFs.DictBlobRun
import JailFs.Hooks
import JailFs.VfsFind
import JailFs.PkgView
import JailFs.WatchHistory
import JailFs.Fuse
import JailFs.FuseRun
import JailFs.LinkedTree
import JailFs.Program
import JailFs.RedBlack
import JailFs.Comparator
import JailFs.Tree
import JailFs.TreeShape
import JailFs.TreeInsert
import JailFs.TreeDelete
import JailFs.TreeSearch
import JailFs.TreeRun
import JailFs.RbTree
import JailFs.RbInsert
import JailFs.RbDelete
import JailFs.RbRun
import JailFs.PkgExtract
import JailFs.PidFile
import JailFs.TimeStr
import JailFs.Numeral
import JailFs.TimeStrForm
import JailFs.TimeStrPrint
import JailFs.Cron
import JailFs.Monitor
import JailFs.ThreadStart
import JailFs.Shell
import JailFs.ShellRun
import JailFs.ShellCall
import JailFs.Splitting
import JailFs.StrTokenize
import JailFs.StrTokenizeParam
import JailFs.FieldCopy
import JailFs.ConfGet
import JailFs.ConfLiteral
import JailFs.ConfSection
import JailFs.PkgMap
import JailFs.ShellComplete
import JailFs.ShellHints
import JailFs.Zipper
import JailFs.Buffer
import JailFs.LineHistory
import JailFs.LineKeys
import JailFs.LineEdit
import JailFs.LineText
import JailFs.LineSession
import JailFs.HistoryFile
import JailFs.Terminal
import JailFs.LineScreen
import JailFs.LineDraw
import JailFs.LineTyped
import JailFs.TreeOrder
import JailFs.TreeWalk
import JailFs.TreeDestroy
import JailFs.RbSearch
import JailFs.BlockHeapDestroy
import JailFs.HeapLists
import JailFs.HeapListsRun
import JailFs.Kilo
import JailFs.KiloKeys
import JailFs.KiloPage
import JailFs.KiloFind
import JailFs.KiloRun
import JailFs.KiloText
import JailFs.KiloFile

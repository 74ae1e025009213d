import Mulp.Lib.Script
import Mulp.Core.Error
import Mulp.Core.Task
import Mulp.Core.AllOrError
import Mulp.Core.AsyncTask
import Mulp.Core.GroupReport
import Mulp.Core.Outcome
import Mulp.Core.Cancelled
import Mulp.Core.Scheduler
import Mulp.Core.Rounds
import Mulp.Core.Tickets
import Mulp.Core.Clock
import Mulp.Core.Turns
import Mulp.Core.Settle
import Mulp.Core.Isolation
import Mulp.Lib.Machine
import Mulp.Through2.State
import Mulp.Stream.File
import Mulp.Stream.FileStream
import Mulp.Stream.Kleisli
import Mulp.Stream.CloseOnce
import Mulp.Through2.Trace
import Mulp.Through2.Adapter
import Mulp.Through2.Contract
import Mulp.Vinyl.File
import Mulp.Vinyl.Replay
import Mulp.Through2.Vinyl
import Mulp.StreamAsync.WorkerPool
import Mulp.StreamAsync.Drain
import Mulp.Core.Registry
import Mulp.Platform.Process
import Mulp.Entry.Run
import Mulp.Lib.Lexical
import Mulp.Lib.Utf8
import Mulp.Lib.Utf16
import Mulp.Text.Path
import Mulp.Vinyl.Path
import Mulp.Vinyl.Store
import Mulp.Vinyl.History
import Mulp.Vinyl.Delivers
import Mulp.Stream.Disk
import Mulp.Stream.FileDest
import Mulp.Stream.FileBytes
import Mulp.Stream.Pipeline
import Mulp.VinylFs.Codecs
import Mulp.VinylFs.Fixed
import Mulp.VinylFs.SourceMap
import Mulp.VinylFs.Dest
import Mulp.VinylFs.DestPath
import Mulp.VinylFs.DestBytes
import Mulp.VinylFs.Chained
import Mulp.VinylFs.SrcContents
import Mulp.Lib.KeyedDiff
import Mulp.Platform.Path
import Mulp.Platform.Glob
import Mulp.Platform.Watch
import Mulp.Stream.Since
import Mulp.VinylFs.Since
import Mulp.Stream.FileTree
import Mulp.VinylFs.Select
import Mulp.VinylFs.Src
import Mulp.VinylFs.Literal
import Mulp.Text.Slice
import Mulp.Text.Substring
import Mulp.Lib.ShellLexer
import Mulp.Platform.Shell
import Mulp.Platform.Sliced
import Mulp.Platform.MemoryFs
import Mulp.Vinyl.Sliced
import Mulp.Stream.Sliced
import Mulp.Cli.Config
import Mulp.Entry.Supplementary
import Mulp.Vinyl.Extend
import Mulp.VinylFs.Convert
import Mulp.Stream.OnceEach
import Mulp.Stream.MemoryIo
import Mulp.Stream.MemoryFold
import Mulp.Stream.ReadAll
import Mulp.Stream.MemoryRun
import Mulp.Stream.Predict
import Mulp.Lib.KeyedList
import Mulp.Text.Trim
import Mulp.Platform.MemoryTree
import Mulp.Cli.Args
import Mulp.Cli.Invocation
import Mulp.Cli.Scanners
import Mulp.Cli.Discovery
import Mulp.Cli.Dispatch
import Mulp.Entry.Command
import Mulp.Entry.ScriptArgs
import Mulp.Entry.Forward
import Mulp.Cli.Climb
import Mulp.Cli.Ancestors
import Mulp.Cli.Nearest
import Mulp.Lib.Utf8Chunks
import Mulp.Stream.ReadText
import Mulp.Cli.RealNearest
import Mulp.Entry.WatchArgs
import Mulp.Lib.Lines
import Mulp.Entry.Output
import Mulp.Core.AsyncRegistry
import Mulp.Undertaker.Registry
import Mulp.Lib.CondVar
import Mulp.Core.CallbackTask
import Mulp.Lib.Trace
import Mulp.Platform.WatchState
import Mulp.Vinyl.Canonical
import Mulp.Vinyl.Returns
import Mulp.Vinyl.Relative
import Mulp.Vinyl.Edits
import Mulp.Vinyl.Files
import Mulp.Vinyl.Components
import Mulp.Vinyl.Lenses
import Mulp.VinylFs.LastMatch
import Mulp.Lib.Split
import Mulp.Platform.GlobRelation
import Mulp.Platform.NormalForm
import Mulp.Stream.ReadLimit
import Mulp.Stream.Chunking
import Mulp.VinylFs.RoundTrip
import Mulp.Stream.Placement
import Mulp.VinylFs.LinkTarget
import Mulp.Lib.Base64
import Mulp.VinylFs.InlineMap
import Mulp.VinylFs.Release
import Mulp.Stream.Symlinks
import Mulp.Entry.Selection
import Mulp.Platform.Framing
import Mulp.Platform.OutputBuffer
import Mulp.Lib.Json
import Mulp.Lib.JsonPrint
import Mulp.Core.TaskListing
import Mulp.Lib.Bisim
import Mulp.Through2.FlatMap
import Mulp.Platform.Expand
import Mulp.VinylFs.Selectors
import Mulp.Lib.Forest
import Mulp.VinylFs.Walk
import Mulp.VinylFs.Enumerates
import Mulp.Cli.ScriptText
import Mulp.Cli.ConfigText
import Mulp.Lib.Patch
import Mulp.Lib.Deal
import Mulp.Chokidar.Types
import Mulp.Chokidar.Path
import Mulp.Chokidar.Snapshot
import Mulp.Chokidar.State
import Mulp.Chokidar.Watcher
import Mulp.Chokidar.Apart
import Mulp.Chokidar.Heard
import Mulp.Chokidar.Cycle
import Mulp.Chokidar.Rest
import Mulp.Chokidar.Run
import Mulp.Chokidar.Late
import Mulp.Chokidar.Handles
import Mulp.Chokidar.Watched
import Mulp.Chokidar.Listed
import Mulp.GlobWatcher.Glob
import Mulp.GlobWatcher.Braces
import Mulp.GlobWatcher.Patterns
import Mulp.Lib.Labelled
import Mulp.Lib.Debounce
import Mulp.Lib.Coalesce
import Mulp.Platform.Debounce
import Mulp.Chokidar.Emitter
import Mulp.GlobWatcher.Watcher
import Mulp.GlobWatcher.Calls
import Mulp.GlobWatcher.Changes
import Mulp.Chokidar.Scan
import Mulp.Readdirp.Ends
import Mulp.Chokidar.Told

import MicroStore.Library.Prog
import MicroStore.Library.Interruption
import MicroStore.Library.Lockstep
import MicroStore.Library.Simulation
import MicroStore.Library.Bytes
import MicroStore.Library.Selection
import MicroStore.Library.Retention
import MicroStore.Library.Recency
import MicroStore.Library.ShiftRegister
import MicroStore.Utility
import MicroStore.File
import MicroStore.Record
import MicroStore.FileStore.State
import MicroStore.FileStore.Buffer
import MicroStore.FileStore.Compaction
import MicroStore.FileStore.Ops
import MicroStore.FileStore.Names
import MicroStore.HeapStore
import MicroStore.TypedTieredStore
import MicroStore.TieredCache
import MicroStore.TieredSpec
import MicroStore.FileSpec
import MicroStore.Scan
import MicroStore.Writing
import MicroStore.Faulting
import MicroStore.Log
import MicroStore.Ranking
import MicroStore.Layout
import MicroStore.Compacting
import MicroStore.Finalizing
import MicroStore.Capping
import MicroStore.Bounding
import MicroStore.LogStep
import MicroStore.Operating
import MicroStore.Overloads
import MicroStore.Reading
import MicroStore.Opening
import MicroStore.Running
import MicroStore.Standing
import MicroStore.Agreeing
import MicroStore.Evicting
import MicroStore.Caching
import MicroStore.Truncating
import MicroStore.Expiring
import MicroStore.HeapExpiring
import MicroStore.HeapEvicting
import MicroStore.TieredMap
import MicroStore.TieredRun
import MicroStore.TieredSession
import MicroStore.TieredFile
import MicroStore.TieredRefining
import MicroStore.TieredLosing
import MicroStore.TieredSyncing
import MicroStore.TieredExpiring
import MicroStore.TieredBlocking
import MicroStore.TieredEvicting
import MicroStore.TieredFailing
import MicroStore.Steady
import MicroStore.Sparing
import MicroStore.Naming
import MicroStore.PosixFile
import MicroStore.RunningCrc
import MicroStore.TypedStore
import MicroStore.Grammar
import MicroStore.Cooling
import MicroStore.Surviving
import MicroStore.Session
import MicroStore.Clearing
import MicroStore.Reopening
import MicroStore.Checksum
import MicroStore.Sizing
import MicroStore.Maintaining
import MicroStore.Crc
import MicroStore.Buffering
import MicroStore.Rollover
import MicroStore.Interrupting
import MicroStore.Rebooting
import MicroStore.Rebuilding
import MicroStore.Tearing
import MicroStore.Misleading
import MicroStore.Voiding
import MicroStore.TypedMap

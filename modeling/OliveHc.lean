import OliveHc.Lib.System
import OliveHc.Lib.Ownership
import OliveHc.Lib.CString
import OliveHc.Utils.Hash
import OliveHc.Worker
import OliveHc.Http.Parse
import OliveHc.Http.Cut
import OliveHc.Http.Loop
import OliveHc.Http.Chunking
import OliveHc.Http.Frame
import OliveHc.Http.Isolation
import OliveHc.Request
import OliveHc.Request.Blocked
import OliveHc.Request.Pages
import OliveHc.Request.Range
import OliveHc.Wire
import OliveHc.RoundTrip
import OliveHc.Http.Order
import OliveHc.Segments
import OliveHc.Lib.Tiling
import OliveHc.Lib.LinkedList
import OliveHc.Utils.IpBucket
import OliveHc.Utils.IdxPointer
import OliveHc.Utils.Slab
import OliveHc.Utils.Timer
import OliveHc.Device
import OliveHc.Device.Layout
import OliveHc.Device.Queue
import OliveHc.Device.Blocks
import OliveHc.Device.Lists
import OliveHc.Device.Return
import OliveHc.Device.Load
import OliveHc.Device.Links
import OliveHc.Device.Runs
import OliveHc.Device.Frames
import OliveHc.Device.Allocator
import OliveHc.Device.Fit
import OliveHc.Conf
import OliveHc.Conf.Parse
import OliveHc.Conf.Meaning
import OliveHc.Server
import OliveHc.Server.Keys
import OliveHc.Lib.Bytes
import OliveHc.Format
import OliveHc.Reload
import OliveHc.Reload.Rollback
import OliveHc.Reload.Plan
import OliveHc.Reload.Settings
import OliveHc.Master
import OliveHc.Master.Loops
import OliveHc.Master.Steps
import OliveHc.Master.Lives
import OliveHc.Master.Admission
import OliveHc.Master.Expiry
import OliveHc.Master.Recency
import OliveHc.Master.Eviction
import OliveHc.Master.Filing
import OliveHc.Master.Routine
import OliveHc.Master.Passby
import OliveHc.Master.Pins
import OliveHc.Master.Counter
import OliveHc.Reload.Slots
import OliveHc.Format.Image
import OliveHc.Format.Dump
import OliveHc.Format.Restore
import OliveHc.Format.Start
import OliveHc.Format.Duplicates
import OliveHc.Master.Places
import OliveHc.Master.Books
import OliveHc.Master.Audit
import OliveHc.Master.Lifetime
import OliveHc.Master.Clear
import OliveHc.Format.Pieces
import OliveHc.Format.Turn
import OliveHc.Format.DumpLoad
import OliveHc.Format.AnyImage
import OliveHc.Master.Moor
import OliveHc.Master.Moorings
import OliveHc.Master.Territory

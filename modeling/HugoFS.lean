import HugoFS.Adaptor.BlockKey
import HugoFS.Adaptor.MemBackend
import HugoFS.Gateway.Concurrent
import HugoFS.Gateway.Placement
import HugoFS.Gateway.WriteAt
import HugoFS.Gateway.WriteCh
import HugoFS.Mem.SlotPool
import HugoFS.Meta.BlockMapDelete
import HugoFS.Meta.Epochs
import HugoFS.Meta.Events
import HugoFS.Meta.Kinds
import HugoFS.Meta.Listing
import HugoFS.Meta.Numbers
import HugoFS.Meta.Volumes
import HugoFS.Mount.Identity
import HugoFS.Mount.Locks
import HugoFS.Storage.Selector
import HugoFS.Storage.SlotReload
import HugoFS.Storage.Sync
import HugoFS.Store.Agreement
import HugoFS.Tcp.Client
import HugoFS.Tcp.StorageRead
import HugoFS.Vfs.Buffer.DirtyBuffer
import HugoFS.Vfs.Buffer.Eviction
import HugoFS.Vfs.Buffer.Kept
import HugoFS.Vfs.Buffer.PageContext
import HugoFS.Vfs.Buffer.Readers
import HugoFS.Vfs.Buffer.Reports
import HugoFS.Vfs.Buffer.Truncate
import HugoFS.Vfs.FileRename
import HugoFS.Vfs.HandleFlush
import HugoFS.Vfs.Modes
import HugoFS.Vfs.ReadDir

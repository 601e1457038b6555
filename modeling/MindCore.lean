import MindCore.Libmind.CheckpointTimeline
import MindCore.Libmind.JournalRuns
import MindCore.Libmind.DiffExact
import MindCore.Libmind.CidForms
import MindCore.Libmind.Expiry
import MindCore.Blockstore.Versions
import MindCore.Linkproto.Client
import MindCore.Linkproto.Exchange
import MindCore.Linkproto.Line
import MindCore.Kernel.Sealed
import MindCore.Kernel.Views
import MindCore.Update.Floor
import MindCore.Update.Activate
import MindCore.Vfs.Handles
import MindCore.Vfs.Clean
import MindCore.Effector.Restarts
import MindCore.Keystore.DeviceKey
import MindCore.Loader.Requests
import MindCore.Netstack.Dns
import MindCore.Netpolicy.Store
import MindCore.Timed.Floor
import MindCore.Effector.Policy
import MindCore.Loader.Identity

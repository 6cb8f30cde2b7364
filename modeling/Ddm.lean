import Ddm.CJson.Definition
import Ddm.Conf.ConfigItem
import Ddm.Conf.IniWritten
import Ddm.Documents
import Ddm.Invoke.CleanPool
import Ddm.Invoke.CrossTalk
import Ddm.Invoke.SoaServer
import Ddm.Lifetime.Reclaim
import Ddm.Pool.Descriptors
import Ddm.Pool.Endpoint
import Ddm.Pool.IdleOrder
import Ddm.Pool.IdleTest
import Ddm.Provider.LogFile
import Ddm.Provider.LogThreads
import Ddm.Provider.NodePath
import Ddm.Provider.Register
import Ddm.Proxy.Exits
import Ddm.Proxy.HandOff
import Ddm.Proxy.LockStep
import Ddm.Registry.Mirror
import Ddm.Registry.NextNode
import Ddm.Registry.NodeList
import Ddm.Registry.Routing
import Ddm.Registry.Unaffected
import Ddm.Registry.UrlBuffers
import Ddm.Registry.UthashMap
import Ddm.Watch.Agreement
import Ddm.Watch.Contexts
import Ddm.Watch.Coverage
import Ddm.Watch.Handle
import Ddm.Watch.Refresh
import Ddm.Wire.Checksum
import Ddm.Wire.Stall

import Uip.TransitionSystem
import Uip.ProtocolMessage
import Uip.NetworkOwnership
import Uip.NetworkPublication
import Uip.NetworkRequest
import Uip.NetworkChange
import Uip.DebounceStream
import Uip.IoSocket
import Uip.IoSocketStep
import Uip.IoSocketInvariant
import Uip.IoSocketNewest
import Uip.IoSocketReturn
import Uip.IoSocketRoles
import Uip.IoSocketDemux
import Uip.TransportAccept
import Uip.IoConnection
import Uip.TransportAcceptWait
import Uip.TransportConnection
import Uip.TransportSocket
import Uip.TransportSocketStep
import Uip.TransportSocketInvariant
import Uip.TransportAuthenticity
import Uip.TransportJam
import Uip.TransportSimultaneous
import Uip.TransportOpenFailed
import Uip.Daemon
import Uip.DaemonInvariant
import Uip.DaemonReuse
import Uip.DaemonEnded
import Uip.DaemonWait
import Uip.DaemonPeerInfo
import Uip.StreamDecoder
import Uip.BytesMut
import Uip.TransportCodec
import Uip.TransportFraming
import Uip.TransportLink
import Uip.IdentifierText
import Uip.IdentifierParsing
import Uip.Formatting
import Uip.DisplayTexts
import Uip.IdentifierSerde
import Uip.DaemonPanic
import Uip.UnixCodec
import Uip.UnixRmpSerde
import Uip.UnixFraming
import Uip.Uipcat
import Uip.ItemQueues
import Uip.World
import Uip.WorldStep
import Uip.WorldInvariant
import Uip.WorldRoute
import Uip.WorldDelivery
import Uip.WorldAddressing
import Uip.WorldPurge
import Uip.WorldControl
import Uip.UnixServer
import Uip.UnixServerInvariant
import Uip.UnixPorts
import Uip.UnixAccept
import Uip.UnixIdleClient
import Uip.UnixForwarding
import Uip.DaemonTasks
import Uip.NetworkForwarding
import Uip.NetworkMain
import Uip.NetworkSockets
import Uip.NetworkDiscovery
import Uip.NetworkAddresses
import Uip.TransportClosed
import Uip.RwLocks
import Uip.SharedLocks
import Uip.UipcatConnect
import Uip.EventLogs
import Uip.ItemPipelines
import Uip.WorldOrder
import Uip.UnixOrder
import Uip.TransportOrder
import Uip.DaemonOrder
import Uip.DaemonSending
import Uip.Keepalive
import Uip.Checkpoints
import Uip.Configuration
import Uip.IoNetwork
import Uip.WorldRest
import Uip.QueueLoads
import Uip.WorldWork
import Uip.TransportRest
import Uip.DaemonRest
import Uip.Termination
import Uip.TransportWork
import Uip.DaemonWork

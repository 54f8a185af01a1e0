import PeerConnect.Library.Coroutine
import PeerConnect.Library.Simulation
import PeerConnect.Library.TaskGroup
import PeerConnect.Library.ByteOrder
import PeerConnect.Library.Double
import PeerConnect.Library.Source
import PeerConnect.Library.Slices
import PeerConnect.Library.FreshName
import PeerConnect.Library.Path
import PeerConnect.Library.FileSystem
import PeerConnect.Library.Directory
import PeerConnect.Library.Resolve
import PeerConnect.Library.Changes
import PeerConnect.Library.Growth
import PeerConnect.Library.Text
import PeerConnect.Library.Dict
import PeerConnect.Library.Ini
import PeerConnect.Library.IniRoundTrip
import PeerConnect.Library.IniAccepted
import PeerConnect.Library.Interpolation
import PeerConnect.Library.Forest
import PeerConnect.Library.RunningSums
import PeerConnect.Library.Reservoir
import PeerConnect.Library.Deque
import PeerConnect.Library.Run
import PeerConnect.Wire.Value
import PeerConnect.Wire.Packet
import PeerConnect.Wire.Framing
import PeerConnect.Wire.Gossip
import PeerConnect.Core.Dispatcher
import PeerConnect.Core.Submission
import PeerConnect.Core.Requests
import PeerConnect.Core.Acceptor
import PeerConnect.Core.Handshake
import PeerConnect.Core.AcceptLoop
import PeerConnect.Core.MessageStream
import PeerConnect.Transfers.Transports
import PeerConnect.Transfers.Rumor
import PeerConnect.Transfers.ToldOnce
import PeerConnect.Transfers.Dissemination
import PeerConnect.Transfers.FileItem
import PeerConnect.Transfers.Names
import PeerConnect.Transfers.Receiver
import PeerConnect.Transfers.Contents
import PeerConnect.Transfers.Segmentation
import PeerConnect.Transfers.Sender
import PeerConnect.Transfers.SenderRun
import PeerConnect.Transfers.ContentPhase
import PeerConnect.Transfers.Attaching
import PeerConnect.Transfers.SendingTask
import PeerConnect.Transfers.Handle
import PeerConnect.Transfers.ReceivingTask
import PeerConnect.Transfers.StateMachine
import PeerConnect.Transfers.Records
import PeerConnect.Transfers.EndToEnd
import PeerConnect.Transfers.Cancellation
import PeerConnect.Transfers.Resume
import PeerConnect.Transfers.Resumable
import PeerConnect.Transfers.Downloads
import PeerConnect.Transfers.Directory
import PeerConnect.Transfers.Touched
import PeerConnect.Transfers.Confinement
import PeerConnect.Transfers.Traversal
import PeerConnect.Transfers.ConfinedMessages
import PeerConnect.Transfers.Completion
import PeerConnect.Transfers.DirectorySender
import PeerConnect.Transfers.DirectoryRecords
import PeerConnect.Transfers.Fidelity
import PeerConnect.PalmTree.Relay
import PeerConnect.PalmTree.Network
import PeerConnect.PalmTree.Acyclic
import PeerConnect.PalmTree.SingleParent
import PeerConnect.PalmTree.Protocol
import PeerConnect.PalmTree.Hypercube
import PeerConnect.OneToMany.Files
import PeerConnect.OneToMany.EndToEnd
import PeerConnect.Kademlia.PeerLists
import PeerConnect.Kademlia.PeerListGetter
import PeerConnect.FrontEnd.Replies
import PeerConnect.FrontEnd.WebSocket
import PeerConnect.FrontEnd.InOrder
import PeerConnect.Managers.FileManager
import PeerConnect.Managers.Profiles
import PeerConnect.Managers.ProfilesKept
import PeerConnect.PalmTree.Topology
import PeerConnect.PalmTree.Upgrade
import PeerConnect.PalmTree.Search
import PeerConnect.PalmTree.Rejections
import PeerConnect.OneToMany.Reader
import PeerConnect.OneToMany.Forwarding
import PeerConnect.OneToMany.EndOfReading
import PeerConnect.Managers.StreamLinks
import PeerConnect.OneToMany.Splitting
import PeerConnect.Managers.TransfersBook
import PeerConnect.Managers.RunningTransfers
import PeerConnect.Managers.LookedUp
import PeerConnect.Library.Lru
import PeerConnect.Core.SocketCache
import PeerConnect.Core.CacheRuns
import PeerConnect.Core.SocketLeaks
import PeerConnect.Core.Connector
import PeerConnect.Library.ReservoirShares
import PeerConnect.Transfers.FairSampling
import PeerConnect.Wire.Decoding
import PeerConnect.Core.ReplyRegistry
import PeerConnect.Core.RemotePeers
import PeerConnect.Managers.SelectedProfile
import PeerConnect.Library.Rename
import PeerConnect.Transfers.ErrorExtension
import PeerConnect.Library.Generator
import PeerConnect.Core.Timeouts
import PeerConnect.OneToMany.Metadata
import PeerConnect.Transfers.ChunkSize
import PeerConnect.Transfers.Status
import PeerConnect.Transfers.PathCodec
import PeerConnect.Core.Connectivity
import PeerConnect.PalmTree.TreeGather
import PeerConnect.PalmTree.LinkTables
import PeerConnect.PalmTree.RemoteCalls
import PeerConnect.Library.Datagrams
import PeerConnect.Core.PeerObjects
import PeerConnect.Core.Posting
import PeerConnect.Core.SearchIterator
import PeerConnect.Core.GossipSearch
import PeerConnect.Core.SearchSteps
import PeerConnect.Core.SearchNetwork
import PeerConnect.Core.DiscoveryRequests
import PeerConnect.Core.Discovery
import PeerConnect.Core.DiscoveryNetwork
import PeerConnect.Managers.StateManager
import PeerConnect.Kademlia.Replication
import PeerConnect.Core.RumorNetwork
import PeerConnect.Core.Removal
import PeerConnect.OneToMany.Streams
import PeerConnect.OneToMany.StreamNetwork
import PeerConnect.PalmTree.Invited

import LinuxRouter.Arp.Clock
import LinuxRouter.Arp.Refinement
import LinuxRouter.Arp.Table
import LinuxRouter.Commands.Addresses
import LinuxRouter.Commands.Agreement
import LinuxRouter.Commands.Deletion
import LinuxRouter.Commands.Grammar
import LinuxRouter.Commands.Output
import LinuxRouter.Commands.Reads
import LinuxRouter.Commands.Rows
import LinuxRouter.Commands.Tokens
import LinuxRouter.Commands.Udp
import LinuxRouter.Config.Ageing
import LinuxRouter.Config.Cidr
import LinuxRouter.Config.Load
import LinuxRouter.Config.Reload
import LinuxRouter.Config.Replace
import LinuxRouter.Config.Restart
import LinuxRouter.Config.RoundTrip
import LinuxRouter.Config.Routes
import LinuxRouter.Config.Rules
import LinuxRouter.Config.Serialize
import LinuxRouter.Config.Twice
import LinuxRouter.Control.Alone
import LinuxRouter.Control.Derive
import LinuxRouter.Control.Runs
import LinuxRouter.Control.Startup
import LinuxRouter.Control.Tables
import LinuxRouter.Firewall.FirstMatch
import LinuxRouter.Firewall.Fragments
import LinuxRouter.Firewall.Headers
import LinuxRouter.Firewall.Inside
import LinuxRouter.Firewall.Padding
import LinuxRouter.Firewall.Table
import LinuxRouter.Model.Arena
import LinuxRouter.Model.Arguments
import LinuxRouter.Model.ArpProto
import LinuxRouter.Model.ArpTable
import LinuxRouter.Model.Buffers
import LinuxRouter.Model.Bytes
import LinuxRouter.Model.Checksum
import LinuxRouter.Model.Config
import LinuxRouter.Model.Console
import LinuxRouter.Model.Control
import LinuxRouter.Model.Firewall
import LinuxRouter.Model.Forward
import LinuxRouter.Model.FwTable
import LinuxRouter.Model.Interface
import LinuxRouter.Model.Locks
import LinuxRouter.Model.Manage
import LinuxRouter.Model.Matcher
import LinuxRouter.Model.Mempool
import LinuxRouter.Model.Packet
import LinuxRouter.Model.Pending
import LinuxRouter.Model.Plane
import LinuxRouter.Model.Receive
import LinuxRouter.Model.Remote
import LinuxRouter.Model.Replace
import LinuxRouter.Model.Route
import LinuxRouter.Model.RouteTable
import LinuxRouter.Model.Router
import LinuxRouter.Model.Sha256
import LinuxRouter.Model.Show
import LinuxRouter.Model.Startup
import LinuxRouter.Model.SumLoop
import LinuxRouter.Model.Terminal
import LinuxRouter.Model.ThreadPool
import LinuxRouter.Model.Tokens
import LinuxRouter.Model.Udp
import LinuxRouter.Model.Upgrade
import LinuxRouter.Model.Utils
import LinuxRouter.Model.Workers
import LinuxRouter.Pending.Conservation
import LinuxRouter.Pending.Retries
import LinuxRouter.Pending.Slots
import LinuxRouter.Plane.Answers
import LinuxRouter.Plane.Arena
import LinuxRouter.Plane.Capacity
import LinuxRouter.Plane.Cargo
import LinuxRouter.Plane.Corruption
import LinuxRouter.Plane.Discipline
import LinuxRouter.Plane.Egress
import LinuxRouter.Plane.Enforcement
import LinuxRouter.Plane.Exhaustion
import LinuxRouter.Plane.Expiry
import LinuxRouter.Plane.InternetChecksum
import LinuxRouter.Plane.Learning
import LinuxRouter.Plane.Ledger
import LinuxRouter.Plane.Owners
import LinuxRouter.Plane.Ownership
import LinuxRouter.Plane.Provenance
import LinuxRouter.Plane.Requests
import LinuxRouter.Plane.Resolvable
import LinuxRouter.Plane.Rewrite
import LinuxRouter.Plane.Routing
import LinuxRouter.Plane.Sequential
import LinuxRouter.Plane.Standing
import LinuxRouter.Plane.TaskPool
import LinuxRouter.Plane.Vetting
import LinuxRouter.Remote.Buffer
import LinuxRouter.Remote.Framing
import LinuxRouter.Remote.Gate
import LinuxRouter.Remote.Parts
import LinuxRouter.Remote.Password
import LinuxRouter.Remote.Segments
import LinuxRouter.Remote.Sessions
import LinuxRouter.Remote.Stream
import LinuxRouter.Remote.Uploads
import LinuxRouter.Routes.Cover
import LinuxRouter.Routes.Longest
import LinuxRouter.Routes.Table
import LinuxRouter.Support.Accounts
import LinuxRouter.Support.Custody
import LinuxRouter.Support.Fetch
import LinuxRouter.Support.Files
import LinuxRouter.Support.Handle
import LinuxRouter.Support.Linked
import LinuxRouter.Support.Locks
import LinuxRouter.Support.Minds
import LinuxRouter.Support.Mutex
import LinuxRouter.Support.Numeral
import LinuxRouter.Support.OnesComplement
import LinuxRouter.Support.Printf
import LinuxRouter.Support.Program
import LinuxRouter.Support.Recency
import LinuxRouter.Support.Roster
import LinuxRouter.Support.Rows
import LinuxRouter.Support.Scan
import LinuxRouter.Support.Sha2
import LinuxRouter.Support.Simulation
import LinuxRouter.Support.Stdio
import LinuxRouter.Support.Text
import LinuxRouter.Support.Traces
import LinuxRouter.Support.Watch
import LinuxRouter.Threads.Atomic
import LinuxRouter.Threads.Buffers
import LinuxRouter.Threads.Deadlock
import LinuxRouter.Threads.Locking
import LinuxRouter.Threads.Pool
import LinuxRouter.Threads.Wakeups
import LinuxRouter.Upgrade.Hash
import LinuxRouter.Upgrade.Install
import LinuxRouter.Upgrade.Pieces
import LinuxRouter.Upgrade.Runs

import Beetree.OrdMap
import Beetree.Codec
import Beetree.Types
import Beetree.Node
import Beetree.Trace
import Beetree.Policy
import Beetree.Format
import Beetree.Naive
import Beetree.Machine
import Beetree.BeTree
import Beetree.Tree
import Beetree.TreeMoves
import Beetree.TreeSplit
import Beetree.Live
import Beetree.Flags
import Beetree.LiveMoves
import Beetree.Routing
import Beetree.Splitting
import Beetree.Ideal
import Beetree.Footprint
import Beetree.Exec
import Beetree.Steps
import Beetree.Descent
import Beetree.Flush
import Beetree.Root
import Beetree.Ops
import Beetree.Reads
import Beetree.Scan
import Beetree.Commit
import Beetree.Renaming
import Beetree.Simulation
import Beetree.StoreSim
import Beetree.Contents
import Beetree.ArenaSim
import Beetree.Algebra
import Beetree.Check
import Beetree.CheckExact
import Beetree.Draw
import Beetree.Fuel
import Beetree.Charge
import Beetree.Fork
import Beetree.Reach
import Beetree.ForkSim
import Beetree.Settle
import Beetree.Vfs
import Beetree.Disk
import Beetree.Cache
import Beetree.Device
import Beetree.Open
import Beetree.Charted
import Beetree.Crafted
import Beetree.DiskSim
import Beetree.Records
import Beetree.Crc
import Beetree.Ownership
import Beetree.Division
import Beetree.CrashModel
import Beetree.Frame
import Beetree.Accounts
import Beetree.Ledger
import Beetree.Batch
import Beetree.Publish
import Beetree.Honest
import Beetree.Durable
import Beetree.Session
import Beetree.DiskFuel
import Beetree.Survey
import Beetree.Calls
import Beetree.Inert
import Beetree.History
import Beetree.Wreck
import Beetree.Crash
import Beetree.Budget
import Beetree.Cost
import Beetree.Slots
import Beetree.Replay
import Beetree.Paths
import Beetree.Decisions
import Beetree.Roundtrip
import Beetree.Drained
import Beetree.Rest

import Vantage.Lib.Quorum
import Vantage.Lib.Table
import Vantage.Lib.Handler
import Vantage.Lib.Chain
import Vantage.Lib.OrderStat
import Vantage.Lib.Once
import Vantage.Lib.Recursion
import Vantage.Lib.Procedure
import Vantage.Lib.Codec
import Vantage.Lib.Delimited
import Vantage.Lib.Rotation
import Vantage.Lib.Bits
import Vantage.Basic
import Vantage.Index.Sets
import Vantage.Index.Maps
import Vantage.Index.Refinement
import Vantage.Pacemaker.Pacemaker
import Vantage.Pacemaker.Safety
import Vantage.Agb.Types
import Vantage.Agb.View
import Vantage.Agb.Engine
import Vantage.Agb.Digest
import Vantage.Agb.Numbering
import Vantage.Agb.Step
import Vantage.Agb.Refine
import Vantage.Agb.Grows
import Vantage.Agb.Tally
import Vantage.Agb.Own
import Vantage.Agb.OwnReady
import Vantage.Agb.Invariant
import Vantage.Agb.Calls
import Vantage.Agb.Once
import Vantage.Agb.Bodies
import Vantage.Agb.Cache
import Vantage.Resolver.Types
import Vantage.Resolver.Schedule
import Vantage.Resolver.Target
import Vantage.Resolver.Handlers
import Vantage.Resolver.Rotation
import Vantage.Resolver.Engine
import Vantage.Resolver.Step
import Vantage.Resolver.Refine
import Vantage.Resolver.Phases
import Vantage.Resolver.Entry
import Vantage.Resolver.Moves
import Vantage.Resolver.Runs
import Vantage.Resolver.Calls
import Vantage.Resolver.Replay
import Vantage.Resolver.Retained
import Vantage.Resolver.Wishes
import Vantage.Resolver.Fixpoint
import Vantage.Resolver.History
import Vantage.Resolver.Agreement
import Vantage.Resolver.Honest
import Vantage.Resolver.HonestStep
import Vantage.Resolver.World
import Vantage.System.Node
import Vantage.System.Invariant
import Vantage.System.Responses
import Vantage.System.Script
import Vantage.System.Wishes
import Vantage.System.Seals
import Vantage.Agb.Commit
import Vantage.Agb.Verdict
import Vantage.System.Votes
import Vantage.System.Terminal
import Vantage.System.Fixpoint
import Vantage.Sequence.Store
import Vantage.Sequence.Ledger
import Vantage.Sequence.Transfer
import Vantage.Sequence.Verify
import Vantage.Sequence.Sound
import Vantage.Sequence.Checkpoint
import Vantage.Cursor.Blocks
import Vantage.Cursor.Cursor
import Vantage.Cursor.Order
import Vantage.Cursor.Progress
import Vantage.System.Output
import Vantage.Sequence.Install
import Vantage.Replay.Outbox
import Vantage.Replay.Floors
import Vantage.Replay.Sender
import Vantage.Lanes.Cache
import Vantage.Lanes.Acks
import Vantage.Lanes.Frontier
import Vantage.Lanes.Claims
import Vantage.SimpleIt.Committer
import Vantage.Autobahn.Messages
import Vantage.Autobahn.ViewChange
import Vantage.Autobahn.Verified
import Vantage.Autobahn.Synchronizer
import Vantage.Autobahn.Committer
import Vantage.Wire.KeyText
import Vantage.Wire.Blocks
import Vantage.Wire.Digests
import Vantage.Wire.Relay
import Vantage.Network.Channel
import Vantage.Network.Reliable
import Vantage.Network.Fifo
import Vantage.Store.Actor
import Vantage.Autobahn.Cars

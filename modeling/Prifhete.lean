import Prifhete.Lib.Sequences
import Prifhete.Lib.Machine
import Prifhete.Lib.Book
import Prifhete.Lib.Checked
import Prifhete.Lib.Gates
import Prifhete.Lib.Words
import Prifhete.Lib.Registry
import Prifhete.Lib.Simulation
import Prifhete.Lib.Plans
import Prifhete.Fhe.Circuits
import Prifhete.Fhe.Assertions
import Prifhete.Fhe.Words
import Prifhete.Fhe.Oracle
import Prifhete.State.Accounts
import Prifhete.State.Roots
import Prifhete.State.KnownRoots
import Prifhete.State.PrfOutputs
import Prifhete.State.Acceptance
import Prifhete.State.EpochJumps
import Prifhete.State.Balances
import Prifhete.State.Conservation
import Prifhete.State.Atomicity
import Prifhete.State.Replay
import Prifhete.State.Refresh
import Prifhete.State.Reordering
import Prifhete.State.Ledger
import Prifhete.State.AbstractLedger
import Prifhete.State.Refinement
import Prifhete.State.Queries
import Prifhete.State.Relabelling
import Prifhete.State.Futures
import Prifhete.State.Batches
import Prifhete.State.Pending
import Prifhete.State.Contexts
import Prifhete.State.Reachable
import Prifhete.State.Changes
import Prifhete.State.Interleavings
import Prifhete.Protocol.Run
import Prifhete.Protocol.Ledger
import Prifhete.Protocol.Simulation

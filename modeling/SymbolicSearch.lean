import SymbolicSearch.Exchange.Tensor
import SymbolicSearch.Setup
import SymbolicSearch.Proofs.Exchange
import SymbolicSearch.Proofs.Flow.Abstraction
import SymbolicSearch.Proofs.Flow.Calls
import SymbolicSearch.Proofs.Flow.Registration
import SymbolicSearch.Proofs.Ranking.Retelling
import SymbolicSearch.Proofs.Trail.Descent
import SymbolicSearch.Proofs.Guided.Choice
import SymbolicSearch.Proofs.Guided.Mirror
import SymbolicSearch.Proofs.Guided.Failure
import SymbolicSearch.Proofs.Guided.Family
import SymbolicSearch.Proofs.Guided.Occupancy
import SymbolicSearch.Proofs.Guided.Omissions
import SymbolicSearch.Proofs.Selector
import SymbolicSearch.Proofs.Lineage
import SymbolicSearch.Proofs.Dialogue
import SymbolicSearch.Proofs.Guided.Commutation
import SymbolicSearch.Proofs.Guided.Counters
import SymbolicSearch.Proofs.Guided.Delta
import SymbolicSearch.Proofs.Flow.Flags
import SymbolicSearch.Proofs.Routine.Coarsest
import SymbolicSearch.Proofs.Broadcast
import SymbolicSearch.Proofs.Routing
import SymbolicSearch.Proofs.Flow.Summary
import SymbolicSearch.Proofs.Ranking.Tables
import SymbolicSearch.Proofs.Queue.Order
import SymbolicSearch.Proofs.Queue.Fairness
import SymbolicSearch.Proofs.Flow.Observation
import SymbolicSearch.Proofs.Guided.Protocol
import SymbolicSearch.Proofs.Guided.Silence
import SymbolicSearch.Proofs.Override
import SymbolicSearch.Proofs.Override
import SymbolicSearch.Proofs.Override

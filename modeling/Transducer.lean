import Transducer.Automaton.Closure
import Transducer.Automaton.EpsilonRemoval
import Transducer.Automaton.Listing
import Transducer.Automaton.Relabel
import Transducer.Automaton.Verification
import Transducer.Binary.Reader
import Transducer.Binary.Writer
import Transducer.Composition.Lazy
import Transducer.Document.Config
import Transducer.Path.Beam
import Transducer.Path.Best
import Transducer.Path.Heap.Order
import Transducer.Path.Text
import Transducer.SymbolTable.Listing
import Transducer.Weight.Log
import Transducer.Weight.Tropical
import Transducer.Proofs.Weight.Laws
import Transducer.Proofs.Weight.Exact
import Transducer.Proofs.Weight.Semiring
import Transducer.Proofs.Path.Accepting
import Transducer.Proofs.Path.Sum
import Transducer.Proofs.Graph.Search
import Transducer.Proofs.Automaton.Trim
import Transducer.Proofs.Property.Cache
import Transducer.Proofs.Property.Meaning
import Transducer.Proofs.Graph.Cycle
import Transducer.Proofs.Graph.Flood
import Transducer.Proofs.Property.Survey
import Transducer.Proofs.Except
import Transducer.Proofs.Matching.Exact
import Transducer.Proofs.Matching.Build
import Transducer.Proofs.Matching.Targets
import Transducer.Proofs.Matching.Layers
import Transducer.Proofs.Matching.Failure
import Transducer.Proofs.Matching.Meaning
import Transducer.Proofs.Matching.Scan
import Transducer.Proofs.Matching.Usable
import Transducer.Proofs.Matching.Origin
import Transducer.Proofs.Composition.Expansion
import Transducer.Proofs.Composition.Numbering
import Transducer.Proofs.Composition.Exploration
import Transducer.Proofs.Composition.Operands
import Transducer.Proofs.Composition.Interleaving
import Transducer.Proofs.Composition.Paths
import Transducer.Proofs.Composition.Calls
import Transducer.Proofs.Composition.Memo
import Transducer.Proofs.Composition.Driver
import Transducer.Proofs.Composition.Wildcard
import Transducer.Proofs.Composition.Pairing
import Transducer.Proofs.Composition.Copy
import Transducer.Proofs.Composition.Identity
import Transducer.Proofs.Graph.Component
import Transducer.Proofs.Automaton.EpsilonGraph
import Transducer.Proofs.Automaton.Edit
import Transducer.Proofs.Automaton.Bypass
import Transducer.Proofs.Automaton.EpsilonSweep
import Transducer.Proofs.Automaton.WeightedCycle
import Transducer.Proofs.Automaton.EpsilonCost
import Transducer.Proofs.Automaton.EpsilonLanguage
import Transducer.Proofs.Automaton.EpsilonSum
import Transducer.Proofs.Path.Queue
import Transducer.Proofs.Path.Relaxation
import Transducer.Proofs.Path.Distance
import Transducer.Proofs.Path.Trace
import Transducer.Proofs.Path.Exchange
import Transducer.Proofs.Path.BestSearch
import Transducer.Proofs.Path.Fan
import Transducer.Proofs.Path.FanPaths
import Transducer.Proofs.Path.Best
import Transducer.Proofs.Path.Shortcut
import Transducer.Proofs.Path.Course
import Transducer.Proofs.Path.Nearly
import Transducer.Proofs.Path.Sorted
import Transducer.Proofs.Path.Possible
import Transducer.Proofs.Path.Route
import Transducer.Proofs.Path.Close
import Transducer.Proofs.Path.Ledger
import Transducer.Proofs.Path.RouteSum
import Transducer.Proofs.Path.DistanceSum
import Transducer.Proofs.Text.Bytes
import Transducer.Proofs.Text.Fields
import Transducer.Proofs.SymbolTable.Sound
import Transducer.Proofs.SymbolTable.Listing
import Transducer.Proofs.SymbolTable.History
import Transducer.Proofs.SymbolTable.Index
import Transducer.Proofs.SymbolTable.Dependable
import Transducer.Proofs.Binary.Parts
import Transducer.Proofs.Weight.Costed
import Transducer.Proofs.Binary.RoundTrip
import Transducer.Proofs.Property.Upkeep
import Transducer.Proofs.Property.Session
import Transducer.Proofs.Automaton.Standard
import Transducer.Proofs.Automaton.Results
import Transducer.Proofs.Automaton.Verified
import Transducer.Proofs.Automaton.Rekey
import Transducer.Proofs.Automaton.Built
import Transducer.Proofs.Automaton.Refusal
import Transducer.Proofs.Binary.Delimited
import Transducer.Proofs.Binary.Outline
import Transducer.Proofs.Binary.Assembly
import Transducer.Proofs.Binary.Reencoding
import Transducer.Proofs.Automaton.Repetition
import Transducer.Proofs.Automaton.Useful
import Transducer.Proofs.Path.Text
import Transducer.Proofs.Automaton.Renumbering
import Transducer.Proofs.Automaton.Restriction
import Transducer.Proofs.Automaton.Trimmed
import Transducer.Proofs.Automaton.RekeyOutcome
import Transducer.Proofs.Path.Hanging
import Transducer.Proofs.Path.Union
import Transducer.Proofs.Path.UnionSum
import Transducer.Proofs.Path.Linear
import Transducer.Proofs.SymbolTable.Order
import Transducer.Proofs.Composition.Shortest
import Transducer.Proofs.Path.Trail
import Transducer.Proofs.Path.BeamLevel
import Transducer.Proofs.Path.BeamPath
import Transducer.Proofs.Path.BeamSearch
import Transducer.Proofs.Path.WideBeam
import Transducer.Proofs.Automaton.Sorting
import Transducer.Proofs.Matching.Reordering
import Transducer.Proofs.Composition.Reordering
import Transducer.Proofs.Graph.Completion

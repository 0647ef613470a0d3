import RelationalSearch.Term.OfValue
import RelationalSearch.Program
import RelationalSearch.IntStream.Plan
import RelationalSearch.Proofs.StreamAlgebra
import RelationalSearch.Proofs.Frames
import RelationalSearch.Proofs.Trimming
import RelationalSearch.Proofs.Refinement
import RelationalSearch.Proofs.Occurrence
import RelationalSearch.Proofs.Productivity
import RelationalSearch.Proofs.Fairness
import RelationalSearch.Proofs.Valuation
import RelationalSearch.Proofs.Links
import RelationalSearch.Proofs.Unifier
import RelationalSearch.Proofs.Reading
import RelationalSearch.Proofs.Solutions
import RelationalSearch.Proofs.Scoping
import RelationalSearch.Proofs.Guarded
import RelationalSearch.Proofs.Soundness
import RelationalSearch.Proofs.Completeness
import RelationalSearch.Proofs.Circularity
import RelationalSearch.Proofs.Resolution
import RelationalSearch.Proofs.CallTree
import RelationalSearch.Proofs.OccursCheck
import RelationalSearch.Proofs.DepthFirst
import RelationalSearch.Proofs.Exhaustion
import RelationalSearch.Proofs.Calls
import RelationalSearch.Proofs.StepLimit
import RelationalSearch.Proofs.Attempts
import RelationalSearch.Proofs.Mirroring
import RelationalSearch.Proofs.Equivalence
import RelationalSearch.Proofs.Simplification
import RelationalSearch.Proofs.Allocation
import RelationalSearch.Proofs.EquationOrder
import RelationalSearch.Proofs.AlphaConversion
import RelationalSearch.Proofs.Renaming
import RelationalSearch.Proofs.Lockstep
import RelationalSearch.Proofs.Rearrangement
import RelationalSearch.Proofs.Collecting
import RelationalSearch.Proofs.Regrouping
import RelationalSearch.Proofs.Pauses
import RelationalSearch.Proofs.Unifications
import RelationalSearch.Proofs.Alternation
import RelationalSearch.Proofs.Competition
import RelationalSearch.Proofs.Stability
import RelationalSearch.Proofs.NewBindings
import RelationalSearch.Proofs.Determined
import RelationalSearch.Proofs.Append
import RelationalSearch.Proofs.UniqueText
import RelationalSearch.Proofs.MergePlaces
import RelationalSearch.Proofs.Walks

import TypeAlgebra.Journal.Logger
import TypeAlgebra.Ledger
import TypeAlgebra.Main
import TypeAlgebra.Proofs.Normalization
import TypeAlgebra.Proofs.ParsedTypes
import TypeAlgebra.Proofs.Rearrangement
import TypeAlgebra.Proofs.Scope
import TypeAlgebra.Proofs.Arrangement
import TypeAlgebra.Proofs.Meaning
import TypeAlgebra.Proofs.Preservation
import TypeAlgebra.Proofs.Renaming
import TypeAlgebra.Proofs.Simulation
import TypeAlgebra.Proofs.Enclosure
import TypeAlgebra.Proofs.Halting
import TypeAlgebra.Proofs.Denotation
import TypeAlgebra.Proofs.Bindings
import TypeAlgebra.Proofs.Evaluation
import TypeAlgebra.Proofs.Lines
import TypeAlgebra.Proofs.Freshness
import TypeAlgebra.Proofs.Grammar
import TypeAlgebra.Proofs.Comments
import TypeAlgebra.Proofs.Substitution
import TypeAlgebra.Proofs.Correspondence
import TypeAlgebra.Proofs.Equivariance
import TypeAlgebra.Proofs.Equivalence
import TypeAlgebra.Proofs.Allocation
import TypeAlgebra.Proofs.Composition
import TypeAlgebra.Proofs.Rereading
import TypeAlgebra.Proofs.Combination
import TypeAlgebra.Proofs.Transparency
import TypeAlgebra.Proofs.Subtraction
import TypeAlgebra.Proofs.EmptyDifference
import TypeAlgebra.Proofs.Comparison
import TypeAlgebra.Proofs.NameMatching
import TypeAlgebra.Proofs.Observation
import TypeAlgebra.Proofs.Positions
import TypeAlgebra.Proofs.Continuation
import TypeAlgebra.Proofs.Acceptance
import TypeAlgebra.Proofs.Splitting
import TypeAlgebra.Proofs.Pruning
import TypeAlgebra.Proofs.Counting
import TypeAlgebra.Proofs.Sections
import TypeAlgebra.Proofs.Provenance
import TypeAlgebra.Proofs.Sharing

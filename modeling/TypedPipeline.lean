import TypedPipeline.Grammar.Expansion
import TypedPipeline.Grammar.Language
import TypedPipeline.Grammar.Sample
import TypedPipeline.Main
import TypedPipeline.Operator.Bench
import TypedPipeline.Proofs.Binary64.Nearest
import TypedPipeline.Proofs.Binary64.Whole
import TypedPipeline.Proofs.Grammar.Apart
import TypedPipeline.Proofs.Grammar.Bounds
import TypedPipeline.Proofs.Grammar.Completion
import TypedPipeline.Proofs.Grammar.Construction
import TypedPipeline.Proofs.Grammar.Cycles
import TypedPipeline.Proofs.Grammar.Ending
import TypedPipeline.Proofs.Grammar.Enumeration
import TypedPipeline.Proofs.Grammar.Lengths
import TypedPipeline.Proofs.Grammar.Room
import TypedPipeline.Proofs.Grammar.Sampling
import TypedPipeline.Proofs.Json.Agreement
import TypedPipeline.Proofs.Json.Characters
import TypedPipeline.Proofs.Json.Texts
import TypedPipeline.Proofs.Keyed
import TypedPipeline.Proofs.Operator.Alternatives
import TypedPipeline.Proofs.Operator.Associativity
import TypedPipeline.Proofs.Operator.Construction
import TypedPipeline.Proofs.Operator.Hyperparameters
import TypedPipeline.Proofs.Operator.Keys
import TypedPipeline.Proofs.Operator.Obtained
import TypedPipeline.Proofs.Operator.Reconstruction
import TypedPipeline.Proofs.Operator.Rendering
import TypedPipeline.Proofs.Path
import TypedPipeline.Proofs.Recursion
import TypedPipeline.Proofs.Schema.Acceptance
import TypedPipeline.Proofs.Schema.Breakdown
import TypedPipeline.Proofs.Schema.Comparison
import TypedPipeline.Proofs.Schema.Congruence
import TypedPipeline.Proofs.Schema.Containment
import TypedPipeline.Proofs.Schema.Disjointness
import TypedPipeline.Proofs.Schema.Documents
import TypedPipeline.Proofs.Schema.Domain
import TypedPipeline.Proofs.Schema.Enforcement
import TypedPipeline.Proofs.Schema.Expansion
import TypedPipeline.Proofs.Schema.Harmony
import TypedPipeline.Proofs.Schema.Inlining
import TypedPipeline.Proofs.Schema.Intersection
import TypedPipeline.Proofs.Schema.Keywords
import TypedPipeline.Proofs.Schema.Listing
import TypedPipeline.Proofs.Schema.Parts
import TypedPipeline.Proofs.Schema.Places
import TypedPipeline.Proofs.Schema.Ranges
import TypedPipeline.Proofs.Schema.Reading
import TypedPipeline.Proofs.Schema.References
import TypedPipeline.Proofs.Schema.Reflexivity
import TypedPipeline.Proofs.Schema.Refusal
import TypedPipeline.Proofs.Schema.Relaxation
import TypedPipeline.Proofs.Schema.Roundtrip
import TypedPipeline.Proofs.Schema.Subsumption
import TypedPipeline.Proofs.Schema.Symmetry
import TypedPipeline.Proofs.Schema.Termination
import TypedPipeline.Proofs.Schema.Tolerance
import TypedPipeline.Proofs.Schema.Transitivity
import TypedPipeline.Proofs.Schema.Unions
import TypedPipeline.Proofs.Schema.WellFormed
import TypedPipeline.Proofs.Schema.Written
import TypedPipeline.Proofs.Space.Activation
import TypedPipeline.Proofs.Space.Application
import TypedPipeline.Proofs.Space.Assignment
import TypedPipeline.Proofs.Space.Budget
import TypedPipeline.Proofs.Space.Caching
import TypedPipeline.Proofs.Space.Combinations
import TypedPipeline.Proofs.Space.Compilation
import TypedPipeline.Proofs.Space.Consistency
import TypedPipeline.Proofs.Space.Covering
import TypedPipeline.Proofs.Space.Dependence
import TypedPipeline.Proofs.Space.Domains
import TypedPipeline.Proofs.Space.Enumeration
import TypedPipeline.Proofs.Space.Faults
import TypedPipeline.Proofs.Space.Integers
import TypedPipeline.Proofs.Space.Names
import TypedPipeline.Proofs.Space.Placement
import TypedPipeline.Proofs.Space.Reordering
import TypedPipeline.Proofs.Space.Restoring
import TypedPipeline.Proofs.Space.Sampling
import TypedPipeline.Proofs.Space.Storing
import TypedPipeline.Proofs.Space.Unions
import TypedPipeline.Proofs.Space.Writing
import TypedPipeline.Schema.Disjoint
import TypedPipeline.Space.Compiler

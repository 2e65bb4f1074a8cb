import FeatureLogic.Description
import FeatureLogic.Description.Builder
import FeatureLogic.Description.Denotation
import FeatureLogic.Description.Derivation
import FeatureLogic.Description.Layout
import FeatureLogic.Description.Reading
import FeatureLogic.Description.SyntaxError
import FeatureLogic.Failure
import FeatureLogic.Graph
import FeatureLogic.Graph.Absorption
import FeatureLogic.Graph.Comparison
import FeatureLogic.Graph.Conflict
import FeatureLogic.Graph.Correspondence
import FeatureLogic.Graph.Dereference
import FeatureLogic.Graph.Embedding
import FeatureLogic.Graph.Image
import FeatureLogic.Graph.Isomorphism
import FeatureLogic.Graph.Reachability
import FeatureLogic.Graph.Renaming
import FeatureLogic.Graph.Replacement
import FeatureLogic.Graph.Sharing
import FeatureLogic.Graph.Text
import FeatureLogic.Graph.Traversal
import FeatureLogic.Graph.Variables
import FeatureLogic.Graph.WellFormed
import FeatureLogic.History
import FeatureLogic.NameMap
import FeatureLogic.Proofs.Concurrence
import FeatureLogic.Proofs.Copy.Added
import FeatureLogic.Proofs.Copy.Aliases
import FeatureLogic.Proofs.Copy.Apart
import FeatureLogic.Proofs.Copy.Completion
import FeatureLogic.Proofs.Copy.Concert
import FeatureLogic.Proofs.Copy.Confinement
import FeatureLogic.Proofs.Copy.Copies
import FeatureLogic.Proofs.Copy.Doubling
import FeatureLogic.Proofs.Copy.Duplicates
import FeatureLogic.Proofs.Copy.Idempotence
import FeatureLogic.Proofs.Copy.Imaging
import FeatureLogic.Proofs.Copy.Likeness
import FeatureLogic.Proofs.Copy.Owned
import FeatureLogic.Proofs.Copy.Plain
import FeatureLogic.Proofs.Copy.Scoped
import FeatureLogic.Proofs.Copy.Senses
import FeatureLogic.Proofs.Copy.Structures
import FeatureLogic.Proofs.Copy.Substituting
import FeatureLogic.Proofs.Copy.Tied
import FeatureLogic.Proofs.Copy.Tracing
import FeatureLogic.Proofs.Description.Building
import FeatureLogic.Proofs.Description.Canonicity
import FeatureLogic.Proofs.Description.Completeness
import FeatureLogic.Proofs.Description.Depiction
import FeatureLogic.Proofs.Description.Distinction
import FeatureLogic.Proofs.Description.Freshness
import FeatureLogic.Proofs.Description.Layout
import FeatureLogic.Proofs.Description.Lexemes
import FeatureLogic.Proofs.Description.Mentions
import FeatureLogic.Proofs.Description.Order
import FeatureLogic.Proofs.Description.Positions
import FeatureLogic.Proofs.Description.Recovery
import FeatureLogic.Proofs.Description.Restoration
import FeatureLogic.Proofs.Description.RoundTrip
import FeatureLogic.Proofs.Description.Soundness
import FeatureLogic.Proofs.Description.Words
import FeatureLogic.Proofs.Description.Written
import FeatureLogic.Proofs.Graph.Alikeness
import FeatureLogic.Proofs.Graph.Census
import FeatureLogic.Proofs.Graph.Comparing
import FeatureLogic.Proofs.Graph.Entrances
import FeatureLogic.Proofs.Graph.Extension
import FeatureLogic.Proofs.Graph.Forgetting
import FeatureLogic.Proofs.Graph.Forwarding
import FeatureLogic.Proofs.Graph.Grounding
import FeatureLogic.Proofs.Graph.Growth
import FeatureLogic.Proofs.Graph.Isomorphism
import FeatureLogic.Proofs.Graph.Legibility
import FeatureLogic.Proofs.Graph.Matching
import FeatureLogic.Proofs.Graph.Mirroring
import FeatureLogic.Proofs.Graph.Nodes
import FeatureLogic.Proofs.Graph.Observation
import FeatureLogic.Proofs.Graph.Parallel
import FeatureLogic.Proofs.Graph.Part
import FeatureLogic.Proofs.Graph.Persistence
import FeatureLogic.Proofs.Graph.Plainness
import FeatureLogic.Proofs.Graph.Settlement
import FeatureLogic.Proofs.Graph.Tally
import FeatureLogic.Proofs.Graph.Trees
import FeatureLogic.Proofs.Graph.Wording
import FeatureLogic.Proofs.History
import FeatureLogic.Proofs.Join.Afresh
import FeatureLogic.Proofs.Join.Calls
import FeatureLogic.Proofs.Join.Congruence
import FeatureLogic.Proofs.Join.Derivation
import FeatureLogic.Proofs.Join.Entirety
import FeatureLogic.Proofs.Join.Execution
import FeatureLogic.Proofs.Join.Invariance
import FeatureLogic.Proofs.Join.Limit
import FeatureLogic.Proofs.Join.Lockstep
import FeatureLogic.Proofs.Join.Memory
import FeatureLogic.Proofs.Join.Nesting
import FeatureLogic.Proofs.Join.Region
import FeatureLogic.Proofs.Join.Solution
import FeatureLogic.Proofs.Join.Stability
import FeatureLogic.Proofs.Join.Trace
import FeatureLogic.Proofs.Join.Trees
import FeatureLogic.Proofs.NormalForm.Normalization
import FeatureLogic.Proofs.NormalForm.Redirection
import FeatureLogic.Proofs.NormalForm.Reshaping
import FeatureLogic.Proofs.NormalForm.Settling
import FeatureLogic.Proofs.Persistence
import FeatureLogic.Proofs.Renaming.Capture
import FeatureLogic.Proofs.Renaming.Consistency
import FeatureLogic.Proofs.Renaming.Logging
import FeatureLogic.Proofs.Renaming.Names
import FeatureLogic.Proofs.Renaming.Visits
import FeatureLogic.Proofs.Scope.Meaning
import FeatureLogic.Proofs.Scope.Rendering
import FeatureLogic.Proofs.Scope.Sense
import FeatureLogic.Proofs.Settings.Grammar
import FeatureLogic.Proofs.Settings.Ignored
import FeatureLogic.Proofs.Settings.Lexemes
import FeatureLogic.Proofs.Settings.Reading
import FeatureLogic.Proofs.Text.Finding
import FeatureLogic.Proofs.Text.Reading
import FeatureLogic.Proofs.Text.Replies
import FeatureLogic.Proofs.Text.Spacing
import FeatureLogic.Proofs.Text.Stopping
import FeatureLogic.Proofs.Text.Taking
import FeatureLogic.Proofs.Unification.Absorption
import FeatureLogic.Proofs.Unification.Afresh
import FeatureLogic.Proofs.Unification.Agreement
import FeatureLogic.Proofs.Unification.Associativity
import FeatureLogic.Proofs.Unification.Canonical
import FeatureLogic.Proofs.Unification.Commutativity
import FeatureLogic.Proofs.Unification.Completeness
import FeatureLogic.Proofs.Unification.Conflicts
import FeatureLogic.Proofs.Unification.Containment
import FeatureLogic.Proofs.Unification.Enclosure
import FeatureLogic.Proofs.Unification.Entries
import FeatureLogic.Proofs.Unification.Images
import FeatureLogic.Proofs.Unification.Independence
import FeatureLogic.Proofs.Unification.Invisibility
import FeatureLogic.Proofs.Unification.Limits
import FeatureLogic.Proofs.Unification.MostGeneral
import FeatureLogic.Proofs.Unification.Outcome
import FeatureLogic.Proofs.Unification.Passage
import FeatureLogic.Proofs.Unification.Preorder
import FeatureLogic.Proofs.Unification.Privacy
import FeatureLogic.Proofs.Unification.Recollection
import FeatureLogic.Proofs.Unification.Renumbering
import FeatureLogic.Proofs.Unification.Repetition
import FeatureLogic.Proofs.Unification.Reuse
import FeatureLogic.Proofs.Unification.Separation
import FeatureLogic.Proofs.Unification.Stages
import FeatureLogic.Proofs.Unification.Substitution
import FeatureLogic.Proofs.Unification.Superposition
import FeatureLogic.Proofs.Unification.Universality
import FeatureLogic.Scope
import FeatureLogic.Scope.Alias
import FeatureLogic.Scope.Meaning
import FeatureLogic.Scope.Scoping
import FeatureLogic.Scope.Sense
import FeatureLogic.Scope.Substitution
import FeatureLogic.Settings
import FeatureLogic.Settings.Ignored
import FeatureLogic.Settings.Lexeme
import FeatureLogic.Settings.Reading
import FeatureLogic.Text.Characters
import FeatureLogic.Text.Reader
import FeatureLogic.Text.Rejection
import FeatureLogic.Unification
import FeatureLogic.Unification.Cache
import FeatureLogic.Unification.Join
import FeatureLogic.Unification.NormalForm
import FeatureLogic.Unification.Operand
import FeatureLogic.Unification.Series
import FeatureLogic.Unification.Session
import FeatureLogic.Unification.Subsumption
import FeatureLogic.Value

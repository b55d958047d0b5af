import TreeQuery.Text.Blank
import TreeQuery.Text.Numeral
import TreeQuery.Text.DecimalDigit
import TreeQuery.SelectorError
import TreeQuery.Selector.Token
import TreeQuery.Selector.Escape
import TreeQuery.Selector.Bracket
import TreeQuery.Selector.Structural
import TreeQuery.Selector.Lexeme
import TreeQuery.Selector.Scan
import TreeQuery.Tree.Order
import TreeQuery.Tree.Fixture
import TreeQuery.Cache
import TreeQuery.Matching.Memo
import TreeQuery.Matching.Simple
import TreeQuery.Matching.Run
import TreeQuery.Compile.Defaults
import TreeQuery.Compile.Compiler
import TreeQuery.Engine.Select
import TreeQuery.Format.Json
import TreeQuery.Format.Yaml.Scalar
import TreeQuery.Format.Yaml.Token
import TreeQuery.Format.Yaml.Value
import TreeQuery.Format.Yaml.Schema
import TreeQuery.Format.Fixture
import TreeQuery.Format.Settings
import TreeQuery.Proofs.Tree.Chain
import TreeQuery.Proofs.Tree.Forest
import TreeQuery.Proofs.Tree.Order
import TreeQuery.Proofs.Tree.Orderly
import TreeQuery.Proofs.Tree.Siblings
import TreeQuery.Proofs.Tree.Preorder
import TreeQuery.Proofs.Tree.Positions
import TreeQuery.Proofs.Tree.Sorting
import TreeQuery.Proofs.Tree.Groves
import TreeQuery.Proofs.Tree.Pages
import TreeQuery.Proofs.Matching.Words
import TreeQuery.Proofs.Matching.PaddedWords
import TreeQuery.Proofs.Matching.Meaning
import TreeQuery.Proofs.Matching.Naming
import TreeQuery.Proofs.Matching.Generations
import TreeQuery.Proofs.Matching.Agreement
import TreeQuery.Proofs.Matching.Walks
import TreeQuery.Proofs.Matching.Ranks
import TreeQuery.Proofs.Matching.SiblingPlaces
import TreeQuery.Proofs.Matching.Stages
import TreeQuery.Proofs.Matching.Soundness
import TreeQuery.Proofs.Matching.Unnamed
import TreeQuery.Proofs.Matching.Moments
import TreeQuery.Proofs.Matching.Thinning
import TreeQuery.Proofs.Compile.Plain
import TreeQuery.Proofs.Selector.Arguments
import TreeQuery.Proofs.Selector.Names
import TreeQuery.Proofs.Selector.Written.Grammar
import TreeQuery.Proofs.Selector.Written.Spelling
import TreeQuery.Proofs.Selector.Written.Passages
import TreeQuery.Proofs.Selector.Written.Tests
import TreeQuery.Proofs.Selector.Written.Places
import TreeQuery.Proofs.Selector.Written.Arguments
import TreeQuery.Proofs.Selector.Written.Groups
import TreeQuery.Proofs.Selector.Written.Scans
import TreeQuery.Proofs.Selector.Written.Printing
import TreeQuery.Proofs.Compile.Recipes
import TreeQuery.Proofs.Compile.Depth
import TreeQuery.Proofs.Compile.Entries
import TreeQuery.Proofs.Compile.Ledger
import TreeQuery.Proofs.Compile.Coherence
import TreeQuery.Proofs.Compile.Drafts
import TreeQuery.Proofs.Compile.Upkeep
import TreeQuery.Proofs.Compile.Tidy
import TreeQuery.Proofs.Compile.Faithful
import TreeQuery.Proofs.Compile.Chains
import TreeQuery.Proofs.Compile.Detached
import TreeQuery.Proofs.Compile.Staged
import TreeQuery.Proofs.Compile.Compounds
import TreeQuery.Proofs.Engine.SeedPlans
import TreeQuery.Proofs.Engine.Answers
import TreeQuery.Proofs.Engine.Operations
import TreeQuery.Proofs.Engine.World
import TreeQuery.Proofs.Engine.History
import TreeQuery.Proofs.Engine.WalkCache
import TreeQuery.Proofs.Engine.SpentNames
import TreeQuery.Proofs.Engine.BareWords
import TreeQuery.Proofs.Engine.Clauses
import TreeQuery.Proofs.Engine.Narrowing
import TreeQuery.Proofs.Engine.PageIndexes
import TreeQuery.Proofs.Engine.SeedNarrowing
import TreeQuery.Proofs.Engine.Shape
import TreeQuery.Proofs.Engine.Groups
import TreeQuery.Proofs.Engine.Plans
import TreeQuery.Proofs.Engine.CandidateOrder
import TreeQuery.Proofs.Engine.Containment
import TreeQuery.Proofs.Tree.Mutators
import TreeQuery.Proofs.Compile.Unscoped
import TreeQuery.Proofs.Engine.BareQueries
import TreeQuery.Proofs.Selector.Tails.Attributes
import TreeQuery.Proofs.Selector.Tails.Arguments
import TreeQuery.Proofs.Selector.Tails.Positions
import TreeQuery.Proofs.Selector.Spelled.Formulas
import TreeQuery.Proofs.Selector.Spelled.Positions
import TreeQuery.Proofs.Selector.Tails.Items
import TreeQuery.Proofs.Selector.Tails.Lexemes
import TreeQuery.Proofs.Selector.Tails.Prefixes
import TreeQuery.Proofs.Selector.Tails.Scans
import TreeQuery.Proofs.Selector.Tails.Crossings
import TreeQuery.Proofs.Selector.Tails.Seeds
import TreeQuery.Proofs.Selector.Tails.Cuts
import TreeQuery.Proofs.Selector.Tails.Trims
import TreeQuery.Proofs.Engine.ReducedQueries
import TreeQuery.Proofs.Engine.NativeSelection
import TreeQuery.Proofs.Engine.Matchers
import TreeQuery.Proofs.Engine.NestedQueries
import TreeQuery.Proofs.Selector.Accounting
import TreeQuery.Proofs.Selector.Margins
import TreeQuery.Proofs.Selector.Tails.Gaps
import TreeQuery.Proofs.Selector.Rejoining
import TreeQuery.Proofs.Selector.Tails.Spacing
import TreeQuery.Proofs.Selector.Tails.SpacedPlaces
import TreeQuery.Proofs.Selector.Tails.SpacedScans
import TreeQuery.Proofs.Selector.Respacing
import TreeQuery.Proofs.Compile.Probes
import TreeQuery.Proofs.Compile.Positionals
import TreeQuery.Proofs.Engine.PositionalSplits
import TreeQuery.Proofs.Compile.FifoMaps
import TreeQuery.Proofs.Tree.Links
import TreeQuery.Proofs.Tree.Rows
import TreeQuery.Proofs.Tree.Growth
import TreeQuery.Proofs.Tree.Attributes
import TreeQuery.Proofs.Tree.Building
import TreeQuery.Proofs.Tree.Subtrees
import TreeQuery.Proofs.Compile.FormControls
import TreeQuery.Proofs.Matching.Anchors
import TreeQuery.Proofs.Matching.Reentry
import TreeQuery.Proofs.Compile.PlanNames
import TreeQuery.Proofs.Engine.RestoredAnchors

import Hocon.Config.Shape
import Hocon.Include.Table
import Hocon.Main
import Hocon.Value.Equality
import Hocon.Proofs.Faults
import Hocon.Proofs.Keys
import Hocon.Proofs.References
import Hocon.Proofs.Grammar.Lexemes
import Hocon.Proofs.Grammar.Key
import Hocon.Proofs.Grammar.Directive
import Hocon.Proofs.Grammar.Tree
import Hocon.Proofs.Grammar.Reading
import Hocon.Proofs.Grammar.Progress
import Hocon.Proofs.Grammar.Acceptance
import Hocon.Proofs.Json.Lexing
import Hocon.Proofs.Json.Reading
import Hocon.Proofs.Resolution.Meaning
import Hocon.Proofs.Resolution.Dependency
import Hocon.Proofs.Resolution.Recording
import Hocon.Proofs.Resolution.Simulation
import Hocon.Proofs.Resolution.Outcome
import Hocon.Proofs.Resolution.Settled
import Hocon.Proofs.Resolution.Findings
import Hocon.Proofs.Loading
import Hocon.Proofs.Include.Steps
import Hocon.Proofs.Include.Linking
import Hocon.Proofs.Include.Directives
import Hocon.Proofs.Include.Walks
import Hocon.Proofs.Include.Ending
import Hocon.Proofs.Json.Accepting
import Hocon.Proofs.Merging
import Hocon.Proofs.Renaming
import Hocon.Proofs.Marks
import Hocon.Proofs.Grammar.Directing
import Hocon.Proofs.Grammar.Parallel
import Hocon.Proofs.Include.Guarding
import Hocon.Proofs.Grammar.Layout
import Hocon.Proofs.Grammar.Distinct
import Hocon.Proofs.Include.Inlining
import Hocon.Proofs.Trivia
import Hocon.Proofs.Restyling
import Hocon.Proofs.Merging.Union
import Hocon.Proofs.Merging.Grouping
import Hocon.Proofs.Places
import Hocon.Proofs.Grammar.Newlines
import Hocon.Proofs.LineBreaks
import Hocon.Proofs.Files.Ordering
import Hocon.Proofs.Grammar.Stops
import Hocon.Proofs.Files.Relisting
import Hocon.Proofs.Include.Listing
import Hocon.Proofs.Grammar.Mixing
import Hocon.Proofs.Adjoining
import Hocon.Proofs.Appending
import Hocon.Proofs.Decoding
import Hocon.Proofs.Grammar.Reference
import Hocon.Proofs.Quoting
import Hocon.Proofs.Naming
import Hocon.Proofs.Json.Streaming
import Hocon.Proofs.Resolution.Moments
import Hocon.Proofs.Resolution.Visiting
import Hocon.Proofs.Splitting
import Hocon.Proofs.Qualifying
import Hocon.Proofs.Lookahead.Halting
import Hocon.Proofs.Joining
import Hocon.Proofs.Conforming
import Hocon.Proofs.Pointing
import Hocon.Proofs.Files.Escaping
import Hocon.Proofs.Files.Walking
import Hocon.Proofs.Files.Searching
import Hocon.Proofs.Include.Anchoring
import Hocon.Proofs.Tiling
import Hocon.Proofs.Setting

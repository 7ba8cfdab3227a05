import IncrementalParsing.Diagnostic
import IncrementalParsing.Green.Listing
import IncrementalParsing.Green.Sketch
import IncrementalParsing.Lalr.Listing
import IncrementalParsing.Lexing.Script
import IncrementalParsing.Proofs.Grammar.Language
import IncrementalParsing.Proofs.Green.Regrouping
import IncrementalParsing.Proofs.Lalr.Complete
import IncrementalParsing.Proofs.Lexing.Reports
import IncrementalParsing.Proofs.Parsing.Grammatical
import IncrementalParsing.Proofs.Parsing.Identity
import IncrementalParsing.Proofs.Parsing.Lossless
import IncrementalParsing.Proofs.Parsing.Offered
import IncrementalParsing.Proofs.Parsing.Rebuilding
import IncrementalParsing.Proofs.Parsing.Reported
import IncrementalParsing.Proofs.Parsing.Resumption
import IncrementalParsing.Registry
import IncrementalParsing.Tree.Dump
import IncrementalParsing.Tree.Offset
import IncrementalParsing.Tree.Sharing
import IncrementalParsing.Tree.Walk
import IncrementalParsing.Proofs.Lalr.Precedence
import IncrementalParsing.Proofs.Lalr.Making
import IncrementalParsing.Proofs.Operators.Grouping
import IncrementalParsing.Proofs.Operators.Normal
import IncrementalParsing.Proofs.Operators.States
import IncrementalParsing.Proofs.Operators.Climbing
import IncrementalParsing.Proofs.Green.Containing
import IncrementalParsing.Proofs.Parsing.Offers
import IncrementalParsing.Proofs.Parsing.Seated
import IncrementalParsing.Proofs.Parsing.Kept
import IncrementalParsing.Proofs.Parsing.Heeding
import IncrementalParsing.Proofs.Parsing.Sharing
import IncrementalParsing.Proofs.Parsing.Narrowing
import IncrementalParsing.Proofs.Lexing.Tiling
import IncrementalParsing.Proofs.Tree.Navigation
import IncrementalParsing.Proofs.Tree.Subtree
import IncrementalParsing.Proofs.Tree.Traversal
import IncrementalParsing.Proofs.Tree.Links
import IncrementalParsing.Proofs.Tree.Offsets
import IncrementalParsing.Proofs.Grammar.Repetition
import IncrementalParsing.Proofs.Text.Points
import IncrementalParsing.Proofs.Builtin.Numbers
import IncrementalParsing.Proofs.Parsing.Resolution
import IncrementalParsing.Proofs.Grammar.Unbounded
import IncrementalParsing.Proofs.Grammar.Counting
import IncrementalParsing.Proofs.Lalr.Exact
import IncrementalParsing.Proofs.Lalr.Blanks
import IncrementalParsing.Proofs.Grammar.Productive
import IncrementalParsing.Proofs.Lalr.Admitted
import IncrementalParsing.Proofs.Lalr.Unfailing
import IncrementalParsing.Proofs.Lalr.FiniteSets
import IncrementalParsing.Proofs.Green.Bare
import IncrementalParsing.Proofs.Tree.Bare
import IncrementalParsing.Proofs.Lexing.Trivia
import IncrementalParsing.Proofs.Parsing.Retelling
import IncrementalParsing.Proofs.Green.Strands
import IncrementalParsing.Proofs.Parsing.Repetitions
import IncrementalParsing.Proofs.Parsing.Relocation
import IncrementalParsing.Proofs.Parsing.Recall
import IncrementalParsing.Proofs.Parsing.Foresight
import IncrementalParsing.Proofs.Parsing.Completion
import IncrementalParsing.Proofs.Parsing.Anticipation
import IncrementalParsing.Proofs.Parsing.Prospect
import IncrementalParsing.Proofs.Parsing.Recollection
import IncrementalParsing.Proofs.Parsing.Alike
import IncrementalParsing.Proofs.Parsing.Lockstep
import IncrementalParsing.Proofs.Parsing.Rejoining
import IncrementalParsing.Proofs.Parsing.Limits
import IncrementalParsing.Proofs.Parsing.Equivalence
import IncrementalParsing.Proofs.Parsing.Meeting

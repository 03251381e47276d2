import Munch.Code
import Munch.CodeSet.Basic
import Munch.CodeSet.Text
import Munch.CodeSet.Classes
import Munch.CodeSet.InPlace
import Munch.Halving
import Munch.Alphabet
import Munch.Alphabet.Tree
import Munch.Graph.Basic
import Munch.Graph.Search
import Munch.Graph.Order
import Munch.Graph.Copy
import Munch.Graph.Reverse
import Munch.Graph.Normal
import Munch.Graph.Listing
import Munch.Graph.Subset
import Munch.Graph.Minimal
import Munch.Fragment
import Munch.Graph.Complement
import Munch.Pattern.Basic
import Munch.Pattern.Error
import Munch.TokenName
import Munch.Pattern.Reader
import Munch.Text.Blank
import Munch.Script
import Munch.Priority
import Munch.Priority.Relaxation
import Munch.Priority.InPlace
import Munch.Automaton.Basic
import Munch.Definition
import Munch.Compile
import Munch.Reference
import Munch.Text.Read
import Munch.Number.Binary64
import Munch.Sample
import Munch.Json.Basic
import Munch.Json.Writer
import Munch.Json.Reader
import Munch.Json.Amount
import Munch.Automaton.Json
import Munch.Text.Visible
import Munch.Text.Utf8
import Munch.Text.Arrival
import Munch.Text.Quoted
import Munch.Tokenizer.Token
import Munch.Tokenizer.Scan
import Munch.Tokenizer.Basic
import Munch.Tokenizer.CharSource
import Munch.Tokenizer.Windowed
import Munch.Tokenizer.Reading
import Munch.Tokenizer.Report
import Munch.Automaton.Dot
import Munch.CommandLine.Choice
import Munch.CommandLine.Arguments
import Munch.CommandLine.Directory
import Munch.CommandLine.Run
import Munch.Main
import Munch.Proofs.CodeSet.Canonical
import Munch.Proofs.Alphabet
import Munch.Proofs.Graph.Path
import Munch.Proofs.Graph.Search
import Munch.Proofs.Graph.DepthFirst
import Munch.Proofs.Graph.Order
import Munch.Proofs.Graph.Forward
import Munch.Proofs.Graph.MarkedWalk
import Munch.Proofs.Graph.Copy
import Munch.Proofs.Graph.Renaming
import Munch.Proofs.Graph.Normal
import Munch.Proofs.Graph.Cut
import Munch.Proofs.Graph.Reverse
import Munch.Proofs.Graph.Reversal
import Munch.Proofs.Graph.SubsetRun
import Munch.Proofs.Graph.Subset
import Munch.Proofs.Graph.ReverseSubsets
import Munch.Proofs.Graph.Minimal
import Munch.Proofs.Graph.Least
import Munch.Proofs.Graph.Words
import Munch.Proofs.Fragment.Operands
import Munch.Proofs.Fragment.Gluing
import Munch.Proofs.Fragment.Complement
import Munch.Proofs.Pattern.Denotation
import Munch.Proofs.Pattern.Reader
import Munch.Proofs.Pattern.Compiled
import Munch.Proofs.Longest
import Munch.Proofs.Traversal
import Munch.Proofs.Reference
import Munch.Proofs.Automaton.Walk
import Munch.Proofs.Halving
import Munch.Proofs.Automaton.Tables
import Munch.Proofs.Compile.Combined
import Munch.Proofs.Compile.Priorities
import Munch.Proofs.Text.Utf8
import Munch.Proofs.Tokenizer.Iteration
import Munch.Proofs.Tokenizer.Scan
import Munch.Proofs.Tokenizer.Agreement
import Munch.Proofs.Graph.Canonical
import Munch.Proofs.Automaton.WellFormed
import Munch.Proofs.Automaton.Rows
import Munch.Proofs.Compile.Verdict
import Munch.Proofs.Compile.Recognition
import Munch.Proofs.Text.Arrival
import Munch.Proofs.Tokenizer.Stream
import Munch.Proofs.Tokenizer.Standing
import Munch.Proofs.Tokenizer.Uses
import Munch.Proofs.Tokenizer.Retrying
import Munch.Proofs.Compile.Precedence
import Munch.Proofs.Compile.DeclarationOrder
import Munch.Proofs.CodeSet.Operations
import Munch.Proofs.CodeSet.Representation
import Munch.Proofs.Json.RoundTrip
import Munch.Proofs.Tokenizer.Progress
import Munch.Proofs.TokenName
import Munch.Proofs.Pattern.ClassGrammar
import Munch.Proofs.Pattern.Grammar
import Munch.Proofs.Pattern.Shape
import Munch.Proofs.Alphabet.Coarsest
import Munch.Proofs.Alphabet.Tree
import Munch.Proofs.Graph.Powerset
import Munch.Proofs.Pattern.Complement
import Munch.Proofs.Compile.EndingTokens
import Munch.Proofs.Compile.Relaxation
import Munch.Proofs.Compile.Passes
import Munch.Proofs.Compile.Resolution
import Munch.Proofs.Tokenizer.Looking
import Munch.Proofs.Tokenizer.Effects
import Munch.Proofs.Tokenizer.History
import Munch.Proofs.Tokenizer.Places
import Munch.Proofs.Tokenizer.Transaction
import Munch.Proofs.Text.Decoder
import Munch.Proofs.Tokenizer.CharSource
import Munch.Proofs.Tokenizer.Delivery
import Munch.Proofs.Tokenizer.Windowed
import Munch.Proofs.Script

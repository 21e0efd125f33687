import DeclSchema.Main
import DeclSchema.Proofs.Worklist.Run
import DeclSchema.Proofs.Worklist.Account
import DeclSchema.Proofs.Worklist.Closure
import DeclSchema.Proofs.Schema.Reference
import DeclSchema.Proofs.Worklist.Journal
import DeclSchema.Proofs.Generation.Document
import DeclSchema.Proofs.Generation.Reference
import DeclSchema.Proofs.Declaration.Mention
import DeclSchema.Proofs.Schema.Mention
import DeclSchema.Proofs.Table.Lookup
import DeclSchema.Proofs.Schema.Agreement
import DeclSchema.Proofs.Worklist.Agreement
import DeclSchema.Proofs.Generation.Rearrangement
import DeclSchema.Proofs.Generation.Envelope
import DeclSchema.Proofs.Schema.Meaning
import DeclSchema.Proofs.Json.RoundTrip
import DeclSchema.Proofs.Generation.Text
import DeclSchema.Proofs.Grammar.Gap
import DeclSchema.Proofs.Grammar.Lexeme
import DeclSchema.Proofs.Declaration.Canonical
import DeclSchema.Proofs.Grammar.Reading
import DeclSchema.Proofs.Declaration.Spacing
import DeclSchema.Proofs.Declaration.Operands
import DeclSchema.Proofs.Declaration.Names
import DeclSchema.Proofs.Declaration.Unions
import DeclSchema.Proofs.Declaration.Members
import DeclSchema.Proofs.Declaration.Statements
import DeclSchema.Proofs.Worklist.Termination
import DeclSchema.Proofs.Worklist.Exclusion
import DeclSchema.Proofs.Storage.FileTree
import DeclSchema.Proofs.Storage.Contents
import DeclSchema.Proofs.Storage.Publishing
import DeclSchema.Proofs.CommandLine.Run
import DeclSchema.Proofs.Grammar.Trivia
import DeclSchema.Proofs.Grammar.Derivation
import DeclSchema.Proofs.Grammar.Appending
import DeclSchema.Proofs.Grammar.Listing
import DeclSchema.Proofs.Declaration.Concatenation
import DeclSchema.Proofs.Grammar.Filling
import DeclSchema.Proofs.Grammar.Skipped
import DeclSchema.Proofs.Declaration.Skipped
import DeclSchema.Proofs.Grammar.Shape
import DeclSchema.Proofs.Declaration.Nodes
import DeclSchema.Proofs.Declaration.Escapes
import DeclSchema.Proofs.Declaration.Sound
import DeclSchema.Proofs.Declaration.Building
import DeclSchema.Proofs.Declaration.Whole
import DeclSchema.Proofs.Json.Surrogates
import DeclSchema.Proofs.Schema.Surrogates
import DeclSchema.Proofs.Generation.Surrogates
import DeclSchema.Proofs.Grammar.Regrouping
import DeclSchema.Proofs.Schema.Quotation
import DeclSchema.Proofs.Schema.Offence
import DeclSchema.Proofs.Schema.Depth
import DeclSchema.Proofs.Declaration.Layout
import DeclSchema.Proofs.Declaration.Regrouped
import DeclSchema.Proofs.Worklist.Frame
import DeclSchema.Proofs.FirstOccurrence
import DeclSchema.Proofs.Table.Walk
import DeclSchema.Proofs.Table.Unfolding
import DeclSchema.Proofs.Schema.Erasure
import DeclSchema.Proofs.Declaration.Faithful
import DeclSchema.Proofs.Worklist.Chronicle
import DeclSchema.Proofs.Schema.Shape
import DeclSchema.Proofs.Declaration.Spelled
import DeclSchema.Proofs.Source.Loading
import DeclSchema.Proofs.Source.Stored
import DeclSchema.Proofs.Storage.Revisiting
import DeclSchema.Proofs.Options.Reading
import DeclSchema.Proofs.Grammar.Masking
import DeclSchema.Proofs.Declaration.Outermost

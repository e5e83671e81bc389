import GrammarServer.Main
import GrammarServer.Proofs.Layout.RoundTrip
import GrammarServer.Proofs.Document.Edit
import GrammarServer.Proofs.Document.Formatted
import GrammarServer.Proofs.Node.Nested
import GrammarServer.Proofs.Node.Extents
import GrammarServer.Proofs.Session.History
import GrammarServer.Proofs.Node.Shape
import GrammarServer.Proofs.Parse.Apart
import GrammarServer.Proofs.Typed.Symbols
import GrammarServer.Proofs.Symbol.Catalog
import GrammarServer.Proofs.Symbol.Nesting
import GrammarServer.Proofs.Typed.Total
import GrammarServer.Proofs.Symbol.Checked
import GrammarServer.Proofs.Symbol.Undefined
import GrammarServer.Proofs.Document.Diagnostics
import GrammarServer.Proofs.Lexeme.Partition
import GrammarServer.Proofs.Symbol.Shown
import GrammarServer.Proofs.Symbol.Mentioned
import GrammarServer.Proofs.Symbol.Lookup
import GrammarServer.Proofs.Symbol.Parameters
import GrammarServer.Proofs.Document.Kept
import GrammarServer.Proofs.Parse.Paths
import GrammarServer.Proofs.Parse.Recovery
import GrammarServer.Proofs.Document.Places
import GrammarServer.Proofs.Parse.Alike
import GrammarServer.Proofs.Node.Unplaced
import GrammarServer.Proofs.Node.Alike
import GrammarServer.Proofs.Layout.Alike
import GrammarServer.Proofs.Document.ErrorPlaces
import GrammarServer.Proofs.Layout.Imports
import GrammarServer.Proofs.Symbol.Doubled
import GrammarServer.Proofs.Symbol.Shadowed
import GrammarServer.Proofs.Document.Underlined
import GrammarServer.Proofs.Node.Aliases
import GrammarServer.Proofs.Typed.Aliases
import GrammarServer.Proofs.Typed.OneLine
import GrammarServer.Proofs.Layout.Rows
import GrammarServer.Proofs.Layout.Blocks
import GrammarServer.Proofs.Layout.Indentation
import GrammarServer.Proofs.Layout.Directives
import GrammarServer.Proofs.Symbol.SelfReference
import GrammarServer.Proofs.Symbol.Listings
import GrammarServer.Proofs.Document.Views

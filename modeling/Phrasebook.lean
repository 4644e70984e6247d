import Phrasebook.Main
import Phrasebook.Proofs.Merge.Preservation
import Phrasebook.Proofs.Merge.Stability
import Phrasebook.Proofs.Merge.Items
import Phrasebook.Proofs.Extraction.Search
import Phrasebook.Proofs.Extraction.Harvest
import Phrasebook.Proofs.Extraction.Mentions
import Phrasebook.Proofs.Extraction.Coverage
import Phrasebook.Proofs.Template.Spelling
import Phrasebook.Proofs.Template.Tags
import Phrasebook.Proofs.Template.Prints
import Phrasebook.Proofs.Template.Expr
import Phrasebook.Proofs.Template.Yields
import Phrasebook.Proofs.Template.ExprReading
import Phrasebook.Proofs.Template.ExprProductions
import Phrasebook.Proofs.Template.ExprRoundTrip
import Phrasebook.Proofs.Template.Stmt
import Phrasebook.Proofs.Template.StmtClauses
import Phrasebook.Proofs.Template.StmtRoundTrip
import Phrasebook.Proofs.Template.Layout
import Phrasebook.Proofs.Template.ExprGrammar
import Phrasebook.Proofs.Template.StmtGrammar
import Phrasebook.Proofs.Template.TagGroups
import Phrasebook.Proofs.Template.TagNesting
import Phrasebook.Proofs.Template.TreeInvariant
import Phrasebook.Proofs.Template.LinkDepth
import Phrasebook.Proofs.Store.Conversion
import Phrasebook.Proofs.Store.Writing
import Phrasebook.Proofs.Store.Loading
import Phrasebook.Proofs.Files.Path
import Phrasebook.Proofs.Files.Tree
import Phrasebook.Proofs.Command.Update
import Phrasebook.Proofs.Command.Reload
import Phrasebook.Proofs.Merge.Names
import Phrasebook.Proofs.Extraction.TagAndFilter
import Phrasebook.Proofs.Store.Reading
import Phrasebook.Proofs.Store.Rewriting
import Phrasebook.Proofs.Merge.Algebra
import Phrasebook.Proofs.Merge.FlatLists
import Phrasebook.Proofs.Template.OperatorTree
import Phrasebook.Proofs.Template.Precedence
import Phrasebook.Proofs.Template.Sections
import Phrasebook.Proofs.Store.EmptyLines
import Phrasebook.Proofs.Template.ExprSpans
import Phrasebook.Proofs.Extraction.FilterChain
import Phrasebook.Proofs.Store.Backup
import Phrasebook.Proofs.Files.Ancestors
import Phrasebook.Proofs.Settings
import Phrasebook.Proofs.Text.ByteOrder
import Phrasebook.Proofs.Files.Listing
import Phrasebook.Proofs.Template.Discovery
import Phrasebook.Proofs.Store.Directory
import Phrasebook.Proofs.Text.Pattern
import Phrasebook.Proofs.Number.Numeral
import Phrasebook.Proofs.NumericKey
import Phrasebook.Proofs.Template.Numbers
import Phrasebook.Proofs.Template.TokenStream
import Phrasebook.Proofs.Template.Calls
import Phrasebook.Proofs.Template.Exhaustion
import Phrasebook.Proofs.Template.Progress

import Literate.Block.Basic
import Literate.Block.Classify
import Literate.Command.Arguments
import Literate.Command.Run
import Literate.Config
import Literate.Dictionary
import Literate.Difference
import Literate.Document
import Literate.Error
import Literate.FileTree
import Literate.Json.Basic
import Literate.Json.Number
import Literate.Json.Printer
import Literate.Json.Reader
import Literate.Language.Basic
import Literate.Language.Heredoc
import Literate.Language.Registry
import Literate.Language.Table
import Literate.Main
import Literate.Proofs.Associations
import Literate.Proofs.Borders
import Literate.Proofs.Bounds
import Literate.Proofs.Bytes
import Literate.Proofs.Closings
import Literate.Proofs.Commands
import Literate.Proofs.CommentLines
import Literate.Proofs.Comments
import Literate.Proofs.Conversion
import Literate.Proofs.Crossings
import Literate.Proofs.Directives
import Literate.Proofs.DocEdits
import Literate.Proofs.Exchange
import Literate.Proofs.Extents
import Literate.Proofs.Faults
import Literate.Proofs.FileTrees
import Literate.Proofs.Forms
import Literate.Proofs.Grouping
import Literate.Proofs.HeredocBodies
import Literate.Proofs.HeredocEnds
import Literate.Proofs.JsonText
import Literate.Proofs.LastLines
import Literate.Proofs.Layout
import Literate.Proofs.LineEndings
import Literate.Proofs.LineNumbers
import Literate.Proofs.LineViews
import Literate.Proofs.Lines
import Literate.Proofs.Locality
import Literate.Proofs.Markup
import Literate.Proofs.Neighbours
import Literate.Proofs.Normalization
import Literate.Proofs.Openings
import Literate.Proofs.Patterns
import Literate.Proofs.Progress
import Literate.Proofs.Reloading
import Literate.Proofs.Resolution
import Literate.Proofs.Resumption
import Literate.Proofs.Rewriting
import Literate.Proofs.RoundTrip
import Literate.Proofs.Runs
import Literate.Proofs.Saving
import Literate.Proofs.Scan
import Literate.Proofs.Shapes
import Literate.Proofs.ShortString
import Literate.Proofs.StringEnds
import Literate.Proofs.Templates
import Literate.Proofs.Tokens
import Literate.Proofs.Writing
import Literate.Proofs.Zones
import Literate.Region.Basic
import Literate.Region.Exchange
import Literate.Region.Html
import Literate.Region.Mode
import Literate.Region.Save
import Literate.Text.Basic
import Literate.Text.CharClass
import Literate.Text.Form
import Literate.Text.Line
import Literate.Text.Markup
import Literate.Text.Pattern
import Literate.Text.Quoted
import Literate.Text.Unprintable
import Literate.Text.Word
import Literate.Token.Extent
import Literate.Token.Opening
import Literate.Token.Scan

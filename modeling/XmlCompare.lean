import XmlCompare.Command.Basic
import XmlCompare.Command.Run
import XmlCompare.Command.Switch
import XmlCompare.Compare.Comparison
import XmlCompare.Compare.Difference
import XmlCompare.Compare.Matching
import XmlCompare.Compare.Selector
import XmlCompare.Dictionary
import XmlCompare.Document.Element
import XmlCompare.Document.Error
import XmlCompare.Document.Event
import XmlCompare.Document.File
import XmlCompare.Document.Index
import XmlCompare.Document.Printer
import XmlCompare.Document.Tree
import XmlCompare.File.Basic
import XmlCompare.File.Directory
import XmlCompare.Line.Edit
import XmlCompare.Line.Range
import XmlCompare.Line.Split
import XmlCompare.Line.Table
import XmlCompare.Main
import XmlCompare.Markup.Fault
import XmlCompare.Markup.Tag
import XmlCompare.Markup.Token
import XmlCompare.Name.Qualified
import XmlCompare.Name.Scope
import XmlCompare.Path.Basic
import XmlCompare.Path.Ordinal
import XmlCompare.Path.Text
import XmlCompare.Proofs.Compare.Alignment
import XmlCompare.Proofs.Compare.Deletion
import XmlCompare.Proofs.Compare.Likeness
import XmlCompare.Proofs.Compare.Pairing
import XmlCompare.Proofs.Compare.Parts
import XmlCompare.Proofs.Compare.Soundness
import XmlCompare.Proofs.Document.Agreement
import XmlCompare.Proofs.Document.Descent
import XmlCompare.Proofs.Document.Growth
import XmlCompare.Proofs.Document.Numbering
import XmlCompare.Proofs.Document.Removal
import XmlCompare.Proofs.Document.Run
import XmlCompare.Proofs.Report.Deletion
import XmlCompare.Proofs.Report.Projection
import XmlCompare.Proofs.Report.Validity
import XmlCompare.Reading
import XmlCompare.Report.Block
import XmlCompare.Report.Finding
import XmlCompare.Report.Session
import XmlCompare.Report.Verdict
import XmlCompare.Text.Blank
import XmlCompare.Text.Cursor
import XmlCompare.Text.Cut
import XmlCompare.Text.Entity
import XmlCompare.Text.Numeral
import XmlCompare.Proofs.Compare.Interchange
import XmlCompare.Proofs.Report.Reordering
import XmlCompare.Proofs.Compare.Locality
import XmlCompare.Proofs.Compare.Insertion
import XmlCompare.Proofs.Report.Insertion
import XmlCompare.Proofs.Text.Words
import XmlCompare.Proofs.Compare.Rewording
import XmlCompare.Proofs.Report.Rewording
import XmlCompare.Proofs.Markup.Spelling
import XmlCompare.Proofs.Text.References
import XmlCompare.Proofs.Markup.Nesting
import XmlCompare.Proofs.Document.Tracking
import XmlCompare.Proofs.Document.Thinning
import XmlCompare.Proofs.Line.Excision
import XmlCompare.Proofs.Markup.Excision
import XmlCompare.Proofs.Document.Excision
import XmlCompare.Proofs.Report.Repair
import XmlCompare.Proofs.Line.Feeds
import XmlCompare.Proofs.Document.Extent
import XmlCompare.Proofs.Document.Addressing
import XmlCompare.Proofs.Document.Mark
import XmlCompare.Proofs.Document.Comments
import XmlCompare.Proofs.Report.Comments
import XmlCompare.Proofs.Report.Lookup
import XmlCompare.Proofs.Compare.InStep
import XmlCompare.Proofs.Compare.Attributes
import XmlCompare.Proofs.Report.Identity
import XmlCompare.Proofs.Report.Attributes
import XmlCompare.Proofs.Compare.Layout
import XmlCompare.Proofs.Report.Layout
import XmlCompare.Proofs.Name.Renaming
import XmlCompare.Proofs.Document.Renaming
import XmlCompare.Proofs.Report.Renaming
import XmlCompare.Proofs.Markup.Writing
import XmlCompare.Proofs.Document.Merging
import XmlCompare.Proofs.Document.Origin
import XmlCompare.Proofs.Document.Heading
import XmlCompare.Proofs.Document.Part
import XmlCompare.Proofs.Document.Outline
import XmlCompare.Proofs.Document.Reprinting
import XmlCompare.Proofs.Document.Formatting
import XmlCompare.Proofs.Compare.Spacing
import XmlCompare.Proofs.Report.Formatting
import XmlCompare.Proofs.Report.Outcome
import XmlCompare.Proofs.Document.Succession
import XmlCompare.Proofs.Line.Count
import XmlCompare.Proofs.Report.Blocks
import XmlCompare.Proofs.Report.Fixing
import XmlCompare.Proofs.Compare.Addresses
import XmlCompare.Proofs.Report.Addresses
import XmlCompare.Proofs.Command.Report
import XmlCompare.Proofs.Compare.Priority
import XmlCompare.Proofs.Compare.Maximum
import XmlCompare.Proofs.Compare.Sequence
import XmlCompare.Proofs.Compare.Order
import XmlCompare.Proofs.Report.Order
import XmlCompare.Proofs.Compare.Missing
import XmlCompare.Proofs.Compare.Counting
import XmlCompare.Proofs.Report.Children
import XmlCompare.Proofs.Report.Distinct
import XmlCompare.Proofs.Compare.Values
import XmlCompare.Proofs.Report.Values
import XmlCompare.Proofs.Line.Replacement
import XmlCompare.Proofs.Line.Returns
import XmlCompare.Proofs.Document.Returns
import XmlCompare.Proofs.Text.Numerals
import XmlCompare.Proofs.Path.Reading
import XmlCompare.Proofs.Document.Ordinals
import XmlCompare.Proofs.Command.Index
import XmlCompare.Proofs.Document.Listing
import XmlCompare.Proofs.Markup.Respelling
import XmlCompare.Proofs.Document.Relocation
import XmlCompare.Proofs.Document.Padding
import XmlCompare.Proofs.Document.Lineless
import XmlCompare.Proofs.Document.Respelling
import XmlCompare.Proofs.Report.Respelling
import XmlCompare.Proofs.Document.Bracketing
import XmlCompare.Proofs.Document.Elements
import XmlCompare.Proofs.File.Writing
import XmlCompare.Proofs.Command.Switches
import XmlCompare.Proofs.Command.Output
import XmlCompare.Proofs.Name.History
import XmlCompare.Proofs.Document.Lasting
import XmlCompare.Proofs.Path.Siblings
import XmlCompare.Proofs.Line.Location
import XmlCompare.Proofs.Text.Normal

import LatexPreview.Text.Digit
import LatexPreview.Text.Lines
import LatexPreview.Text.Quoted
import LatexPreview.Text.Utf8
import LatexPreview.Text.Word
import LatexPreview.Number.Shortest
import LatexPreview.Json.Reader
import LatexPreview.Source.Findings
import LatexPreview.Source.WordCount
import LatexPreview.Convert.Document
import LatexPreview.Report.Console
import LatexPreview.Report.Panel
import LatexPreview.MathText.Restore
import LatexPreview.Page.Document
import LatexPreview.Page.Fragment
import LatexPreview.Workspace.OsError
import LatexPreview.Cover.Inject
import LatexPreview.Main
import LatexPreview.Proofs.Convert.BlockStages
import LatexPreview.Proofs.Convert.Growth
import LatexPreview.Proofs.Convert.InlineNesting
import LatexPreview.Proofs.Convert.InlineStage
import LatexPreview.Proofs.Convert.LiftStage
import LatexPreview.Proofs.Convert.LiftUndone
import LatexPreview.Proofs.Convert.ListStage
import LatexPreview.Proofs.Convert.ParagraphStage
import LatexPreview.Proofs.Convert.Rewording
import LatexPreview.Proofs.Convert.Stages
import LatexPreview.Proofs.Convert.Tokens
import LatexPreview.Proofs.Cover.Findings
import LatexPreview.Proofs.Cover.Math
import LatexPreview.Proofs.Live.Interleaving
import LatexPreview.Proofs.MathText.Delimiters
import LatexPreview.Proofs.MathText.Markup
import LatexPreview.Proofs.Pattern.Matches
import LatexPreview.Proofs.Pattern.Shapes
import LatexPreview.Proofs.Placeholder.Expansion
import LatexPreview.Proofs.Placeholder.Rounds
import LatexPreview.Proofs.Source.Nesting
import LatexPreview.Proofs.Source.SoundDocuments
import LatexPreview.Proofs.Lists.Nesting
import LatexPreview.Proofs.Lists.Passes
import LatexPreview.Proofs.Convert.BlankLines
import LatexPreview.Proofs.Convert.PlainText
import LatexPreview.Proofs.Compile.Coherence
import LatexPreview.Proofs.Build.Gate
import LatexPreview.Proofs.CommandLine.OutputPaths
import LatexPreview.Proofs.CommandLine.Start
import LatexPreview.Proofs.Convert.MathReading
import LatexPreview.Proofs.Environments.Conversion
import LatexPreview.Proofs.Listings.Shown
import LatexPreview.Proofs.Source.BraceUnits
import LatexPreview.Proofs.Source.WordCount
import LatexPreview.Proofs.Cover.Preamble
import LatexPreview.Proofs.Tables.Rows
import LatexPreview.Proofs.Report.Listing
import LatexPreview.Proofs.Report.Panels

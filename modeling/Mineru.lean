import Mineru.Laws.Csv.RoundTrip
import Mineru.Laws.ZipScan
import Mineru.Laws.Archive.Commit
import Mineru.Laws.RestoreRoute
import Mineru.Laws.Semantic.Agreement
import Mineru.Laws.Worker.Persistent
import Mineru.Laws.Builders.Table
import Mineru.Laws.Route.Schedule
import Mineru.Laws.Hybrid.Transaction
import Mineru.Laws.Workers.Drain
import Mineru.Laws.LocalTasks.Requests
import Mineru.Laws.LocalTasks.Admission
import Mineru.Laws.Render.Publish
import Mineru.Laws.Remote.Publication
import Mineru.Laws.Csv.Sample
import Mineru.Laws.Csv.Html
import Mineru.Laws.Csv.Markdown
import Mineru.Laws.Ooxml.Preflight
import Mineru.Laws.Preview.Middle
import Mineru.Laws.Layout.Compose
import Mineru.Laws.Builders.Continuation
import Mineru.Laws.Stems.Portable
import Mineru.Laws.Planning.Tasks
import Mineru.Laws.Official.Timestamp
import Mineru.Laws.Builders.Unescape
import Mineru.Laws.Builders.Spans
import Mineru.Laws.Vlm.Candidates
import Mineru.Laws.OfficialOutput.Assemble
import Mineru.Laws.Builders.References
import Mineru.Laws.Vlm.Otsl
import Mineru.Laws.Vlm.PostProcess
import Mineru.Laws.Output.Assets
import Mineru.Laws.Pdf.Dimensions
import Mineru.Laws.Pdf.Window
import Mineru.Laws.Hybrid.Tree
import Mineru.Laws.Vlm.Sse
import Mineru.Laws.Remote.TaskUrl
import Mineru.Laws.Image.Mask
import Mineru.Laws.NativePdf.Images
import Mineru.Laws.Vlm.Repeated
import Mineru.Laws.Builders.Code
import Mineru.Laws.Builders.Paragraphs
import Mineru.Laws.LegacyOffice.Pdf
import Mineru.Laws.Official.FencedCode
import Mineru.Laws.Official.Shutdown
import Mineru.Laws.Official.Budget
import Mineru.Laws.Models.Published

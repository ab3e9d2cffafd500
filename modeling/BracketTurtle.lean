import BracketTurtle.Command
import BracketTurtle.CommandLine
import BracketTurtle.Config
import BracketTurtle.Drawing.Bounds
import BracketTurtle.Drawing.Markup
import BracketTurtle.Drawing.Point
import BracketTurtle.Drawing.Surface
import BracketTurtle.Drawing.Svg
import BracketTurtle.Files.Error
import BracketTurtle.Files.Path
import BracketTurtle.Files.Tree
import BracketTurtle.Json.Reader
import BracketTurtle.Json.Writer
import BracketTurtle.Main
import BracketTurtle.Number.Digits
import BracketTurtle.Number.Exact
import BracketTurtle.Number.Places
import BracketTurtle.Number.Shortest
import BracketTurtle.Number.Text
import BracketTurtle.Options.Grammar
import BracketTurtle.Options.Help
import BracketTurtle.Options.Reading
import BracketTurtle.Pen
import BracketTurtle.Pen.Tray
import BracketTurtle.Program.Commands
import BracketTurtle.Program.Failure
import BracketTurtle.Program.Job
import BracketTurtle.Proofs.Agreement
import BracketTurtle.Proofs.Branches
import BracketTurtle.Proofs.ConfigChecks
import BracketTurtle.Proofs.ConfigFields
import BracketTurtle.Proofs.Contiguity
import BracketTurtle.Proofs.DashedArguments
import BracketTurtle.Proofs.Decimals
import BracketTurtle.Proofs.Depths
import BracketTurtle.Proofs.Desks
import BracketTurtle.Proofs.DocumentedConfigs
import BracketTurtle.Proofs.DoubleTexts
import BracketTurtle.Proofs.DrawnPlaces
import BracketTurtle.Proofs.Endings
import BracketTurtle.Proofs.ExactDoubles
import BracketTurtle.Proofs.Extremes
import BracketTurtle.Proofs.Faults
import BracketTurtle.Proofs.Fidelity
import BracketTurtle.Proofs.Framing
import BracketTurtle.Proofs.GridDrawings
import BracketTurtle.Proofs.JsonTexts
import BracketTurtle.Proofs.KeptFiles
import BracketTurtle.Proofs.MadeDirectories
import BracketTurtle.Proofs.MarkupReading
import BracketTurtle.Proofs.MirroredWords
import BracketTurtle.Proofs.ModestRuns
import BracketTurtle.Proofs.OpenBranches
import BracketTurtle.Proofs.Opposites
import BracketTurtle.Proofs.Outcomes
import BracketTurtle.Proofs.OverriddenWords
import BracketTurtle.Proofs.PartialRuns
import BracketTurtle.Proofs.PixelRounding
import BracketTurtle.Proofs.PlainArguments
import BracketTurtle.Proofs.PlainWords
import BracketTurtle.Proofs.Plotting
import BracketTurtle.Proofs.Polylines
import BracketTurtle.Proofs.PrintedSizes
import BracketTurtle.Proofs.Queues
import BracketTurtle.Proofs.RandomConfigs
import BracketTurtle.Proofs.RandomNesting
import BracketTurtle.Proofs.RandomPipeline
import BracketTurtle.Proofs.RandomWords
import BracketTurtle.Proofs.RefusedConfigs
import BracketTurtle.Proofs.Replays
import BracketTurtle.Proofs.RoundTrips
import BracketTurtle.Proofs.RoundedArithmetic
import BracketTurtle.Proofs.Rounding
import BracketTurtle.Proofs.SavedFiles
import BracketTurtle.Proofs.SeedArguments
import BracketTurtle.Proofs.ShortestDecimals
import BracketTurtle.Proofs.ShownWords
import BracketTurtle.Proofs.Snapping
import BracketTurtle.Proofs.Summaries
import BracketTurtle.Proofs.SvgReading
import BracketTurtle.Proofs.Utf8Texts
import BracketTurtle.Proofs.Values
import BracketTurtle.Proofs.Walks
import BracketTurtle.Proofs.WellFormed
import BracketTurtle.Proofs.WholeBounds
import BracketTurtle.Proofs.WordGrammar
import BracketTurtle.Proofs.WordTexts
import BracketTurtle.Proofs.WrittenDecimals
import BracketTurtle.Proofs.WrittenNumbers
import BracketTurtle.Proofs.XmlDocuments
import BracketTurtle.Proofs.XmlReading
import BracketTurtle.Proofs.XmlValues
import BracketTurtle.Random.Source
import BracketTurtle.Random.Word
import BracketTurtle.Sketch
import BracketTurtle.Table
import BracketTurtle.Text.Lines
import BracketTurtle.Text.Printable
import BracketTurtle.Text.Quoted
import BracketTurtle.Text.Utf8
import BracketTurtle.Turtle
import BracketTurtle.Word
import BracketTurtle.Word.Desk
import BracketTurtle.Word.Shelf

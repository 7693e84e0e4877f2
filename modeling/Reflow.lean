import Reflow.Benchmark.Command
import Reflow.Benchmark.Summary
import Reflow.Cli.InstallCommand
import Reflow.Main
import Reflow.Release.Check
import Reflow.Release.Pages
import Reflow.Proofs.Separation
import Reflow.Proofs.BlankLines
import Reflow.Proofs.QuoteMargins
import Reflow.Proofs.ExplicitOptions
import Reflow.Proofs.CheckMode
import Reflow.Proofs.SentenceSpans
import Reflow.Proofs.SeparatedTags
import Reflow.Proofs.CurledQuotes
import Reflow.Proofs.Ellipses
import Reflow.Proofs.InsertedLines
import Reflow.Proofs.FilledText
import Reflow.Proofs.ListEscapes
import Reflow.Proofs.FrontMatterText
import Reflow.Proofs.InputOrder
import Reflow.Proofs.LinkTargets
import Reflow.Proofs.Strikethroughs
import Reflow.Proofs.PageBlocks
import Reflow.Proofs.InstalledPages
import Reflow.Proofs.PlainRewrapping

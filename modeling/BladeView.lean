import BladeView.Command.Basic
import BladeView.Files.Tree
import BladeView.Main
import BladeView.Proofs.Block.Template
import BladeView.Proofs.Block.OpenBlocks
import BladeView.Proofs.Section.Static
import BladeView.Proofs.Expression.FixedPoint
import BladeView.Proofs.Build.Output
import BladeView.Proofs.ScanVariant.Blocks
import BladeView.Proofs.Section.Repeated
import BladeView.Proofs.ViewModule.BindingOrder
import BladeView.Proofs.ViewModule.Inert
import BladeView.Proofs.ViewModule.PlainMarkup
import BladeView.Proofs.Expression.Translation
import BladeView.Proofs.Declaration.Agreement
import BladeView.Proofs.ViewName.FunctionName
import BladeView.Proofs.Group.Offsets
import BladeView.Proofs.Token.Region
import BladeView.Proofs.Section.Script
import BladeView.Proofs.ScanVariant.Stable
import BladeView.Proofs.Markup.Escaped
import BladeView.Proofs.Section.Place
import BladeView.Proofs.Section.Listed
import BladeView.Proofs.Declaration.Sequence
import BladeView.Proofs.Markup.Replaced
import BladeView.Proofs.Source.Deletion
import BladeView.Proofs.Reference.Search
import BladeView.Proofs.Name.Literal
import BladeView.Proofs.TopLevel.Separators
import BladeView.Proofs.Wrapper.RoundTrip
import BladeView.Proofs.Script.Literal
import BladeView.Proofs.Markup.Tags
import BladeView.Proofs.Markup.Pairs
import BladeView.Proofs.Markup.YieldedTags
import BladeView.Proofs.Wrapper.Structural
import BladeView.Proofs.Script.EscapedTicks

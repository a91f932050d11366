import StyleScope.CommandLine.Folder
import StyleScope.Main
import StyleScope.Selector.Arena
import StyleScope.Sheet.Edit
import StyleScope.Proofs.AgreedScope
import StyleScope.Proofs.AnimationNames
import StyleScope.Proofs.ArenaCopies
import StyleScope.Proofs.ArenaShape
import StyleScope.Proofs.CallNesting
import StyleScope.Proofs.CheckedSheet
import StyleScope.Proofs.Concatenation
import StyleScope.Proofs.DeclarationScope
import StyleScope.Proofs.EffectiveScope
import StyleScope.Proofs.EscapeEnds
import StyleScope.Proofs.EscapedUrls
import StyleScope.Proofs.Excerpts
import StyleScope.Proofs.Idempotence
import StyleScope.Proofs.IdentifierGrammar
import StyleScope.Proofs.ImportantMark
import StyleScope.Proofs.ImportedNames
import StyleScope.Proofs.JoinedArguments
import StyleScope.Proofs.KeptOutline
import StyleScope.Proofs.KeptRelations
import StyleScope.Proofs.KeyframesCalls
import StyleScope.Proofs.LineEndings
import StyleScope.Proofs.NestedKeywords
import StyleScope.Proofs.NestingLimit
import StyleScope.Proofs.PlainSheets
import StyleScope.Proofs.Positions
import StyleScope.Proofs.PureRefusal
import StyleScope.Proofs.Purity
import StyleScope.Proofs.Rearranging
import StyleScope.Proofs.ScopePreludes
import StyleScope.Proofs.SelectorPrint
import StyleScope.Proofs.SheetPrint
import StyleScope.Proofs.ShorthandNames
import StyleScope.Proofs.Splicing
import StyleScope.Proofs.Tiling
import StyleScope.Proofs.UnchangedUrls
import StyleScope.Proofs.ValueNodes
import StyleScope.Proofs.ValuePrint

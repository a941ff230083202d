import CallAtlas.Main
import CallAtlas.Proofs.EdgeList
import CallAtlas.Proofs.Conservation
import CallAtlas.Proofs.Extents
import CallAtlas.Proofs.ScriptExtents
import CallAtlas.Proofs.CallFilter
import CallAtlas.Proofs.RegistryGrowth
import CallAtlas.Proofs.Phases
import CallAtlas.Proofs.Locality
import CallAtlas.Proofs.CorpusOrder
import CallAtlas.Proofs.Columns
import CallAtlas.Proofs.CallNames
import CallAtlas.Proofs.CallSites
import CallAtlas.Proofs.Confinement
import CallAtlas.Proofs.Isolation
import CallAtlas.Proofs.Decimal
import CallAtlas.Proofs.JsonText
import CallAtlas.Proofs.BlockWords
import CallAtlas.Proofs.CodeLines
import CallAtlas.Proofs.ReportText
import CallAtlas.Proofs.RubyGrammar
import CallAtlas.Proofs.RubyHeaders
import CallAtlas.Proofs.RubyNesting
import CallAtlas.Proofs.ParameterLists
import CallAtlas.Proofs.ScriptGrammar
import CallAtlas.Proofs.ScriptLines
import CallAtlas.Proofs.ScriptOutline
import CallAtlas.Proofs.ScriptWalk
import CallAtlas.Proofs.Strategies
import CallAtlas.Proofs.HashLabels
import CallAtlas.Proofs.ImportBindings
import CallAtlas.Proofs.Heredocs
import CallAtlas.Proofs.ParameterNames
import CallAtlas.Proofs.ParameterShape
import CallAtlas.Proofs.HeaderParameters
import CallAtlas.Proofs.ClassMembers
import CallAtlas.Proofs.MethodRanges
import CallAtlas.Proofs.NestedRanges
import CallAtlas.Proofs.ExpressionLines
import CallAtlas.Proofs.LocalNames
import CallAtlas.Proofs.SelfCalls
import CallAtlas.Proofs.BlankLines
import CallAtlas.Proofs.HiddenText
import CallAtlas.Proofs.LineParts
import CallAtlas.Proofs.RepeatedPasses
import CallAtlas.Proofs.SplitStability
import CallAtlas.Proofs.PrintedParameters
import CallAtlas.Proofs.TemplateTags
import CallAtlas.Proofs.CommentTags
import CallAtlas.Proofs.DiagramIds
import CallAtlas.Proofs.AllowedNames
import CallAtlas.Proofs.TemplateRecords
import CallAtlas.Proofs.ImportClauses
import CallAtlas.Proofs.VisibilityScopes
import CallAtlas.Proofs.WalkOrder
import CallAtlas.Proofs.BracketPairs

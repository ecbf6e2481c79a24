import Elisa.Lib.Walk
import Elisa.Lib.Outcome
import Elisa.Lib.LittleEndian
import Elisa.Lib.Separated
import Elisa.Bytes
import Elisa.Semantic.Snapshot
import Elisa.Semantic.SnapshotCodec
import Elisa.Semantic.SnapshotChecks
import Elisa.Semantic.SnapshotRows
import Elisa.Backend.ModuleAlias
import Elisa.Backend.ModuleAliasAgreement
import Elisa.Backend.ConstFold
import Elisa.Backend.ConstFoldAgreement
import Elisa.Backend.NameMangling
import Elisa.Backend.NameManglingInjective
import Elisa.Backend.StaticIf
import Elisa.Semantic.SnapshotRoundTrip
import Elisa.Lib.LinkedList
import Elisa.Lib.Worklist
import Elisa.Lib.RowChain
import Elisa.Backend.NameChains
import Elisa.Backend.NameChainsAgreement
import Elisa.Semantic.SymbolIndex
import Elisa.Semantic.SymbolIndexRepair
import Elisa.Lib.Climbing
import Elisa.Frontend.BinaryExpressions
import Elisa.Frontend.BinaryGrouping
import Elisa.Lib.SparseMap
import Elisa.Driver.LineMap
import Elisa.Driver.LineMapRows
import Elisa.Driver.LineMapComposition
import Elisa.Backend.ForkTree
import Elisa.Backend.ForkTreeSafety
import Elisa.Backend.ForkTreeTermination
import Elisa.Backend.PartModule
import Elisa.Backend.PartModuleBalance
import Elisa.Semantic.QueryStaleness
import Elisa.Semantic.QueryLinks
import Elisa.Semantic.QueryWalks
import Elisa.Semantic.QueryReplace
import Elisa.Semantic.QueryDependencies
import Elisa.Semantic.QueryFreshness
import Elisa.Semantic.QueryCommit
import Elisa.Semantic.QueryRuns
import Elisa.Semantic.QueryInvariants
import Elisa.Backend.PartModulePartition
import Elisa.Driver.FrontendIr
import Elisa.Driver.FrontendIrRead
import Elisa.Lib.OccursAt
import Elisa.Driver.FrontendIrRoundTrip
import Elisa.Driver.Includes
import Elisa.Driver.LineAttribution
import Elisa.Lib.Splice
import Elisa.Driver.IncludeExpansion
import Elisa.Driver.IncludeOrigins
import Elisa.Easm.Operands
import Elisa.Easm.Compose
import Elisa.Easm.ComposeComplete
import Elisa.Easm.Flow
import Elisa.Easm.VerifyMemory
import Elisa.Easm.VerifyModule
import Elisa.Easm.ParseInvariant
import Elisa.Easm.Emit
import Elisa.Easm.ScanInvariant
import Elisa.Easm.StackSoundness
import Elisa.Easm.ProvenanceSoundness
import Elisa.Easm.CalleeSaved
import Elisa.Easm.CalleeSavedSoundness
import Elisa.Easm.ComposeTermination
import Elisa.Backend.LiteralDecode
import Elisa.Lexer.LineMapCache
import Elisa.Lexer.LineMapAgreement
import Elisa.Lexer.LineMapGeneration
import Elisa.Lexer.Cursor
import Elisa.Lexer.Identifiers
import Elisa.Lexer.Numbers
import Elisa.Lexer.Strings
import Elisa.Lexer.State
import Elisa.Lexer.NextToken
import Elisa.Lexer.Scanning
import Elisa.Lexer.Moves
import Elisa.Lexer.Passes
import Elisa.Lexer.Termination
import Elisa.Lexer.StreamEnd
import Elisa.Lexer.NumberedLines
import Elisa.Lexer.ProperEnd
import Elisa.Lexer.Layout
import Elisa.Backend.StaticIfForest
import Elisa.Easm.LocalJumps
import Elisa.Easm.Template
import Elisa.Lib.CheckedInt64
import Elisa.Backend.ConstDict
import Elisa.Backend.ConstDictLookups
import Elisa.Backend.ConstFoldTraps
import Elisa.Backend.ConstGlobals
import Elisa.Backend.ConstGlobalsTermination
import Elisa.Backend.ConstResolution
import Elisa.Backend.ConstResolutionOrder
import Elisa.Easm.FlowFixpoint
import Elisa.Easm.ProvenanceFixpoint
import Elisa.Lib.DepthFirst
import Elisa.Lib.HeightStack
import Elisa.Lib.LexicalPaths
import Elisa.Project.Manifests
import Elisa.Project.Paths
import Elisa.Semantic.ModuleSymbolPath
import Elisa.Backend.AnnotationPairs
import Elisa.Backend.BitGroups
import Elisa.Backend.IndexBounds
import Elisa.Lib.Binary64
import Elisa.Lib.BottomUpMerge
import Elisa.Lib.DecimalDigits
import Elisa.Lib.SortedLookup
import Elisa.Semantic.FloatCastComparison
import Elisa.Semantic.FloatCastDecision
import Elisa.Semantic.ViewOrigins
import Elisa.Lib.Utf8
import Elisa.Project.JsonAgreement
import Elisa.Project.JsonKeys
import Elisa.Lexer.Positions
import Elisa.Lexer.Spans
import Elisa.Frontend.Ast
import Elisa.Lib.Asking
import Elisa.Semantic.Diagnostics
import Elisa.Semantic.PatternReachability
import Elisa.Semantic.RegionFlow
import Elisa.Semantic.RegionFlowTermination
import Elisa.Semantic.RecursiveCycles
import Elisa.Semantic.UnreachableArms
import Elisa.Driver.FormatIntegers
import Elisa.Lib.KeyedRows
import Elisa.Semantic.ConstantFolding
import Elisa.Semantic.RequiresContradictory
import Elisa.Frontend.LiteralTokens
import Elisa.Semantic.StatementExecution
import Elisa.Semantic.LinearForms
import Elisa.Semantic.LoopEstablishment
import Elisa.Semantic.LoopPreservation
import Elisa.Semantic.EnumHierarchy
import Elisa.Semantic.MatchExhaustiveness
import Elisa.Semantic.MatchTotality
import Elisa.Lib.Terms
import Elisa.Semantic.StructuralDecreases
import Elisa.Semantic.StructuralDescent
import Elisa.Lib.Interning
import Elisa.Lib.BucketStacks
import Elisa.Semantic.RowEntries
import Elisa.Semantic.TypeTable
import Elisa.Semantic.TypeInterning
import Elisa.Semantic.OwnershipLookup
import Elisa.Semantic.OwnershipLookupAgreement
import Elisa.Easm.Decimals
import Elisa.Semantic.NameSet

import MetaCG.Foundations.UnorderedMap
import MetaCG.Foundations.OrderedMap
import MetaCG.Foundations.Outcome
import MetaCG.Foundations.Scatter
import MetaCG.Foundations.Accumulate
import MetaCG.Foundations.Dominance
import MetaCG.Graph.MetaData
import MetaCG.Graph.MetaDataMerge
import MetaCG.Graph.Callgraph
import MetaCG.Graph.Invariant
import MetaCG.Graph.EdgeInvariant
import MetaCG.Merge.Merge
import MetaCG.Graph.History
import MetaCG.Merge.NodeLoop
import MetaCG.Merge.EdgeLoop
import MetaCG.Merge.EdgeClash
import MetaCG.Merge.MetaLoop
import MetaCG.Merge.Result
import MetaCG.Merge.Structure
import MetaCG.Merge.References
import MetaCG.Merge.Sequence
import MetaCG.Manager.MCGManager
import MetaCG.Manager.Counters
import MetaCG.Analysis.DominatorWorklist
import MetaCG.Analysis.DominatorAnalysis
import MetaCG.Analysis.DominatorRuns
import MetaCG.Analysis.Dominators
import MetaCG.Format.Json
import MetaCG.Format.MetaDataJson
import MetaCG.Format.VersionFourMCGReader
import MetaCG.Format.VersionFourMCGWriter
import MetaCG.Format.MetaDataCodec
import MetaCG.Format.Document
import MetaCG.Format.ReadNodes
import MetaCG.Format.ReadData
import MetaCG.Format.RoundTrip
import MetaCG.Format.EntryFunction
import MetaCG.Manager.ActiveGraph
import MetaCG.Format.DotIO
import MetaCG.Format.DotTokens
import MetaCG.Format.DotGenerator
import MetaCG.Format.DotRoundTrip
import MetaCG.Tools.CGDiff
import MetaCG.Graph.Compact
import MetaCG.Tools.ErasedNodes
import MetaCG.Format.VersionTwoMCG
import MetaCG.Format.VersionTwoDocument
import MetaCG.Format.VersionTwoConsistent
import MetaCG.Format.VersionTwoUpgrade
import MetaCG.Format.VersionTwoRoundTrip
import MetaCG.Format.VersionTwoFidelity
import MetaCG.AliasAnalysis.EquivClassContainer
import MetaCG.Foundations.CongruenceClosure
import MetaCG.AliasAnalysis.Classes
import MetaCG.AliasAnalysis.Merge
import MetaCG.AliasAnalysis.MergeRecurisve
import MetaCG.Tools.CGMerge
import MetaCG.AliasAnalysis.Binding
import MetaCG.Tools.CallBinding
import MetaCG.Tools.ImportClasses
import MetaCG.Tools.ImportFile
import MetaCG.Tools.ImportMaps
import MetaCG.Tools.CrossTU
import MetaCG.Tools.ImportOrder
import MetaCG.Graph.Boundary
import MetaCG.Graph.DuplicateNames
import MetaCG.Foundations.Unite
import MetaCG.Graph.MetaDataUnion
import MetaCG.Merge.Actions
import MetaCG.Analysis.DominatorEntries
import MetaCG.Analysis.ReachabilityAnalysis
import MetaCG.Analysis.ReachabilityHistory
import MetaCG.Tools.JSONManager
import MetaCG.Tools.GlobalCallDepth
import MetaCG.Tools.MergeFileFormatTwo
import MetaCG.Tools.MergeFileUnion
import MetaCG.Tools.CountedDepths
import MetaCG.Tools.MergeFileLoops
import MetaCG.Tools.CGPatchGather
import MetaCG.Format.Util
import MetaCG.Foundations.Occurrence
import MetaCG.Tools.CGFormat
import MetaCG.Tools.GlobalDepthEquation
import MetaCG.Format.DotParser
import MetaCG.Format.DotGrammar
import MetaCG.Format.DotIdentifiers
import MetaCG.Format.DotStatements
import MetaCG.Format.DotSorted
import MetaCG.Tools.CGDiffCompare
import MetaCG.Tools.CGDiffEquality
import MetaCG.Tools.CGDiffDuplicates
import MetaCG.Tools.CGDiffForeign
import MetaCG.Tools.CGDiffRenumbering
import MetaCG.Tools.CGDiffEntryFunction
import MetaCG.Merge.EdgeKeys
import MetaCG.Format.ReadFile
import MetaCG.Format.EdgeKeys
import MetaCG.Format.Rewrite
import MetaCG.Foundations.Collect
import MetaCG.Foundations.HashTable
import MetaCG.Tools.OverrideClosure
import MetaCG.Pgis.LegacyMCGReader
import MetaCG.Pgis.VirtualHierarchy
import MetaCG.Tools.DispatchFormatTwo
import MetaCG.Foundations.Descent
import MetaCG.Tools.CGValidate
import MetaCG.Tools.CGValidateOverrides
import MetaCG.Tools.CGValidateEdges
import MetaCG.Tools.CGValidatePatch
import MetaCG.Pgis.FillInstrumentationGaps
import MetaCG.Pgis.CallEstimates
import MetaCG.Pgis.RuntimeEstimator
import MetaCG.Pgis.KickNodes
import MetaCG.Foundations.CompareSet
import MetaCG.Pgis.GreedyKnapsack
import MetaCG.Pgis.Exploration
import MetaCG.Foundations.BoundedSearch
import MetaCG.Pgis.LoadImbalance
import MetaCG.AliasAnalysis.PrefixLists
import MetaCG.Tools.MetaDataFunctions
import MetaCG.Foundations.SetAlgorithms
import MetaCG.Pgis.CgHelperSets
import MetaCG.Pgis.CallEstimateRecursion
import MetaCG.Pgis.WhiteList
import MetaCG.Foundations.DepthFirst
import MetaCG.Pgis.InclusiveStatements
import MetaCG.Foundations.Histogram
import MetaCG.Pgis.StatisticsEstimator
import MetaCG.Pgis.CuttoffValues
import MetaCG.Graph.Renumber
import MetaCG.Pgis.LIEstimatorPhase
import MetaCG.Pgis.LINumbering
import MetaCG.Foundations.Groups
import MetaCG.Pgis.ValTup
import MetaCG.Format.FileGraph
import MetaCG.Format.MCGReader
import MetaCG.Tools.CGConvert
import MetaCG.Tools.CGQuery
import MetaCG.Tools.CGMerge2
import MetaCG.Pgis.CubeReader
import MetaCG.Pgis.AttachResults
import MetaCG.Pgis.Restart
import MetaCG.Pgis.PiraIterations
import MetaCG.Fortran.CallbackEffects
import MetaCG.Fortran.CallbackTotals
import MetaCG.Fortran.Dispatch
import MetaCG.Fortran.Finalizers
import MetaCG.Fortran.OperatorCalls
import MetaCG.Pgis.RuntimeSelection

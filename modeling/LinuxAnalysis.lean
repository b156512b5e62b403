import LinuxAnalysis.Lib.Dense
import LinuxAnalysis.Lib.Derivation
import LinuxAnalysis.Lib.Loop
import LinuxAnalysis.Lib.Dict
import LinuxAnalysis.Lib.Text
import LinuxAnalysis.Lib.Fields
import LinuxAnalysis.Lib.Fuel
import LinuxAnalysis.Lib.Grouping
import LinuxAnalysis.Lib.Interleave
import LinuxAnalysis.Lib.Matcher
import LinuxAnalysis.Lib.Path
import LinuxAnalysis.Lib.Pointwise
import LinuxAnalysis.Lib.Pool
import LinuxAnalysis.Lib.Predecessor
import LinuxAnalysis.Lib.Regex
import LinuxAnalysis.Lib.Script
import LinuxAnalysis.Lib.Search
import LinuxAnalysis.Lib.Shell
import LinuxAnalysis.Lib.Transition
import LinuxAnalysis.Lib.Walk
import LinuxAnalysis.IR.Module
import LinuxAnalysis.IR.Origin
import LinuxAnalysis.IR.OriginFuel
import LinuxAnalysis.IR.OriginSearch
import LinuxAnalysis.Pass.State
import LinuxAnalysis.Pass.Scan
import LinuxAnalysis.Pass.Seed
import LinuxAnalysis.Pass.Forward
import LinuxAnalysis.Pass.Upward
import LinuxAnalysis.Pass.Report
import LinuxAnalysis.Pass.SpanCoverage
import LinuxAnalysis.Pass.ForwardClosure
import LinuxAnalysis.Pass.ScanSpec
import LinuxAnalysis.Pass.DrainSpec
import LinuxAnalysis.Pass.MemoryTaint
import LinuxAnalysis.Pass.Turns
import LinuxAnalysis.Pass.AddressOrder
import LinuxAnalysis.Pass.Machine
import LinuxAnalysis.Pass.UpwardClosure
import LinuxAnalysis.Pass.Primitive
import LinuxAnalysis.Pass.Invariant
import LinuxAnalysis.Pass.Provenance
import LinuxAnalysis.Pass.Flow
import LinuxAnalysis.Pass.CallClosure
import LinuxAnalysis.Pass.Progress
import LinuxAnalysis.Pass.Termination
import LinuxAnalysis.Pass.Levels
import LinuxAnalysis.Pass.KillConsistency
import LinuxAnalysis.Pass.LoadVerdict
import LinuxAnalysis.Pass.Visit
import LinuxAnalysis.Pass.LevelCoverage
import LinuxAnalysis.Pass.DownwardLevels
import LinuxAnalysis.Pass.UpwardWorklist
import LinuxAnalysis.Pass.UpwardStores
import LinuxAnalysis.Pass.ParameterStores
import LinuxAnalysis.Pass.FieldRecords
import LinuxAnalysis.Pass.IndirectCalls
import LinuxAnalysis.Pass.Statistics
import LinuxAnalysis.Pass.TurnLevels
import LinuxAnalysis.Pass.LevelOffers
import LinuxAnalysis.Pass.SharedVisits
import LinuxAnalysis.Pass.LevelOrder
import LinuxAnalysis.Pass.Occurrence
import LinuxAnalysis.Pass.Print
import LinuxAnalysis.Pass.Output
import LinuxAnalysis.Pass.Plugin
import LinuxAnalysis.Pass.SeedMonotone
import LinuxAnalysis.Pass.SpanAgreement
import LinuxAnalysis.Pass.UpwardIdle
import LinuxAnalysis.Pass.CallDepth
import LinuxAnalysis.Pass.ValueFlow
import LinuxAnalysis.Scripts.Tables
import LinuxAnalysis.Scripts.AddressLookup
import LinuxAnalysis.Scripts.AnalysisParallel
import LinuxAnalysis.Scripts.ReportParser
import LinuxAnalysis.Scripts.AssemblySpan
import LinuxAnalysis.Scripts.BaseAddress
import LinuxAnalysis.Scripts.ChangedInt
import LinuxAnalysis.Scripts.ParseDiff
import LinuxAnalysis.Scripts.ChangeBlocks
import LinuxAnalysis.Scripts.ExtractOpcode
import LinuxAnalysis.Scripts.FuncOffset
import LinuxAnalysis.Scripts.LineTable
import LinuxAnalysis.Scripts.LookupStages
import LinuxAnalysis.Scripts.FunctionSearch
import LinuxAnalysis.Scripts.LineSpan
import LinuxAnalysis.Scripts.Listing
import LinuxAnalysis.Scripts.FunctionWindow
import LinuxAnalysis.Scripts.Locate
import LinuxAnalysis.Scripts.LocatePin
import LinuxAnalysis.Scripts.ModuleMap
import LinuxAnalysis.Scripts.ModuleChoice
import LinuxAnalysis.Scripts.NearbyLines
import LinuxAnalysis.Scripts.ReportLine
import LinuxAnalysis.Scripts.ReportInst
import LinuxAnalysis.Scripts.ReportBlock
import LinuxAnalysis.Scripts.ReportScan
import LinuxAnalysis.Scripts.ReportStatistics
import LinuxAnalysis.Scripts.ReportRoundTrip
import LinuxAnalysis.Scripts.ReportSingle
import LinuxAnalysis.Scripts.ReportModes
import LinuxAnalysis.Scripts.ReportAborts
import LinuxAnalysis.Scripts.SeedPipeline
import LinuxAnalysis.Scripts.SsGen
import LinuxAnalysis.Scripts.WorkerPool
import LinuxAnalysis.Scripts.Mutation
import LinuxAnalysis.Scripts.TunableLoop
import LinuxAnalysis.Scripts.TableCache
import LinuxAnalysis.Scripts.BatchProcess
import LinuxAnalysis.Scripts.ReportOffsets
import LinuxAnalysis.Scripts.SsOptions
import LinuxAnalysis.Scripts.SsAnalysis
import LinuxAnalysis.Scripts.Pipeline

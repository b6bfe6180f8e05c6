import KernelTcp.Analysis.AllFail
import KernelTcp.Analysis.Choice
import KernelTcp.Analysis.Combine
import KernelTcp.Analysis.CombineResult
import KernelTcp.Analysis.ConfigKey
import KernelTcp.Analysis.DefaultData
import KernelTcp.Analysis.FailFilter
import KernelTcp.Analysis.FilterJob
import KernelTcp.Analysis.Jobs
import KernelTcp.Analysis.Mapping
import KernelTcp.Analysis.Workers
import KernelTcp.CheckoutInfo
import KernelTcp.CiObjects
import KernelTcp.Coverage.Additional
import KernelTcp.Coverage.Batches
import KernelTcp.Coverage.Collect
import KernelTcp.Coverage.CoverageAna
import KernelTcp.Coverage.Frame
import KernelTcp.Coverage.Objects
import KernelTcp.Coverage.Records
import KernelTcp.EHelper
import KernelTcp.Git.Contents
import KernelTcp.Git.DiffBlocks
import KernelTcp.Git.DiffLines
import KernelTcp.Git.Partition
import KernelTcp.Git.TreeParser
import KernelTcp.Graph.CallGraph
import KernelTcp.Graph.CgBased
import KernelTcp.Graph.Context
import KernelTcp.Graph.GraphFile
import KernelTcp.Graph.KernelCg
import KernelTcp.Graph.Logged
import KernelTcp.Graph.Strategy
import KernelTcp.Graph.Total
import KernelTcp.Graph.Traversal
import KernelTcp.History.Extract
import KernelTcp.History.LookAhead
import KernelTcp.History.Main
import KernelTcp.History.Statistics
import KernelTcp.IrMain
import KernelTcp.IrModel
import KernelTcp.IrRuns
import KernelTcp.IrScore
import KernelTcp.Lib.Cache
import KernelTcp.Lib.Chains
import KernelTcp.Lib.Dict
import KernelTcp.Lib.Edits
import KernelTcp.Lib.First
import KernelTcp.Lib.Greedy
import KernelTcp.Lib.Grid
import KernelTcp.Lib.Groups
import KernelTcp.Lib.Interleave
import KernelTcp.Lib.KeepFirst
import KernelTcp.Lib.Padded
import KernelTcp.Lib.Paths
import KernelTcp.Lib.Picking
import KernelTcp.Lib.Prefix
import KernelTcp.Lib.Py
import KernelTcp.Lib.Ranking
import KernelTcp.Lib.Rendered
import KernelTcp.Lib.Repr
import KernelTcp.Lib.Search
import KernelTcp.Lib.Sets
import KernelTcp.Lib.Slices
import KernelTcp.Lib.Text
import KernelTcp.Lib.Thread
import KernelTcp.Lib.Timedelta
import KernelTcp.Lib.Tree
import KernelTcp.Lib.Walk
import KernelTcp.Llvm.Combine
import KernelTcp.Llvm.ParseMakeCmd
import KernelTcp.Ltp.Blocks
import KernelTcp.Ltp.Readable
import KernelTcp.Ltp.Result
import KernelTcp.Ltp.Selftest
import KernelTcp.Prior.AdaptiveRandom
import KernelTcp.Prior.DistanceMap
import KernelTcp.Prior.Fast
import KernelTcp.Prior.Logged
import KernelTcp.Prior.Metrics
import KernelTcp.Processes
import KernelTcp.Repro.Config
import KernelTcp.Repro.Execute
import KernelTcp.Repro.Machine
import KernelTcp.Repro.Prepare
import KernelTcp.Repro.Resume
import KernelTcp.Repro.Runs
import KernelTcp.Repro.TimeCost

import TurboServe.Lib.Association
import TurboServe.Lib.Decimal
import TurboServe.Lib.Decoding
import TurboServe.Lib.Exponential
import TurboServe.Lib.Fallible
import TurboServe.Lib.FixedWidth
import TurboServe.Lib.Generator
import TurboServe.Lib.Intervals
import TurboServe.Lib.LastWrite
import TurboServe.Lib.Launch
import TurboServe.Lib.Lockstep
import TurboServe.Lib.Memory
import TurboServe.Lib.MinBy
import TurboServe.Lib.Occurrence
import TurboServe.Lib.OnlineSoftmax
import TurboServe.Lib.OrderStatistic
import TurboServe.Lib.Quantile
import TurboServe.Lib.Reading
import TurboServe.Lib.Related
import TurboServe.Lib.Rounding
import TurboServe.Lib.Scatter
import TurboServe.Lib.Service
import TurboServe.Lib.Single
import TurboServe.Lib.Sorting
import TurboServe.Lib.Speculation
import TurboServe.Lib.TokenFlow
import TurboServe.Lib.Transition
import TurboServe.Lib.Utf8
import TurboServe.Lib.VirtualClock
import TurboServe.Lib.WeightedChoice
import TurboServe.Core.AttnMetadata
import TurboServe.Core.BlockHash
import TurboServe.Core.BlockManager
import TurboServe.Core.KvCache
import TurboServe.Core.PrefixCache
import TurboServe.Core.Scheduler
import TurboServe.Core.Sequence
import TurboServe.Core.StepLoop
import TurboServe.Core.Types
import TurboServe.Core.WaitQueue
import TurboServe.Invariants.Admission
import TurboServe.Invariants.Answers
import TurboServe.Invariants.Feedback
import TurboServe.Invariants.Index
import TurboServe.Invariants.Manager
import TurboServe.Invariants.ManagerOps
import TurboServe.Invariants.Micro
import TurboServe.Invariants.Pool
import TurboServe.Invariants.Progress
import TurboServe.Invariants.Queue
import TurboServe.Invariants.Schedule
import TurboServe.Invariants.Scheduler
import TurboServe.Invariants.Step
import TurboServe.Invariants.StreamLoop
import TurboServe.Invariants.Streams
import TurboServe.Invariants.Writes
import TurboServe.System.Completion
import TurboServe.System.Content
import TurboServe.System.Emissions
import TurboServe.System.FairShare
import TurboServe.System.Loop
import TurboServe.System.Pool
import TurboServe.System.Runs
import TurboServe.System.World
import TurboServe.Properties.Accounting
import TurboServe.Properties.Activation
import TurboServe.Properties.AdapterFiles
import TurboServe.Properties.Admission
import TurboServe.Properties.Attention
import TurboServe.Properties.Batch
import TurboServe.Properties.Billing
import TurboServe.Properties.CatchUp
import TurboServe.Properties.Chunking
import TurboServe.Properties.Cluster
import TurboServe.Properties.Completion
import TurboServe.Properties.Conservation
import TurboServe.Properties.Content
import TurboServe.Properties.Detokenizing
import TurboServe.Properties.DraftCredit
import TurboServe.Properties.DraftFunding
import TurboServe.Properties.EngineLifetime
import TurboServe.Properties.Exclusive
import TurboServe.Properties.Fairness
import TurboServe.Properties.FinishTwice
import TurboServe.Properties.Framing
import TurboServe.Properties.HeadProgress
import TurboServe.Properties.Impairment
import TurboServe.Properties.InterToken
import TurboServe.Properties.Invisible
import TurboServe.Properties.LoadDrivers
import TurboServe.Properties.Lookup
import TurboServe.Properties.Measurements
import TurboServe.Properties.Neighbours
import TurboServe.Properties.Nucleus
import TurboServe.Properties.Observations
import TurboServe.Properties.Outages
import TurboServe.Properties.Percentiles
import TurboServe.Properties.PoolSizing
import TurboServe.Properties.PrefixIdentity
import TurboServe.Properties.Priority
import TurboServe.Properties.Projection
import TurboServe.Properties.RateLimits
import TurboServe.Properties.Recovery
import TurboServe.Properties.Rejection
import TurboServe.Properties.Residency
import TurboServe.Properties.ResultsIndex
import TurboServe.Properties.Rollout
import TurboServe.Properties.Routing
import TurboServe.Properties.RunSummary
import TurboServe.Properties.Safety
import TurboServe.Properties.SamplerRows
import TurboServe.Properties.Selectors
import TurboServe.Properties.SlidingWindow
import TurboServe.Properties.Speculation
import TurboServe.Properties.Stalls
import TurboServe.Properties.StopAgreement
import TurboServe.Properties.StopStrings
import TurboServe.Properties.Streams
import TurboServe.Properties.TrafficSplit
import TurboServe.Properties.Upstream
import TurboServe.Properties.WeightLoading
import TurboServe.Properties.Windows
import TurboServe.Properties.Workers
import TurboServe.Canary.Controller
import TurboServe.Canary.Driving
import TurboServe.Canary.K8s
import TurboServe.Canary.Prometheus
import TurboServe.Canary.Rollout
import TurboServe.Gateway.App
import TurboServe.Gateway.Backend
import TurboServe.Gateway.Health
import TurboServe.Gateway.Limits
import TurboServe.Gateway.LocalEngine
import TurboServe.Gateway.OpenAICompat
import TurboServe.Gateway.Router
import TurboServe.Gateway.Routing
import TurboServe.Gateway.Sessions
import TurboServe.Gateway.Usage
import TurboServe.Bench.Index
import TurboServe.Bench.Loadgen
import TurboServe.Bench.Metrics
import TurboServe.Bench.Records
import TurboServe.Lora.AdapterFile
import TurboServe.Lora.Bgmv
import TurboServe.Lora.Forward
import TurboServe.Lora.Layers
import TurboServe.Lora.Ledger
import TurboServe.Lora.Registry
import TurboServe.Lora.Residency
import TurboServe.Runtime.AsyncEngine
import TurboServe.Runtime.Decoder
import TurboServe.Runtime.Detokenizer
import TurboServe.Runtime.EngineService
import TurboServe.Runtime.LlmEngine
import TurboServe.Runtime.Matching
import TurboServe.Runtime.Memory
import TurboServe.Runtime.Naive
import TurboServe.Runtime.Streaming
import TurboServe.Spec.Credit
import TurboServe.Spec.Drafter
import TurboServe.Spec.Engine
import TurboServe.Spec.Feedback
import TurboServe.Spec.Funding
import TurboServe.Spec.Ngram
import TurboServe.Spec.Outcome
import TurboServe.Spec.Rollback
import TurboServe.Spec.Tracking
import TurboServe.Spec.Verifier
import TurboServe.Spec.World
import TurboServe.Model.Attention
import TurboServe.Model.DecodeKernel
import TurboServe.Model.Sampler
import TurboServe.Model.Weights
import TurboServe.Chaos.Faults
import TurboServe.Chaos.Harness
import TurboServe.Chaos.Windows
import TurboServe.Chaos.Worker

import Sglang.MemCache.EvictionOrder
import Sglang.MemCache.EvictionRoom
import Sglang.MemCache.CppAgreement
import Sglang.MemCache.PrefetchLengths
import Sglang.MemCache.FullSessions
import Sglang.MemCache.UnifiedMatch
import Sglang.MemCache.WindowEvictionRuns
import Sglang.Managers.RuntimeChecker
import Sglang.Managers.DfsWeight
import Sglang.Managers.PrefillDelayer
import Sglang.Managers.IgnoreEos
import Sglang.Managers.SchedulingPass
import Sglang.Managers.OverlapFutures
import Sglang.Managers.RegexWindow
import Sglang.Managers.StreamOutput
import Sglang.Gateway.WorkerRegistry
import Sglang.Gateway.BucketLoad
import Sglang.Gateway.BucketPolicy
import Sglang.Gateway.TenantEvict
import Sglang.Speculative.VerifyTree
import Sglang.Speculative.NgramCombinePaths
import Sglang.Speculative.NgramMatch
import Sglang.FunctionCall.Qwen3CoderAgreement
import Sglang.FunctionCall.Glm4MoeAgreement
import Sglang.Parser.HarmonyTokens
import Sglang.Disaggregation.StagingBuffer
import Sglang.Lora.LoRAUnload
import Sglang.Sampling.PenaltyHistory
import Sglang.Sampling.PenaltyPaths
import Sglang.Disaggregation.KvStaging
import Sglang.Disaggregation.CpRankPages
import Sglang.Disaggregation.PpLayers
import Sglang.Lora.LoRASlots
import Sglang.Eplb.Migration
import Sglang.Gateway.RateLimit
import Sglang.Gateway.CircuitBreaker
import Sglang.Speculative.TraverseTree
import Sglang.Speculative.DraftTree
import Sglang.Speculative.BuildTreeLaunch
import Sglang.Speculative.EagleVerifyRelease

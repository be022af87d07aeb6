import EffectTorch.Autodiff.ConvAdjoint
import EffectTorch.Autodiff.IndexAdjoint
import EffectTorch.Autodiff.SliceAdjoint
import EffectTorch.Compiler.AliasExact
import EffectTorch.Compiler.Peak
import EffectTorch.Compiler.FusionReduceExact
import EffectTorch.Compiler.FusionMeaning
import EffectTorch.Compiler.HalfBits
import EffectTorch.Compiler.Rebuild
import EffectTorch.Compiler.ReuseEdges
import EffectTorch.Cpu.BlockEviction
import EffectTorch.Cpu.ConvChunks
import EffectTorch.Cpu.CumsumExact
import EffectTorch.Cpu.DecodingRounds
import EffectTorch.Cpu.HeadGradients
import EffectTorch.Cpu.PoolAttention
import EffectTorch.Cpu.PrefillContent
import EffectTorch.Cpu.Random
import EffectTorch.Cpu.SdpaGradients
import EffectTorch.Cpu.TopK
import EffectTorch.Cuda.OverlapOrder
import EffectTorch.Graph.PermuteAlias
import EffectTorch.Runtime.GgufCatalog
import EffectTorch.Runtime.KQuants
import EffectTorch.Runtime.ProgramContract
import EffectTorch.Runtime.Rejection
import EffectTorch.Runtime.SampleLogitsExact
import EffectTorch.Runtime.WorkspaceRollback
import EffectTorch.Safetensors.HeaderAccepts
import EffectTorch.Tokenizers.SpecialsBarrier
import EffectTorch.Core.DiffusionOwnership
import EffectTorch.Core.DecisionAverage
import EffectTorch.Core.GenerationRuns
import EffectTorch.Core.ChatPages
import EffectTorch.Serve.DecisionNoise
import EffectTorch.Serve.DecisionPoolRuns
import EffectTorch.Cpu.CatExact
import EffectTorch.Cpu.GroupedExpertExact
import EffectTorch.Core.TextEncoding
import EffectTorch.Lib.InsertionMap
import EffectTorch.Serve.CanonicalJson
import EffectTorch.Serve.DecisionEngine

import JitSignalEngine.ConstantFoldRun
import JitSignalEngine.SpscRing
import JitSignalEngine.GradientStorage
import JitSignalEngine.Lint
import JitSignalEngine.EmissionScope
import JitSignalEngine.Lowered
import JitSignalEngine.Execution
import JitSignalEngine.Specialization
import JitSignalEngine.PushOnce
import JitSignalEngine.CacheKey
import JitSignalEngine.Sharding
import JitSignalEngine.JitCompiler
import JitSignalEngine.CacheFile
import JitSignalEngine.RollingStdGradient
import JitSignalEngine.RollingMinMax
import JitSignalEngine.DualRun
import JitSignalEngine.Restart
import JitSignalEngine.FormatterRoundTrip
import JitSignalEngine.RingStatsHistory
import JitSignalEngine.KalmanEnvelope
import JitSignalEngine.OperatorRuns
import JitSignalEngine.EmaAlpha
import JitSignalEngine.RollingStatsWindow
import JitSignalEngine.MonoDequeWords
import JitSignalEngine.RollingPairWindow
import JitSignalEngine.VwapWindow
import JitSignalEngine.RollingStdLowered
import JitSignalEngine.SmaPaths
import JitSignalEngine.Binary64
import JitSignalEngine.PrintedNumbers
import JitSignalEngine.ForwardGradient
import JitSignalEngine.Autodiff
import JitSignalEngine.LatencyHistogram
import JitSignalEngine.InlinedLocations
import JitSignalEngine.WarmUp
import JitSignalEngine.PreparedOperators
import JitSignalEngine.LoweredMonoDeque
import JitSignalEngine.LoweredOperators
import JitSignalEngine.EmittedExpr
import JitSignalEngine.EmittedProgram
import JitSignalEngine.ScalarRefinement
import JitSignalEngine.LoweredPrograms
import JitSignalEngine.VectorExecution
import JitSignalEngine.VectorPrograms
import JitSignalEngine.InlinedPrograms
import JitSignalEngine.ForwardPrimal
import JitSignalEngine.CodeBuilder
import JitSignalEngine.GradientCode
import JitSignalEngine.GradientHelpers
import JitSignalEngine.GradientRefinement
import JitSignalEngine.GradientCalls
import JitSignalEngine.GradientPrograms
import JitSignalEngine.TieredJit

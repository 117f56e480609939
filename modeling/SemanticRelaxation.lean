import SemanticRelaxation.Support.Lateral
import SemanticRelaxation.Support.Rows
import SemanticRelaxation.TwoDc.StackSeq
import SemanticRelaxation.TwoDc.Consistent
import SemanticRelaxation.TwoDd.StackSeq
import SemanticRelaxation.TwoDd.QueueSeq
import SemanticRelaxation.TwoDd.QueueConcurrent
import SemanticRelaxation.TwoDd.EmptyAnswers
import SemanticRelaxation.TwoDd.CounterSeq
import SemanticRelaxation.TwoDdOptimized.Relaxed
import SemanticRelaxation.TwoDcOptimized.WrapAround
import SemanticRelaxation.TwoDcOptimized.Rows
import SemanticRelaxation.ElasticLaw.QueueSeq
import SemanticRelaxation.ElasticLaw.Concurrent
import SemanticRelaxation.ElasticLpw.WindowSeq
import SemanticRelaxation.ElasticLpw.QueueSeq
import SemanticRelaxation.ElasticLpw.Concurrent
import SemanticRelaxation.ElasticLpwStack.Lateral
import SemanticRelaxation.ElasticLpwStack.Window
import SemanticRelaxation.ElasticLpwStack.StackSeq
import SemanticRelaxation.ElasticLpwStack.Replace
import SemanticRelaxation.ElasticLpwStack.Shift
import SemanticRelaxation.DcboMs.Counts
import SemanticRelaxation.DcboMs.Emptiness
import SemanticRelaxation.DcboFaaaq.Order
import SemanticRelaxation.DcboFaaaq.Emptiness
import SemanticRelaxation.DcboFaaaq.Size
import SemanticRelaxation.DcboLcrq.Values
import SemanticRelaxation.DcboLcrq.Closing
import SemanticRelaxation.SimpleDcboLcrq.TailVersion
import SemanticRelaxation.QueueKSegment.Relaxed
import SemanticRelaxation.StackKSegment.Balanced
import SemanticRelaxation.StackKSegment.Sequential
import SemanticRelaxation.QueueKSegment.Alone
import SemanticRelaxation.Bfs.Exact
import SemanticRelaxation.StackElimination.Linear
import SemanticRelaxation.TwoDdDeque.Bound
import SemanticRelaxation.RelaxationAnalysis.LinearList
import SemanticRelaxation.RelaxationAnalysis.Timestamps
import SemanticRelaxation.RelaxationAnalysis.Duplicates
import SemanticRelaxation.TwoDdOptimized.CreateQueue
import SemanticRelaxation.DcboMs.Size
import SemanticRelaxation.ElasticLpw.Controller
import SemanticRelaxation.TwoDc.Returns
import SemanticRelaxation.Wfqueue.Register
import SemanticRelaxation.Graph.Cache
import SemanticRelaxation.Prog.Linearizable
import SemanticRelaxation.Support.LinkedStacks
import SemanticRelaxation.StackTreiber.Stack
import SemanticRelaxation.StackDra.ChoiceStack
import SemanticRelaxation.DcboMs.Linear
import SemanticRelaxation.DcboMs.Relaxed
import SemanticRelaxation.TwoDd.StackLinear
import SemanticRelaxation.TwoDc.StackLinear
import SemanticRelaxation.TwoDcOptimized.StackLinear
import SemanticRelaxation.TwoDd.QueueLinear
import SemanticRelaxation.TwoDdOptimized.Linear
import SemanticRelaxation.ElasticLaw.Linear
import SemanticRelaxation.ElasticLpw.Linear

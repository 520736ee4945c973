import Tarantula.ReplicaAgreement
import Tarantula.TaskRevision
import Tarantula.PendingReplies
import Tarantula.NodeLoss
import Tarantula.CreateRetry
import Tarantula.FinishedJobs
import Tarantula.CancelRounds
import Tarantula.OrphanedTasks
import Tarantula.VersionOrder
import Tarantula.TaskBarrier
import Tarantula.RoutingTables
import Tarantula.Resubscription
import Tarantula.Unsubscription
import Tarantula.CompareAndSwap
import Tarantula.ReplicaWalk
import Tarantula.ClusterIds
import Tarantula.RowKeys
import Tarantula.KeyIndexCodec
import Tarantula.QueryObj
import Tarantula.PullRange
import Tarantula.TransDispatch
import Tarantula.QuitSignals
import Tarantula.NodeOwners
import Tarantula.ReloadOutcomes
import Tarantula.ClusterCreate
import Tarantula.IdLayout
import Tarantula.Paging
import Tarantula.ReserveBudget
import Tarantula.AdminAccess
import Tarantula.Fanout
import Tarantula.ReserveDispatch
import Tarantula.TaskRecovery
import Tarantula.PipelineSafety
import Tarantula.CreateHandler

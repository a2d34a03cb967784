import DistLab.Ctrler.Moves
import DistLab.Ctrler.Orders
import DistLab.Ctrler.OverRaft
import DistLab.Kv.Linear
import DistLab.Kv.Once
import DistLab.Kv.OverRaft
import DistLab.Kv.Replay
import DistLab.Labrpc.Replies
import DistLab.Mr.Progress
import DistLab.Mr.Stop
import DistLab.Porcupine.Operations
import DistLab.Porcupine.Partial
import DistLab.Raft.Backup
import DistLab.Raft.Stale
import DistLab.Raft.Terms
import DistLab.Service.ClientId
import DistLab.Service.Notify
import DistLab.Shard.Bounds
import DistLab.Shard.Collect
import DistLab.Shard.OverRaft
import DistLab.Shard.Linear
import DistLab.Shard.Taker
import DistLab.Shard.Virgin

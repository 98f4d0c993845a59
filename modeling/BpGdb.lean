import BpGdb.Memory
import BpGdb.Gen
import BpGdb.List
import BpGdb.Tree
import BpGdb.SetWalk
import BpGdb.UnorderedSet
import BpGdb.Pool
import BpGdb.Slice
import BpGdb.PoolTree
import BpGdb.LbStats
import BpGdb.FifoBuffers

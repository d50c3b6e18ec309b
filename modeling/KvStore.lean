import KvStore.Engine
import KvStore.Lib.FiniteMap
import KvStore.Lib.Run
import KvStore.Lib.RedBlack
import KvStore.Lib.RedBlackRepair
import KvStore.Rbtree
import KvStore.Theorems.RbtreeRep
import KvStore.Theorems.RbtreeInsert
import KvStore.Theorems.RbtreeSearch
import KvStore.Theorems.RbtreeDelete
import KvStore.MapSpec
import KvStore.Theorems.RbtreeEngine
import KvStore.Theorems.Rbtree
import KvStore.Epoll
import KvStore.Theorems.Epoll
import KvStore.Hash
import KvStore.Theorems.HashEngine
import KvStore.Lib.Merge
import KvStore.SyncClient
import KvStore.Theorems.Sync
import KvStore.Save
import KvStore.Theorems.Save
import KvStore.Theorems.SaveLoad
import KvStore.Theorems.HashSlot
import KvStore.Array
import KvStore.Theorems.ArrayEngine
import KvStore.Lib.LinkedList
import KvStore.Skiptable
import KvStore.Theorems.SkiptableRep
import KvStore.Theorems.SkiptableEngine
import KvStore.Theorems.Skiptable
import KvStore.Theorems.SkiptableSave
import KvStore.Cluster
import KvStore.Lib.WaitGraph
import KvStore.Theorems.Cluster
import KvStore.Lib.Decimal
import KvStore.Wire
import KvStore.Theorems.Wire
import KvStore.Range
import KvStore.Theorems.Range
import KvStore.Theorems.RbtreeWalk
import KvStore.Dispatch
import KvStore.Replica
import KvStore.Theorems.Backend
import KvStore.Theorems.Pull
import KvStore.Theorems.Replica
import KvStore.Theorems.Deletion
import KvStore.Theorems.SaveSync
import KvStore.Theorems.Dispatch
import KvStore.Theorems.Values
import KvStore.Theorems.Sound
import KvStore.Theorems.Lines
import KvStore.Theorems.ReadWrites
import KvStore.Theorems.Interchange
import KvStore.Reactor
import KvStore.Theorems.Reactor
import KvStore.Theorems.Array
import KvStore.Theorems.Hash
import KvStore.Theorems.Scan
import KvStore.Theorems.RbtreeFrame
import KvStore.Theorems.HashDelete
import KvStore.Theorems.FailedModify
import KvStore.Theorems.SaveErrors
import KvStore.Exceptions
import KvStore.Theorems.Returns
import KvStore.Theorems.Exceptions
import KvStore.Theorems.OneLine
import KvStore.Theorems.Loading
import KvStore.Theorems.Adds
import KvStore.Theorems.LoadComplete
import KvStore.Theorems.Truncated
import KvStore.Theorems.Http
import KvStore.Theorems.RbtreeBare
import KvStore.Theorems.RbtreeSentinel
import KvStore.Theorems.RbtreeDepth
import KvStore.EventLoop
import KvStore.Theorems.EventLoop
import KvStore.Theorems.Linear
import KvStore.Lib.Gossip
import KvStore.Fleet
import KvStore.Theorems.Fleet
import KvStore.Lib.Ordered
import KvStore.Lib.Weave
import KvStore.Btree
import KvStore.Theorems.BtreeNode
import KvStore.Theorems.BtreeSet
import KvStore.Theorems.BtreeDelete
import KvStore.Theorems.Btree
import KvStore.BtreeWalk
import KvStore.Theorems.BtreeWalk
import KvStore.Restart
import KvStore.Theorems.Restart
import KvStore.HttpServe
import KvStore.Theorems.HttpServe

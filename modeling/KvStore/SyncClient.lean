import KvStore.Array
import KvStore.Epoll
import KvStore.Hash
import KvStore.Rbtree
import KvStore.Skiptable

/-! `SyncClient` (`kv_store_sync_client.hpp`): the loop that receives a peer's reply, and the merge of remote
    records into a local engine. The four merge functions are the same loop over the four engines. -/

namespace KvStore

/-- A record that a peer sent; its key and value are `std::string`s, read through `c_str`. -/
structure SyncData where
  key : List UInt8
  value : List UInt8
  timestamp : UInt64

/-- The loop over the records; the `n`-th record finds the surroundings `env n`. -/
def syncDataToLocal {σ : Type} (E : Engine σ) : (Nat → Env) → σ → List SyncData → Option (σ × Int)
  | _, s, [] => some (s, 0)
  | env, s, item :: data => do
    let key := CString.ofBytes item.key
    let value := CString.ofBytes item.value
    let localValue ← E.get s key
    let (s, ret) ← (if localValue ≠ .null then do
        let localTimestamp ← E.getTimestamp s key
        if item.timestamp > localTimestamp then E.modifyWithTimestamp (env 0) s key value item.timestamp
        else some (s, 0)
      else E.setWithTimestamp (env 0) s key value item.timestamp)
    if ret ≠ 0 then some (s, ret) else syncDataToLocal E (fun n => env (n + 1)) s data

def syncDataToLocalArrayEngine : (Nat → Env) → KvArray → List SyncData → Option (KvArray × Int) :=
  syncDataToLocal arrayEngine

def syncDataToLocalRbtreeEngine : (Nat → Env) → Rbtree → List SyncData → Option (Rbtree × Int) :=
  syncDataToLocal rbtreeEngine

def syncDataToLocalHashEngine : (Nat → Env) → Hash → List SyncData → Option (Hash × Int) :=
  syncDataToLocal hashEngine

def syncDataToLocalSkiptableEngine : (Nat → Env) → Skiptable → List SyncData → Option (Skiptable × Int) :=
  syncDataToLocal skiptableEngine

/-- What one turn of the loop of `receive_response` meets: the outcome of `select`, and of the `recv` after it. -/
inductive Poll where
  | selectError
  | timeout
  | readable (result : Recv)

/-- What a turn comes to: the next turn, or `break`; with the response so far. -/
inductive Turn where
  | next (response : Bytes)
  | done (response : Bytes)

/-- One turn of `receive_response`. A timeout ends the loop only when part of a response has come. -/
def receiveTurn (response : Bytes) : Poll → Turn
  | .selectError => .done response
  | .timeout => if response ≠ [] then .done response else .next response
  | .readable (.data bytes) => .next (response ++ bytes)
  | .readable .closed => .done response
  | .readable .again => .done response
  | .readable .error => .done response

end KvStore

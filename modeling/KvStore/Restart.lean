import KvStore.Dispatch

/-! The life of a server on one directory: `main` (`kv_store.cpp`) creates the engines and then only processes lines;
    when the process has ended, a new one finds the files and nothing else. -/

namespace KvStore

/-- A line, with what it meets and what its slots give that it does not write; or the end of the process and the start
    of the next one. -/
inductive Incident where
  | line (w : Surroundings) (tokens : Tokens) (command : Bytes)
  | restart

namespace Incident

def step (g : Globals) : Incident → Option (Globals × Option Bytes)
  | .line w tokens command => (Dispatch.processCommand w g tokens command).map fun (g, reply) => (g, some reply)
  | .restart => some (Globals.initial g.files, none)

end Incident

end KvStore

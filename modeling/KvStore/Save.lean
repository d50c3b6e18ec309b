import KvStore.Array
import KvStore.Hash
import KvStore.Lib.IntCodec
import KvStore.Rbtree
import KvStore.Skiptable

/-! Saving an engine to a file and loading it (`kv_save.c`): `kvsArraySave` is `kvs_array_save`, and so on. A file is
    the bytes that were written to it; opening one succeeds. The lengths and the count in it are of type `int`. -/

namespace KvStore
open IntCodec

/-! ### Saving -/

/-- A file that is being written, and how many calls of `fwrite` it took so far. -/
structure OutFile where
  bytes : List UInt8
  writes : Nat

/-- How many bytes the `n`-th `fwrite` writes before it fails, if it does. -/
abbrev Disk := Nat → Option Nat

/-- The disk on which every `fwrite` succeeds. -/
def Disk.good : Disk := fun _ => none

/-- `fwrite(obj, size, 1, fp)`. A size of 0 writes nothing and returns 0; a negative size is a huge `size_t`, and
    reading on behind the last byte of the object is a fault. -/
def fwrite (disk : Disk) (out : OutFile) (obj : List UInt8) (size : Int) : Option (OutFile × Int) :=
  if size = 0 then some (⟨out.bytes, out.writes + 1⟩, 0)
  else if size < 0 ∨ obj.length < size then none
  else
    match disk out.writes with
    | none => some (⟨out.bytes ++ obj.take size.toNat, out.writes + 1⟩, 1)
    | some n => some (⟨out.bytes ++ (obj.take size.toNat).take n, out.writes + 1⟩, 0)

/-- What `strlen` reads; a pointer to no string is a fault. -/
def CharPtr.deref : CharPtr → Option CString
  | .str s => some s
  | .null => none
  | .freed => none

/-- One record: the two lengths count the terminator when `nul` is 1, and `err` is the code for a key length that
    cannot be written. -/
def saveRecord (disk : Disk) (err : Int) (nul : Nat) (out : OutFile) (key value : CharPtr) :
    Option (OutFile × Int) := do
  let key ← key.deref
  let value ← value.deref
  let keyLen := ((key.strlen + nul : Nat) : Int).bmod UInt32.size
  let valueLen := ((value.strlen + nul : Nat) : Int).bmod UInt32.size
  let (out, res) ← fwrite disk out (int32 keyLen) 4
  if res ≠ 1 then some (out, err)
  else do
    let (out, res) ← fwrite disk out key.buf keyLen
    if res ≠ 1 then some (out, err - 1)
    else do
      let (out, res) ← fwrite disk out (int32 valueLen) 4
      if res ≠ 1 then some (out, err - 2)
      else do
        let (out, res) ← fwrite disk out value.buf valueLen
        if res ≠ 1 then some (out, err - 3) else some (out, 0)

/-- A loop that is left at the first error. -/
def saveAll {α : Type} (save : OutFile → α → Option (OutFile × Int)) : OutFile → List α → Option (OutFile × Int)
  | out, [] => some (out, 0)
  | out, a :: as => do
    let (out, ret) ← save out a
    if ret ≠ 0 then some (out, ret) else saveAll save out as

/-- The count and then the records. -/
def saveFile (disk : Disk) (totalCount : Int) (records : OutFile → Option (OutFile × Int)) :
    Option (List UInt8 × Int) := do
  let (out, res) ← fwrite disk ⟨[], 0⟩ (int32 totalCount) 4
  if res ≠ 1 then some (out.bytes, -2)
  else do
    let (out, ret) ← records out
    some (out.bytes, ret)

def saveArrayItem (disk : Disk) (T : KvArray) (out : OutFile) (i : Nat) : Option (OutFile × Int) := do
  let item ← T.item i
  saveRecord disk (-3) 1 out item.key item.value

def kvsArraySave (disk : Disk) (T : KvArray) : Option (List UInt8 × Int) := do
  let totalCount ← kvsArrayCount T
  saveFile disk totalCount fun out => saveAll (saveArrayItem disk T) out (List.range totalCount.toNat)

/-- `kvs_rbtree_save_node_recursive`; what the right subtree returns replaces what the left one returned. -/
def kvsRbtreeSaveNodeRecursive (disk : Disk) (T : Rbtree) : Nat → Ptr → OutFile → Option (OutFile × Int)
  | 0, _, _ => none
  | fuel + 1, node, out =>
    if node = T.nil then some (out, 0)
    else do
      let key ← T.key node
      let value ← T.value node
      let (out, res) ← saveRecord disk (-2) 1 out (.str key) value
      if res ≠ 0 then some (out, res)
      else do
        let left ← T.left node
        let (out, ret) ← (if left ≠ T.nil then kvsRbtreeSaveNodeRecursive disk T fuel left out else some (out, 0))
        let right ← T.right node
        if right ≠ T.nil then kvsRbtreeSaveNodeRecursive disk T fuel right out else some (out, ret)

def kvsRbtreeSave (disk : Disk) (T : Rbtree) : Option (List UInt8 × Int) := do
  let totalCount ← kvsRbtreeCount T
  saveFile disk totalCount fun out => kvsRbtreeSaveNodeRecursive disk T T.fuel T.root out

def saveHashNode (disk : Disk) (out : OutFile) (current : HashNode) : Option (OutFile × Int) :=
  saveRecord disk (-3) 1 out (.str current.key) current.value

def kvsHashSave (disk : Disk) (H : Hash) : Option (List UInt8 × Int) := do
  let totalCount ← kvsHashCount H
  saveFile disk totalCount fun out =>
    saveAll (fun out i => saveAll (saveHashNode disk) out (H.table i)) out (List.range maxTableSize)

/-- The loop of `kvs_skiptable_save` along level 0. -/
def skiptableSaveLoop (disk : Disk) (T : Skiptable) : Nat → Ptr → OutFile → Option (OutFile × Int)
  | 0, _, _ => none
  | fuel + 1, current, out =>
    if current = 0 then some (out, 0)
    else do
      let n ← T.nodes current
      let (out, ret) ← saveRecord disk (-3) 0 out (.str n.key) (.str n.value)
      if ret ≠ 0 then some (out, ret)
      else do
        let next ← T.forward current 0
        skiptableSaveLoop disk T fuel next out

/-- `kvs_skiptable_save`; its lengths leave the terminators out. -/
def kvsSkiptableSave (disk : Disk) (T : Skiptable) : Option (List UInt8 × Int) := do
  let totalCount ← kvsSkiptableCount T
  saveFile disk totalCount fun out => do
    let current ← T.forward T.header 0
    skiptableSaveLoop disk T T.fuel current out

/-! ### Loading -/

/-- `fread(buf, size, 1, fp)`: the object and the rest of the file, or nothing when it does not return 1. -/
def fread (file : List UInt8) (size : Nat) : Option (List UInt8 × List UInt8) :=
  if size = 0 ∨ file.length < size then none else some (file.take size, file.drop size)

/-- A length and an object of that length; `kvs_malloc` of a negative length fails. The codes for the length, for the
    allocation and for the object follow each other. -/
def loadObject (alloc : Bool) (err : Int) (file : List UInt8) : Except Int (List UInt8 × List UInt8) :=
  match fread file 4 with
  | none => .error err
  | some (b, file) =>
    let len := ofInt32 b
    if len < 0 ∨ alloc = false then .error (err - 1)
    else
      match fread file len.toNat with
      | none => .error (err - 2)
      | some r => .ok r

/-- The loop over the records with `n` to go; what `set` returns is not looked at. The `n`-th record finds the
    surroundings `env n`. -/
def loadLoop {σ : Type} (set : Env → σ → List UInt8 → List UInt8 → Option (σ × Int)) :
    (Nat → Env) → Nat → σ → List UInt8 → Option (σ × Int)
  | _, 0, s, _ => some (s, 0)
  | env, n + 1, s, file =>
    match loadObject ((env 0).alloc 0) (-3) file with
    | .error code => some (s, code)
    | .ok (key, file) =>
      match loadObject ((env 0).alloc 1) (-6) file with
      | .error code => some (s, code)
      | .ok (value, file) => do
        let (s, _) ← set ((env 0).after 2) s key value
        loadLoop set (fun i => env (i + 1)) n s file

/-- The four functions `kvs_*_load`, which differ in the engine that they fill. -/
def load {σ : Type} (set : Env → σ → List UInt8 → List UInt8 → Option (σ × Int)) (env : Nat → Env) (s : σ)
    (file : List UInt8) : Option (σ × Int) :=
  match fread file 4 with
  | none => some (s, -2)
  | some (b, file) => loadLoop set env (ofInt32 b).toNat s file

/-- A buffer as a C string; without a terminator in it, that is a fault. -/
def readString (b : List UInt8) : Option CString := if 0 ∈ b then some (.ofBytes b) else none

/-- `set` on two buffers, for an engine that takes C strings. -/
def Engine.setBuffers {σ : Type} (E : Engine σ) (env : Env) (s : σ) (key value : List UInt8) : Option (σ × Int) := do
  let k ← readString key
  let v ← readString value
  E.set env s k v

def kvsArrayLoad : (Nat → Env) → KvArray → List UInt8 → Option (KvArray × Int) := load arrayEngine.setBuffers

def kvsRbtreeLoad : (Nat → Env) → Rbtree → List UInt8 → Option (Rbtree × Int) := load rbtreeEngine.setBuffers

def kvsHashLoad : (Nat → Env) → Hash → List UInt8 → Option (Hash × Int) := load hashEngine.setBuffers

def kvsSkiptableLoad : (Nat → Env) → Skiptable → List UInt8 → Option (Skiptable × Int) := load kvsSkiptableSet

end KvStore

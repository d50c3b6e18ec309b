import KvStore.Theorems.Lines
import KvStore.Theorems.Sound

/-! # Reading what was written

When a `GET` finds what the `SET` before it was answered `SUCCESS` for. Three buffers on the way cut what is too long
for them: the copy of the line, the fields of a skip list node, and the reply. -/

namespace KvStore

namespace EngineKind

/-- The search for the key comes to no entry. -/
def Absent : (kind : EngineKind) → kind.Store → CString → Prop
  | .array => fun T k => kvsArrayFindIndex T k = some none
  | .rbtree => fun T k => rbtreeSearch T k = some T.nil
  | .hash => fun H k => (H.chain (KvStore.hash k H.maxSlots)).map (findHashNode k) = some none
  | .skiptable => fun T k => ∃ update, skipFind T k.buf = some (none, update)

/-- What an engine keeps of a value. -/
def kept : EngineKind → CString → CString
  | .array => id
  | .rbtree => id
  | .hash => id
  | .skiptable => CString.trunc

variable {kind : EngineKind} {env : Env} {k v : CString}

/-- What a successful `set` leaves for a `get` of its key. An entry without a value stays in the way, and a skip list
    does not find a key again that it has cut. -/
structure SetGet (kind : EngineKind) (s s' : kind.Store) (k v : CString) : Prop where
  found : kind.Absent s k → (kind = .skiptable → Short k) → kind.engine.get s' k = some (.str (kind.kept v))
  lost : ¬(kind.Absent s k ∧ (kind = .skiptable → Short k)) → kind.engine.get s' k = some .null

theorem array_setGet {T T' : KvArray} (h : Sound .array T) (hs : kvsArraySet env T k v = some (T', 0)) :
    SetGet .array T T' k v := by
  obtain ⟨es, hst, -⟩ := h
  rcases hst.set hs with ⟨hne, -⟩ | ⟨-, hget, h'⟩
  · exact absurd rfl hne
  have hkind : EngineKind.array = .skiptable → Short k := fun heq => nomatch heq
  rcases hst.first k with ⟨hk, hf⟩ | ⟨l₁, a, l₂, rfl, hk, hf, -⟩
  · exact ⟨fun _ _ => h'.get_first hk, fun hne => absurd ⟨hf, hkind⟩ hne⟩
  · refine ⟨fun habsent => ?_, fun _ => ?_⟩
    · have hnone : kvsArrayFindIndex T k = some none := habsent
      rw [hnone] at hf
      cases hf
    · rw [hst.get_first hk] at hget
      rw [List.append_assoc, List.cons_append] at h'
      exact (h'.get_first hk).trans hget

theorem rbtree_setGet {T T' : Rbtree} (h : Sound .rbtree T) (hs : kvsRbtreeSet env T k v = some (T', 0)) :
    SetGet .rbtree T T' k v := by
  obtain ⟨t, hi⟩ := h
  have hkind : EngineKind.rbtree = .skiptable → Short k := fun heq => nomatch heq
  rcases hi.set hs with ⟨hne, -⟩ | ⟨-, hget, ⟨⟨e, he, rfl⟩, h'⟩ | ⟨t', l₁, l₂, p, hk, h', -, hlist⟩⟩
  · exact absurd rfl hne
  · refine ⟨fun habsent => ?_, fun _ => ?_⟩
    · obtain ⟨ctx, c, l, r, -, hsearch, hne⟩ := hi.search_mem he
      have hnil : rbtreeSearch T e.key = some T.nil := habsent
      rw [hsearch, Option.some.injEq] at hnil
      exact absurd hnil hne
    · rw [hi.get_mem he] at hget
      exact (h'.get_mem he).trans hget
  · have hmem : (⟨p, k, .str v, env.now⟩ : Cell) ∈ t'.toList := by simp [hlist]
    exact ⟨fun _ _ => h'.get_mem hmem, fun hne => absurd ⟨hi.search_absent hk, hkind⟩ hne⟩

theorem hash_setGet {H H' : Hash} (hs : kvsHashSet env H k v = some (H', 0)) : SetGet .hash H H' k v := by
  have hkind : EngineKind.hash = .skiptable → Short k := fun heq => nomatch heq
  simp only [kvsHashSet, kvsHashSetWithTimestamp, Option.bind_eq_bind, Option.bind_eq_some_iff] at hs
  obtain ⟨chain, hchain, hs⟩ := hs
  split at hs
  · cases hs
  next hfind =>
    split at hs
    · cases hs
    next node hnode =>
      cases hs
      have hk : node.key = k ∧ node.value = .str v := by
        rw [createHashNode] at hnode
        split at hnode
        · cases hnode
        split at hnode
        · cases hnode
        split at hnode <;> cases hnode
        exact ⟨rfl, rfl⟩
      have habsent : Absent .hash H k := by
        show (H.chain _).map _ = some none
        rw [hchain, Option.map_some, hfind]
      refine ⟨fun _ _ => ?_, fun hne => absurd ⟨habsent, hkind⟩ hne⟩
      have hslot : 0 ≤ KvStore.hash k H.maxSlots ∧ KvStore.hash k H.maxSlots < H.maxSlots := by
        rw [Hash.chain] at hchain
        split at hchain
        · assumption
        · cases hchain
      show kvsHashGet _ k = some (.str v)
      simp [kvsHashGet, Hash.chain, Hash.setChain, hslot, findHashNode, hk]

theorem skip_setGet {T T' : Skiptable} (h : Sound .skiptable T)
    (hs : kvsSkiptableSet env T k.buf v.buf = some (T', 0)) : SetGet .skiptable T T' k v := by
  obtain ⟨L, hi⟩ := h
  rcases hi.set_buffers hs with ⟨hne, -⟩ | ⟨-, l₁, l₂, c, rfl, hk, h', hkey, hvalue⟩
  · exact absurd rfl hne
  rw [CString.ofBytes_buf] at hk hkey hvalue
  have habsent : Absent .skiptable T k := by
    rcases hi.find k with ⟨m₁, m₂, -, -, -, hf⟩ | ⟨m₁, a, m₂, hL, -, ha, -⟩
    · exact ⟨_, hf⟩
    · exact absurd ha (hk a (by simp [hL]))
  constructor
  · intro _ hshort
    have hk' : c.key = k := by rw [hkey, CString.trunc_of_le (hshort rfl)]
    rcases h'.find k with ⟨m₁, m₂, hL, hcut, hne, -⟩ | ⟨m₁, a, m₂, hL, -, ha, hf, hn⟩
    · exact absurd hk' (hcut.absent hne c (by simp [← hL]))
    · -- no other node has the key
      have hmem : a ∈ l₁ ++ c :: l₂ := by simp [hL]
      have hac : a = c := by
        simp only [List.mem_append, List.mem_cons] at hmem
        rcases hmem with hmem | hmem | hmem
        · exact absurd ha (hk a (by simp [hmem]))
        · exact hmem
        · exact absurd ha (hk a (by simp [hmem]))
      subst hac
      show kvsSkiptableGet T' k.buf = some (.str v.trunc)
      simp [kvsSkiptableGet, hf, hn, SkipCell.node, hvalue]
  · intro hne
    have hlong : ¬Short k := fun hshort => hne ⟨habsent, fun _ => hshort⟩
    rcases h'.find k with ⟨m₁, m₂, -, -, -, hf⟩ | ⟨m₁, a, m₂, hL, -, ha, -⟩
    · show kvsSkiptableGet T' k.buf = some .null
      simp [kvsSkiptableGet, hf]
    · exact absurd (ha ▸ (h'.short a (by simp [hL])).1) hlong

theorem Sound.setGet {s s' : kind.Store} (h : kind.Sound s) (hs : kind.engine.set env s k v = some (s', 0)) :
    SetGet kind s s' k v := by
  cases kind with
  | array => exact array_setGet h hs
  | rbtree => exact rbtree_setGet h hs
  | hash => exact hash_setGet hs
  | skiptable => exact skip_setGet h hs

end EngineKind

namespace Dispatch

section Lines
variable {kind : EngineKind} {w : Surroundings} {g g' : Globals} {tokens : Tokens} {key value : Bytes}

/-- A `SET` that was answered `SUCCESS` had its third token, which may have been cut, and `set` returned 0. -/
theorem set_success (hk : Token key) (hv : Token value)
    (h : processCommand w g tokens (pairLine kind .set key value) = some (g', ascii "SUCCESS")) :
    key.length + 1 < argumentRoom kind .set ∧
      kind.engine.set (w.env 0) (g.store kind) (.ofBytes key)
        (.ofBytes (value.take (argumentRoom kind .set - (key.length + 1)))) = some (g'.store kind, 0) := by
  by_cases hroom : key.length + 1 < argumentRoom kind .set
  · refine ⟨hroom, ?_⟩
    have hcut := hv.take (Nat.sub_pos_of_lt hroom)
    have hp : pieces (pairLine kind .set key value) = [kind.commandName .set, (CString.ofBytes key).bytes,
        (CString.ofBytes (value.take (argumentRoom kind .set - (key.length + 1)))).bytes] := by
      rw [hk.ofBytes_bytes, hcut.ofBytes_bytes, pieces_pairLine hk hv hroom]
    rw [processCommand_set hp, Option.map_eq_some_iff] at h
    obtain ⟨⟨s, n⟩, hset, hout⟩ := h
    obtain rfl : s = g'.store kind := (afterCase_store _).symm.trans (congrArg (fun out => out.1.store kind) hout)
    obtain rfl := setReply_success.mp (congrArg Prod.snd hout)
    exact hset
  · exfalso
    obtain ⟨key', hp⟩ := pieces_pairLine_cut hk hv (Nat.le_of_not_lt hroom)
    rw [processCommand_known (commandOf_name hp), hp] at h
    have hfailed : kind.setFailed ≠ ascii "SUCCESS" := by cases kind <;> decide
    simp only [runCase, List.length_cons, List.length_nil, Nat.reduceAdd, Nat.reduceLT, if_true, Option.map_some,
      Option.some.injEq] at h
    exact hfailed (congrArg Prod.snd h)

/-- The reply of a `GET`. -/
theorem get_reply (hk : Token key) (hlen : (keyLine kind .get key).length ≤ 1023) :
    (processCommand w g tokens (keyLine kind .get key)).map Prod.snd =
      (kind.engine.get (g.store kind) (.ofBytes key)).bind getReply := by
  have hp : pieces (keyLine kind .get key) = [kind.commandName .get, (CString.ofBytes key).bytes] := by
    rw [hk.ofBytes_bytes, pieces_keyLine hk hlen]
  rw [processCommand_get hp, Option.map_map]
  exact Option.map_id'

end Lines

/-- What is shown of a value that was cut to `n` bytes, and cut again by a skip list. -/
theorem responseBuf_kept {kind : EngineKind} {value : Bytes} {n : Nat} (hv : Token value) (hpos : 0 < n) (hn : n ≤ 1023) :
    responseBuf (kind.kept (.ofBytes (value.take n))) = value ↔
      value.length ≤ n ∧ (kind = .skiptable → value.length ≤ 255) := by
  have hbytes : (CString.ofBytes (value.take n)).bytes = value.take n := (hv.take hpos).ofBytes_bytes
  have hwhole : responseBuf (CString.ofBytes (value.take n)) = value ↔ value.length ≤ n := by
    rw [responseBuf, hbytes, List.take_take, min_eq_right hn, List.take_eq_self_iff]
  cases kind with
  | array => simpa [EngineKind.kept] using hwhole
  | rbtree => simpa [EngineKind.kept] using hwhole
  | hash => simpa [EngineKind.kept] using hwhole
  | skiptable =>
    have htrunc : (CString.ofBytes (value.take n)).trunc.bytes = (value.take n).take 255 :=
      congrArg (List.take 255) hbytes
    rw [EngineKind.kept, responseBuf, htrunc, List.take_take, List.take_take, List.take_eq_self_iff]
    simp only [forall_const]
    omega

theorem noExist_not_token {value : Bytes} (hv : Token value) : ascii "NO EXIST" ≠ value := by
  rintro rfl
  exact hv.space_not_mem (by decide)

/-- A value that was set with success is read by the next line exactly when the line of the `SET` fits into the buffer
    for it, the key and the value fit into a node where the engine is the skip list, and no entry without a value has
    the key. -/
theorem read_your_writes_iff {kind : EngineKind} {w w' : Surroundings} {g g' : Globals} {tokens tokens' : Tokens}
    {key value : Bytes} (hg : Reached g) (hk : Token key) (hv : Token value)
    (hset : processCommand w g tokens (pairLine kind .set key value) = some (g', ascii "SUCCESS")) :
    (processCommand w' g' tokens' (keyLine kind .get key)).map Prod.snd = some value ↔
      (pairLine kind .set key value).length ≤ 1023 ∧
        (kind = .skiptable → key.length ≤ 255 ∧ value.length ≤ 255) ∧
        kind.Absent (g.store kind) (.ofBytes key) := by
  obtain ⟨hroom, hs⟩ := set_success hk hv hset
  have hlaw := (hg.sound kind).setGet hs
  have hname : (kind.commandName .get).length = (kind.commandName .set).length := by cases kind <;> rfl
  have hline : (keyLine kind .get key).length ≤ 1023 := by
    rw [argumentRoom] at hroom
    simp only [keyLine, List.length_append, List.length_cons, hname]
    omega
  have hfits : (pairLine kind .set key value).length ≤ 1023 ↔
      value.length ≤ argumentRoom kind .set - (key.length + 1) := by
    rw [argumentRoom] at hroom ⊢
    simp only [pairLine, List.length_append, List.length_cons]
    omega
  have hshort : Short (.ofBytes key) ↔ key.length ≤ 255 := by rw [Short, CString.strlen, hk.ofBytes_bytes]
  rw [get_reply hk hline, hfits]
  by_cases hfound : kind.Absent (g.store kind) (.ofBytes key) ∧ (kind = .skiptable → Short (.ofBytes key))
  · obtain ⟨habsent, hkey⟩ := hfound
    have hle : argumentRoom kind .set - (key.length + 1) ≤ 1023 :=
      (Nat.sub_le _ _).trans ((Nat.sub_le _ _).trans (Nat.le_succ 1022))
    rw [hlaw.found habsent hkey, Option.bind_some, getReply, Option.some.injEq,
      responseBuf_kept hv (Nat.sub_pos_of_lt hroom) hle]
    constructor
    · rintro ⟨hlen, hvalue⟩
      exact ⟨hlen, fun hkind => ⟨hshort.mp (hkey hkind), hvalue hkind⟩, habsent⟩
    · rintro ⟨hlen, hboth, -⟩
      exact ⟨hlen, fun hkind => (hboth hkind).2⟩
  · rw [hlaw.lost hfound, Option.bind_some, getReply, Option.some.injEq]
    refine iff_of_false (noExist_not_token hv) ?_
    rintro ⟨-, hboth, habsent⟩
    exact hfound ⟨habsent, fun hkind => hshort.mpr (hboth hkind).1⟩

/-- The globals of a server that has just started. -/
def started : Globals := Globals.initial .calm

theorem started_reached : Reached started := ⟨.calm, [], [], rfl⟩

/-- The longest string that a node of the skip list takes whole. -/
def fullBuffer : Bytes := List.replicate 255 97

theorem read_your_writes_iff_fullBuffer : ∃ g',
    processCommand .calm started (fun _ => none) (pairLine .skiptable .set fullBuffer fullBuffer) =
      some (g', ascii "SUCCESS") ∧
    ((processCommand .calm g' (fun _ => none) (keyLine .skiptable .get fullBuffer)).map Prod.snd = some fullBuffer ↔
      (pairLine .skiptable .set fullBuffer fullBuffer).length ≤ 1023 ∧
        (EngineKind.skiptable = .skiptable → fullBuffer.length ≤ 255 ∧ fullBuffer.length ≤ 255) ∧
        EngineKind.Absent .skiptable (started.store .skiptable) (.ofBytes fullBuffer)) := by
  have hset : (processCommand .calm started (fun _ => none)
      (pairLine .skiptable .set fullBuffer fullBuffer)).map Prod.snd = some (ascii "SUCCESS") := by decide +kernel
  obtain ⟨⟨g', r⟩, hset, rfl⟩ := Option.map_eq_some_iff.mp hset
  exact ⟨g', hset, read_your_writes_iff started_reached (by decide +kernel) (by decide +kernel) hset⟩

/-- A key of 256 letters: the skip list stores 255 of them, and compares these with all 256. -/
def longKey : Bytes := List.replicate 256 97

theorem sget_longKey : ∃ g', processCommand .calm started (fun _ => none) (pairLine .skiptable .set longKey (ascii "b")) =
      some (g', ascii "SUCCESS") ∧
    (processCommand .calm g' (fun _ => none) (keyLine .skiptable .get longKey)).map Prod.snd = some (ascii "NO EXIST") ∧
    Reached started ∧ Token longKey ∧ ascii "NO EXIST" ≠ ascii "b" := by
  have hset : (processCommand .calm started (fun _ => none) (pairLine .skiptable .set longKey (ascii "b"))).map Prod.snd =
      some (ascii "SUCCESS") := by decide +kernel
  have hget : (processCommand .calm started (fun _ => none) (pairLine .skiptable .set longKey (ascii "b"))).bind
      (fun out => (processCommand .calm out.1 (fun _ => none) (keyLine .skiptable .get longKey)).map Prod.snd) =
      some (ascii "NO EXIST") := by decide +kernel
  obtain ⟨⟨g', r⟩, hset, rfl⟩ := Option.map_eq_some_iff.mp hset
  rw [hset, Option.bind_some] at hget
  exact ⟨g', hset, hget, started_reached, by decide +kernel, by decide⟩

end Dispatch

end KvStore

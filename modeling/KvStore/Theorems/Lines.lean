import KvStore.Replica
import KvStore.Theorems.Dispatch
import KvStore.Theorems.Wire

/-! The lines of the commands with one and with two arguments, what a buffer of 1024 bytes leaves of them, and what
    the case of each command makes of them. -/

namespace KvStore
open Framing

/-! ### Words -/

/-- The pieces between spaces that are not empty. -/
def words (buf : Bytes) : List Bytes := (pieces space buf).filter (· ≠ [])

theorem tokenize_eq (buf : Bytes) : tokenize buf = (words buf).take maxTokens := rfl

namespace Token
variable {a b c rest : Bytes} {n : Nat}

theorem space_not_mem (h : Token a) : space ∉ a := fun hm => (h.2 space hm).2.1 rfl

theorem nul_not_mem (h : Token a) : (0 : UInt8) ∉ a := fun hm => (h.2 0 hm).1 rfl

theorem take (h : Token a) (hn : 0 < n) : Token (a.take n) := by
  refine ⟨?_, fun d hd => h.2 d (List.mem_of_mem_take hd)⟩
  rw [Ne, List.take_eq_nil_iff, not_or]
  exact ⟨hn.ne', h.1⟩

theorem ofBytes_bytes (h : Token a) : (CString.ofBytes a).bytes = a :=
  List.takeWhile_eq_self_iff.mpr fun d hd => by simpa using (h.2 d hd).1

theorem words_cons (h : Token a) : words (a ++ space :: rest) = a :: words rest := by
  rw [words, pieces_append_cons h.space_not_mem, List.filter_cons_of_pos (by simpa using h.1)]
  rfl

theorem words_last (h : Token a) : words a = [a] := by
  rw [words, pieces_of_not_mem h.space_not_mem, List.filter_cons_of_pos (by simpa using h.1)]
  rfl

theorem words_space (h : Token a) : words (a ++ [space]) = [a] := h.words_cons

end Token

namespace Dispatch

/-- The line of a command with one argument. -/
def keyLine (kind : EngineKind) (op : Op) (key : Bytes) : Bytes := kind.commandName op ++ space :: key

/-- The line of a command with two arguments. -/
def pairLine (kind : EngineKind) (op : Op) (key value : Bytes) : Bytes :=
  kind.commandName op ++ space :: (key ++ space :: value)

section Names
variable (kind : EngineKind) (op : Op)

theorem commandName_token : Token (kind.commandName op) := by
  cases kind <;> cases op <;> decide

theorem findCommand_commandName : findCommand (kind.commandName op) = some (kind, op) := by
  cases kind <;> cases op <;> rfl

end Names

variable {kind : EngineKind} {op : Op} {line key value : Bytes} {rest : List Bytes}

theorem commandBuf_eq (h : (0 : UInt8) ∉ line) : commandBuf line = line.take 1023 := by
  rw [commandBuf, List.takeWhile_eq_self_iff.mpr]
  intro b hb
  have hne : b ≠ 0 := fun hz => h (hz ▸ hb)
  simpa using hne

/-- A token of a line has no bytes but those of the line, and no NUL. -/
theorem piece_subset {piece : Bytes} (h : piece ∈ pieces line) : piece ⊆ line ∧ (0 : UInt8) ∉ piece := by
  have hsub : piece ⊆ commandBuf line :=
    Framing.piece_subset (List.mem_of_mem_filter (List.mem_of_mem_take h))
  have hbuf : ∀ b ∈ commandBuf line, b ∈ line.takeWhile (· ≠ 0) := fun b hb => List.mem_of_mem_take hb
  refine ⟨fun b hb => List.takeWhile_subset _ (hbuf b (hsub hb)), fun hz => ?_⟩
  have hne := List.mem_takeWhile_imp (hbuf 0 (hsub hz))
  simp at hne

theorem keyLine_nul (hk : Token key) : (0 : UInt8) ∉ keyLine kind op key := by
  have hname := (commandName_token kind op).nul_not_mem
  have hkey := hk.nul_not_mem
  have hspace : (0 : UInt8) ≠ space := by decide
  simp [keyLine, hname, hkey, hspace]

theorem pairLine_nul (hk : Token key) (hv : Token value) : (0 : UInt8) ∉ pairLine kind op key value := by
  have hname := (commandName_token kind op).nul_not_mem
  have hspace : (0 : UInt8) ≠ space := by decide
  simp [pairLine, hname, hk.nul_not_mem, hv.nul_not_mem, hspace]

/-- A line that begins with the name of a command is for it. -/
theorem commandOf_name (h : pieces line = kind.commandName op :: rest) : commandOf line = some (kind, op) := by
  rw [commandOf, h, List.head?_cons, Option.bind_some, (commandName_token kind op).ofBytes_bytes,
    findCommand_commandName]

theorem pieces_keyLine (hk : Token key) (hlen : (keyLine kind op key).length ≤ 1023) :
    pieces (keyLine kind op key) = [kind.commandName op, key] := by
  rw [pieces, commandBuf_eq (keyLine_nul hk), List.take_of_length_le hlen, tokenize_eq, keyLine,
    (commandName_token kind op).words_cons, hk.words_last]
  rfl

/-- How many bytes of the two arguments and the space between them are left. -/
def argumentRoom (kind : EngineKind) (op : Op) : Nat := 1022 - (kind.commandName op).length

theorem commandName_length (kind : EngineKind) (op : Op) : (kind.commandName op).length ≤ 12 := by
  cases kind <;> cases op <;> decide

theorem take_line (name args : Bytes) (h : name.length ≤ 1022) :
    (name ++ space :: args).take 1023 = name ++ space :: args.take (1022 - name.length) := by
  have hroom : 1023 - name.length = 1022 - name.length + 1 := by omega
  rw [List.take_append, List.take_of_length_le (h.trans (Nat.le_succ _)), hroom, List.take_succ_cons]

theorem pieces_pairLine_eq (hk : Token key) (hv : Token value) : pieces (pairLine kind op key value) =
    (kind.commandName op :: words ((key ++ space :: value).take (argumentRoom kind op))).take maxTokens := by
  have hname : (kind.commandName op).length ≤ 1022 := (commandName_length kind op).trans (by decide)
  rw [pieces, commandBuf_eq (pairLine_nul hk hv), pairLine, take_line _ _ hname, tokenize_eq,
    (commandName_token kind op).words_cons]
  rfl

/-- The second argument is left, or its beginning. -/
theorem pieces_pairLine (hk : Token key) (hv : Token value) (hroom : key.length + 1 < argumentRoom kind op) :
    pieces (pairLine kind op key value) =
      [kind.commandName op, key, value.take (argumentRoom kind op - (key.length + 1))] := by
  have hcut : argumentRoom kind op - key.length = argumentRoom kind op - (key.length + 1) + 1 := by omega
  have htake : (key ++ space :: value).take (argumentRoom kind op) =
      key ++ space :: value.take (argumentRoom kind op - (key.length + 1)) := by
    rw [List.take_append, List.take_of_length_le (Nat.le_of_lt (Nat.lt_of_succ_lt hroom)), hcut, List.take_succ_cons]
  rw [pieces_pairLine_eq hk hv, htake, hk.words_cons, (hv.take (Nat.sub_pos_of_lt hroom)).words_last]
  rfl

/-- Nothing is left of the second argument. -/
theorem pieces_pairLine_cut (hk : Token key) (hv : Token value) (hroom : argumentRoom kind op ≤ key.length + 1) :
    ∃ key', pieces (pairLine kind op key value) = [kind.commandName op, key'] := by
  have hpos : 0 < argumentRoom kind op := by
    have hname := commandName_length kind op
    rw [argumentRoom]
    omega
  rw [pieces_pairLine_eq hk hv]
  rcases Nat.lt_or_ge key.length (argumentRoom kind op) with hlt | hge
  · -- the space behind the key is the last byte
    have heq : argumentRoom kind op - key.length = 0 + 1 := by omega
    rw [List.take_append, List.take_of_length_le hlt.le, heq, List.take_succ_cons, List.take_zero, hk.words_space]
    exact ⟨key, rfl⟩
  · rw [List.take_append_of_le_length hge, (hk.take hpos).words_last]
    exact ⟨_, rfl⟩

/-! ### From a line to its case -/

section Cases
variable {w : Surroundings} {g : Globals} {tokens : Tokens} {k v : CString}

/-- A line with one argument: its case finds the argument in the second slot. -/
theorem processCommand_key (hp : pieces line = [kind.commandName op, k.bytes]) :
    ∃ slots : Tokens, slots 1 = some k ∧ processCommand w g tokens line =
      (runCase kind.backend kind w slots 2 (g.store kind) g.files op).map (afterCase g kind) := by
  refine ⟨lineTokens tokens line, ?_, ?_⟩
  · simp [lineTokens, writeTokens, hp]
  · rw [processCommand_known (commandOf_name hp), hp]
    rfl

/-- A line with two arguments: its case finds them in the second and the third slot. -/
theorem processCommand_pair (hp : pieces line = [kind.commandName op, k.bytes, v.bytes]) :
    ∃ slots : Tokens, slots 1 = some k ∧ slots 2 = some v ∧ processCommand w g tokens line =
      (runCase kind.backend kind w slots 3 (g.store kind) g.files op).map (afterCase g kind) := by
  refine ⟨lineTokens tokens line, ?_, ?_, ?_⟩
  · simp [lineTokens, writeTokens, hp]
  · simp [lineTokens, writeTokens, hp]
  · rw [processCommand_known (commandOf_name hp), hp]
    rfl

/-! One lemma for each command: what the engine returns decides the reply and the store. -/

theorem processCommand_set (hp : pieces line = [kind.commandName .set, k.bytes, v.bytes]) :
    processCommand w g tokens line = (kind.engine.set (w.env 0) (g.store kind) k v).map fun r =>
      afterCase g kind (r.1, g.files, setReply r.2) := by
  obtain ⟨slots, h₁, h₂, hline⟩ : ∃ slots : Tokens, _ ∧ _ ∧ processCommand w g tokens line = _ := processCommand_pair hp
  rw [hline, runCase]
  simp only [Nat.lt_irrefl, if_false, h₁, h₂, Option.bind_eq_bind, Option.bind_some]
  cases kind.engine.set (w.env 0) (g.store kind) k v <;> rfl

theorem processCommand_get (hp : pieces line = [kind.commandName .get, k.bytes]) :
    processCommand w g tokens line = ((kind.engine.get (g.store kind) k).bind getReply).map fun x =>
      afterCase g kind (g.store kind, g.files, x) := by
  obtain ⟨slots, h₁, hline⟩ : ∃ slots : Tokens, _ ∧ processCommand w g tokens line = _ := processCommand_key hp
  rw [hline, runCase]
  simp only [h₁, Option.bind_eq_bind, Option.bind_some]
  cases kind.engine.get (g.store kind) k with
  | none => rfl
  | some p =>
    simp only [Option.bind_some]
    cases getReply p <;> rfl

theorem processCommand_mod (hp : pieces line = [kind.commandName .mod, k.bytes, v.bytes]) :
    processCommand w g tokens line = (kind.engine.modify (w.env 0) (g.store kind) k v).map fun r =>
      afterCase g kind (r.1, g.files, changeReply r.2) := by
  obtain ⟨slots, h₁, h₂, hline⟩ : ∃ slots : Tokens, _ ∧ _ ∧ processCommand w g tokens line = _ := processCommand_pair hp
  rw [hline, runCase]
  simp only [h₁, h₂, Option.bind_eq_bind, Option.bind_some]
  cases kind.engine.modify (w.env 0) (g.store kind) k v <;> rfl

theorem processCommand_del (hp : pieces line = [kind.commandName .del, k.bytes]) :
    processCommand w g tokens line = (kind.engine.delete (g.store kind) k).map fun r =>
      afterCase g kind (r.1, g.files, changeReply r.2) := by
  obtain ⟨slots, h₁, hline⟩ : ∃ slots : Tokens, _ ∧ processCommand w g tokens line = _ := processCommand_key hp
  rw [hline, runCase]
  simp only [h₁, Option.bind_eq_bind, Option.bind_some]
  cases kind.engine.delete (g.store kind) k <;> rfl

theorem processCommand_exist (hp : pieces line = [kind.commandName .exist, k.bytes]) :
    processCommand w g tokens line = (kind.engine.exist (g.store kind) k).map fun n =>
      afterCase g kind (g.store kind, g.files, existReply n) := by
  obtain ⟨slots, h₁, hline⟩ : ∃ slots : Tokens, _ ∧ processCommand w g tokens line = _ := processCommand_key hp
  rw [hline, runCase]
  simp only [h₁, Option.bind_eq_bind, Option.bind_some]
  cases kind.engine.exist (g.store kind) k <;> rfl

theorem processCommand_range (hp : pieces line = [kind.commandName .range, k.bytes, v.bytes]) :
    processCommand w g tokens line = (kind.scan.range (w.env 0) (g.store kind) k v).map fun r =>
      afterCase g kind (g.store kind, g.files, rangeReply r.1 r.2) := by
  obtain ⟨slots, h₁, h₂, hline⟩ : ∃ slots : Tokens, _ ∧ _ ∧ processCommand w g tokens line = _ := processCommand_pair hp
  rw [hline, runCase]
  simp only [h₁, h₂, Option.bind_eq_bind, Option.bind_some]
  cases kind.scan.range (w.env 0) (g.store kind) k v <;> rfl

/-- A `SYNC` that reaches its peer. -/
theorem processCommand_sync {response : Bytes} (hp : pieces line = [kind.commandName .sync, k.bytes, v.bytes])
    (hpull : w.pull kind k v = .reaches response) :
    processCommand w g tokens line = (pullResponse kind.engine w.env w.junk (g.store kind) response).map fun r =>
      afterCase g kind (r.1, g.files, r.2) := by
  obtain ⟨slots, h₁, h₂, hline⟩ : ∃ slots : Tokens, _ ∧ _ ∧ processCommand w g tokens line = _ := processCommand_pair hp
  rw [hline, runCase]
  simp only [Nat.lt_irrefl, if_false, h₁, h₂, hpull, Option.bind_eq_bind, Option.bind_some]
  cases pullResponse kind.engine w.env w.junk (g.store kind) response <;> rfl

theorem processCommand_getAll (hp : pieces line = [kind.commandName .getAll]) :
    processCommand w g tokens line = (getLocalData kind.scan (w.env 0) (g.store kind)).map fun localData =>
      afterCase g kind (g.store kind, g.files, dumpText localData) := by
  rw [processCommand_known (commandOf_name hp), runCase]
  cases getLocalData kind.scan (w.env 0) (g.store kind) <;> rfl

end Cases

/-! ### The actions of two servers are lines -/

/-- The tokens of the line of an action; a `SYNC` has the address of the peer. -/
def actionTokens (kind : EngineKind) (ip port : CString) : Action → List Bytes
  | .set _ key value => [kind.commandName .set, key.bytes, value.bytes]
  | .mod _ key value => [kind.commandName .mod, key.bytes, value.bytes]
  | .del key => [kind.commandName .del, key.bytes]
  | .sync .. => [kind.commandName .sync, ip.bytes, port.bytes]

/-- The line meets what the action says. The peer of a `SYNC` answers its dump command, and the newline comes behind. -/
def Meets (kind : EngineKind) (ip port : CString) (w : Surroundings) (peer : Globals) : Action → Prop
  | .set env _ _ => w.env 0 = env
  | .mod env _ _ => w.env 0 = env
  | .del _ => True
  | .sync peerEnv env junk => w.env = env ∧ w.junk = junk ∧ ∃ w' tokens dump peer' text,
      pieces dump = [kind.commandName .getAll] ∧ w'.env 0 = peerEnv ∧
      processCommand w' peer tokens dump = some (peer', text) ∧ w.pull kind ip port = .reaches (text ++ [newline])

section Actions
variable {kind : EngineKind} {w : Surroundings} {g peer : Globals} {tokens : Tokens} {line : Bytes}

/-- An action of a server is what one of its lines does to the store of the engine, and the reply to the line. -/
theorem processCommand_action {ip port : CString} {stores : Replica.Stores kind} {site : Site} {action : Action}
    (hp : pieces line = actionTokens kind ip port action) (hw : Meets kind ip port w peer action)
    (hg : g.store kind = stores site) (hpeer : peer.store kind = stores site.peer) :
    (processCommand w g tokens line).map (fun out => (Function.update stores site (out.1.store kind), out.2)) =
      Replica.step kind stores (site, action) := by
  cases action with
  | set env key value =>
    obtain rfl : w.env 0 = env := hw
    rw [processCommand_set hp, Replica.step, ← hg]
    cases kind.engine.set (w.env 0) (g.store kind) key value <;> simp
  | mod env key value =>
    obtain rfl : w.env 0 = env := hw
    rw [processCommand_mod hp, Replica.step, ← hg]
    cases kind.engine.modify (w.env 0) (g.store kind) key value <;> simp
  | del key =>
    rw [processCommand_del hp, Replica.step, ← hg]
    cases kind.engine.delete (g.store kind) key <;> simp
  | sync peerEnv env junk =>
    obtain ⟨rfl, rfl, w', tokens', dump, peer', text, hdump, rfl, htext, hpull⟩ := hw
    -- the text is the dump of the peer's store
    rw [processCommand_getAll hdump, Option.map_eq_some_iff, hpeer] at htext
    obtain ⟨localData, hlocal, hout⟩ := htext
    obtain rfl : dumpText localData = text := congrArg Prod.snd hout
    rw [processCommand_sync hp hpull, Replica.step, pullFrom, hlocal, ← hg]
    simp only [Option.bind_eq_bind, Option.bind_some]
    cases pullResponse kind.engine w.env w.junk (g.store kind) (dumpText localData ++ [newline]) <;> simp

end Actions

end Dispatch

end KvStore

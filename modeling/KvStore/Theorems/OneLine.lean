import KvStore.Theorems.Lines
import KvStore.Theorems.Sound

/-! # One reply, one line

How many newlines are in what `process_received_data` pushes for a line. Values are stored without newlines, since the
lines have none and the records of a peer are words, so that a `GET` prints none. -/

namespace KvStore
open Framing

/-- The only newline of the text is its last byte. -/
def OneLine (text : Bytes) : Prop := ∃ body, text = body ++ [newline] ∧ newline ∉ body

theorem oneLine_append {body : Bytes} : OneLine (body ++ [newline]) ↔ newline ∉ body := by
  constructor
  · rintro ⟨body', heq, h⟩
    rwa [List.append_cancel_right heq]
  · exact fun h => ⟨body, rfl, h⟩

/-- What a `GET` prints of a value has no newline; it prints nothing of a pointer to no string. -/
def Unbroken : CharPtr → Prop
  | .str v => newline ∉ v.bytes
  | .null => True
  | .freed => True

theorem ofBytes_unbroken {b : Bytes} (h : newline ∉ b) : Unbroken (.str (.ofBytes b)) :=
  fun hm => h (List.takeWhile_subset _ hm)

theorem trunc_unbroken (v : CString) (h : Unbroken (.str v)) : Unbroken (.str v.trunc) :=
  fun hm => h (List.mem_of_mem_take hm)

/-! ### Replies -/

section Replies
variable {n : Int}

theorem newline_not_mem_setReply : newline ∉ setReply n := by
  unfold setReply
  split
  · decide
  · split <;> decide

theorem newline_not_mem_changeReply : newline ∉ changeReply n := by
  unfold changeReply
  split
  · decide
  · split <;> decide

theorem newline_not_mem_existReply : newline ∉ existReply n := by
  unfold existReply
  split <;> decide

theorem newline_not_mem_fileReply : newline ∉ fileReply n := by
  unfold fileReply
  split <;> decide

theorem newline_not_mem_getReply {p : CharPtr} {response : Bytes} (hp : Unbroken p) (h : getReply p = some response) :
    newline ∉ response := by
  cases p with
  | str v =>
    cases h
    exact fun hm => hp (List.mem_of_mem_take hm)
  | null =>
    cases h
    decide
  | freed => cases h

theorem newline_not_mem_pullResponse {σ : Type} {E : Engine σ} {env : Nat → Env} {junk : Nat → UInt64} {s s' : σ}
    {text response : Bytes} (h : pullResponse E env junk s text = some (s', response)) : newline ∉ response := by
  rw [pullResponse] at h
  split at h
  · cases h
    decide
  · simp only at h
    split at h
    · cases h
      decide
    · simp only [Option.bind_eq_bind, Option.bind_eq_some_iff] at h
      obtain ⟨⟨s₁, ret⟩, -, h⟩ := h
      cases h
      simp only
      split <;> decide

theorem newline_mem_setFailed {kind : EngineKind} : newline ∈ kind.setFailed ↔ kind = .array := by
  cases kind <;> decide

end Replies

section Case
variable {kind : EngineKind} {w : Surroundings} {tokens : Tokens} {count : Nat} {s s' : kind.Store}
  {files files' : Files} {op : Op} {response : Bytes}

/-- Of the cases that print no list of entries, only that of a plain `SET` with too few tokens prints a newline. -/
theorem newline_mem_runCase (h : kind.Carries Unbroken s) (hop : op ≠ .range ∧ op ≠ .getAll)
    (hs : runCase kind.backend kind w tokens count s files op = some (s', files', response)) :
    newline ∈ response ↔ kind = .array ∧ op = .set ∧ count < 3 := by
  cases runCase_runs hs with
  | setShort hcount => rw [newline_mem_setFailed, eq_self, true_and, and_iff_left hcount]
  | set hcount =>
    exact iff_of_false newline_not_mem_setReply fun hshort => absurd hshort.2.2 (Nat.not_lt.mpr hcount)
  | get _ hcall hreply => exact iff_of_false (newline_not_mem_getReply (h.get trivial hcall) hreply) (by simp)
  | del => exact iff_of_false newline_not_mem_changeReply (by simp)
  | mod => exact iff_of_false newline_not_mem_changeReply (by simp)
  | exist => exact iff_of_false newline_not_mem_existReply (by simp)
  | saveClosed => exact iff_of_false newline_not_mem_fileReply (by simp)
  | save => exact iff_of_false newline_not_mem_fileReply (by simp)
  | loadClosed => exact iff_of_false newline_not_mem_fileReply (by simp)
  | load => exact iff_of_false newline_not_mem_fileReply (by simp)
  | range => exact absurd rfl hop.1
  | syncShort => exact iff_of_false (by decide) (by simp)
  | syncFails => exact iff_of_false (by decide) (by simp)
  | sync _ _ _ _ hcall => exact iff_of_false (newline_not_mem_pullResponse hcall) (by simp)
  | getAll => exact absurd rfl hop.2

end Case

/-! ### Lines -/

namespace Dispatch

/-- A plain `SET` that has no value. -/
def ShortSet (line : Bytes) : Prop := commandOf line = some (.array, .set) ∧ (pieces line).length < 3

instance (line : Bytes) : Decidable (ShortSet line) := inferInstanceAs (Decidable (_ ∧ _))

/-- The line has no newline, as it was cut off at one, and has the tokens that its case takes. Else what the slots give
    that it does not write must have no newline. -/
structure Clean (i : Input) : Prop where
  line : newline ∉ i.2.2
  slots : unchecked i.2.2 ≤ (pieces i.2.2).length ∨ ∀ n text, i.2.1 n = some text → newline ∉ text.bytes

/-- The line prints no list of entries. -/
def PrintsNoList (line : Bytes) : Prop :=
  ∀ kind, commandOf line ≠ some (kind, .range) ∧ commandOf line ≠ some (kind, .getAll)

/-- The line loads no file. -/
def LoadsNoFile (line : Bytes) : Prop := ∀ kind, commandOf line ≠ some (kind, .load)

/-- No stored value has a newline. -/
def NoBreaks (g : Globals) : Prop := ∀ kind : EngineKind, kind.Carries Unbroken (g.store kind)

variable {g g' : Globals} {i : Input} {response : Bytes}

/-- The value that the case of a clean line passes on. -/
theorem Clean.value {kind : EngineKind} {op : Op} (h : Clean i) (hcmd : commandOf i.2.2 = some (kind, op))
    (hop : op = .set ∧ 3 ≤ (pieces i.2.2).length ∨ op = .mod) :
    ∀ v, lineTokens i.2.1 i.2.2 2 = some v → Unbroken (.str v) := by
  intro v hv
  rcases Nat.lt_or_ge 2 (pieces i.2.2).length with hlt | hge
  · rw [lineTokens_lt hlt] at hv
    cases hv
    exact ofBytes_unbroken fun hm => h.line ((piece_subset (List.getElem_mem hlt)).1 hm)
  · rw [lineTokens_ge hge] at hv
    rcases hop with ⟨-, hcount⟩ | rfl
    · exact absurd hcount (Nat.not_le.mpr (Nat.lt_succ_of_le hge))
    · rcases h.slots with hown | hslots
      · rw [unchecked, hcmd, Option.elim_some] at hown
        exact absurd hown (Nat.not_le.mpr (Nat.lt_succ_of_le hge))
      · exact hslots 2 v hv

theorem NoBreaks.step (h : NoBreaks g) (hi : Clean i) (hload : LoadsNoFile i.2.2)
    (hs : Dispatch.step g i = some (g', response)) : NoBreaks g' := by
  refine step_keeps (fun kind op s' files' r hcmd hrun => ?_) h hs
  have hop : op ≠ .load := fun hop => hload kind (hop ▸ hcmd)
  exact (kind.carries trivial trivial trunc_unbroken).runCase kind.laws.set_eq kind.laws.modify_eq (hi.value hcmd)
    (fun heq => absurd heq hop)
    (fun text item hitem => ofBytes_unbroken (noSpace_newline (noSpace_parseRemoteDataStr hitem).2)) (h kind) hrun

theorem NoBreaks.runs {is : List Input} {outs : List Bytes} (h : NoBreaks g)
    (his : ∀ i ∈ is, Clean i ∧ LoadsNoFile i.2.2) (hrun : Run.runs Dispatch.step g is = some (g', outs)) :
    NoBreaks g' := by
  have hstep : ∀ g i g' response, NoBreaks g → Clean i ∧ LoadsNoFile i.2.2 →
      Dispatch.step g i = some (g', response) → NoBreaks g' :=
    fun g i g' response h hi hs => h.step hi.1 hi.2 hs
  exact Run.runs_inv hstep hrun his h

theorem initial_noBreaks (files : Files) : NoBreaks (Globals.initial files) := EngineKind.created_carries

/-- The reply to a line that prints no list has a newline exactly when the line is a plain `SET` without a value. -/
theorem NoBreaks.newline_mem (h : NoBreaks g) (hlist : PrintsNoList i.2.2)
    (hs : Dispatch.step g i = some (g', response)) : newline ∈ response ↔ ShortSet i.2.2 := by
  rcases processCommand_cases hs with ⟨hcmd, -, rfl⟩ | ⟨kind, op, s', files', hcmd, -, hrun⟩
  · exact iff_of_false List.not_mem_nil (by simp [ShortSet, hcmd])
  · have hop : op ≠ .range ∧ op ≠ .getAll :=
      ⟨fun hop => (hlist kind).1 (hop ▸ hcmd), fun hop => (hlist kind).2 (hop ▸ hcmd)⟩
    rw [newline_mem_runCase (h kind) hop hrun, ShortSet, hcmd]
    simp only [Option.some.injEq, Prod.mk.injEq, and_assoc]

/-- What a client reads of the replies to lines that print no list, none of them a plain `SET` without a value: they are
    the lines that it receives, in order. -/
theorem NoBreaks.replies_split {is : List Input} {outs : List Bytes} (h : NoBreaks g)
    (his : ∀ i ∈ is, (Clean i ∧ LoadsNoFile i.2.2) ∧ PrintsNoList i.2.2 ∧ ¬ShortSet i.2.2)
    (hrun : Run.runs Dispatch.step g is = some (g', outs)) :
    frames newline (outs.flatMap fun response => response ++ [newline]) = (outs, []) := by
  induction is generalizing g outs with
  | nil =>
    cases hrun
    rfl
  | cons i is ih =>
    rw [List.forall_mem_cons] at his
    obtain ⟨⟨⟨hclean, hload⟩, hlist, hshort⟩, his⟩ := his
    obtain ⟨g₁, response, outs, hs, hrest, rfl⟩ := Run.runs_cons_inv hrun
    have hnot : newline ∉ response := mt (h.newline_mem hlist hs).mp hshort
    have hfirst : first newline (response ++ newline :: outs.flatMap fun response => response ++ [newline]) =
        some (response, outs.flatMap fun response => response ++ [newline]) := first_append hnot
    rw [List.flatMap_cons, List.append_assoc, List.singleton_append, frames_of_first hfirst,
      ih (h.step hclean hload hs) his hrest]

/-- After every history of lines that load no file: what is pushed for a line that prints no list is one line, unless
    it is a plain `SET` without a value. -/
theorem oneLine_iff {files : Files} {history : List Input} {outs : List Bytes}
    (hrun : Run.runs Dispatch.step (Globals.initial files) history = some (g, outs))
    (hhistory : ∀ i ∈ history, Clean i ∧ LoadsNoFile i.2.2) (hlist : PrintsNoList i.2.2)
    (hs : Dispatch.step g i = some (g', response)) : OneLine (response ++ [newline]) ↔ ¬ShortSet i.2.2 := by
  rw [oneLine_append, ((initial_noBreaks files).runs hhistory hrun).newline_mem hlist hs]

/-- A line of a connection without stale slots, in calm surroundings. -/
def calmInput (line : Bytes) : Input := (.calm, fun _ => none, line)

theorem oneLine_iff_get : ∃ g outs g',
    Run.runs Dispatch.step (Globals.initial .calm) [calmInput (ascii "SET a b")] = some (g, outs) ∧
    Dispatch.step g (calmInput (ascii "GET a")) = some (g', ascii "b") ∧
    (OneLine (ascii "b" ++ [newline]) ↔ ¬ShortSet (ascii "GET a")) := by
  have hset : (Run.runs Dispatch.step (Globals.initial .calm) [calmInput (ascii "SET a b")]).bind
      (fun out => (Dispatch.step out.1 (calmInput (ascii "GET a"))).map Prod.snd) = some (ascii "b") := by
    decide +kernel
  obtain ⟨⟨g, outs⟩, hrun, hget⟩ := Option.bind_eq_some_iff.mp hset
  obtain ⟨⟨g', response⟩, hs, rfl⟩ := Option.map_eq_some_iff.mp hget
  refine ⟨g, outs, g', hrun, hs, ?_⟩
  refine oneLine_iff hrun ?_ ?_ hs
  · rw [List.forall_mem_singleton]
    exact ⟨⟨by decide, Or.inl (by decide +kernel)⟩, fun kind => by cases kind <;> decide +kernel⟩
  · exact fun kind => by cases kind <;> decide +kernel

/-- The reply to a plain `SET` without a value is two lines. -/
theorem shortSet_twoLines : ∃ g', Dispatch.step (Globals.initial .calm) (calmInput (ascii "SET a")) =
      some (g', ascii "FAILED\n") ∧ ¬OneLine (ascii "FAILED\n" ++ [newline]) ∧
    frames newline (ascii "FAILED\n" ++ [newline]) = ([ascii "FAILED", []], []) := by
  have hset : (Dispatch.step (Globals.initial .calm) (calmInput (ascii "SET a"))).map Prod.snd =
      some (ascii "FAILED\n") := by decide +kernel
  obtain ⟨⟨g', response⟩, hs, rfl⟩ := Option.map_eq_some_iff.mp hset
  exact ⟨g', hs, mt oneLine_append.mp (by decide), by decide⟩

end Dispatch

end KvStore

import Mathlib.Data.List.Forall2

/-! # Runs of a deterministic machine

A machine takes an input in a state and either answers with an output and the next state, or faults. A run
feeds it a list of inputs. Two facts carry over from one step to a whole run by induction on the inputs:
an invariant, and a simulation of the machine by one that cannot fault. -/

namespace Run

variable {σ τ ι ο : Type}

/-- The outputs and the last state of a run, unless some step of it faults. -/
def runs (step : σ → ι → Option (σ × ο)) : σ → List ι → Option (σ × List ο)
  | s, [] => some (s, [])
  | s, i :: is => do
    let (s, o) ← step s i
    let (s, os) ← runs step s is
    return (s, o :: os)

/-- A run of a machine that cannot fault. -/
def execs (step : τ → ι → τ × ο) : τ → List ι → τ × List ο
  | t, [] => (t, [])
  | t, i :: is =>
    let (t, o) := step t i
    let (t, os) := execs step t is
    (t, o :: os)

section
variable {step : σ → ι → Option (σ × ο)} {s s' s'' : σ} {i : ι} {is js : List ι} {o : ο} {os os' : List ο}

theorem runs_cons (h : step s i = some (s', o)) (hr : runs step s' is = some (s'', os)) :
    runs step s (i :: is) = some (s'', o :: os) := by
  simp [runs, h, hr]

theorem runs_cons_inv (h : runs step s (i :: is) = some (s'', os)) :
    ∃ s' o os', step s i = some (s', o) ∧ runs step s' is = some (s'', os') ∧ os = o :: os' := by
  simp only [runs, Option.bind_eq_bind, Option.bind_eq_some_iff, Option.pure_def, Option.some.injEq,
    Prod.mk.injEq, Prod.exists] at h
  obtain ⟨s', o, hs, s₂, os', hr, rfl, rfl⟩ := h
  exact ⟨s', o, os', hs, hr, rfl⟩

theorem runs_append (h : runs step s is = some (s', os)) (h' : runs step s' js = some (s'', os')) :
    runs step s (is ++ js) = some (s'', os ++ os') := by
  induction is generalizing s os with
  | nil =>
    cases h
    exact h'
  | cons i is ih =>
    obtain ⟨s₁, o, os₁, hs, hr, rfl⟩ := runs_cons_inv h
    exact runs_cons hs (ih hr)

theorem runs_append_inv (h : runs step s (is ++ js) = some (s'', os)) :
    ∃ s' os₁ os₂, runs step s is = some (s', os₁) ∧ runs step s' js = some (s'', os₂) ∧ os = os₁ ++ os₂ := by
  induction is generalizing s os with
  | nil => exact ⟨s, [], os, rfl, h, rfl⟩
  | cons i is ih =>
    obtain ⟨s₁, o, os', hs, hr, rfl⟩ := runs_cons_inv h
    obtain ⟨s', os₁, os₂, h₁, h₂, rfl⟩ := ih hr
    exact ⟨s', o :: os₁, os₂, runs_cons hs h₁, h₂, rfl⟩

theorem length_runs (h : runs step s is = some (s', os)) : is.length = os.length := by
  induction is generalizing s os with
  | nil =>
    cases h
    rfl
  | cons i is ih =>
    obtain ⟨s₁, o, os', -, hr, rfl⟩ := runs_cons_inv h
    exact congrArg Nat.succ (ih hr)

/-- What every step preserves, a run preserves. -/
theorem runs_inv {I : σ → Prop} {ok : ι → Prop}
    (hstep : ∀ s i s' o, I s → ok i → step s i = some (s', o) → I s')
    (h : runs step s is = some (s', os)) (hok : ∀ i ∈ is, ok i) (hs : I s) : I s' := by
  induction is generalizing s os with
  | nil =>
    cases h
    exact hs
  | cons i is ih =>
    obtain ⟨s₁, o, os₁, hi, hr, rfl⟩ := runs_cons_inv h
    exact ih hr (fun j hj => hok j (List.mem_cons_of_mem i hj)) (hstep s i s₁ o hs (hok i List.mem_cons_self) hi)

end

theorem execs_append {step : τ → ι → τ × ο} {is js : List ι} : ∀ {t : τ}, execs step t (is ++ js) =
    ((execs step (execs step t is).1 js).1, (execs step t is).2 ++ (execs step (execs step t is).1 js).2) := by
  induction is with
  | nil => exact rfl
  | cons i is ih => simp [execs, ih]

section
variable (step : σ → ι → Option (σ × ο)) (P : σ → Prop) (Q : σ → ι → Prop)

/-- `P` holds in every state that a run on the inputs goes through, as far as it gets. -/
def Throughout : σ → List ι → Prop
  | s, [] => P s
  | s, i :: is => P s ∧ ∀ s' o, step s i = some (s', o) → Throughout s' is

/-- `Q` holds of every input that a run takes, in the state that takes it. -/
def Each : σ → List ι → Prop
  | _, [] => True
  | s, i :: is => ∀ s' o, step s i = some (s', o) → Q s i ∧ Each s' is

variable {step P Q}

/-- Under an invariant: a property that a step keeps exactly when its input is good holds throughout a run exactly
    when every input is. -/
theorem throughout_iff_each {I : σ → Prop} (hI : ∀ s i s' o, I s → step s i = some (s', o) → I s')
    (h : ∀ s i s' o, I s → P s → step s i = some (s', o) → (P s' ↔ Q s i)) :
    ∀ {is : List ι} {s : σ}, I s → P s → (Throughout step P s is ↔ Each step Q s is)
  | [], s, _, hs => by simp [Throughout, Each, hs]
  | i :: is, s, hi, hs => by
    simp only [Throughout, Each, hs, true_and]
    refine forall_congr' fun s' => forall_congr' fun o => forall_congr' fun hstep => ?_
    have hi' := hI s i s' o hi hstep
    have hiff := h s i s' o hi hs hstep
    constructor
    · intro ht
      have hs' : P s' := by
        cases is with
        | nil => exact ht
        | cons j is => exact ht.1
      exact ⟨hiff.mp hs', (throughout_iff_each hI h hi' hs').mp ht⟩
    · rintro ⟨hq, he⟩
      exact (throughout_iff_each hI h hi' (hiff.mpr hq)).mpr he

end

/-- What every good step preserves, a run of good inputs preserves. -/
theorem Each.runs_inv {step : σ → ι → Option (σ × ο)} {Q : σ → ι → Prop} {I : σ → Prop}
    (hstep : ∀ s i s' o, I s → Q s i → step s i = some (s', o) → I s') {is : List ι} : ∀ {s s' : σ} {os : List ο},
    Each step Q s is → runs step s is = some (s', os) → I s → I s' := by
  induction is with
  | nil =>
    intro s s' os _ h hs
    cases h
    exact hs
  | cons i is ih =>
    intro s s' os he h hs
    obtain ⟨s₁, o, os₁, hi, hr, rfl⟩ := runs_cons_inv h
    obtain ⟨hq, he'⟩ := he s₁ o hi
    exact ih he' hr (hstep s i s₁ o hs hq hi)

section
variable (step : σ → ι → Option (σ × ο)) (Q : σ → ι → Prop)

/-- `Q` holds of every input that a run comes to, in the state that it finds. -/
def Guarded : σ → List ι → Prop
  | _, [] => True
  | s, i :: is => Q s i ∧ ∀ s' o, step s i = some (s', o) → Guarded s' is

variable {step Q}

instance Guarded.decidable [∀ s i, Decidable (Q s i)] : ∀ (is : List ι) (s : σ), Decidable (Guarded step Q s is)
  | [], _ => isTrue trivial
  | i :: is, s =>
    have : Decidable (∀ s' o, step s i = some (s', o) → Guarded step Q s' is) :=
      match h : step s i with
      | none => isTrue fun _ _ hs => by cases hs
      | some (s', o) =>
        have := Guarded.decidable is s'
        decidable_of_iff (Guarded step Q s' is) ⟨fun hg _ _ hs => by cases hs; exact hg, fun hg => hg s' o rfl⟩
    inferInstanceAs (Decidable (_ ∧ _))

theorem Guarded.append_inv {is js : List ι} : ∀ {s : σ}, Guarded step Q s (is ++ js) →
    Guarded step Q s is ∧ ∀ s' os, runs step s is = some (s', os) → Guarded step Q s' js := by
  induction is with
  | nil =>
    intro s h
    refine ⟨trivial, fun s' os hrun => ?_⟩
    cases hrun
    exact h
  | cons i is ih =>
    intro s h
    refine ⟨⟨h.1, fun s' o hs => (ih (h.2 s' o hs)).1⟩, fun s' os hrun => ?_⟩
    obtain ⟨s₁, o, os', hs, hrun', rfl⟩ := runs_cons_inv hrun
    exact (ih (h.2 s₁ o hs)).2 s' os' hrun'

end

/-- `P` holds of every input, in the state that the inputs before it have led to. -/
def Along (apply : τ → ι → τ) (P : τ → ι → Prop) : τ → List ι → Prop
  | _, [] => True
  | t, i :: is => P t i ∧ Along apply P (apply t i) is

theorem Along.imp {apply : τ → ι → τ} {P P' : τ → ι → Prop} (h : ∀ {t i}, P t i → P' t i) :
    ∀ {is : List ι} {t : τ}, Along apply P t is → Along apply P' t is
  | [], _, _ => trivial
  | _ :: _, _, ⟨hi, his⟩ => ⟨h hi, his.imp h⟩

theorem Along.and {apply : τ → ι → τ} {P P' : τ → ι → Prop} : ∀ {is : List ι} {t : τ}, Along apply P t is →
    Along apply P' t is → Along apply (fun t i => P t i ∧ P' t i) t is
  | [], _, _, _ => trivial
  | _ :: _, _, ⟨hi, his⟩, ⟨hi', his'⟩ => ⟨⟨hi, hi'⟩, his.and his'⟩

/-- From related states and on an input that is `ok`, the machine does not fault, answers what the abstract
    machine answers, and ends in a related state. -/
def Simulates (step : σ → ι → Option (σ × ο)) (abs : τ → ι → τ × ο) (R : σ → τ → Prop) (ok : ι → Prop) : Prop :=
  ∀ s t i, R s t → ok i → ∃ s', step s i = some (s', (abs t i).2) ∧ R s' (abs t i).1

/-- A simulation of one step is a simulation of every run. -/
theorem Simulates.runs {step : σ → ι → Option (σ × ο)} {abs : τ → ι → τ × ο} {R : σ → τ → Prop} {ok : ι → Prop}
    (h : Simulates step abs R ok) : ∀ {is : List ι} {s : σ} {t : τ}, R s t → (∀ i ∈ is, ok i) →
      ∃ s', Run.runs step s is = some (s', (execs abs t is).2) ∧ R s' (execs abs t is).1
  | [], s, _, hR, _ => ⟨s, rfl, hR⟩
  | i :: is, s, t, hR, hok => by
    obtain ⟨s₁, hs, hR₁⟩ := h s t i hR (hok i List.mem_cons_self)
    obtain ⟨s₂, hr, hR₂⟩ := h.runs hR₁ fun j hj => hok j (List.mem_cons_of_mem i hj)
    exact ⟨s₂, runs_cons hs hr, hR₂⟩

/-- As `Simulates`, for an abstract machine that only tells which answers are allowed. -/
def Refines (step : σ → ι → Option (σ × ο)) (abs : τ → ι → τ × (ο → Prop)) (R : σ → τ → Prop) (ok : ι → Prop) : Prop :=
  ∀ s t i, R s t → ok i → ∃ s' o, step s i = some (s', o) ∧ (abs t i).2 o ∧ R s' (abs t i).1

theorem Refines.runs {step : σ → ι → Option (σ × ο)} {abs : τ → ι → τ × (ο → Prop)} {R : σ → τ → Prop} {ok : ι → Prop}
    (h : Refines step abs R ok) : ∀ {is : List ι} {s : σ} {t : τ}, R s t → (∀ i ∈ is, ok i) →
      ∃ s' os, Run.runs step s is = some (s', os) ∧ List.Forall₂ (fun P o => P o) (execs abs t is).2 os ∧
        R s' (execs abs t is).1
  | [], s, _, hR, _ => ⟨s, [], rfl, .nil, hR⟩
  | i :: is, s, t, hR, hok => by
    obtain ⟨s₁, o, hs, ho, hR₁⟩ := h s t i hR (hok i List.mem_cons_self)
    obtain ⟨s₂, os, hr, hos, hR₂⟩ := h.runs hR₁ fun j hj => hok j (List.mem_cons_of_mem i hj)
    exact ⟨s₂, o :: os, runs_cons hs hr, .cons ho hos, hR₂⟩

/-- Two machines that agree wherever an invariant of the first holds. -/
theorem runs_congr {step step' : σ → ι → Option (σ × ο)} {I : σ → Prop} (heq : ∀ s i, I s → step s i = step' s i)
    (hI : ∀ s i s' o, I s → step s i = some (s', o) → I s') : ∀ (is : List ι) {s : σ}, I s →
      runs step s is = runs step' s is
  | [], _, _ => rfl
  | i :: is, s, hs => by
    rw [runs, runs, ← heq s i hs]
    cases hstep : step s i with
    | none => rfl
    | some p => simp only [Option.bind_eq_bind, Option.bind_some, runs_congr heq hI is (hI s i p.1 p.2 hs hstep)]

/-- Both machines fault, or they answer the same and are related again. -/
def Matches (R : σ → τ → Prop) (r : Option (σ × ο)) (r' : Option (τ × ο)) : Prop :=
  r = none ∧ r' = none ∨ ∃ s t o, r = some (s, o) ∧ r' = some (t, o) ∧ R s t

/-- Two machines that match in every step give the same answers in every run, and fault in the same runs. -/
theorem runs_matches {step : σ → ι → Option (σ × ο)} {step' : τ → ι → Option (τ × ο)} {R : σ → τ → Prop}
    (h : ∀ s t i, R s t → Matches R (step s i) (step' t i)) : ∀ (is : List ι) {s : σ} {t : τ}, R s t →
      (runs step s is).map Prod.snd = (runs step' t is).map Prod.snd
  | [], _, _, _ => rfl
  | i :: is, s, t, hR => by
    rcases h s t i hR with ⟨hs, ht⟩ | ⟨s', t', o, hs, ht, hR'⟩
    · simp [runs, hs, ht]
    · have ih := runs_matches h is hR'
      rw [runs, runs, hs, ht]
      cases hr : runs step s' is <;> cases hr' : runs step' t' is <;> simp_all

/-- A run that a relation between states, inputs and outputs allows step by step. -/
inductive Allowed (spec : τ → ι → ο → τ → Prop) : τ → List ι → List ο → τ → Prop where
  | nil {t : τ} : Allowed spec t [] [] t
  | cons {t t' t'' : τ} {i : ι} {is : List ι} {o : ο} {os : List ο} :
      spec t i o t' → Allowed spec t' is os t'' → Allowed spec t (i :: is) (o :: os) t''

/-- A machine that never faults, and does in each step what the relation allows. -/
theorem runs_allowed {step : σ → ι → Option (σ × ο)} {spec : τ → ι → ο → τ → Prop} {R : σ → τ → Prop}
    (h : ∀ s t i, R s t → ∃ s' o t', step s i = some (s', o) ∧ spec t i o t' ∧ R s' t') :
    ∀ (is : List ι) {s : σ} {t : τ}, R s t →
      ∃ s' os t', runs step s is = some (s', os) ∧ Allowed spec t is os t' ∧ R s' t'
  | [], s, t, hR => ⟨s, [], t, rfl, .nil, hR⟩
  | i :: is, s, t, hR => by
    obtain ⟨s₁, o, t₁, hs, hspec, hR₁⟩ := h s t i hR
    obtain ⟨s₂, os, t₂, hr, hallowed, hR₂⟩ := runs_allowed h is hR₁
    exact ⟨s₂, o :: os, t₂, runs_cons hs hr, .cons hspec hallowed, hR₂⟩

end Run

import Mathlib.Logic.Relation

/-! # Waiting relations

`R a b` reads "`a` waits for `b`". The parties on a cycle wait for each other. A step that only drops edges
closes no cycle; a step that adds one edge closes one exactly when its end already waits, directly or
through others, for its start; and a step that keeps every edge whose end waits itself keeps every cycle. -/

namespace WaitGraph
open Relation

variable {α : Type} {R R' : α → α → Prop}

/-- Some party waits, directly or through others, for itself. -/
def Cyclic (R : α → α → Prop) : Prop := ∃ a, TransGen R a a

theorem Cyclic.mono (h : ∀ a b, R a b → R' a b) : Cyclic R → Cyclic R' := by
  rintro ⟨a, ha⟩
  exact ⟨a, TransGen.mono h a a ha⟩

theorem Cyclic.of_loops {a b : α} (hab : R a b) (hba : ReflTransGen R b a) : Cyclic R :=
  ⟨a, TransGen.head' hab hba⟩

section Insert
variable {x y : α} (h : ∀ a b, R' a b ↔ R a b ∨ a = x ∧ b = y)
include h

/-- A path after the edge was added is a path from before, or one goes to the start of the edge and one
    comes from its end. -/
theorem path_insert {a b : α} (hab : TransGen R' a b) :
    TransGen R a b ∨ ReflTransGen R a x ∧ ReflTransGen R y b := by
  induction hab with
  | single hab =>
    rcases (h _ _).mp hab with hab | ⟨rfl, rfl⟩
    · exact .inl (.single hab)
    · exact .inr ⟨.refl, .refl⟩
  | tail _ hbc ih =>
    rcases (h _ _).mp hbc with hbc | ⟨rfl, rfl⟩
    · rcases ih with ih | ⟨hax, hyb⟩
      · exact .inl (ih.tail hbc)
      · exact .inr ⟨hax, hyb.tail hbc⟩
    · rcases ih with ih | ⟨hax, -⟩
      · exact .inr ⟨ih.to_reflTransGen, .refl⟩
      · exact .inr ⟨hax, .refl⟩

theorem cyclic_insert_iff (hR : ¬Cyclic R) : Cyclic R' ↔ ReflTransGen R y x := by
  have hle : ∀ a b, R a b → R' a b := fun a b hab => (h a b).mpr (.inl hab)
  constructor
  · rintro ⟨a, ha⟩
    rcases path_insert h ha with ha | ⟨hax, hya⟩
    · exact absurd ⟨a, ha⟩ hR
    · exact hya.trans hax
  · intro hyx
    exact .of_loops ((h x y).mpr (.inr ⟨rfl, rfl⟩)) (ReflTransGen.mono hle y x hyx)

end Insert

/-- Every party on a cycle waits for a party that waits itself. -/
theorem Cyclic.keep (h : ∀ a b d, R a b → R b d → R' a b) : Cyclic R → Cyclic R' := by
  rintro ⟨a, ha⟩
  have path : ∀ {b}, TransGen R a b → (∃ d, R b d) → TransGen R' a b := by
    intro b hab
    induction hab with
    | single hab =>
      rintro ⟨d, hd⟩
      exact .single (h _ _ d hab hd)
    | tail _ hbc ih =>
      rintro ⟨d, hd⟩
      exact (ih ⟨_, hbc⟩).tail (h _ _ d hbc hd)
  obtain ⟨d, hd, -⟩ := TransGen.head'_iff.mp ha
  exact ⟨a, path ha ⟨d, hd⟩⟩

end WaitGraph

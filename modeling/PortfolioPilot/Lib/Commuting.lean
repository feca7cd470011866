/-
# `Lib.Commuting` — runs whose steps may be taken in any order

A list of labels drives a step relation through a state (`Runs`).  Its labels may be
taken in any order, up to an equivalence `Same` of states, when two neighbours may
change places (`runs_perm`).  Neighbours need not commute everywhere: `Ready xs s` is
what makes the labels `xs`, from `s` on, independent of each other, and it may speak of
all that are still to come.

                Ready (x :: y :: xs) s
        s ──x──▶ ─ y ─▶ s'
        s ──y──▶ ─ x ─▶ s''         Same s' s''

Only neighbours are ever exchanged, so the induction is that of `List.Perm`, whose one
constructor with content is the exchange of two of them.
-/
import Mathlib.Data.List.Perm.Basic

namespace PortfolioPilot

/-- The labels, in order, lead from the first state to the second. -/
inductive Runs {X S : Type} (Step : X → S → S → Prop) : List X → S → S → Prop
  | nil {s : S} : Runs Step [] s s
  | cons {x : X} {xs : List X} {s m s' : S} :
      Step x s m → Runs Step xs m s' → Runs Step (x :: xs) s s'

/-- When the labels that are `Ready` commute up to `Same`. -/
structure Commuting {X S : Type} (Step : X → S → S → Prop) (Same : S → S → Prop)
    (Ready : List X → S → Prop) : Prop where
  refl : ∀ s, Same s s
  trans : ∀ {s t u}, Same s t → Same t u → Same s u
  /-- nothing in `Ready` is about the order -/
  perm : ∀ {xs ys s}, xs.Perm ys → Ready xs s → Ready ys s
  step : ∀ {x xs s s'}, Ready (x :: xs) s → Step x s s' → Ready xs s'
  same : ∀ {xs s t}, Ready xs s → Same s t → Ready xs t
  /-- a step cannot tell states that are the same apart -/
  follow : ∀ {x xs s s' t}, Ready (x :: xs) s → Step x s s' → Same s t →
    ∃ t', Step x t t' ∧ Same s' t'
  swap : ∀ {x y xs s m s'}, Ready (x :: y :: xs) s → Step x s m → Step y m s' →
    ∃ m' s'', Step y s m' ∧ Step x m' s'' ∧ Same s' s''

namespace Commuting

variable {X S : Type} {Step : X → S → S → Prop} {Same : S → S → Prop} {Ready : List X → S → Prop}

/-- A run from a state is matched from every state that is the same. -/
theorem runs_follow (hC : Commuting Step Same Ready) {xs : List X} {s s' : S}
    (h : Runs Step xs s s') :
    ∀ {t : S}, Ready xs s → Same s t → ∃ t', Runs Step xs t t' ∧ Same s' t' := by
  induction h with
  | nil =>
      intro t _ hsame
      exact ⟨t, .nil, hsame⟩
  | cons hstep _ ih =>
      intro t hready hsame
      obtain ⟨m', hstep', hm⟩ := hC.follow hready hstep hsame
      obtain ⟨t', hrest, hend⟩ := ih (hC.step hready hstep) hm
      exact ⟨t', .cons hstep' hrest, hend⟩

/-- **Any order will do.** -/
theorem runs_perm (hC : Commuting Step Same Ready) {xs ys : List X} (hp : xs.Perm ys) :
    ∀ {s s' : S}, Ready xs s → Runs Step xs s s' → ∃ s'', Runs Step ys s s'' ∧ Same s' s'' := by
  induction hp with
  | nil =>
      intro s s' _ hrun
      exact ⟨s', hrun, hC.refl s'⟩
  | cons x _ ih =>
      intro s s' hready hrun
      cases hrun with
      | cons hstep hrest =>
          obtain ⟨s'', hrun', hsame⟩ := ih (hC.step hready hstep) hrest
          exact ⟨s'', .cons hstep hrun', hsame⟩
  | swap x y xs =>
      intro s s' hready hrun
      cases hrun with
      | cons hy hrest =>
          cases hrest with
          | @cons _ _ _ m₂ _ hx hrest =>
              obtain ⟨m', m₂', hx', hy', hm⟩ := hC.swap hready hy hx
              have hready₂ : Ready xs m₂ := hC.step (hC.step hready hy) hx
              obtain ⟨s'', hrun', hsame⟩ := hC.runs_follow hrest hready₂ hm
              exact ⟨s'', .cons hx' (.cons hy' hrun'), hsame⟩
  | trans hxy _ ih₁ ih₂ =>
      intro s s' hready hrun
      obtain ⟨s₁, hrun₁, hsame₁⟩ := ih₁ hready hrun
      obtain ⟨s₂, hrun₂, hsame₂⟩ := ih₂ (hC.perm hxy hready) hrun₁
      exact ⟨s₂, hrun₂, hC.trans hsame₁ hsame₂⟩

end Commuting

/-- A permutation of the images is the image of a permutation. -/
theorem exists_perm_of_map {X Y : Type} {f : X → Y} {xs : List X} {ys : List Y}
    (h : (xs.map f).Perm ys) : ∃ xs', xs.Perm xs' ∧ xs'.map f = ys := by
  have himage : List.Forall₂ (fun y x => y = f x) (xs.map f) xs := by
    rw [List.forall₂_map_left_iff]
    exact List.forall₂_same.mpr fun _ _ => rfl
  obtain ⟨xs', hxs', hp⟩ := List.perm_comp_forall₂ h.symm himage
  have heq : List.Forall₂ (· = ·) ys (xs'.map f) := List.forall₂_map_right_iff.mpr hxs'
  rw [List.forall₂_eq_eq_eq] at heq
  exact ⟨xs', hp.symm, heq.symm⟩

end PortfolioPilot

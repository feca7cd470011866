/-
# `Lib.Revert` — computations that commit as a whole or revert

A contract call reads and writes a state and either runs to its end or is
undone.  `Revert ε σ α` is that: a state transformer over `Except ε`, so an
error keeps no part of the state written before it.

Two judgements are all the later modules use.

    Commits x s a s'    from `s` the computation `x` ends with value `a` in `s'`
    Reverts x s e       from `s` the computation `x` is undone with error `e`

Each construct of the language has one equivalence for each judgement, so a
call is inverted by rewriting and never by unfolding the monad.  `within g p x`
runs `x` on a part of a larger state.  `Raises E x` says that `x` is undone with
errors of `E` only; it is closed under sequencing and loops.
-/
import Mathlib.Logic.Basic

namespace PortfolioPilot

/-- A computation over a state `σ` that commits with a value or reverts with
an error `ε`. -/
abbrev Revert (ε σ : Type) : Type → Type := StateT σ (Except ε)

namespace Revert

variable {ε σ α β : Type}

/-- From `s`, `x` ends with value `a` in state `s'`. -/
def Commits (x : Revert ε σ α) (s : σ) (a : α) (s' : σ) : Prop :=
  x.run s = .ok (a, s')

/-- From `s`, `x` is undone with error `e`. -/
def Reverts (x : Revert ε σ α) (s : σ) (e : ε) : Prop :=
  x.run s = .error e

/-- `require!`: revert with `e` unless `p` holds. -/
def require (p : Prop) [Decidable p] (e : ε) : Revert ε σ Unit :=
  if p then pure () else throw e

/-- The value of an optional cell, or the error of reading an empty one. -/
def demand (o : Option α) (e : ε) : Revert ε σ α :=
  match o with
  | some a => pure a
  | none => throw e

/-! ## Runs that can be computed -/

/-- Whether `x` commits from `s`, in a state that passes `p`. -/
def check (x : Revert ε σ Unit) (s : σ) (p : σ → Bool) : Bool :=
  match x.run s with
  | .ok (_, s') => p s'
  | .error _ => false

/-- A run that was checked commits. -/
theorem exists_of_check {x : Revert ε σ Unit} {s : σ} {p : σ → Bool}
    (h : check x s p = true) : ∃ s', Commits x s () s' ∧ p s' = true := by
  unfold check at h
  cases hx : x.run s with
  | error e => rw [hx] at h; cases h
  | ok a => rw [hx] at h; exact ⟨a.2, hx, h⟩

/-! ## Inversion of committed runs -/

@[simp] theorem commits_pure {b : α} {s s' : σ} {a : α} :
    Commits (pure b : Revert ε σ α) s a s' ↔ a = b ∧ s' = s := by
  unfold Commits
  rw [StateT.run_pure]
  constructor
  · intro h; cases h; exact ⟨rfl, rfl⟩
  · rintro ⟨rfl, rfl⟩; rfl

@[simp] theorem commits_throw {e : ε} {s s' : σ} {a : α} :
    ¬ Commits (throw e : Revert ε σ α) s a s' := by
  intro h
  have h' : (Except.error e : Except ε (α × σ)) = .ok (a, s') := h
  cases h'

@[simp] theorem commits_bind {x : Revert ε σ α} {f : α → Revert ε σ β} {s s' : σ} {b : β} :
    Commits (x >>= f) s b s' ↔ ∃ a m, Commits x s a m ∧ Commits (f a) m b s' := by
  unfold Commits
  rw [StateT.run_bind]
  cases h : x.run s with
  | error e =>
      constructor
      · intro h'; cases h'
      · rintro ⟨_, _, h', _⟩; cases h'
  | ok p =>
      constructor
      · intro h'; exact ⟨p.1, p.2, rfl, h'⟩
      · rintro ⟨a, m, h', h''⟩
        have hp : p = (a, m) := by simpa using h'
        subst hp; exact h''

@[simp] theorem commits_map {x : Revert ε σ α} {f : α → β} {s s' : σ} {b : β} :
    Commits (f <$> x) s b s' ↔ ∃ a, Commits x s a s' ∧ b = f a := by
  rw [← bind_pure_comp, commits_bind]
  simp only [commits_pure]
  constructor
  · rintro ⟨a, _, h, rfl, rfl⟩; exact ⟨a, h, rfl⟩
  · rintro ⟨a, h, rfl⟩; exact ⟨a, s', h, rfl, rfl⟩

@[simp] theorem commits_get {s s' a : σ} :
    Commits (get : Revert ε σ σ) s a s' ↔ a = s ∧ s' = s := by
  simp [Commits, pure, Except.pure, eq_comm]

@[simp] theorem commits_set {t s s' : σ} {u : PUnit} :
    Commits (set t : Revert ε σ PUnit) s u s' ↔ s' = t := by
  simp [Commits, pure, Except.pure, eq_comm]

@[simp] theorem commits_modify {f : σ → σ} {s s' : σ} {u : PUnit} :
    Commits (modify f : Revert ε σ PUnit) s u s' ↔ s' = f s := by
  simp [Commits, pure, Except.pure, eq_comm]

@[simp] theorem commits_require {p : Prop} [Decidable p] {e : ε} {s s' : σ} {u : Unit} :
    Commits (require p e) s u s' ↔ p ∧ s' = s := by
  unfold require
  by_cases hp : p
  · rw [if_pos hp, commits_pure]; simp [hp]
  · rw [if_neg hp]
    exact ⟨fun h => absurd h commits_throw, fun h => absurd h.1 hp⟩

@[simp] theorem commits_demand {o : Option α} {e : ε} {s s' : σ} {a : α} :
    Commits (demand o e) s a s' ↔ o = some a ∧ s' = s := by
  cases o with
  | none => exact ⟨fun h => absurd h commits_throw, fun h => absurd h.1 (by simp)⟩
  | some b => rw [show demand (some b) e = (pure b : Revert ε σ α) from rfl, commits_pure]
              simp [eq_comm]

/-! ## Inversion of reverted runs -/

@[simp] theorem reverts_pure {b : α} {s : σ} {e : ε} :
    ¬ Reverts (pure b : Revert ε σ α) s e := by
  intro h
  have h' : (Except.ok (b, s) : Except ε (α × σ)) = .error e := h
  cases h'

@[simp] theorem reverts_throw {e e' : ε} {s : σ} :
    Reverts (throw e : Revert ε σ α) s e' ↔ e' = e := by
  constructor
  · intro h
    have h' : (Except.error e : Except ε (α × σ)) = .error e' := h
    cases h'; rfl
  · rintro rfl; rfl

@[simp] theorem reverts_bind {x : Revert ε σ α} {f : α → Revert ε σ β} {s : σ} {e : ε} :
    Reverts (x >>= f) s e ↔
      Reverts x s e ∨ ∃ a m, Commits x s a m ∧ Reverts (f a) m e := by
  unfold Reverts Commits
  rw [StateT.run_bind]
  cases h : x.run s with
  | error e' =>
      show (Except.error e' : Except ε (β × σ)) = .error e ↔ _
      constructor
      · intro h'; cases h'; exact Or.inl rfl
      · rintro (h' | ⟨_, _, h', _⟩)
        · cases h'; rfl
        · cases h'
  | ok p =>
      constructor
      · intro h'; exact Or.inr ⟨p.1, p.2, rfl, h'⟩
      · rintro (h' | ⟨a, m, h', h''⟩)
        · cases h'
        · have hp : p = (a, m) := by simpa using h'
          subst hp; exact h''

@[simp] theorem reverts_map {x : Revert ε σ α} {f : α → β} {s : σ} {e : ε} :
    Reverts (f <$> x) s e ↔ Reverts x s e := by
  rw [← bind_pure_comp, reverts_bind]
  simp

@[simp] theorem reverts_get {s : σ} {e : ε} : ¬ Reverts (get : Revert ε σ σ) s e := by
  intro h
  cases h

@[simp] theorem reverts_set {t s : σ} {e : ε} : ¬ Reverts (set t : Revert ε σ PUnit) s e := by
  intro h
  cases h

@[simp] theorem reverts_modify {f : σ → σ} {s : σ} {e : ε} :
    ¬ Reverts (modify f : Revert ε σ PUnit) s e := by
  intro h
  cases h

@[simp] theorem reverts_require {p : Prop} [Decidable p] {e e' : ε} {s : σ} :
    Reverts (require p e : Revert ε σ Unit) s e' ↔ ¬ p ∧ e' = e := by
  unfold require
  by_cases hp : p
  · rw [if_pos hp]
    exact ⟨fun h => absurd h reverts_pure, fun h => absurd hp h.1⟩
  · rw [if_neg hp, reverts_throw]; simp [hp]

@[simp] theorem reverts_demand {o : Option α} {e e' : ε} {s : σ} :
    Reverts (demand o e : Revert ε σ α) s e' ↔ o = none ∧ e' = e := by
  cases o with
  | none => rw [show demand none e = (throw e : Revert ε σ α) from rfl, reverts_throw]; simp
  | some b => exact ⟨fun h => absurd h reverts_pure, fun h => absurd h.1 (by simp)⟩

/-! ## Running on -/

/-- After a committed prefix, the run is that of the rest from where the prefix ended. -/
theorem run_bind_of_commits {x : Revert ε σ α} {f : α → Revert ε σ β} {s m : σ} {a : α}
    (h : Commits x s a m) : (x >>= f).run s = (f a).run m := by
  rw [StateT.run_bind, show x.run s = .ok (a, m) from h]
  rfl

/-! ## Loops -/

@[simp] theorem commits_forM_nil {f : α → Revert ε σ PUnit} {s s' : σ} {u : PUnit} :
    Commits (forM ([] : List α) f) s u s' ↔ s' = s := by
  rw [List.forM_nil, commits_pure]; simp

@[simp] theorem commits_forM_cons {x : α} {xs : List α} {f : α → Revert ε σ PUnit}
    {s s' : σ} {u : PUnit} :
    Commits (forM (x :: xs) f) s u s' ↔
      ∃ m, Commits (f x) s ⟨⟩ m ∧ Commits (forM xs f) m ⟨⟩ s' := by
  rw [List.forM_cons, commits_bind]
  constructor
  · intro h
    obtain ⟨_, m, h₁, h₂⟩ := h
    exact ⟨m, h₁, h₂⟩
  · intro h
    obtain ⟨m, h₁, h₂⟩ := h
    exact ⟨⟨⟩, m, h₁, h₂⟩

/-- A loop that is undone is undone in one of its iterations. -/
theorem split_of_reverts_forM {xs : List α} {f : α → Revert ε σ PUnit} {e : ε} :
    ∀ {s : σ}, Reverts (forM xs f) s e → ∃ done x rest m, xs = done ++ x :: rest ∧
      Commits (forM done f) s ⟨⟩ m ∧ Reverts (f x) m e := by
  induction xs with
  | nil =>
      intro s h
      rw [List.forM_nil] at h
      exact absurd h reverts_pure
  | cons x xs ih =>
      intro s h
      rw [List.forM_cons] at h
      rcases reverts_bind.mp h with h | ⟨_, m, hx, h⟩
      · exact ⟨[], x, xs, s, rfl, commits_forM_nil.mpr rfl, h⟩
      · obtain ⟨done, y, rest, m', rfl, hdone, hy⟩ := ih h
        exact ⟨x :: done, y, rest, m', rfl, commits_forM_cons.mpr ⟨m, hx, hdone⟩, hy⟩

theorem reverts_forM_of_split {done rest : List α} {x : α} {f : α → Revert ε σ PUnit} {m : σ}
    {e : ε} (hx : Reverts (f x) m e) :
    ∀ {s : σ}, Commits (forM done f) s ⟨⟩ m → Reverts (forM (done ++ x :: rest) f) s e := by
  induction done with
  | nil =>
      intro s h
      rw [commits_forM_nil] at h
      subst h
      rw [List.nil_append, List.forM_cons]
      exact reverts_bind.mpr (Or.inl hx)
  | cons y done ih =>
      intro s h
      obtain ⟨m', hy, h⟩ := commits_forM_cons.mp h
      rw [List.cons_append, List.forM_cons]
      exact reverts_bind.mpr (Or.inr ⟨⟨⟩, m', hy, ih h⟩)

/-! ## One of the two -/

theorem commits_or_reverts (x : Revert ε σ α) (s : σ) :
    (∃ a s', Commits x s a s') ∨ ∃ e, Reverts x s e := by
  cases h : x.run s with
  | error e => exact Or.inr ⟨e, h⟩
  | ok p => exact Or.inl ⟨p.1, p.2, h⟩

/-- A run that fails every check is undone. -/
theorem reverts_of_check {x : Revert ε σ Unit} {s : σ} (h : check x s (fun _ => true) = false) :
    ∃ e, Reverts x s e := by
  rcases commits_or_reverts x s with ⟨_, s', hx⟩ | hrev
  · have hc : check x s (fun _ => true) = true := by
      unfold check
      rw [hx]
    cases h.symm.trans hc
  · exact hrev

theorem not_commits_of_reverts {x : Revert ε σ α} {s s' : σ} {a : α} {e : ε}
    (h : Reverts x s e) : ¬ Commits x s a s' := by
  intro h'
  cases h.symm.trans h'

/-! ## A part of the state -/

/-- `x`, run on the part `g s` of the state; `p s t` puts the part `t` back. -/
def within {τ : Type} (g : σ → τ) (p : σ → τ → σ) (x : Revert ε τ α) : Revert ε σ α := fun s =>
  match x.run (g s) with
  | .ok (a, t) => .ok (a, p s t)
  | .error e => .error e

@[simp] theorem commits_within {τ : Type} {g : σ → τ} {p : σ → τ → σ} {x : Revert ε τ α}
    {s s' : σ} {a : α} :
    Commits (within g p x) s a s' ↔ ∃ t, Commits x (g s) a t ∧ s' = p s t := by
  unfold Commits
  show within g p x s = .ok (a, s') ↔ _
  unfold within
  cases h : x.run (g s) with
  | error e =>
      constructor
      · intro h'; cases h'
      · intro h'
        obtain ⟨_, h'', _⟩ := h'
        cases h''
  | ok q =>
      constructor
      · intro h'
        cases h'
        exact ⟨q.2, rfl, rfl⟩
      · intro h'
        obtain ⟨t, h'', rfl⟩ := h'
        cases h''; rfl

@[simp] theorem reverts_within {τ : Type} {g : σ → τ} {p : σ → τ → σ} {x : Revert ε τ α}
    {s : σ} {e : ε} : Reverts (within g p x) s e ↔ Reverts x (g s) e := by
  unfold Reverts
  show within g p x s = .error e ↔ _
  unfold within
  cases h : x.run (g s) with
  | error e' =>
      constructor
      · intro h'; cases h'; rfl
      · intro h'; cases h'; rfl
  | ok q =>
      constructor
      · intro h'; cases h'
      · intro h'; cases h'

/-! ## The errors of a computation -/

/-- `x` is undone with errors of `E` only. -/
def Raises (E : ε → Prop) (x : Revert ε σ α) : Prop :=
  ∀ ⦃s : σ⦄ ⦃e : ε⦄, Reverts x s e → E e

section Errors

variable {E : ε → Prop}

theorem Raises.pure {b : α} : Raises E (pure b : Revert ε σ α) :=
  fun _ _ h => absurd h reverts_pure

theorem Raises.get : Raises E (get : Revert ε σ σ) :=
  fun _ _ h => absurd h reverts_get

theorem Raises.set {t : σ} : Raises E (set t : Revert ε σ PUnit) :=
  fun _ _ h => absurd h reverts_set

theorem Raises.modify {f : σ → σ} : Raises E (modify f : Revert ε σ PUnit) :=
  fun _ _ h => absurd h reverts_modify

theorem Raises.require {p : Prop} [Decidable p] {e : ε} (he : E e) :
    Raises E (require p e : Revert ε σ Unit) := by
  intro s e' h
  rw [(reverts_require.mp h).2]
  exact he

theorem Raises.demand {o : Option α} {e : ε} (he : E e) :
    Raises E (demand o e : Revert ε σ α) := by
  intro s e' h
  rw [(reverts_demand.mp h).2]
  exact he

theorem Raises.bind {x : Revert ε σ α} {f : α → Revert ε σ β} (hx : Raises E x)
    (hf : ∀ a, Raises E (f a)) : Raises E (x >>= f) := by
  intro s e h
  rcases reverts_bind.mp h with h | ⟨a, m, _, h⟩
  · exact hx h
  · exact hf a h

theorem Raises.forM {xs : List α} {f : α → Revert ε σ PUnit} (hf : ∀ x, Raises E (f x)) :
    Raises E (forM xs f) := by
  induction xs with
  | nil => rw [List.forM_nil]; exact .pure
  | cons x xs ih => rw [List.forM_cons]; exact .bind (hf x) fun _ => ih

end Errors

end Revert

end PortfolioPilot

/-
# `Lib.Trace` — finite runs of a labelled transition system, with their history

A run from `s₀` is kept together with the list of the steps it took, oldest
first; each entry holds the state before the step, the label and the state
after it.  A statement about "every later state", "the latest accepted call" or
"the sum over the calls so far" is a statement about that list.

`Trace.induct` is the one rule the invariants go through: what holds at the
start, and is carried over one step whose entry meets `P`, holds at the end of
every run all of whose entries meet `P`.
-/
import Mathlib.Data.List.Basic

namespace PortfolioPilot

/-- One step of a run: the state before it, its label, the state after it. -/
structure Entry (S L : Type) where
  pre : S
  label : L
  post : S

/-- `Trace Step s₀ h s`: a run from `s₀` to `s` whose steps are `h`. -/
inductive Trace {S L : Type} (Step : S → L → S → Prop) (s₀ : S) :
    List (Entry S L) → S → Prop
  | nil : Trace Step s₀ [] s₀
  | snoc {h : List (Entry S L)} {s s' : S} {l : L} :
      Trace Step s₀ h s → Step s l s' → Trace Step s₀ (h ++ [⟨s, l, s'⟩]) s'

namespace Trace

variable {S L : Type} {Step : S → L → S → Prop} {s₀ s : S} {h : List (Entry S L)}

theorem append {h₂ : List (Entry S L)} {m : S} (t₁ : Trace Step s₀ h m)
    (t₂ : Trace Step m h₂ s) : Trace Step s₀ (h ++ h₂) s := by
  induction t₂ with
  | nil => rw [List.append_nil]; exact t₁
  | snoc _ hs ih => rw [← List.append_assoc]; exact ih.snoc hs

theorem single {l : L} {s' : S} (hs : Step s l s') : Trace Step s [⟨s, l, s'⟩] s' :=
  Trace.nil.snoc hs

/-- A run without steps stays where it is. -/
theorem eq_of_nil (t : Trace Step s₀ [] s) : s = s₀ := by
  generalize hh : ([] : List (Entry S L)) = h at t
  cases t with
  | nil => rfl
  | snoc _ _ => exact absurd hh.symm (List.append_ne_nil_of_right_ne_nil _ (List.cons_ne_nil _ _))

/-- The steps before an entry are a run to the state it starts in. -/
theorem prefix_of_append (t : Trace Step s₀ h s) :
    ∀ {h₁ h₂ : List (Entry S L)} {e : Entry S L}, h = h₁ ++ e :: h₂ →
      Trace Step s₀ h₁ e.pre ∧ Step e.pre e.label e.post := by
  induction t with
  | nil =>
      intro h₁ h₂ e hh
      exact absurd hh.symm (List.append_ne_nil_of_right_ne_nil _ (List.cons_ne_nil _ _))
  | @snoc h m s' l t hs ih =>
      intro h₁ h₂ e hh
      rcases List.eq_nil_or_concat h₂ with rfl | ⟨h₂', e', rfl⟩
      · obtain ⟨rfl, he⟩ := List.append_inj' hh rfl
        cases he
        exact ⟨t, hs⟩
      · rw [List.concat_eq_append, ← List.cons_append, ← List.append_assoc] at hh
        exact ih (List.append_inj' hh rfl).1

/-- The steps after an entry are a run from the state it ends in. -/
theorem suffix_of_append (t : Trace Step s₀ h s) :
    ∀ {h₁ h₂ : List (Entry S L)} {e : Entry S L}, h = h₁ ++ e :: h₂ →
      Trace Step e.post h₂ s := by
  induction t with
  | nil =>
      intro h₁ h₂ e hh
      exact absurd hh.symm (List.append_ne_nil_of_right_ne_nil _ (List.cons_ne_nil _ _))
  | @snoc h m s' l t hs ih =>
      intro h₁ h₂ e hh
      rcases List.eq_nil_or_concat h₂ with rfl | ⟨h₂', e', rfl⟩
      · obtain ⟨_, he⟩ := List.append_inj' hh rfl
        cases he
        exact .nil
      · rw [List.concat_eq_append, ← List.cons_append, ← List.append_assoc] at hh
        obtain ⟨hh', he'⟩ := List.append_inj' hh rfl
        cases he'
        rw [List.concat_eq_append]
        exact (ih hh').snoc hs

/-- A run that starts with the label `l` is a step with it and a run with the other labels. -/
theorem labels_cons {l : L} {ls : List L} :
    (∃ h, Trace Step s₀ h s ∧ h.map Entry.label = l :: ls) ↔
      ∃ m, Step s₀ l m ∧ ∃ h, Trace Step m h s ∧ h.map Entry.label = ls := by
  constructor
  · intro hrun
    obtain ⟨h, t, hl⟩ := hrun
    cases h with
    | nil => cases hl
    | cons e h =>
        obtain ⟨hle, hlh⟩ := List.cons.inj hl
        obtain ⟨t₁, hs⟩ := t.prefix_of_append (List.nil_append (e :: h)).symm
        have hstart : e.pre = s₀ := t₁.eq_of_nil
        rw [hle, hstart] at hs
        exact ⟨e.post, hs, h, t.suffix_of_append (List.nil_append (e :: h)).symm, hlh⟩
  · intro hrun
    obtain ⟨m, hs, h, t, hl⟩ := hrun
    refine ⟨_, (Trace.single hs).append t, ?_⟩
    exact congrArg (l :: ·) hl

/-- Around any of its entries a run splits into the run before it, the step,
and the run after it. -/
theorem split_of_mem (t : Trace Step s₀ h s) :
    ∀ e ∈ h, ∃ h₁ h₂, h = h₁ ++ e :: h₂ ∧ Trace Step s₀ h₁ e.pre ∧
      Step e.pre e.label e.post ∧ Trace Step e.post h₂ s := by
  induction t with
  | nil => intro e he; exact absurd he List.not_mem_nil
  | @snoc h m s' l t hs ih =>
      intro e he
      rcases List.mem_append.mp he with he | he
      · obtain ⟨h₁, h₂, rfl, t₁, hst, t₂⟩ := ih e he
        exact ⟨h₁, h₂ ++ [⟨m, l, s'⟩], by simp, t₁, hst, t₂.snoc hs⟩
      · have hee : e = ⟨m, l, s'⟩ := List.mem_singleton.mp he
        subst hee
        exact ⟨h, [], rfl, t, hs, .nil⟩

/-- The run rule, over states and the history that led to them. -/
theorem induct {P : Entry S L → Prop} {I : List (Entry S L) → S → Prop}
    (init : I [] s₀)
    (step : ∀ h s l s', Trace Step s₀ h s → I h s → P ⟨s, l, s'⟩ → Step s l s' →
      I (h ++ [⟨s, l, s'⟩]) s')
    (t : Trace Step s₀ h s) (hP : ∀ e ∈ h, P e) : I h s := by
  induction t with
  | nil => exact init
  | @snoc h m s' l t hs ih =>
      have hI : I h m := ih fun e he => hP e (List.mem_append_left _ he)
      exact step h m l s' t hI (hP _ (by simp)) hs

/-- The run rule for an invariant of single states. -/
theorem invariant {I : S → Prop} (init : I s₀)
    (step : ∀ s l s', I s → Step s l s' → I s') (t : Trace Step s₀ h s) : I s :=
  t.induct (P := fun _ => True) (I := fun _ s => I s) init
    (fun _ s l s' _ hI _ hs => step s l s' hI hs) (fun _ _ => trivial)

/-- A preorder kept by every step relates the two ends of a run. -/
theorem related {R : S → S → Prop} (hrefl : ∀ s, R s s)
    (htrans : ∀ a b c, R a b → R b c → R a c)
    (step : ∀ s l s', Step s l s' → R s s') (t : Trace Step s₀ h s) : R s₀ s :=
  t.invariant (I := R s₀) (hrefl s₀)
    (fun s l s' hI hs => htrans s₀ s s' hI (step s l s' hs))

end Trace

end PortfolioPilot

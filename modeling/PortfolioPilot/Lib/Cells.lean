/-
# `Lib.Cells` — a keyed table as the replay of its writes

A table `κ → ν` that is only ever written one cell at a time is the fold of its
list of writes.  Two disciplines read the list back: when no key is written
twice, every write is still in force; in general the last write to a key is.
-/
import Mathlib.Data.List.Induction
import Mathlib.Data.List.Nodup
import Mathlib.Logic.Function.Basic

namespace PortfolioPilot

namespace Cells

variable {κ ν : Type} [DecidableEq κ]

/-- The table after the writes `ws`, oldest first. -/
def replay (f : κ → ν) (ws : List (κ × ν)) : κ → ν :=
  ws.foldl (fun g w => Function.update g w.1 w.2) f

@[simp] theorem replay_nil (f : κ → ν) : replay f [] = f := rfl

@[simp] theorem replay_cons (f : κ → ν) (w : κ × ν) (ws : List (κ × ν)) :
    replay f (w :: ws) = replay (Function.update f w.1 w.2) ws := rfl

theorem replay_append (f : κ → ν) (ws₁ ws₂ : List (κ × ν)) :
    replay f (ws₁ ++ ws₂) = replay (replay f ws₁) ws₂ := by
  simp [replay, List.foldl_append]

theorem replay_concat (f : κ → ν) (ws : List (κ × ν)) (w : κ × ν) :
    replay f (ws ++ [w]) = Function.update (replay f ws) w.1 w.2 := by
  rw [replay_append]; rfl

/-- A cell that is not written keeps its value. -/
theorem replay_of_notMem {k : κ} {ws : List (κ × ν)} :
    ∀ {f : κ → ν}, k ∉ ws.map Prod.fst → replay f ws k = f k := by
  induction ws with
  | nil =>
      intro f _
      rfl
  | cons w ws ih =>
      intro f h
      simp only [List.map_cons, List.mem_cons, not_or] at h
      rw [replay_cons, ih h.2, Function.update_of_ne h.1]

/-- The last write to a cell is the one in force. -/
theorem replay_last {f : κ → ν} {ws₁ ws₂ : List (κ × ν)} {k : κ} {v : ν}
    (h : k ∉ ws₂.map Prod.fst) : replay f (ws₁ ++ (k, v) :: ws₂) k = v := by
  rw [replay_append, replay_cons, replay_of_notMem h, Function.update_self]

/-- When no key is written twice, every write is in force. -/
theorem replay_of_nodup {f : κ → ν} {ws : List (κ × ν)} {k : κ} {v : ν}
    (hn : (ws.map Prod.fst).Nodup) (hm : (k, v) ∈ ws) : replay f ws k = v := by
  obtain ⟨ws₁, ws₂, rfl⟩ := List.append_of_mem hm
  refine replay_last ?_
  rw [List.map_append, List.map_cons] at hn
  exact (List.nodup_cons.mp (List.nodup_append.mp hn).2.1).1

/-- A written cell holds the value of one of its writes. -/
theorem replay_mem {f : κ → ν} {ws : List (κ × ν)} {k : κ} (h : k ∈ ws.map Prod.fst) :
    (k, replay f ws k) ∈ ws := by
  induction ws using List.reverseRecOn with
  | nil => exact absurd h List.not_mem_nil
  | append_singleton ws w ih =>
      rw [replay_concat]
      by_cases hk : k = w.1
      · subst hk
        rw [Function.update_self]
        simp
      · have h' : k ∈ ws.map Prod.fst := by simpa [hk] using h
        rw [Function.update_of_ne hk]
        exact List.mem_append_left _ (ih h')

/-- When only non-empty values are written to an empty table, the non-empty
cells are those that were written. -/
theorem replay_ne_iff {e : ν} {ws : List (κ × ν)} (hne : ∀ w ∈ ws, w.2 ≠ e) {k : κ} :
    replay (fun _ => e) ws k ≠ e ↔ k ∈ ws.map Prod.fst := by
  constructor
  · intro h
    by_contra hk
    exact h (replay_of_notMem hk)
  · intro h
    exact hne _ (replay_mem h)

/-- A table kept under other keys, no two of which are the same, is read back under them. -/
theorem replay_map {κ' : Type} [DecidableEq κ'] {f : κ → κ'} (hf : Function.Injective f)
    (ws : List (κ × ν)) (k : κ) :
    ∀ g : κ' → ν, replay g (ws.map fun w => (f w.1, w.2)) (f k) = replay (fun k => g (f k)) ws k := by
  induction ws with
  | nil =>
      intro g
      rfl
  | cons w ws ih =>
      intro g
      have hupdate : (fun k => Function.update g (f w.1) w.2 (f k)) =
          Function.update (fun k => g (f k)) w.1 w.2 :=
        Function.update_comp_eq_of_injective g hf w.1 w.2
      rw [List.map_cons, replay_cons, replay_cons, ih, hupdate]

end Cells

end PortfolioPilot

import Mathlib.Data.List.Perm.Basic
import Mathlib.Tactic

/-! Interleavings of sequences: each keeps its own order, and nothing else is fixed. -/

/-- The sequences run to their ends, one element at a time from any of them. -/
inductive Interleaving {α : Type*} : List (List α) → List α → Prop
  | done {ls : List (List α)} (h : ∀ l ∈ ls, l = []) : Interleaving ls []
  | next {before after : List (List α)} {a : α} {l m : List α}
      (h : Interleaving (before ++ l :: after) m) : Interleaving (before ++ (a :: l) :: after) (a :: m)

namespace Interleaving

variable {α : Type*} {ls ls' : List (List α)} {l m : List α}

theorem perm (h : Interleaving ls m) : m.Perm ls.flatten := by
  induction h with
  | done h =>
    rw [List.flatten_eq_nil_iff.mpr h]
  | @next before after a l m _ ih =>
    rw [List.flatten_append, List.flatten_cons] at ih ⊢
    exact (ih.cons a).trans List.perm_middle.symm

/-- The order in which the sequences are listed does not matter. -/
theorem of_perm (h : Interleaving ls m) (hp : ls.Perm ls') : Interleaving ls' m := by
  induction h generalizing ls' with
  | done h => exact .done fun l hl => h l (hp.mem_iff.mpr hl)
  | @next before after a l m _ ih =>
    obtain ⟨before', after', rfl⟩ :=
      List.append_of_mem (hp.mem_iff.mp (List.mem_append_right before List.mem_cons_self))
    have hrest : (before ++ after).Perm (before' ++ after') :=
      ((List.perm_middle.symm.trans hp).trans List.perm_middle).cons_inv
    exact .next (ih ((List.perm_middle.trans (hrest.cons l)).trans List.perm_middle.symm))

theorem cons_nil (h : Interleaving ls m) : Interleaving ([] :: ls) m := by
  induction h with
  | done h => exact .done (List.forall_mem_cons.mpr ⟨rfl, h⟩)
  | @next before after a l m _ ih => exact @next _ ([] :: before) after a l m ih

/-- One sequence runs to its end before the others start. -/
theorem cons_append (h : Interleaving ls m) (l : List α) : Interleaving (l :: ls) (l ++ m) := by
  induction l with
  | nil => exact h.cons_nil
  | cons a l ih => exact @next _ [] ls a l (l ++ m) ih

/-- The sequences one after the other. -/
theorem flatten (ls : List (List α)) : Interleaving ls ls.flatten := by
  induction ls with
  | nil => exact .done fun _ h => absurd h List.not_mem_nil
  | cons l ls ih => exact ih.cons_append l

/-- Any of the sequences may be the last to run. -/
theorem exists_last (h : l ∈ ls) : ∃ m, Interleaving ls (m ++ l) := by
  obtain ⟨before, after, rfl⟩ := List.append_of_mem h
  refine ⟨(before ++ after).flatten, ?_⟩
  have hp : (before ++ after ++ [l]).Perm (before ++ l :: after) :=
    (List.perm_append_singleton l (before ++ after)).trans List.perm_middle.symm
  have hm := (flatten (before ++ after ++ [l])).of_perm hp
  rwa [List.flatten_append, List.flatten_singleton] at hm

end Interleaving

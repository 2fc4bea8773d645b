import Mathlib.Data.List.Sort
import Mathlib.Order.Basic
import Mathlib.Tactic

/-! The first elements of a list in decreasing order, told by how many are greater; and when taking them and then
those that meet a condition gives the first of those that meet it. -/

namespace Ranking

variable {α : Type} [LinearOrder α]

/-- How many elements are greater. -/
def rank (l : List α) (a : α) : ℕ := (l.filter fun b => decide (a < b)).length

theorem rank_perm {l l' : List α} (h : l.Perm l') (a : α) : rank l a = rank l' a := (h.filter _).length_eq

theorem rank_filter_le (p : α → Bool) (l : List α) (a : α) : rank (l.filter p) a ≤ rank l a :=
  (List.filter_sublist.filter _).length_le

theorem rank_anti {l : List α} {a b : α} (h : a ≤ b) : rank l b ≤ rank l a := by
  refine (List.monotone_filter_right l fun c hc => ?_).length_le
  rw [decide_eq_true_eq] at hc ⊢
  exact lt_of_le_of_lt h hc

theorem mem_take_iff {l : List α} (hl : l.Pairwise fun a b => b < a) {n : ℕ} {a : α} :
    a ∈ l.take n ↔ a ∈ l ∧ rank l a < n := by
  induction l generalizing n with
  | nil => simp
  | cons x l ih =>
    obtain ⟨hx, hl⟩ := List.pairwise_cons.mp hl
    cases n with
    | zero => simp
    | succ n =>
      rw [List.take_succ_cons, List.mem_cons, List.mem_cons, ih hl]
      by_cases ha : a = x
      · subst ha
        have hfirst : rank (a :: l) a = 0 := by
          rw [rank, List.length_eq_zero_iff, List.filter_eq_nil_iff]
          intro b hb
          rcases List.mem_cons.mp hb with rfl | hb
          · simp
          · simpa using (hx b hb).le
        simp [hfirst]
      · have hnext : a ∈ l → rank (x :: l) a = rank l a + 1 := by
          intro hmem
          rw [rank, List.filter_cons_of_pos (by simpa using hx a hmem), List.length_cons, rank]
        constructor
        · intro h
          obtain ⟨hmem, hlt⟩ := h.resolve_left ha
          exact ⟨.inr hmem, by rw [hnext hmem]; omega⟩
        · intro h
          have hmem := h.1.resolve_left ha
          have hlt := h.2
          rw [hnext hmem] at hlt
          exact .inr ⟨hmem, by omega⟩

section First

variable {l : List α} {p : α → Bool} {n : ℕ}

/-- If any that meets `p` comes after the first `n`, then so does a greatest one. -/
theorem exists_greatest_after (hl : l.Pairwise fun a b => b < a) {a : α} (ha : a ∈ l.filter p) (hn : n ≤ rank l a) :
    ∃ m ∈ l.filter p, n ≤ rank l m ∧ ∀ c ∈ l.filter p, m < c → rank l c < n := by
  have hne : (l.filter p).filter (fun c => decide (n ≤ rank l c)) ≠ [] :=
    List.ne_nil_of_mem (List.mem_filter.mpr ⟨ha, decide_eq_true hn⟩)
  obtain ⟨m, ms, hms⟩ := List.exists_cons_of_ne_nil hne
  have hm : m ∈ (l.filter p).filter (fun c => decide (n ≤ rank l c)) := by
    rw [hms]
    exact List.mem_cons_self
  obtain ⟨hmp, hmn⟩ := List.mem_filter.mp hm
  refine ⟨m, hmp, of_decide_eq_true hmn, fun c hc hmc => ?_⟩
  by_contra hcn
  have hcm : c ∈ m :: ms := by
    rw [← hms]
    exact List.mem_filter.mpr ⟨hc, decide_eq_true (not_lt.mp hcn)⟩
  have hsorted := (hl.sublist List.filter_sublist).sublist
    (List.filter_sublist : ((l.filter p).filter fun c => decide (n ≤ rank l c)).Sublist _)
  rw [hms] at hsorted
  rcases List.mem_cons.mp hcm with rfl | hcm
  · exact lt_irrefl _ hmc
  · exact lt_asymm hmc ((List.pairwise_cons.mp hsorted).1 c hcm)

/-- A greatest one that meets `p` after the first `n` is among the first `n` that meet it, if one of the first `n`
does not. -/
theorem rank_filter_lt (hl : l.Pairwise fun a b => b < a) {m b : α} (hm : ∀ c ∈ l.filter p, m < c → rank l c < n)
    (hb : b ∈ l) (hpb : p b = false) (hbn : rank l b < n) : rank (l.filter p) m < n := by
  have hsub : b :: (l.filter p).filter (fun c => decide (m < c)) ⊆ l.take n := by
    intro c hc
    rcases List.mem_cons.mp hc with rfl | hc
    · exact (mem_take_iff hl).mpr ⟨hb, hbn⟩
    · obtain ⟨hcp, hmc⟩ := List.mem_filter.mp hc
      exact (mem_take_iff hl).mpr ⟨(List.mem_filter.mp hcp).1, hm c hcp (of_decide_eq_true hmc)⟩
  have hnodup : l.Nodup := hl.imp fun h => h.ne'
  have hnd : (b :: (l.filter p).filter (fun c => decide (m < c))).Nodup := by
    refine List.nodup_cons.mpr ⟨fun hbm => ?_, (hnodup.filter _).filter _⟩
    have hbp := (List.mem_filter.mp (List.mem_filter.mp hbm).1).2
    rw [hpb] at hbp
    cases hbp
  have hlen := (hnd.subperm hsub).length_le
  rw [List.length_cons, List.length_take] at hlen
  unfold rank
  omega

/-- Where the first `n` all meet `p`, they are the first `n` that meet it. -/
theorem le_rank_filter (hl : l.Pairwise fun a b => b < a) {a : α} (ha : n ≤ rank l a)
    (hall : ∀ c ∈ l, rank l c < n → p c = true) : n ≤ rank (l.filter p) a := by
  have hsub : l.take n ⊆ (l.filter p).filter (fun c => decide (a < c)) := by
    intro c hc
    obtain ⟨hcl, hcn⟩ := (mem_take_iff hl).mp hc
    have hac : a < c := by
      by_contra hca
      exact absurd (rank_anti (l := l) (not_lt.mp hca)) (by omega)
    exact List.mem_filter.mpr ⟨List.mem_filter.mpr ⟨hcl, hall c hcl hcn⟩, decide_eq_true hac⟩
  have hnodup : l.Nodup := hl.imp fun h => h.ne'
  have hlen := ((hnodup.sublist (List.take_sublist n l)).subperm hsub).length_le
  have hlong : rank l a ≤ l.length := List.length_filter_le _ _
  rw [List.length_take] at hlen
  unfold rank at ha hlong ⊢
  omega

/-- The first `n` that meet `p` are among the first `n` exactly if none of the first `n` fails `p` while one that
meets it comes after them. -/
theorem filter_first_iff (hl : l.Pairwise fun a b => b < a) (p : α → Bool) (n : ℕ) :
    (∀ a ∈ l.filter p, rank (l.filter p) a < n → rank l a < n) ↔
      ∀ a ∈ l.filter p, ∀ b ∈ l, p b = false → ¬ (rank l b < n ∧ n ≤ rank l a) := by
  constructor
  · intro h a ha b hb hpb hab
    obtain ⟨m, hmp, hmn, hgreatest⟩ := exists_greatest_after hl ha hab.2
    have hrank := rank_filter_lt hl hgreatest hb hpb hab.1
    exact absurd (h m hmp hrank) (not_lt.mpr hmn)
  · intro h a ha hlt
    by_contra hge
    refine absurd (le_rank_filter hl (not_lt.mp hge) fun c hcl hcn => ?_) (not_le.mpr hlt)
    by_contra hpc
    exact h a ha c hcl (by simpa using hpc) ⟨hcn, not_lt.mp hge⟩

end First

end Ranking

import Mathlib.Data.List.Infix
import Mathlib.Tactic

/-! Regular expressions made of literal text, captured runs `(.+)` and `(.+?)`, and `$`, matched at the start of a
text by backtracking. All the ways a pattern matches are listed in the order in which they are tried. -/

namespace Regex

inductive Item
  | lit (p : List Char)
  /-- `(.+)` -/
  | greedy
  /-- `(.+?)` -/
  | reluctant
  /-- the end of the text, or before the line feed that ends it -/
  | dollar
  deriving DecidableEq

/-- The ways `.+` takes a run of characters from a text, shortest first. It does not take a line feed. -/
def splits : List Char → List (List Char × List Char)
  | [] => []
  | c :: s => if c = '\n' then [] else ([c], s) :: (splits s).map fun p => (c :: p.1, p.2)

/-- The captures of every way in which the pattern matches, in the order in which they are tried. -/
def ways : List Item → List Char → List (List (List Char))
  | [], _ => [[]]
  | .lit p :: is, s => if p <+: s then ways is (s.drop p.length) else []
  | .greedy :: is, s => (splits s).reverse.flatMap fun p => (ways is p.2).map (p.1 :: ·)
  | .reluctant :: is, s => (splits s).flatMap fun p => (ways is p.2).map (p.1 :: ·)
  | .dollar :: is, s => if s = [] ∨ s = ['\n'] then ways is s else []

/-- What a match from the start of the text captures: the first way is taken. -/
def captures (is : List Item) (s : List Char) : Option (List (List Char)) := (ways is s).head?

variable {is : List Item} {s : List Char} {gs : List (List Char)}

theorem cons_mem_splits {c d : Char} {g t : List Char} :
    (d :: g, t) ∈ splits (c :: s) ↔ c ≠ '\n' ∧ d = c ∧ (g = [] ∧ t = s ∨ (g, t) ∈ splits s) := by
  rw [splits]
  split_ifs with hc
  · simp [hc]
  · simp only [List.mem_cons, List.mem_map, Prod.mk.injEq, List.cons.injEq, Prod.exists]
    constructor
    · rintro (⟨⟨rfl, rfl⟩, rfl⟩ | ⟨g', t', hp, ⟨rfl, rfl⟩, rfl⟩)
      · exact ⟨hc, rfl, .inl ⟨rfl, rfl⟩⟩
      · exact ⟨hc, rfl, .inr hp⟩
    · rintro ⟨-, rfl, ⟨rfl, rfl⟩ | hp⟩
      · exact .inl ⟨⟨rfl, rfl⟩, rfl⟩
      · exact .inr ⟨g, t, hp, ⟨rfl, rfl⟩, rfl⟩

theorem fst_ne_nil_of_mem_splits {p : List Char × List Char} (h : p ∈ splits s) : p.1 ≠ [] := by
  cases s with
  | nil => simp [splits] at h
  | cons c s =>
    rw [splits] at h
    split_ifs at h
    · simp at h
    · simp only [List.mem_cons, List.mem_map] at h
      rcases h with rfl | ⟨q, -, rfl⟩ <;> simp

/-- `.+` takes any run of characters of the line, but the empty one. -/
theorem mem_splits {g t : List Char} : (g, t) ∈ splits s ↔ s = g ++ t ∧ g ≠ [] ∧ '\n' ∉ g := by
  induction s generalizing g with
  | nil =>
    refine iff_of_false (by simp [splits]) ?_
    rintro ⟨h, hg, -⟩
    exact hg (List.append_eq_nil_iff.mp h.symm).1
  | cons c s ih =>
    cases g with
    | nil => exact iff_of_false (fun h => fst_ne_nil_of_mem_splits h rfl) (by simp)
    | cons d g =>
      rw [cons_mem_splits, ih]
      constructor
      · rintro ⟨hc, rfl, ⟨rfl, rfl⟩ | ⟨rfl, -, hn⟩⟩
        · exact ⟨rfl, by simp, by simpa [eq_comm] using hc⟩
        · exact ⟨rfl, by simp, by simpa [eq_comm, hc] using hn⟩
      · rintro ⟨hs, -, hn⟩
        obtain ⟨rfl, rfl⟩ := List.cons.inj hs
        obtain ⟨hc, hn⟩ := not_or.mp (List.mem_cons.not.mp hn)
        refine ⟨Ne.symm hc, rfl, ?_⟩
        by_cases hg : g = []
        · exact .inl ⟨hg, by rw [hg]; rfl⟩
        · exact .inr ⟨rfl, hg, hn⟩

/-- The runs are taken in the order of their lengths. -/
theorem splits_sorted (s : List Char) : (splits s).Pairwise fun p q => p.1.length < q.1.length := by
  induction s with
  | nil => exact List.Pairwise.nil
  | cons c s ih =>
    rw [splits]
    split_ifs
    · exact List.Pairwise.nil
    · refine List.pairwise_cons.mpr ⟨fun q hq => ?_, List.pairwise_map.mpr (ih.imp fun h => ?_)⟩
      · obtain ⟨p, hp, rfl⟩ := List.mem_map.mp hq
        have := List.length_pos_of_ne_nil (fst_ne_nil_of_mem_splits hp)
        simp only [List.length_cons, List.length_nil]
        omega
      · simp only [List.length_cons]
        omega

theorem mem_ways_lit {p : List Char} : gs ∈ ways (.lit p :: is) s ↔ ∃ t, s = p ++ t ∧ gs ∈ ways is t := by
  rw [ways]
  split_ifs with h
  · obtain ⟨t, rfl⟩ := h
    simp
  · refine iff_of_false (by simp) ?_
    rintro ⟨t, rfl, -⟩
    exact h (List.prefix_append p t)

theorem mem_ways_run {ps : List (List Char × List Char)} (hps : ∀ p, p ∈ ps ↔ p ∈ splits s) :
    gs ∈ (ps.flatMap fun p => (ways is p.2).map (p.1 :: ·)) ↔
      ∃ g t gs', s = g ++ t ∧ g ≠ [] ∧ '\n' ∉ g ∧ gs = g :: gs' ∧ gs' ∈ ways is t := by
  simp only [List.mem_flatMap, List.mem_map, Prod.exists, hps, mem_splits]
  constructor
  · rintro ⟨g, t, ⟨hs, hg, hn⟩, gs', hgs, rfl⟩
    exact ⟨g, t, gs', hs, hg, hn, rfl, hgs⟩
  · rintro ⟨g, t, gs', hs, hg, hn, rfl, hgs⟩
    exact ⟨g, t, ⟨hs, hg, hn⟩, gs', hgs, rfl⟩

theorem mem_ways_greedy : gs ∈ ways (.greedy :: is) s ↔
    ∃ g t gs', s = g ++ t ∧ g ≠ [] ∧ '\n' ∉ g ∧ gs = g :: gs' ∧ gs' ∈ ways is t :=
  mem_ways_run fun _ => List.mem_reverse

theorem mem_ways_reluctant : gs ∈ ways (.reluctant :: is) s ↔
    ∃ g t gs', s = g ++ t ∧ g ≠ [] ∧ '\n' ∉ g ∧ gs = g :: gs' ∧ gs' ∈ ways is t :=
  mem_ways_run fun _ => Iff.rfl

theorem mem_ways_dollar : gs ∈ ways [.dollar] s ↔ (s = [] ∨ s = ['\n']) ∧ gs = [] := by
  rw [ways]
  split_ifs with h <;> simp [h, ways]

theorem captures_mem (h : captures is s = some gs) : gs ∈ ways is s := List.mem_of_head? h

theorem captures_eq_none : captures is s = none ↔ ∀ gs, gs ∉ ways is s := by
  rw [captures, List.head?_eq_none_iff, List.eq_nil_iff_forall_not_mem]

/-- A reluctant run is the shortest that lets the rest match. -/
theorem captures_reluctant_le {p g g' : List Char} {gs' : List (List Char)}
    (h : captures (.lit p :: .reluctant :: is) s = some (g :: gs))
    (h' : g' :: gs' ∈ ways (.lit p :: .reluctant :: is) s) : g.length ≤ g'.length := by
  have sorted : (ways (.lit p :: .reluctant :: is) s).Pairwise
      fun a b => (a.headD []).length ≤ (b.headD []).length := by
    rw [ways]
    split_ifs
    · rw [ways]
      refine List.pairwise_flatMap.mpr ⟨fun q _ => List.pairwise_map.mpr ?_, (splits_sorted _).imp fun hq => ?_⟩
      · exact List.pairwise_of_forall fun _ _ => le_rfl
      · intro a ha b hb
        obtain ⟨-, -, rfl⟩ := List.mem_map.mp ha
        obtain ⟨-, -, rfl⟩ := List.mem_map.mp hb
        exact hq.le
    · exact List.Pairwise.nil
  obtain ⟨rest, hrest⟩ := List.head?_eq_some_iff.mp h
  rw [hrest] at sorted h'
  rcases List.mem_cons.mp h' with heq | hmem
  · rw [(List.cons.inj heq).1]
  · exact (List.pairwise_cons.mp sorted).1 _ hmem

end Regex

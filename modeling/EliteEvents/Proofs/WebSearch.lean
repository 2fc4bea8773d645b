import Mathlib.Data.List.DropRight
import EliteEvents.Proofs.Search
import EliteEvents.Spec.WebSearch

/-! A search as a page and as a fragment: what each shows of the other, what the address a fragment leaves behind
brings up again, and which names an address can stand for. -/

namespace EliteEvents

open Text

/-! Trimmed text. -/

theorem stringTrim_eq (s : Str) : stringTrim s = (s.dropWhile isWhiteSpace).rdropWhile isWhiteSpace := rfl

theorem dropWhile_stringTrim (s : Str) : (stringTrim s).dropWhile isWhiteSpace = stringTrim s := by
  obtain ⟨rest, hrest⟩ := List.rdropWhile_prefix isWhiteSpace (l := s.dropWhile isWhiteSpace)
  rw [← stringTrim_eq] at hrest
  cases ht : stringTrim s with
  | nil => rfl
  | cons c t =>
    have hc : ¬isWhiteSpace c := by
      rw [ht, List.cons_append] at hrest
      intro hc
      have hdrop := List.dropWhile_idempotent (p := isWhiteSpace) s
      rw [← hrest, List.dropWhile_cons_of_pos hc] at hdrop
      have hlen := congrArg List.length hdrop
      have hle := (List.dropWhile_suffix isWhiteSpace (l := t ++ rest)).length_le
      simp only [List.length_cons] at hlen
      omega
    rw [List.dropWhile_cons_of_neg hc]

@[simp] theorem stringTrim_stringTrim (s : Str) : stringTrim (stringTrim s) = stringTrim s := by
  rw [stringTrim_eq (stringTrim s), dropWhile_stringTrim, stringTrim_eq, List.rdropWhile_idempotent]

/-- What is left of a text by trimming is not white space. -/
theorem all_isWhiteSpace_stringTrim {s : Str} (h : stringTrim s ≠ []) : (stringTrim s).all isWhiteSpace = false := by
  by_contra hall
  rw [Bool.not_eq_false] at hall
  exact h ((stringTrim_stringTrim s).symm.trans (stringTrim_of_white hall))

theorem all_isWhiteSpace_iff {s : Str} : s.all isWhiteSpace = true ↔ stringTrim s = [] := by
  refine ⟨stringTrim_of_white, fun h => ?_⟩
  rw [stringTrim_eq, List.rdropWhile_eq_nil_iff] at h
  have hdrop : s.dropWhile isWhiteSpace = [] := by
    cases hd : s.dropWhile isWhiteSpace with
    | nil => rfl
    | cons c t =>
      have hne : s.dropWhile isWhiteSpace ≠ [] := by simp [hd]
      have hc := List.head_dropWhile_not isWhiteSpace hne
      rw [h _ (List.head_mem hne)] at hc
      cases hc
  rw [List.all_eq_true]
  exact List.dropWhile_eq_nil_iff.mp hdrop

/-! Addresses. -/

theorem utf8_wire (s : Str) : utf8 (wire s) = utf8 s := by
  rw [utf8, wire, scalars_ofChars, utf8]

theorem escapeDataString_inj {a b : Str} :
    Uri.escapeDataString a = Uri.escapeDataString b ↔ wire a = wire b := by
  constructor
  · intro h
    have hbytes := PercentEncoding.encode_injective (by decide) h
    rw [← utf8_wire a, ← utf8_wire b] at hbytes
    exact utf8_inj (wellFormed_wire a) (wellFormed_wire b) hbytes
  · intro h
    rw [Uri.escapeDataString, Uri.escapeDataString, ← utf8_wire a, ← utf8_wire b, h]

namespace Search

variable {S : Search} {getMatching : Str → Except ReadError (List Str)}

theorem address_inj {a b : Str} : S.address a = S.address b ↔ wire a = wire b := by
  rw [address, address, List.append_cancel_left_eq, List.append_cancel_left_eq, escapeDataString_inj]

end Search

/-- The query a card shows. -/
def ResultsView.query : ResultsView → Option Str
  | .alert _ | .blank => none
  | .noneFound query | .found query _ => some query

/-- The card with this query in the place of the one it shows. -/
def ResultsView.showing (q : Str) : ResultsView → ResultsView
  | .alert message => .alert message
  | .blank => .blank
  | .noneFound _ => .noneFound q
  | .found _ links => .found q links

/-- What a response to htmx is as a page of its own. -/
def SearchResponse.asPage (q : Str) : SearchResponse → SearchResponse
  | .results view _ => .results (view.showing q) none
  | .navigate location => .navigate location

theorem ResultsView.showing_eq_self {q : Str} {v : ResultsView} :
    v.showing q = v ↔ v.query = none ∨ v.query = some q := by
  cases v <;> simp [showing, query, eq_comm]

namespace Search

variable {S : Search} {getMatching : Str → Except ReadError (List Str)}

theorem view_shown {q : Str} (hq : q.all isWhiteSpace = false) (names : List Str) :
    S.view (some q) (some names) none =
      if names = [] then .noneFound q else .found q (names.map fun name => ⟨S.link name, name⟩) := by
  cases names <;> simp [view, hq]

/-- A page that is not redirected shows the fragment's card, with the query as it came. -/
theorem page_eq (q : Str) : S.page getMatching (some q) = (S.fragment getMatching (some q)).asPage q := by
  unfold page fragment
  simp only [Option.map_some, Option.getD_some]
  by_cases hempty : stringTrim q = []
  · have hwhite := all_isWhiteSpace_iff.mpr hempty
    simp [hempty, view, hwhite, SearchResponse.asPage, ResultsView.showing]
  · have hq : q.all isWhiteSpace = false := by
      rw [← Bool.not_eq_true, all_isWhiteSpace_iff]
      exact hempty
    have ht := all_isWhiteSpace_stringTrim hempty
    rw [if_neg hempty, if_neg hempty]
    split_ifs
    · rfl
    · rcases getMatching (stringTrim q) with e | _ | ⟨name, _ | ⟨name', names⟩⟩
      · rfl
      · simp [view_shown hq, view_shown ht, SearchResponse.asPage, ResultsView.showing]
      · rfl
      · simp [view_shown hq, view_shown ht, SearchResponse.asPage, ResultsView.showing]

theorem fragment_stringTrim (q : Str) :
    S.fragment getMatching (some (stringTrim q)) = S.fragment getMatching (some q) := by
  unfold fragment
  simp only [Option.map_some, Option.getD_some, stringTrim_stringTrim]

/-- A fragment shows the trimmed query, if any. -/
theorem fragment_query {q : Str} {v : ResultsView} {url : Option Str}
    (h : S.fragment getMatching (some q) = .results v url) :
    (v.query = none ∨ v.query = some (stringTrim q)) ∧ (url = none ∨ url = some (S.address (stringTrim q))) := by
  unfold fragment at h
  simp only [Option.map_some, Option.getD_some] at h
  split_ifs at h with hempty hshort
  · obtain ⟨rfl, rfl⟩ := SearchResponse.results.inj h
    exact ⟨.inl rfl, .inl rfl⟩
  · obtain ⟨rfl, rfl⟩ := SearchResponse.results.inj h
    exact ⟨.inl rfl, .inl rfl⟩
  · have ht := all_isWhiteSpace_stringTrim hempty
    rcases hg : getMatching (stringTrim q) with e | _ | ⟨name, _ | ⟨name', names⟩⟩ <;> simp only [hg] at h
    · obtain ⟨rfl, rfl⟩ := SearchResponse.results.inj h
      exact ⟨.inl rfl, .inl rfl⟩
    · obtain ⟨rfl, rfl⟩ := SearchResponse.results.inj h
      exact ⟨.inr (by simp [view_shown ht, ResultsView.query]), .inr rfl⟩
    · cases h
    · obtain ⟨rfl, rfl⟩ := SearchResponse.results.inj h
      exact ⟨.inr (by simp [view_shown ht, ResultsView.query]), .inr rfl⟩

/-- For either search, whatever the reads return: the page redirects where the fragment sends the browser, and
shows the fragment's card with the query as it came, so the two differ only in white space around a query they
show. The address a fragment leaves behind stands for the trimmed query and nothing else, and its page is the very
card of the fragment. -/
theorem fragment_is_page (S : Search) (getMatching : Str → Except ReadError (List Str)) (q : Str) :
    S.page getMatching (some q) = (S.fragment getMatching (some q)).asPage q ∧
    (∀ v url, S.fragment getMatching (some q) = .results v url →
      (S.page getMatching (some q) = .results v none ↔ v.query = none ∨ stringTrim q = q)) ∧
    ∀ v url, S.fragment getMatching (some q) = .results v (some url) →
      S.page getMatching (some (stringTrim q)) = .results v none ∧
        ∀ q', S.address q' = url ↔ wire q' = wire (stringTrim q) := by
  refine ⟨page_eq q, fun v url hv => ?_, fun v url hv => ?_⟩
  · obtain ⟨hquery, -⟩ := fragment_query hv
    rw [page_eq, hv]
    simp only [SearchResponse.asPage, SearchResponse.results.injEq, and_true, ResultsView.showing_eq_self]
    rcases hquery with hn | hs
    · simp [hn]
    · simp [hs]
  · obtain ⟨hquery, hurl⟩ := fragment_query hv
    have hurl : url = S.address (stringTrim q) := by simpa using hurl
    refine ⟨?_, fun q' => by rw [hurl, address_inj]⟩
    rw [page_eq, fragment_stringTrim, hv]
    simp only [SearchResponse.asPage, SearchResponse.results.injEq, and_true, ResultsView.showing_eq_self]
    exact hquery

end Search

end EliteEvents

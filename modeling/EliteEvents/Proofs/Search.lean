import EliteEvents.Lib.RedisLemmas
import EliteEvents.Lib.Utf8
import EliteEvents.Spec.DockingReader
import Mathlib.Data.List.TakeWhile

/-! The search of a name index. The bounds of the lexical range hold the names that start with the query, the
escaped pattern the names that contain it; and the two passes together give the first of them, ranked. -/

namespace EliteEvents
open Text Redis RedisKeys DockingReader

section Pattern

theorem utf8_cons_plain {u : UInt16} (h : isPlain u = true) (s : Str) :
    utf8 (u :: s) = String.utf8EncodeChar (Char.ofNat u.toNat) ++ utf8 s := by
  rw [utf8, scalars_cons_plain h, List.flatMap_cons]
  rfl

theorem wire_ne_nil {s : Str} (h : s ≠ []) : wire s ≠ [] := by
  rw [← List.length_pos_iff, length_wire, List.length_pos_iff]
  exact h

theorem utf8_ne_nil {s : Str} (h : s ≠ []) : utf8 s ≠ [] := by
  have hs : scalars s ≠ [] := fun he => wire_ne_nil h (by rw [wire, he]; rfl)
  obtain ⟨c, cs, hc⟩ := List.exists_cons_of_ne_nil hs
  rw [utf8, hc, List.flatMap_cons]
  exact fun he => String.utf8EncodeChar_ne_nil (List.append_eq_nil_iff.mp he).1

/-- The characters that are escaped are ASCII. -/
theorem isGlobMeta_ascii {u : UInt16} (h : isGlobMeta u = true) : u.toNat < 0x80 := by
  have hmem := of_decide_eq_true h
  simp only [List.mem_cons, List.not_mem_nil, or_false] at hmem
  rcases hmem with rfl | rfl | rfl | rfl | rfl <;> decide

theorem escapeByte_high {b : UInt8} (h : 0x80 ≤ b.toNat) : escapeByte b = [b] := by
  refine if_neg fun hmem => ?_
  simp only [List.mem_cons, List.not_mem_nil, or_false] at hmem
  rcases hmem with rfl | rfl | rfl | rfl | rfl <;> exact absurd h (by decide)

/-- No byte of a character outside ASCII is escaped. -/
theorem escaped_of_high {c : Char} (h : 0x80 ≤ c.toNat) :
    (String.utf8EncodeChar c).flatMap escapeByte = String.utf8EncodeChar c := by
  rw [List.flatMap_congr (g := fun b => [b]) fun b hb => escapeByte_high (le_of_mem_utf8EncodeChar h hb)]
  exact List.flatMap_singleton' _

theorem escapeGlob_cons (u : UInt16) (s : Str) :
    escapeGlob (u :: s) = (if isGlobMeta u then [92, u] else [u]) ++ escapeGlob s := List.flatMap_cons

theorem escapeGlob_of_not_meta {u : UInt16} (h : isGlobMeta u = false) (s : Str) :
    escapeGlob (u :: s) = u :: escapeGlob s := by
  rw [escapeGlob_cons, h]
  rfl

theorem not_meta_of_not_plain {u : UInt16} (h : isPlain u = false) : isGlobMeta u = false := by
  refine Bool.eq_false_iff.mpr fun hm => ?_
  have hlt := isGlobMeta_ascii hm
  simp only [isPlain, isHigh, isLow, Bool.and_eq_false_iff, Bool.not_eq_false', Bool.and_eq_true,
    decide_eq_true_eq] at h
  omega

/-- The bytes of a code unit outside the surrogates, escaped. -/
theorem utf8_escape_unit {u : UInt16} (h : isPlain u = true) (s : Str) :
    utf8 ((if isGlobMeta u then [92, u] else [u]) ++ s) =
      (String.utf8EncodeChar (Char.ofNat u.toNat)).flatMap escapeByte ++ utf8 s := by
  split_ifs with hm
  · rw [List.cons_append, utf8_cons_plain (by decide), List.singleton_append, utf8_cons_plain h, ← List.append_assoc]
    congr 1
    have hmem := of_decide_eq_true hm
    simp only [List.mem_cons, List.not_mem_nil, or_false] at hmem
    rcases hmem with rfl | rfl | rfl | rfl | rfl <;> decide
  · rw [List.singleton_append, utf8_cons_plain h]
    congr 1
    have hvalid : u.toNat.isValidChar := by
      rcases isPlain_toNat h with h | h
      · exact .inl h
      · exact .inr ⟨by omega, lt_trans u.toNat_lt (by decide)⟩
    have hn := toNat_ofNat_of_valid hvalid
    by_cases hlow : u.toNat < 0x80
    · rw [utf8EncodeChar_ascii (by rw [hn]; exact hlow), hn, List.flatMap_singleton]
      refine (if_neg fun hmem => hm (decide_eq_true ?_)).symm
      have hb : (UInt8.ofNat u.toNat).toNat = u.toNat := UInt8.toNat_ofNat_of_lt' (lt_trans hlow (by decide))
      have hcast : ∀ v : UInt16, v.toNat < 0x80 → UInt8.ofNat u.toNat = UInt8.ofNat v.toNat → u = v := by
        intro v hv he
        have hvb : (UInt8.ofNat v.toNat).toNat = v.toNat := UInt8.toNat_ofNat_of_lt' (lt_trans hv (by decide))
        exact UInt16.toNat_inj.mp (by rw [← hb, he, hvb])
      simp only [List.mem_cons, List.not_mem_nil, or_false] at hmem ⊢
      rcases hmem with he | he | he | he | he
      · exact .inl (hcast 42 (by decide) he)
      · exact .inr (.inl (hcast 63 (by decide) he))
      · exact .inr (.inr (.inl (hcast 91 (by decide) he)))
      · exact .inr (.inr (.inr (.inl (hcast 93 (by decide) he))))
      · exact .inr (.inr (.inr (.inr (hcast 92 (by decide) he))))
    · exact (escaped_of_high (by rw [hn]; exact not_lt.mp hlow)).symm

/-- Escaping the text escapes its bytes. -/
theorem utf8_escapeGlob (s : Str) : utf8 (escapeGlob s) = (utf8 s).flatMap escapeByte := by
  have hreplacement : (String.utf8EncodeChar replacement).flatMap escapeByte = String.utf8EncodeChar replacement :=
    escaped_of_high (by decide)
  have hlone : ∀ {u : UInt16} {s : Str}, isPlain u = false →
      (∀ v t, s = v :: t → (isHigh u && isLow v) = false) → utf8 (escapeGlob s) = (utf8 s).flatMap escapeByte →
      utf8 (escapeGlob (u :: s)) = (utf8 (u :: s)).flatMap escapeByte := by
    intro u s hu hs ih
    rw [escapeGlob_of_not_meta (not_meta_of_not_plain hu), utf8, utf8, scalars_lone hu s hs,
      scalars_lone hu (escapeGlob s) ?_, List.flatMap_cons, List.flatMap_cons, List.flatMap_append, hreplacement]
    · exact congrArg _ ih
    · -- what is escaped completes no pair
      intro v t hvt
      cases s with
      | nil => cases hvt
      | cons w s =>
        rw [escapeGlob_cons] at hvt
        split_ifs at hvt
        · obtain ⟨rfl, -⟩ := List.cons.inj hvt
          simp [isLow]
        · obtain ⟨rfl, -⟩ := List.cons.inj hvt
          exact hs w s rfl
  have hplain : ∀ {u : UInt16} {s : Str}, isPlain u = true → utf8 (escapeGlob s) = (utf8 s).flatMap escapeByte →
      utf8 (escapeGlob (u :: s)) = (utf8 (u :: s)).flatMap escapeByte := by
    intro u s hu ih
    rw [escapeGlob_cons, utf8_escape_unit hu, ih, utf8_cons_plain hu, List.flatMap_append]
  induction s using scalars.induct with
  | case1 => rfl
  | case2 u =>
    cases hu : isPlain u with
    | true => exact hplain hu rfl
    | false => exact hlone hu (fun v t h => by cases h) rfl
  | case3 u v s h ih =>
    simp only [Bool.and_eq_true] at h
    have hu : isPlain u = false := by simp [isPlain, h.1]
    have hv : isPlain v = false := by simp [isPlain, h.2]
    have hhigh : 0x80 ≤ (pairChar u v).toNat := by
      rw [pairChar_toNat h.1 h.2]
      omega
    rw [escapeGlob_of_not_meta (not_meta_of_not_plain hu), escapeGlob_of_not_meta (not_meta_of_not_plain hv), utf8, utf8,
      scalars_pair h.1 h.2, scalars_pair h.1 h.2, List.flatMap_cons, List.flatMap_cons, List.flatMap_append,
      escaped_of_high hhigh]
    exact congrArg _ ih
  | case4 u v s h ih =>
    cases hu : isPlain u with
    | true => exact hplain hu ih
    | false =>
      refine hlone hu (fun w t hwt => ?_) ih
      obtain ⟨rfl, -⟩ := List.cons.inj hwt
      simpa using h

theorem utf8_indexMatchPattern (q : Str) :
    utf8 (indexMatchPattern q) = 42 :: ((utf8 q).flatMap escapeByte ++ [42]) := by
  have hopen : utf8 (indexMatchPattern q) = 42 :: utf8 (escapeGlob q ++ [42]) := utf8_cons_plain (by decide) _
  have hclose : utf8 (escapeGlob q ++ [42]) = utf8 (escapeGlob q) ++ [42] := by
    rw [utf8, scalars_append (escapeGlob q) (by decide), List.flatMap_append]
    rfl
  rw [hopen, hclose, utf8_escapeGlob]

/-- The pattern of a search matches the names that contain the query, as it reads after the encoding. -/
theorem globMatch_indexMatchPattern {q m : Str} (h : q ≠ [] ∨ m ≠ []) (hm : WellFormed m) :
    globMatch (indexMatchPattern q) m = true ↔ wire q <:+: m := by
  rw [globMatch, utf8_indexMatchPattern, glob_contains (h.imp utf8_ne_nil utf8_ne_nil), utf8_infix_iff hm]

/-- An escaped query is matched as plain text. The wildcards give that for all texts; the matcher of the server
stops short of them where the text is empty, and so misses the empty query in the empty text. -/
theorem escaped_query_contains {q m : Str} (hq : WellFormed q) (hm : WellFormed m) :
    (globTokensMatch (globTokens (utf8 (indexMatchPattern q)).length (utf8 (indexMatchPattern q))) (utf8 m) = true ↔
      q <:+: m) ∧
    (q ≠ [] ∨ m ≠ [] → (globMatch (indexMatchPattern q) m = true ↔ q <:+: m)) := by
  have hwire : wire q = q := hq
  constructor
  · rw [utf8_indexMatchPattern, globTokens_contains, globTokensMatch_between_stars, utf8_infix_iff hm, hwire]
  · intro h
    rw [globMatch_indexMatchPattern h hm, hwire]

theorem escaped_query_contains_star :
    WellFormed (lit "A*") ∧ WellFormed (lit "SGR A*") ∧
      (globMatch (indexMatchPattern (lit "A*")) (lit "SGR A*") = true ↔ lit "A*" <:+: lit "SGR A*") :=
  ⟨wellFormed_ofChars _, wellFormed_ofChars _,
    (escaped_query_contains (wellFormed_ofChars _) (wellFormed_ofChars _)).2 (.inl (by decide +kernel))⟩

theorem empty_text_unmatched :
    WellFormed [] ∧ ([] : Str) <:+: [] ∧ globMatch (indexMatchPattern []) [] = false := by decide

end Pattern

section Index

variable {z : ZSet} {q : Str}

/-- The members that start with `q`, by their bytes. -/
def startingWith (q : Str) (z : ZSet) : List Str :=
  (z.keys.filter fun m => decide (q <+: m)).mergeSort fun a b => decide (utf8 a ≤ utf8 b)

/-- The members that contain `q` further on, by their code units. -/
def containing (q : Str) (z : ZSet) : List Str :=
  (z.keys.filter fun m => decide (q <:+: m ∧ ¬ q <+: m)).mergeSort fun a b => decide (a ≤ b)

/-- An index: names without unpaired surrogates, all at score 0. -/
def IsIndex (z : ZSet) : Prop := ∀ m n, z.lookup m = some n → WellFormed m ∧ n = indexScore

theorem isIndex_of_entries (h : ∀ e ∈ z.entries, wire e.1 = e.1 ∧ e.2 = indexScore) : IsIndex z :=
  fun m n hn => h ⟨m, n⟩ (AList.mem_lookup_iff.mp hn)

theorem utf8_inj {a b : Str} (ha : WellFormed a) (hb : WellFormed b) (h : utf8 a = utf8 b) : a = b := by
  have hab := (utf8_prefix_iff (q := a) hb).mp (by rw [h])
  have hba := (utf8_prefix_iff (q := b) ha).mp (by rw [h])
  rw [show wire a = a from ha] at hab
  rw [show wire b = b from hb] at hba
  exact hab.eq_of_length (le_antisymm hab.length_le hba.length_le)

theorem mem_startingWith {m : Str} : m ∈ startingWith q z ↔ m ∈ z ∧ q <+: m := by
  rw [startingWith, List.mem_mergeSort, List.mem_filter, AList.mem_keys, decide_eq_true_eq]

theorem mem_containing {m : Str} : m ∈ containing q z ↔ m ∈ z ∧ q <:+: m ∧ ¬ q <+: m := by
  rw [containing, List.mem_mergeSort, List.mem_filter, AList.mem_keys, decide_eq_true_eq]

theorem nodup_startingWith : (startingWith q z).Nodup :=
  (List.mergeSort_perm _ _).nodup_iff.mpr (z.keys_nodup.filter _)

theorem nodup_containing : (containing q z).Nodup :=
  (List.mergeSort_perm _ _).nodup_iff.mpr (z.keys_nodup.filter _)

theorem IsIndex.wellFormed (hz : IsIndex z) {m : Str} (hm : m ∈ z) : WellFormed m := by
  obtain ⟨n, hn⟩ := Option.isSome_iff_exists.mp (AList.lookup_isSome.mpr hm)
  exact (hz m n hn).1

/-- A text lies between the bounds of a query exactly if it starts with it, as it reads after the encoding. -/
theorem between_bounds {query m : Str} (hm : WellFormed m) :
    lexPrefixMin query ≤ utf8 m ∧ utf8 m ≤ lexPrefixMax query ↔ wire query <+: m := by
  rw [← utf8_prefix_iff hm]
  refine between_iff_prefix fun b hb => ?_
  obtain ⟨c, -, hc⟩ := List.mem_flatMap.mp hb
  exact lt_of_mem_utf8EncodeChar hc

theorem between_bounds_iff {query m : Str} (hm : WellFormed m) :
    (decide (lexPrefixMin query ≤ utf8 m) && decide (utf8 m ≤ lexPrefixMax query)) = decide (wire query <+: m) := by
  rw [← Bool.decide_and]
  exact decide_eq_decide.mpr (between_bounds hm)

/-- The bounds of a query select the texts that start with it. -/
theorem bounds_select_prefix {q m : Str} (hq : WellFormed q) (hm : WellFormed m) :
    lexPrefixMin q ≤ utf8 m ∧ utf8 m ≤ lexPrefixMax q ↔ q <+: m := by
  rw [between_bounds hm, show wire q = q from hq]

theorem bounds_select_prefix_sol :
    WellFormed (lit "SOL") ∧ WellFormed (lit "SOLATI") ∧
      (lexPrefixMin (lit "SOL") ≤ utf8 (lit "SOLATI") ∧ utf8 (lit "SOLATI") ≤ lexPrefixMax (lit "SOL") ↔
        lit "SOL" <+: lit "SOLATI") :=
  ⟨wellFormed_ofChars _, wellFormed_ofChars _, bounds_select_prefix (wellFormed_ofChars _) (wellFormed_ofChars _)⟩

/-- The lexical range holds the members that start with the query, in the order of their bytes. -/
theorem zrangeByLex_eq (hz : IsIndex z) (query : Str) (limit : ℕ) :
    zrangeByLex (lexPrefixMin query) (lexPrefixMax query) limit z = (startingWith (wire query) z).take limit := by
  have hperm : (((z.entries.map fun e => (e.1, e.2)).mergeSort zLe).map Prod.fst).Perm z.keys := by
    refine ((List.mergeSort_perm _ _).map Prod.fst).trans ?_
    rw [List.map_map]
    exact .refl _
  have hfilter : (((z.entries.map fun e => (e.1, e.2)).mergeSort zLe).map Prod.fst).filter
      (fun m => decide (lexPrefixMin query ≤ utf8 m) && decide (utf8 m ≤ lexPrefixMax query)) =
      (((z.entries.map fun e => (e.1, e.2)).mergeSort zLe).map Prod.fst).filter fun m => decide (wire query <+: m) :=
    List.filter_congr fun m hm => between_bounds_iff (hz.wellFormed (AList.mem_keys.mpr (hperm.mem_iff.mp hm)))
  have hsorted : (((z.entries.map fun e => (e.1, e.2)).mergeSort zLe).map Prod.fst).Pairwise
      fun a b => utf8 a ≤ utf8 b := by
    refine List.pairwise_map.mpr ((List.pairwise_mergeSort zLe_trans zLe_total _).imp_of_mem fun ha hb hab => ?_)
    have hscore : ∀ p ∈ (z.entries.map fun e => (e.1, e.2)).mergeSort zLe, p.2 = indexScore := by
      intro p hp
      obtain ⟨e, he, rfl⟩ := List.mem_map.mp ((List.mergeSort_perm _ _).mem_iff.mp hp)
      exact (hz e.1 e.2 (AList.mem_lookup_iff.mpr he)).2
    rw [zLe_iff, hscore _ ha, hscore _ hb] at hab
    exact (hab.resolve_left (lt_irrefl _)).2
  rw [zrangeByLex, hfilter]
  congr 1
  refine List.Perm.eq_of_pairwise (fun a b ha hb hab hba => ?_) (hsorted.sublist List.filter_sublist) ?_
    ((hperm.filter _).trans (List.mergeSort_perm _ _).symm)
  · have hmem : ∀ m, m ∈ startingWith (wire query) z → WellFormed m := fun m hm => hz.wellFormed (mem_startingWith.mp hm).1
    refine utf8_inj (hz.wellFormed ?_) (hmem b hb) (List.le_antisymm hab hba)
    exact AList.mem_keys.mpr (hperm.mem_iff.mp (List.mem_filter.mp ha).1)
  · exact (List.pairwise_mergeSort (fun a b c hab hbc => by
      rw [decide_eq_true_eq] at *
      exact List.le_trans hab hbc) (fun a b => by
      rw [Bool.or_eq_true, decide_eq_true_eq, decide_eq_true_eq]
      exact List.le_total _ _) _).imp fun h => of_decide_eq_true h

end Index

section Loops

theorem distinct_eq {l seen results : List Str} (hl : l.Nodup) (hseen : ∀ m ∈ l, m ∉ seen) :
    distinct l seen results = (l.reverse ++ seen, results ++ l) := by
  induction l generalizing seen results with
  | nil => simp [distinct]
  | cons m l ih =>
    obtain ⟨hm, hl⟩ := List.nodup_cons.mp hl
    rw [distinct, if_neg (hseen m List.mem_cons_self), ih hl fun k hk => ?_]
    · simp
    · rw [List.mem_cons, not_or]
      exact ⟨fun he => hm (he ▸ hk), hseen k (List.mem_cons_of_mem _ hk)⟩

/-- What the loop over the scan collects: names not seen before, once each, and all of them unless it stops at
the ceiling. -/
structure Collected (l seen collected r : List Str) : Prop where
  nodup : r.Nodup
  new : ∀ m ∈ r, m ∈ collected ∨ m ∈ l ∧ m ∉ seen
  kept : collected ⊆ r
  all : (∀ m ∈ l, m ∈ seen ∨ m ∈ r) ∨ substringScanCeiling ≤ r.length

theorem collected_collect {l seen collected : List Str} (hsub : collected ⊆ seen) (hnodup : collected.Nodup)
    (hlt : collected.length < substringScanCeiling) : Collected l seen collected (collect l seen collected) := by
  induction l generalizing seen collected with
  | nil => exact ⟨hnodup, fun m hm => .inl hm, fun m hm => hm, .inl fun m hm => by cases hm⟩
  | cons name l ih =>
    rw [collect]
    by_cases hseen : name ∈ seen
    · rw [if_pos hseen, if_neg (not_le.mpr hlt)]
      have h := ih hsub hnodup hlt
      refine ⟨h.nodup, fun m hm => ?_, h.kept, h.all.imp (fun hall m hm => ?_) id⟩
      · exact (h.new m hm).imp_right fun hnew => ⟨List.mem_cons_of_mem _ hnew.1, hnew.2⟩
      · rcases List.mem_cons.mp hm with rfl | hm
        · exact .inl hseen
        · exact hall m hm
    · rw [if_neg hseen]
      have hnodup' : (collected ++ [name]).Nodup :=
        List.nodup_append.mpr ⟨hnodup, List.nodup_singleton name, fun a ha b hb => by
          rw [List.mem_singleton.mp hb]
          exact fun he => hseen (hsub (he ▸ ha))⟩
      split_ifs with hfull
      · refine ⟨hnodup', fun m hm => ?_, List.subset_append_left _ _, .inr hfull⟩
        rcases List.mem_append.mp hm with hm | hm
        · exact .inl hm
        · rw [List.mem_singleton.mp hm]
          exact .inr ⟨List.mem_cons_self, hseen⟩
      · have hsub' : collected ++ [name] ⊆ name :: seen := by
          intro m hm
          rcases List.mem_append.mp hm with hm | hm
          · exact List.mem_cons_of_mem _ (hsub hm)
          · rw [List.mem_singleton.mp hm]
            exact List.mem_cons_self
        have h := ih hsub' hnodup' (not_le.mp hfull)
        refine ⟨h.nodup, fun m hm => ?_, fun m hm => h.kept (List.mem_append_left _ hm),
          h.all.imp (fun hall m hm => ?_) id⟩
        · rcases h.new m hm with hold | hnew
          · rcases List.mem_append.mp hold with hold | hname
            · exact .inl hold
            · rw [List.mem_singleton.mp hname]
              exact .inr ⟨List.mem_cons_self, hseen⟩
          · exact .inr ⟨List.mem_cons_of_mem _ hnew.1, fun hs => hnew.2 (List.mem_cons_of_mem _ hs)⟩
        · rcases List.mem_cons.mp hm with rfl | hm
          · exact .inr (h.kept (List.mem_append_right _ (List.mem_singleton_self m)))
          · rcases hall m hm with hs | hr
            · rcases List.mem_cons.mp hs with rfl | hs
              · exact .inr (h.kept (List.mem_append_right _ (List.mem_singleton_self m)))
              · exact .inl hs
            · exact .inr hr

end Loops

section Search

variable {I : Casing} {z : ZSet} {zscan : Str → List Str} {searchQuery : Str} {limit : ℤ}

theorem stringTrim_of_white {s : Str} (h : s.all isWhiteSpace = true) : stringTrim s = [] := by
  have hdrop : s.dropWhile isWhiteSpace = [] := List.dropWhile_eq_nil_iff.mpr (List.all_eq_true.mp h)
  rw [stringTrim, hdrop]
  rfl

/-- The names that the scan adds to the ones that start with the query. -/
def scanned (z : ZSet) (zscan : Str → List Str) (query : Str) : List Str :=
  collect (zscan (indexMatchPattern query)) (startingWith (wire query) z).reverse []

/-- The search, pass by pass. -/
theorem searchIndex_eq (hcase : ∀ s, s.all isWhiteSpace = true → (I.toUpperInvariant s).all isWhiteSpace = true)
    (hz : IsIndex z) (hlimit : 0 < limit) (hq : normalizeQuery I searchQuery ≠ []) :
    searchIndex I z zscan searchQuery limit =
      if limit.toNat ≤ (startingWith (wire (normalizeQuery I searchQuery)) z).length then
        (startingWith (wire (normalizeQuery I searchQuery)) z).take limit.toNat
      else startingWith (wire (normalizeQuery I searchQuery)) z ++
        ((scanned z zscan (normalizeQuery I searchQuery)).mergeSort fun a b => decide (a ≤ b)).take
          (limit.toNat - (startingWith (wire (normalizeQuery I searchQuery)) z).length) := by
  have hgo : (searchQuery.all isWhiteSpace || decide (limit ≤ 0)) = false := by
    rw [Bool.or_eq_false_iff, decide_eq_false_iff_not]
    exact ⟨Bool.eq_false_iff.mpr fun hw => hq (stringTrim_of_white (hcase _ hw)), by omega⟩
  have hnodup : ((startingWith (wire (normalizeQuery I searchQuery)) z).take limit.toNat).Nodup :=
    nodup_startingWith.sublist (List.take_sublist _ _)
  unfold searchIndex
  simp only [hgo, hq, Bool.false_eq_true, if_false, zrangeByLex_eq hz,
    distinct_eq hnodup fun m _ => List.not_mem_nil, List.append_nil, List.nil_append, List.length_take]
  by_cases hle : limit.toNat ≤ (startingWith (wire (normalizeQuery I searchQuery)) z).length
  · rw [if_pos (by omega), if_pos hle]
  · rw [if_neg (by omega), if_neg hle, List.take_of_length_le (by omega), Nat.min_eq_right (by omega)]
    rfl

/-- What a scan of the index delivers, in any order and any number of times. -/
def ScanOf (z : ZSet) (zscan : Str → List Str) : Prop :=
  ∀ pattern m, m ∈ zscan pattern ↔ m ∈ z ∧ globMatch pattern m = true

theorem mem_scan (hz : IsIndex z) (hscan : ScanOf z zscan) {query m : Str} (hq : query ≠ []) :
    m ∈ zscan (indexMatchPattern query) ↔ m ∈ z ∧ wire query <:+: m := by
  rw [hscan]
  exact and_congr_right fun hm => globMatch_indexMatchPattern (.inl hq) (hz.wellFormed hm)

theorem collected_scanned (z : ZSet) (zscan : Str → List Str) (query : Str) : Collected (zscan (indexMatchPattern query))
    (startingWith (wire query) z).reverse [] (scanned z zscan query) :=
  collected_collect (List.nil_subset _) List.nodup_nil (by decide)

theorem scanned_subset (hz : IsIndex z) (hscan : ScanOf z zscan) {query m : Str} (hq : query ≠ [])
    (hm : m ∈ scanned z zscan query) : m ∈ containing (wire query) z := by
  obtain ⟨hdelivered, hnew⟩ := ((collected_scanned z zscan query).new m hm).resolve_left List.not_mem_nil
  obtain ⟨hmem, hinfix⟩ := (mem_scan hz hscan hq).mp hdelivered
  refine mem_containing.mpr ⟨hmem, hinfix, fun hp => hnew ?_⟩
  exact List.mem_reverse.mpr (mem_startingWith.mpr ⟨hmem, hp⟩)

/-- Where the ceiling is not in the way, the scan collects every name that contains the query further on. -/
theorem scanned_perm (hz : IsIndex z) (hscan : ScanOf z zscan) {query : Str} (hq : query ≠ [])
    (hfew : (containing (wire query) z).length ≤ substringScanCeiling) :
    (scanned z zscan query).Perm (containing (wire query) z) := by
  have h := collected_scanned z zscan query
  have hsub := h.nodup.subperm fun m hm => scanned_subset hz hscan hq hm
  rcases h.all with hall | hfull
  · refine (List.perm_ext_iff_of_nodup h.nodup nodup_containing).mpr fun m => ⟨scanned_subset hz hscan hq, fun hm => ?_⟩
    obtain ⟨hmem, hinfix, hnot⟩ := mem_containing.mp hm
    refine (hall m ((mem_scan hz hscan hq).mpr ⟨hmem, hinfix⟩)).resolve_left fun hseen => ?_
    exact hnot (mem_startingWith.mp (List.mem_reverse.mp hseen)).2
  · exact hsub.perm_of_length_le (hfew.trans hfull)

theorem pairwise_ordinal (l : List Str) : (l.mergeSort fun a b => decide (a ≤ b)).Pairwise (· ≤ ·) := by
  refine (List.pairwise_mergeSort (fun a b c hab hbc => ?_) (fun a b => ?_) l).imp fun h => of_decide_eq_true h
  · rw [decide_eq_true_eq] at *
    exact List.le_trans hab hbc
  · rw [Bool.or_eq_true, decide_eq_true_eq, decide_eq_true_eq]
    exact List.le_total a b

/-- The search of an index: the names that start with the query by their bytes, then those that contain it
further on by their code units; and if these are too many for the scan, still ranked and without repetition. The
query is the normalised one as it reads after the encoding. -/
theorem searchIndex_ranked
    (hcase : ∀ s, s.all isWhiteSpace = true → (I.toUpperInvariant s).all isWhiteSpace = true)
    (hz : IsIndex z) (hscan : ScanOf z zscan) (hlimit : 0 < limit) (hq : normalizeQuery I searchQuery ≠ []) :
    ((containing (wire (normalizeQuery I searchQuery)) z).length ≤ substringScanCeiling →
      searchIndex I z zscan searchQuery limit = (startingWith (wire (normalizeQuery I searchQuery)) z ++
        containing (wire (normalizeQuery I searchQuery)) z).take limit.toNat) ∧
    (searchIndex I z zscan searchQuery limit).Nodup ∧
    ((searchIndex I z zscan searchQuery limit).length : ℤ) ≤ limit ∧
    (∀ m ∈ searchIndex I z zscan searchQuery limit, m ∈ z ∧ wire (normalizeQuery I searchQuery) <:+: m) ∧
    (searchIndex I z zscan searchQuery limit).Pairwise fun a b =>
      wire (normalizeQuery I searchQuery) <+: b → wire (normalizeQuery I searchQuery) <+: a := by
  rw [searchIndex_eq hcase hz hlimit hq]
  generalize normalizeQuery I searchQuery = query at hq ⊢
  have hstart : ∀ m ∈ startingWith (wire query) z, m ∈ z ∧ wire query <:+: m ∧ wire query <+: m :=
    fun m hm => ⟨(mem_startingWith.mp hm).1, (mem_startingWith.mp hm).2.isInfix, (mem_startingWith.mp hm).2⟩
  split_ifs with hle
  · have hsub := List.take_sublist limit.toNat (startingWith (wire query) z)
    refine ⟨fun _ => (List.take_append_of_le_length hle).symm, nodup_startingWith.sublist hsub, ?_, fun m hm => ?_, ?_⟩
    · rw [List.length_take]
      omega
    · exact ⟨(hstart m (hsub.subset hm)).1, (hstart m (hsub.subset hm)).2.1⟩
    · exact List.pairwise_of_forall_mem_list fun a ha _ _ _ => (hstart a (hsub.subset ha)).2.2
  · have hscanned : ∀ m ∈ ((scanned z zscan query).mergeSort fun a b => decide (a ≤ b)).take
        (limit.toNat - (startingWith (wire query) z).length), m ∈ containing (wire query) z :=
      fun m hm => scanned_subset hz hscan hq (List.mem_mergeSort.mp (List.mem_of_mem_take hm))
    refine ⟨fun hfew => ?_, ?_, ?_, fun m hm => ?_, ?_⟩
    · have hperm := scanned_perm hz hscan hq hfew
      have hsorted : (scanned z zscan query).mergeSort (fun a b => decide (a ≤ b)) = containing (wire query) z :=
        ((List.mergeSort_perm _ _).trans hperm).eq_of_pairwise (fun _ _ _ _ => List.le_antisymm)
          (pairwise_ordinal _) (pairwise_ordinal _)
      rw [hsorted, List.take_append, List.take_of_length_le (by omega : (startingWith (wire query) z).length ≤ _)]
    · refine List.nodup_append.mpr ⟨nodup_startingWith, ?_, fun a ha b hb he => ?_⟩
      · have hnodup := (List.mergeSort_perm (scanned z zscan query) fun a b => decide (a ≤ b)).nodup_iff.mpr
          (collected_scanned z zscan query).nodup
        exact hnodup.sublist (List.take_sublist _ _)
      · exact (mem_containing.mp (hscanned b hb)).2.2 (he ▸ (hstart a ha).2.2)
    · rw [List.length_append, List.length_take]
      omega
    · rcases List.mem_append.mp hm with hm | hm
      · exact ⟨(hstart m hm).1, (hstart m hm).2.1⟩
      · exact ⟨(mem_containing.mp (hscanned m hm)).1, (mem_containing.mp (hscanned m hm)).2.1⟩
    · refine List.pairwise_append.mpr ⟨?_, ?_, fun a ha b _ _ => (hstart a ha).2.2⟩
      · exact List.pairwise_of_forall_mem_list fun a ha _ _ _ => (hstart a ha).2.2
      · exact List.pairwise_of_forall_mem_list fun _ _ b hb hp =>
          absurd hp (mem_containing.mp (hscanned b hb)).2.2

theorem asciiCasing_white {s : Str} (h : s.all isWhiteSpace = true) :
    (asciiCasing.toUpperInvariant s).all isWhiteSpace = true := by
  have hid : asciiCasing.toUpperInvariant s = s := by
    refine (List.map_congr_left fun u hu => if_neg fun hlower => ?_).trans (List.map_id s)
    have hw := List.all_eq_true.mp h u hu
    simp only [isWhiteSpace, Bool.or_eq_true, decide_eq_true_eq, List.mem_cons, List.not_mem_nil, or_false] at hw
    omega
  rw [hid]
  exact h

/-- A small index of systems. -/
def solIndex : ZSet :=
  ((((∅ : ZSet).insert (lit "HAN SOL") 0).insert (lit "SOLATI") 0).insert (lit "SOL") 0).insert (lit "ACHENAR") 0

/-- A scan of it that delivers every name twice. -/
def solScan (pattern : Str) : List Str :=
  (solIndex.keys ++ solIndex.keys).filter fun m => globMatch pattern m

theorem searchIndex_ranked_sol :
    IsIndex solIndex ∧ ScanOf solIndex solScan ∧ normalizeQuery asciiCasing (lit "sol ") = lit "SOL" ∧
    searchIndex asciiCasing solIndex solScan (lit "sol ") 25 =
      (startingWith (lit "SOL") solIndex ++ containing (lit "SOL") solIndex).take 25 := by
  have hz : IsIndex solIndex := isIndex_of_entries (by decide +kernel)
  have hscan : ScanOf solIndex solScan := by
    intro pattern m
    rw [solScan, List.mem_filter, List.mem_append, or_self, AList.mem_keys]
  have hq : normalizeQuery asciiCasing (lit "sol ") = lit "SOL" := by decide +kernel
  have hwire : wire (lit "SOL") = lit "SOL" := by decide +kernel
  have h := (searchIndex_ranked (fun _ => asciiCasing_white) hz hscan (by decide : (0 : ℤ) < 25)
    (by rw [hq]; decide : normalizeQuery asciiCasing (lit "sol ") ≠ [])).1
  rw [hq, hwire] at h
  have hfew : (containing (lit "SOL") solIndex).length ≤ solIndex.keys.length := by
    rw [containing, List.length_mergeSort]
    exact List.length_filter_le _ _
  exact ⟨hz, hscan, hq, h (hfew.trans (by decide))⟩

/-- A search for an unpaired surrogate finds the name with the replacement character in its place. -/
theorem unpaired_finds_replacement :
    ∃ z zscan searchQuery m, IsIndex z ∧ ScanOf z zscan ∧ normalizeQuery asciiCasing searchQuery ≠ [] ∧
      m ∈ searchIndex asciiCasing z zscan searchQuery 25 ∧ ¬ normalizeQuery asciiCasing searchQuery <:+: m := by
  let z : ZSet := (∅ : ZSet).insert [0xFFFD] 0
  refine ⟨z, fun pattern => z.keys.filter fun m => globMatch pattern m, [0xD800], [0xFFFD],
    isIndex_of_entries (by decide +kernel), fun pattern m => ?_, by decide, by decide +kernel, by decide⟩
  rw [List.mem_filter, AList.mem_keys]

end Search

end EliteEvents

import EliteEvents.Proofs.KeyNames

/-! The migration as renamings of a keyspace. Whatever SCAN returns, each key is visited with the target that its name
gives; a full iteration visits every key that is there throughout, and a key that is still misnamed at the end is one
of these. -/

namespace EliteEvents

open Regex Renaming

namespace KeyFixer

variable {U : StrUpper} {V : Type} {σ : Keyspace Key V} {pages : List (List Key)} {k : Key}

theorem parseKey_ne_nil {key name suffix : PyStr} (h : parseKey key = some (name, suffix)) :
    (name.isEmpty || suffix.isEmpty) = false := by
  obtain ⟨hname, -, hs, -⟩ := parseKey_eq h
  have hsuffix : suffix ≠ [] := by
    rcases hs with rfl | ⟨x, -, -, rfl⟩ <;> simp
  simp [hname, hsuffix]

/-- One key of a page is one visit, and `migrated` counts the renamings. -/
theorem migrateKey_visit (m : Migration V) (key : PyStr) :
    (migrateKey U false m key).store = visit (target U) m.store (encode key) ∧
      (Settled (target U) m.store → (migrateKey U false m key).migrated = m.migrated) := by
  cases hp : parseKey key with
  | none =>
    have ht : target U (encode key) = encode key := by
      simp only [target, decode_encode, hp]
    rw [visit, if_pos ht]
    simp [migrateKey, hp]
  | some p =>
    obtain ⟨name, suffix⟩ := p
    have ht : target U (encode key) = encode (createNormalizedKey U name suffix) :=
      ReadAs.target_eq ⟨key, decode_encode key, hp⟩ U
    have heq : encode (createNormalizedKey U name suffix) = encode key ↔ key = createNormalizedKey U name suffix :=
      ⟨fun h => (encode_injective h).symm, fun h => by rw [← h]⟩
    simp only [migrateKey, hp, parseKey_ne_nil hp, Bool.false_eq_true, if_false, visit, ht, heq]
    split_ifs with hk hmem
    · exact ⟨rfl, fun _ => rfl⟩
    · exact ⟨rfl, fun _ => rfl⟩
    · cases hr : rename m.store (encode key) (encode (createNormalizedKey U name suffix)) with
      | none => exact ⟨rfl, fun _ => rfl⟩
      | some store =>
        refine ⟨rfl, fun hs => ?_⟩
        obtain ⟨v, hv, -⟩ := Option.map_eq_some_iff.mp hr
        rcases hs (encode key) (mem_of_lookup hv) with h | h <;> rw [ht] at h
        · exact absurd (heq.mp h) hk
        · exact absurd h hmem

theorem foldl_migrateKey_store (keys : List PyStr) (m : Migration V) :
    (keys.foldl (migrateKey U false) m).store = (keys.map encode).foldl (visit (target U)) m.store := by
  induction keys generalizing m with
  | nil => rfl
  | cons key keys ih => rw [List.foldl_cons, ih, List.map_cons, List.foldl_cons, (migrateKey_visit m key).1]

theorem map_encode_of_mapM {page : List Key} {keys : List PyStr} (h : page.mapM decode = some keys) :
    keys.map encode = page := by
  induction page generalizing keys with
  | nil => simpa using h.symm
  | cons k page ih =>
    simp only [List.mapM_cons, Option.bind_eq_bind, Option.bind_eq_some_iff, Option.pure_def, Option.some.injEq] at h
    obtain ⟨s, hs, ss, hss, rfl⟩ := h
    rw [List.map_cons, encode_of_decode hs, ih hss]

/-- The keys that the loop works on: those of the pages before the first that does not decode. -/
def worked : List (List Key) → List Key
  | [] => []
  | page :: pages => if (page.mapM decode).isSome then page ++ worked pages else []

theorem migratePages_store (pages : List (List Key)) (m : Migration V) :
    (migratePages U false pages m).1.store = (worked pages).foldl (visit (target U)) m.store := by
  induction pages generalizing m with
  | nil => rfl
  | cons page pages ih =>
    unfold migratePages worked
    cases hk : page.mapM decode with
    | none => rfl
    | some keys =>
      simp only [Option.isSome_some, if_true, List.foldl_append]
      rw [ih, foldl_migrateKey_store, map_encode_of_mapM hk]

theorem storeAfter_eq (σ : Keyspace Key V) (pages : List (List Key)) :
    storeAfter U false σ pages = (worked pages).foldl (visit (target U)) σ :=
  migratePages_store pages _

/-! Keyspaces of text. -/

/-- The keys that SCAN returns are UTF-8. -/
def Texts (σ : Keyspace Key V) : Prop := ∀ k ∈ σ, matchesPattern k = true → (decode k).isSome = true

theorem Texts.visits (h : Texts σ) (ks : List Key) : Texts (ks.foldl (visit (target U)) σ) := by
  intro k hk hm
  obtain ⟨v, hv⟩ := exists_lookup hk
  obtain ⟨f, hf, hrel⟩ := visits_relabelled (target_target U) σ ks
  obtain ⟨j, rfl, hj⟩ := hrel.lookup_inv hv
  have hmem := mem_of_lookup hj
  rcases hf j with hfj | hfj
  · rw [hfj] at hm ⊢
    exact h j hmem hm
  · rcases target_cases U j with ⟨name, suffix, -, ht⟩ | ⟨-, ht⟩
    · rw [hfj, ht, decode_encode]
      rfl
    · rw [hfj, ht] at hm ⊢
      exact h j hmem hm

theorem isSome_mapM {page : List Key} (h : ∀ k ∈ page, (decode k).isSome = true) :
    (page.mapM decode).isSome = true := by
  induction page with
  | nil => rfl
  | cons k page ih =>
    obtain ⟨s, hs⟩ := Option.isSome_iff_exists.mp (h k List.mem_cons_self)
    obtain ⟨ss, hss⟩ := Option.isSome_iff_exists.mp (ih fun j hj => h j (List.mem_cons_of_mem k hj))
    simp [List.mapM_cons, hs, hss]

/-- On a keyspace of text no page raises. -/
theorem Scans.decoded (h : Scans U false σ pages) (ht : Texts σ) :
    ∀ page ∈ pages, (page.mapM decode).isSome = true := by
  intro page hpage
  obtain ⟨before, after, rfl⟩ := List.append_of_mem hpage
  refine isSome_mapM fun k hk => ?_
  obtain ⟨hm, earlier, -, hmem⟩ := h.returned before page after rfl k hk
  rw [storeAfter_eq] at hmem
  exact ht.visits _ k hmem hm

theorem worked_eq (h : ∀ page ∈ pages, (page.mapM decode).isSome = true) : worked pages = pages.flatten := by
  induction pages with
  | nil => rfl
  | cons page pages ih =>
    rw [worked, if_pos (h page List.mem_cons_self), ih fun p hp => h p (List.mem_cons_of_mem page hp),
      List.flatten_cons]

theorem migratePages_completes (h : ∀ page ∈ pages, (page.mapM decode).isSome = true) (m : Migration V) :
    (migratePages U false pages m).2 = true := by
  induction pages generalizing m with
  | nil => rfl
  | cons page pages ih =>
    obtain ⟨keys, hk⟩ := Option.isSome_iff_exists.mp (h page List.mem_cons_self)
    simp only [migratePages, hk]
    exact ih (fun p hp => h p (List.mem_cons_of_mem page hp)) _

theorem decoded_of_completes {m : Migration V} (h : (migratePages U false pages m).2 = true) :
    ∀ page ∈ pages, (page.mapM decode).isSome = true := by
  induction pages generalizing m with
  | nil => simp
  | cons page pages ih =>
    unfold migratePages at h
    split at h
    · cases h
    · rename_i keys hk
      intro p hp
      rcases List.mem_cons.mp hp with rfl | hp
      · rw [hk]
        rfl
      · exact ih h p hp

/-- A key that is misnamed at the end was there throughout. -/
theorem throughout_of_misnamed (hd : ∀ page ∈ pages, (page.mapM decode).isSome = true)
    (hk : k ∈ storeAfter U false σ pages) (hne : target U k ≠ k) : Throughout U false σ pages k := by
  rw [storeAfter_eq, worked_eq hd] at hk
  refine ⟨mem_of_mem_visits hne hk (target_target U), fun before page after keys rest hpages hkeys => ?_⟩
  have hbefore : ∀ p ∈ before, (p.mapM decode).isSome = true :=
    fun p hp => hd p (hpages ▸ List.mem_append_left _ hp)
  have hstore : (migrateKeys U false σ before).1.store = before.flatten.foldl (visit (target U)) σ := by
    rw [← worked_eq hbefore]
    exact storeAfter_eq σ before
  -- the end of the run comes after this moment
  rw [hpages, List.flatten_append, List.flatten_cons, ← map_encode_of_mapM hkeys, List.map_append, List.append_assoc,
    List.foldl_append, List.foldl_append] at hk
  rw [foldl_migrateKey_store, hstore]
  exact mem_of_mem_visits hne hk (target_target U)

/-- A run that comes to the end of a full iteration leaves nothing to rename. -/
theorem Scans.settled (h : Scans U false σ pages) (hd : ∀ page ∈ pages, (page.mapM decode).isSome = true) :
    Settled (target U) (storeAfter U false σ pages) := by
  intro k hk
  by_cases hne : target U k = k
  · exact .inl hne
  · right
    have hm : matchesPattern k = true := by
      rcases target_cases U k with ⟨name, suffix, hr, -⟩ | ⟨-, ht⟩
      · exact hr.matches
      · exact absurd ht hne
    have hmem := h.complete k hm (throughout_of_misnamed hd hk hne)
    rw [storeAfter_eq, worked_eq hd] at hk ⊢
    exact target_mem_visits (target_target U) hmem hk hne

theorem foldl_migrateKey_settled (keys : List PyStr) {m : Migration V} (h : Settled (target U) m.store) :
    (keys.foldl (migrateKey U false) m).store = m.store ∧
      (keys.foldl (migrateKey U false) m).migrated = m.migrated := by
  induction keys generalizing m with
  | nil => exact ⟨rfl, rfl⟩
  | cons key keys ih =>
    obtain ⟨hstore, hcount⟩ := @migrateKey_visit U V m key
    rw [visit_settled h] at hstore
    obtain ⟨hs, hc⟩ := @ih (migrateKey U false m key) (by rwa [hstore])
    exact ⟨hs.trans hstore, hc.trans (hcount h)⟩

/-- A run from where nothing is left to rename counts none. -/
theorem migratePages_settled (pages : List (List Key)) {m : Migration V} (h : Settled (target U) m.store) :
    (migratePages U false pages m).1.store = m.store ∧ (migratePages U false pages m).1.migrated = m.migrated := by
  induction pages generalizing m with
  | nil => exact ⟨rfl, rfl⟩
  | cons page pages ih =>
    unfold migratePages
    split
    · exact ⟨rfl, rfl⟩
    · rename_i keys hk
      obtain ⟨hs, hc⟩ := foldl_migrateKey_settled keys h
      obtain ⟨hs', hc'⟩ := ih (by rwa [hs])
      exact ⟨hs'.trans hs, hc'.trans hc⟩

/-- A single page with all the keys that match is a scan. -/
theorem scans_page {page : List Key} (h : ∀ k, k ∈ page ↔ k ∈ σ ∧ matchesPattern k = true) :
    Scans U false σ [page] where
  returned := by
    intro before page' after heq k hk
    obtain ⟨rfl, rfl⟩ : before = [] ∧ page' = page := by
      cases before with
      | nil => exact ⟨rfl, (List.cons.inj heq).1.symm⟩
      | cons b before => exact absurd (List.cons.inj heq).2 (by simp)
    obtain ⟨hmem, hm⟩ := (h k).mp hk
    exact ⟨hm, [], List.nil_prefix, hmem⟩
  complete := by
    intro k hm hk
    rw [List.flatten_singleton]
    exact (h k).mpr ⟨hk.1, hm⟩

/-! The migration as a whole. -/

/-- Whatever the keyspace and whatever SCAN returns, no value is overwritten or deleted: each keeps its key, or has the
normalised key of it. On a keyspace whose `system:` keys are UTF-8 the run comes to its end, every key that is read is
normalised or its normalised key is there, and a second run renames nothing. -/
theorem migration_keeps_values (U : StrUpper) (σ : Keyspace Key V) (pages : List (List Key)) :
    ((storeAfter U false σ pages).entries.map Sigma.snd : Multiset V) = (σ.entries.map Sigma.snd : Multiset V) ∧
      (∃ f : Key → Key, Relabelled f σ (storeAfter U false σ pages) ∧
        ∀ k, f k = k ∨ matchesPattern k = true ∧ ∃ key name suffix, decode k = some key ∧
          parseKey key = some (name, suffix) ∧ f k = encode (createNormalizedKey U name suffix)) ∧
      ((∀ k ∈ σ, matchesPattern k = true → (decode k).isSome = true) → Scans U false σ pages →
        (migrateKeys U false σ pages).2 = true ∧
        (∀ k ∈ storeAfter U false σ pages, ∀ key name suffix, decode k = some key →
          parseKey key = some (name, suffix) → key = createNormalizedKey U name suffix ∨
            encode (createNormalizedKey U name suffix) ∈ storeAfter U false σ pages) ∧
        ∀ pages', Scans U false (storeAfter U false σ pages) pages' →
          (migrateKeys U false (storeAfter U false σ pages) pages').2 = true ∧
            storeAfter U false (storeAfter U false σ pages) pages' = storeAfter U false σ pages ∧
            (migrateKeys U false (storeAfter U false σ pages) pages').1.migrated = 0) := by
  obtain ⟨f, hf, hrel⟩ := visits_relabelled (target_target U) σ (worked pages)
  rw [← storeAfter_eq] at hrel
  refine ⟨hrel.values, ⟨f, hrel, fun k => ?_⟩, fun htexts hscan => ?_⟩
  · rcases hf k with hk | hk
    · exact .inl hk
    · rcases target_cases U k with ⟨name, suffix, hr, ht⟩ | ⟨-, ht⟩
      · obtain ⟨key, hd, hp⟩ := id hr
        exact .inr ⟨hr.matches, key, name, suffix, hd, hp, hk.trans ht⟩
      · exact .inl (hk.trans ht)
  · have hd := hscan.decoded htexts
    have hs := hscan.settled hd
    refine ⟨migratePages_completes hd _, fun k hk key name suffix hdk hp => ?_, fun pages' hscan' => ?_⟩
    · have ht : target U k = _ := ReadAs.target_eq ⟨key, hdk, hp⟩ U
      rcases hs k hk with h | h <;> rw [ht] at h
      · exact .inl (encode_injective ((encode_of_decode hdk).trans h.symm))
      · exact .inr h
    · have htexts' : Texts (storeAfter U false σ pages) := by
        rw [storeAfter_eq]
        exact Texts.visits htexts _
      exact ⟨migratePages_completes (hscan'.decoded htexts') _, migratePages_settled pages' hs⟩

/-- One spelling of one system. -/
def spelled : Keyspace Key ℕ := AList.singleton (encode "system:Sol:stations".toList) 7

theorem scans_spelled : Scans .ascii false spelled [[encode "system:Sol:stations".toList]] := by
  refine scans_page fun k => ?_
  have hm : matchesPattern (encode "system:Sol:stations".toList) = true := by decide
  rw [List.mem_singleton, AList.mem_keys, spelled, AList.keys_singleton, List.mem_singleton]
  exact ⟨fun h => ⟨h, h ▸ hm⟩, fun h => h.1⟩

theorem migration_keeps_values_sol :
    (migrateKeys .ascii false spelled [[encode "system:Sol:stations".toList]]).2 = true ∧
      (storeAfter .ascii false spelled [[encode "system:Sol:stations".toList]]).lookup
        (encode "system:SOL:stations".toList) = some 7 := by
  refine ⟨((migration_keeps_values .ascii spelled _).2.2 (fun k hk _ => ?_) scans_spelled).1, by decide⟩
  rw [AList.mem_keys, spelled, AList.keys_singleton, List.mem_singleton] at hk
  rw [hk, decode_encode]
  rfl

/-- A key under `system:` that is no UTF-8. -/
def rawKey : Key := encode "system:".toList ++ [0xFF]

def withRawKey : Keyspace Key ℕ := spelled.insert rawKey 1

/-- SCAN returns both keys, the page raises, and the key that is read keeps its spelling. -/
theorem raw_key_stops_migration :
    Scans .ascii false withRawKey [[rawKey, encode "system:Sol:stations".toList]] ∧
      parseKey "system:Sol:stations".toList = some ("Sol".toList, "stations".toList) ∧
      "system:Sol:stations".toList ≠ createNormalizedKey .ascii "Sol".toList "stations".toList ∧
      encode "system:Sol:stations".toList ∈
        storeAfter .ascii false withRawKey [[rawKey, encode "system:Sol:stations".toList]] ∧
      encode (createNormalizedKey .ascii "Sol".toList "stations".toList) ∉
        storeAfter .ascii false withRawKey [[rawKey, encode "system:Sol:stations".toList]] := by
  have hraw : matchesPattern rawKey = true := by decide
  have hsol : matchesPattern (encode "system:Sol:stations".toList) = true := by decide
  refine ⟨scans_page fun k => ?_, by decide, by decide, by decide, by decide⟩
  rw [withRawKey, AList.mem_insert, AList.mem_keys, spelled, AList.keys_singleton, List.mem_cons, List.mem_singleton]
  constructor
  · rintro (rfl | rfl)
    · exact ⟨.inl rfl, hraw⟩
    · exact ⟨.inr rfl, hsol⟩
  · exact fun h => h.1

end KeyFixer

end EliteEvents

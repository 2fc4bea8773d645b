import EliteEvents.Proofs.KeyMigration

/-! The dry run as a forecast. It touches nothing and counts every misnamed key that SCAN returns, a repetition
included; a live run renames each misnamed key at most once, and all of them if no two keys of the keyspace have one
normalised name. -/

namespace EliteEvents

open Renaming

namespace KeyFixer

variable {U : StrUpper} {V : Type} {σ : Keyspace Key V} {pages : List (List Key)}

/-- The last three lines of the summary make up the first. -/
def Migration.Balanced (m : Migration V) : Prop := m.processed = m.migrated + m.skipped + m.errors

theorem Migration.Balanced.migrateKey {m : Migration V} (h : m.Balanced) (dryRun : Bool) (key : PyStr) :
    (migrateKey U dryRun m key).Balanced := by
  unfold Migration.Balanced at h ⊢
  unfold KeyFixer.migrateKey
  cases parseKey key with
  | none =>
    dsimp only
    omega
  | some p =>
    obtain ⟨name, suffix⟩ := p
    dsimp only
    split_ifs
    case neg => cases rename m.store (encode key) (encode (createNormalizedKey U name suffix)) <;> dsimp only <;> omega
    all_goals dsimp only; omega

theorem Migration.Balanced.migratePages {m : Migration V} (h : m.Balanced) (dryRun : Bool) (pages : List (List Key)) :
    (migratePages U dryRun pages m).1.Balanced := by
  induction pages generalizing m with
  | nil => exact h
  | cons page pages ih =>
    unfold KeyFixer.migratePages
    cases page.mapM decode with
    | none => exact h
    | some keys =>
      refine ih ?_
      induction keys generalizing m with
      | nil => exact h
      | cons key keys ihk => exact ihk (h.migrateKey dryRun key)

/-! The dry run. -/

theorem migrateKey_dry (m : Migration V) (key : PyStr) :
    (migrateKey U true m key).store = m.store ∧ (migrateKey U true m key).migrated =
      m.migrated + [encode key].countP fun k => target U k ≠ k := by
  cases hp : parseKey key with
  | none =>
    have ht : target U (encode key) = encode key := by
      simp only [target, decode_encode, hp]
    simp [migrateKey, hp, ht]
  | some p =>
    obtain ⟨name, suffix⟩ := p
    have ht : target U (encode key) = encode (createNormalizedKey U name suffix) :=
      ReadAs.target_eq ⟨key, decode_encode key, hp⟩ U
    simp only [migrateKey, hp, parseKey_ne_nil hp, Bool.false_eq_true, if_false, if_true, List.countP_singleton, ht]
    by_cases hk : key = createNormalizedKey U name suffix
    · simp [← hk]
    · have hne : encode (createNormalizedKey U name suffix) ≠ encode key := fun h => hk (encode_injective h).symm
      simp [hk, hne]

theorem foldl_migrateKey_dry (keys : List PyStr) (m : Migration V) :
    (keys.foldl (migrateKey U true) m).store = m.store ∧ (keys.foldl (migrateKey U true) m).migrated =
      m.migrated + (keys.map encode).countP fun k => target U k ≠ k := by
  induction keys generalizing m with
  | nil => exact ⟨rfl, rfl⟩
  | cons key keys ih =>
    obtain ⟨hstore, hcount⟩ := migrateKey_dry (U := U) m key
    obtain ⟨hs, hc⟩ := ih (migrateKey U true m key)
    refine ⟨hs.trans hstore, ?_⟩
    rw [List.countP_singleton] at hcount
    rw [List.foldl_cons, hc, hcount, List.map_cons, List.countP_cons]
    omega

theorem migratePages_dry (pages : List (List Key)) (m : Migration V) :
    (migratePages U true pages m).1.store = m.store ∧ (migratePages U true pages m).1.migrated =
      m.migrated + (worked pages).countP fun k => target U k ≠ k := by
  induction pages generalizing m with
  | nil => exact ⟨rfl, rfl⟩
  | cons page pages ih =>
    unfold migratePages worked
    cases hk : page.mapM decode with
    | none => exact ⟨rfl, rfl⟩
    | some keys =>
      obtain ⟨hs, hc⟩ := ih (keys.foldl (migrateKey U true) m)
      simp only [Option.isSome_some, if_true, List.countP_append]
      rw [hs, hc, (foldl_migrateKey_dry keys m).1, (foldl_migrateKey_dry keys m).2, map_encode_of_mapM hk, add_assoc]
      exact ⟨rfl, rfl⟩

theorem storeAfter_dry (σ : Keyspace Key V) (pages : List (List Key)) : storeAfter U true σ pages = σ :=
  (migratePages_dry pages _).1

/-- What a scan returns to a script that changes nothing. -/
theorem scans_dry_iff : Scans U true σ pages ↔ ∀ k, k ∈ pages.flatten ↔ k ∈ σ ∧ matchesPattern k = true := by
  have hthroughout : ∀ k, Throughout U true σ pages k ↔ k ∈ σ := by
    refine fun k => ⟨fun h => h.1, fun hk => ⟨hk, fun before page after keys rest _ _ => ?_⟩⟩
    rw [(foldl_migrateKey_dry keys _).1]
    change k ∈ storeAfter U true σ before
    rwa [storeAfter_dry]
  constructor
  · refine fun h k => ⟨fun hk => ?_, fun ⟨hk, hm⟩ => h.complete k hm ((hthroughout k).mpr hk)⟩
    obtain ⟨page, hpage, hkp⟩ := List.mem_flatten.mp hk
    obtain ⟨before, after, rfl⟩ := List.append_of_mem hpage
    obtain ⟨hm, earlier, -, hmem⟩ := h.returned before page after rfl k hkp
    rw [storeAfter_dry] at hmem
    exact ⟨hmem, hm⟩
  · refine fun h => ⟨fun before page after hpages k hk => ?_, fun k hm hk => (h k).mpr ⟨hk.1, hm⟩⟩
    obtain ⟨hmem, hm⟩ := (h k).mp (List.mem_flatten.mpr ⟨page, by simp [hpages], hk⟩)
    refine ⟨hm, [], List.nil_prefix, ?_⟩
    rwa [storeAfter_dry]

/-- On a keyspace of text the dry run counts what was returned of the misnamed keys, each of them at least once. -/
theorem Scans.migrated_dry (h : Scans U true σ pages) (ht : Texts σ) :
    (migrateKeys U true σ pages).1.migrated = (pages.flatten.filter fun k => target U k ≠ k).length ∧
      (pages.flatten.filter fun k => target U k ≠ k).toFinset = misnamed (target U) σ := by
  have hmem := scans_dry_iff.mp h
  have hd : ∀ page ∈ pages, (page.mapM decode).isSome = true := fun page hpage =>
    isSome_mapM fun k hk =>
      have hk := (hmem k).mp (List.mem_flatten.mpr ⟨page, hpage, hk⟩)
      ht k hk.1 hk.2
  constructor
  · rw [← List.countP_eq_length_filter, ← worked_eq hd]
    exact ((migratePages_dry pages _).2).trans (Nat.zero_add _)
  · ext k
    rw [List.mem_toFinset, List.mem_filter, mem_misnamed, hmem]
    constructor
    · exact fun ⟨hk, hne⟩ => ⟨hk.1, of_decide_eq_true hne⟩
    · rintro ⟨hk, hne⟩
      rcases target_cases U k with ⟨name, suffix, hr, -⟩ | ⟨-, htk⟩
      · exact ⟨⟨hk, hr.matches⟩, decide_eq_true hne⟩
      · exact absurd htk hne

/-! The live run. -/

/-- What is counted is what is no longer misnamed. -/
theorem migrateKey_live (m : Migration V) (key : PyStr) :
    (migrateKey U false m key).migrated + (misnamed (target U) (migrateKey U false m key).store).card =
      m.migrated + (misnamed (target U) m.store).card := by
  cases hp : parseKey key with
  | none => simp [migrateKey, hp]
  | some p =>
    obtain ⟨name, suffix⟩ := p
    have ht : target U (encode key) = encode (createNormalizedKey U name suffix) :=
      ReadAs.target_eq ⟨key, decode_encode key, hp⟩ U
    simp only [migrateKey, hp, parseKey_ne_nil hp, Bool.false_eq_true, if_false, ← ht]
    split_ifs with hk hmem
    · rfl
    · rfl
    · cases hr : rename m.store (encode key) (target U (encode key)) with
      | none => rfl
      | some store =>
        obtain ⟨v, hv, rfl⟩ := Option.map_eq_some_iff.mp hr
        have hkey : encode key ∈ misnamed (target U) m.store := by
          refine mem_misnamed.mpr ⟨mem_of_lookup hv, fun h => hk ?_⟩
          exact encode_injective (h.symm.trans ht)
        have hpos := Finset.card_pos.mpr ⟨_, hkey⟩
        simp only [misnamed_rename (target_target U), Finset.card_erase_of_mem hkey]
        omega

theorem migratePages_live (pages : List (List Key)) (m : Migration V) :
    (migratePages U false pages m).1.migrated + (misnamed (target U) (migratePages U false pages m).1.store).card =
      m.migrated + (misnamed (target U) m.store).card := by
  induction pages generalizing m with
  | nil => rfl
  | cons page pages ih =>
    unfold migratePages
    cases page.mapM decode with
    | none => rfl
    | some keys =>
      refine (ih _).trans ?_
      induction keys generalizing m with
      | nil => rfl
      | cons key keys ihk => exact (ihk _).trans (migrateKey_live m key)

/-- A live run that comes to the end of a full iteration has renamed all the misnamed keys exactly if no two keys of the
keyspace have one normalised name. -/
theorem Scans.migrated_live (h : Scans U false σ pages) (ht : Texts σ) :
    (migrateKeys U false σ pages).1.migrated = (misnamed (target U) σ).card ↔
      Set.InjOn (target U) {k | k ∈ σ} := by
  have hcount : (migrateKeys U false σ pages).1.migrated + (misnamed (target U) (storeAfter U false σ pages)).card =
      0 + (misnamed (target U) σ).card := migratePages_live pages _
  obtain ⟨f, hf, hrel⟩ := visits_relabelled (target_target U) σ (worked pages)
  rw [← storeAfter_eq] at hrel
  rw [← hrel.misnamed_eq_empty (target_target U) hf (h.settled (h.decoded ht)), ← Finset.card_eq_zero]
  omega

/-- The dry run leaves the keyspace as it is, and the summary of either run adds up. On a keyspace whose `system:` keys
are UTF-8, what it says would be renamed is at least the misnamed keys there are, and exactly these if SCAN returned
none of them twice; what a live run then renames is at most these, and all of them exactly if no two keys have one
normalised name. -/
theorem dry_run_bounds_migration (U : StrUpper) (σ : Keyspace Key V) (pages pages' : List (List Key)) :
    storeAfter U true σ pages = σ ∧
      (∀ dryRun, (migrateKeys U dryRun σ pages).1.processed = (migrateKeys U dryRun σ pages).1.migrated +
        (migrateKeys U dryRun σ pages).1.skipped + (migrateKeys U dryRun σ pages).1.errors) ∧
      (migrateKeys U false σ pages').1.migrated ≤ (misnamed (target U) σ).card ∧
      ((∀ k ∈ σ, matchesPattern k = true → (decode k).isSome = true) →
        (Scans U true σ pages →
          (misnamed (target U) σ).card ≤ (migrateKeys U true σ pages).1.migrated ∧
            ((migrateKeys U true σ pages).1.migrated = (misnamed (target U) σ).card ↔
              (pages.flatten.filter fun k => target U k ≠ k).Nodup)) ∧
        (Scans U false σ pages' →
          ((migrateKeys U false σ pages').1.migrated = (misnamed (target U) σ).card ↔
            ∀ j ∈ σ, ∀ k ∈ σ, target U j = target U k → j = k))) := by
  have hcount : (migrateKeys U false σ pages').1.migrated + (misnamed (target U) (storeAfter U false σ pages')).card =
      0 + (misnamed (target U) σ).card := migratePages_live pages' _
  refine ⟨storeAfter_dry σ pages, fun dryRun => ?_, by omega, fun ht => ⟨fun hdry => ?_, fun hlive => ?_⟩⟩
  · exact Migration.Balanced.migratePages (m := ⟨σ, 0, 0, 0, 0⟩) rfl dryRun pages
  · obtain ⟨hlen, hset⟩ := hdry.migrated_dry ht
    rw [hlen, ← hset]
    refine ⟨List.toFinset_card_le _, fun h => ?_, fun h => (List.toFinset_card_of_nodup h).symm⟩
    exact Multiset.coe_nodup.mp (Multiset.toFinset_card_eq_card_iff_nodup.mp h.symm)
  · rw [hlive.migrated_live ht]
    exact ⟨fun h j hj k hk => h hj hk, fun h j hj k hk => h j hj k hk⟩

/-- Both spellings of one system. -/
def bothSpelled : Keyspace Key ℕ := spelled.insert (encode "system:SOL:stations".toList) 8

def bothReturned : List (List Key) := [[encode "system:SOL:stations".toList, encode "system:Sol:stations".toList]]

theorem mem_bothReturned (k : Key) :
    k ∈ bothReturned.flatten ↔ k ∈ bothSpelled ∧ matchesPattern k = true := by
  have hupper : matchesPattern (encode "system:SOL:stations".toList) = true := by decide
  have hsol : matchesPattern (encode "system:Sol:stations".toList) = true := by decide
  rw [bothReturned, List.flatten_singleton, bothSpelled, AList.mem_insert, AList.mem_keys, spelled, AList.keys_singleton,
    List.mem_cons]
  constructor
  · intro h
    refine ⟨h, ?_⟩
    rcases h with rfl | h
    · exact hupper
    · rw [List.mem_singleton.mp h]
      exact hsol
  · exact fun h => h.1

/-- The dry run announces one renaming, and the live run finds the name taken. -/
theorem dry_run_bounds_migration_both :
    (migrateKeys .ascii true bothSpelled bothReturned).1.migrated = 1 ∧
      (migrateKeys .ascii false bothSpelled bothReturned).1.migrated ≠ (misnamed (target .ascii) bothSpelled).card := by
  have htexts : ∀ k ∈ bothSpelled, matchesPattern k = true → (decode k).isSome = true := by
    intro k hk _
    rw [bothSpelled, AList.mem_insert, AList.mem_keys, spelled, AList.keys_singleton, List.mem_singleton] at hk
    rcases hk with rfl | rfl <;> rw [decode_encode] <;> rfl
  obtain ⟨-, -, -, h⟩ := dry_run_bounds_migration .ascii bothSpelled bothReturned bothReturned
  obtain ⟨hdry, hlive⟩ := h htexts
  have hnodup : (bothReturned.flatten.filter fun k => target .ascii k ≠ k).Nodup := by decide
  have hcard : (misnamed (target .ascii) bothSpelled).card = 1 := by decide
  refine ⟨((hdry (scans_dry_iff.mpr mem_bothReturned)).2.mpr hnodup).trans hcard, fun hall => ?_⟩
  have hinj := (hlive (scans_page fun k => ?_)).mp hall (encode "system:SOL:stations".toList) (by decide)
    (encode "system:Sol:stations".toList) (by decide) (by decide)
  · exact absurd hinj (by decide)
  · rw [← mem_bothReturned, bothReturned, List.flatten_singleton]

end KeyFixer

end EliteEvents

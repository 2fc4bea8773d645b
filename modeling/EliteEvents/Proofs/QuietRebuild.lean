import EliteEvents.Lib.Utf8
import EliteEvents.Proofs.IndexAgreement
import EliteEvents.Spec.IndexMaintenance

/-! A rebuild with the server to itself. Whatever stops it, every name it has added is live and was missing,
and every name it has removed is not live; so the index lies between the old one and the live names, and a
rebuild from there ends where a rebuild from the old index would have. -/

namespace EliteEvents

open Text Redis RedisKeys SearchIndexMaintainer

/-- The names behind the keys that match the live pattern. -/
def liveSet (κ : Catalog) (σ : Store) : Finset Str :=
  ((σ.keys.filter (globMatch κ.livePattern)).filterMap extractName).toFinset

def indexSet (κ : Catalog) (σ : Store) : Finset Str := (σ.zmembers κ.index).toFinset

/-- The keyspace is UTF-8 text, and the index is a sorted set or missing. -/
structure Legible (κ : Catalog) (σ : Store) : Prop where
  keys : ∀ k, (σ.val k).isSome → WellFormed k
  members : ∀ m ∈ σ.zmembers κ.index, WellFormed m
  sorted : ∃ z, σ.zset κ.index = .ok z

section Sets

variable {κ : Catalog} {σ : Store}

theorem mem_indexSet {m : Str} : m ∈ indexSet κ σ ↔ (σ.zscore κ.index m).isSome := by
  rw [indexSet, List.mem_toFinset, Store.mem_zmembers]

theorem mem_liveSet {m : Str} : m ∈ liveSet κ σ ↔ ∃ k, scannable κ σ k = true ∧ extractName k = some m := by
  have hkey : ∀ k, k ∈ σ.keys ↔ (σ.val k).isSome := fun k => by
    refine ⟨fun h => ?_, Store.mem_keys⟩
    rw [Store.val, Option.isSome_map, AList.lookup_isSome]
    exact h
  simp only [liveSet, List.mem_toFinset, List.mem_filterMap, List.mem_filter, hkey, scannable, Bool.and_eq_true]

theorem Scans.mem_live {zscanned scanned : List Str} (h : Scans κ σ zscanned scanned) {m : Str} :
    m ∈ liveNames scanned ↔ m ∈ liveSet κ σ := by
  rw [mem_liveNames, mem_liveSet]
  exact exists_congr fun k => and_congr_left' (h.scan k)

theorem Scans.mem_indexed {zscanned scanned : List Str} (h : Scans κ σ zscanned scanned) {m : Str} :
    m ∈ zscanned.dedup ↔ m ∈ indexSet κ σ := by
  rw [List.mem_dedup, h.zscan, indexSet, List.mem_toFinset]

theorem Legible.live (h : Legible κ σ) {m : Str} (hm : m ∈ liveSet κ σ) : WellFormed m := by
  obtain ⟨k, hk, hn⟩ := mem_liveSet.mp hm
  rw [scannable, Bool.and_eq_true] at hk
  exact (h.keys k hk.1).splitOn (by decide) (List.mem_of_getElem? hn)

/-- No scan takes an index for data. -/
theorem index_not_live (κ κ' : Catalog) : globMatch κ.livePattern κ'.index = false := by
  cases κ <;> cases κ' <;> decide

end Sets

/-! The writes of a rebuild, by their effect on the scores. -/

section Writes

variable {κ : Catalog} {σ : Store}

theorem lookup_addScored (z : ZSet) (names : List Str) (m : Str) :
    (addMembers z (names.map fun n => (n, indexScore))).lookup m =
      if m ∈ names then some indexScore else z.lookup m := by
  induction names generalizing z with
  | nil => rfl
  | cons n names ih =>
    rw [List.map_cons, addMembers, List.foldl_cons, ← addMembers, ih]
    by_cases hm : m ∈ names
    · rw [if_pos hm, if_pos (List.mem_cons_of_mem _ hm)]
    · by_cases hn : m = n
      · subst hn
        rw [if_neg hm, if_pos List.mem_cons_self, AList.lookup_insert]
      · rw [if_neg hm, if_neg (by simp [hm, hn]), AList.lookup_insert_ne hn]

theorem lookup_eraseMembers (z : ZSet) (names : List Str) (m : Str) :
    (eraseMembers z names).lookup m = if m ∈ names then none else z.lookup m := by
  induction names generalizing z with
  | nil => rfl
  | cons n names ih =>
    rw [eraseMembers, List.foldl_cons, ← eraseMembers, ih]
    by_cases hm : m ∈ names
    · rw [if_pos hm, if_pos (List.mem_cons_of_mem _ hm)]
    · by_cases hn : m = n
      · subst hn
        rw [if_neg hm, if_pos List.mem_cons_self, AList.lookup_erase]
      · rw [if_neg hm, if_neg (by simp [hm, hn]), AList.lookup_erase_ne hn]

/-- A value put at a key that opens as a sorted set. -/
theorem zset_put (k : Str) (z : ZSet) : ∃ z', (σ.put k (.zset z)).zset k = .ok z' := by
  rw [Store.zset, Store.val_put_self]
  split_ifs
  · exact ⟨∅, rfl⟩
  · exact ⟨z, rfl⟩

/-- A chunk leaves the other keys alone, and the index a sorted set. -/
structure Rescored (κ : Catalog) (score : Str → Option ℤ) (σ σ' : Store) : Prop where
  score : ∀ m, σ'.zscore κ.index m = score m
  others : ∀ k, k ≠ κ.index → σ'.lookup k = σ.lookup k
  sorted : ∃ z, σ'.zset κ.index = .ok z

theorem apply_zadd (now : Time) (hσ : ∃ z, σ.zset κ.index = .ok z) (names : List Str) :
    Rescored κ (fun m => if m ∈ names then some indexScore else σ.zscore κ.index m) σ
      ((Cmd.zadd κ.index (names.map fun n => (n, indexScore))).apply now σ) := by
  obtain ⟨z, hz⟩ := hσ
  have happly : (Cmd.zadd κ.index (names.map fun n => (n, indexScore))).apply now σ =
      σ.put κ.index (.zset (addMembers z (names.map fun n => (n, indexScore)))) := by
    rw [Cmd.apply, Cmd.run, hz]
    rfl
  rw [happly]
  refine ⟨fun m => ?_, fun k hk => Store.lookup_put_ne σ hk _, zset_put _ _⟩
  rw [Store.zscore_put, (Store.zset_ok hz).1]
  exact lookup_addScored z names m

theorem apply_zrem (now : Time) (hσ : ∃ z, σ.zset κ.index = .ok z) (names : List Str) :
    Rescored κ (fun m => if m ∈ names then none else σ.zscore κ.index m) σ
      ((Cmd.zrem κ.index names).apply now σ) := by
  obtain ⟨z, hz⟩ := hσ
  have happly : (Cmd.zrem κ.index names).apply now σ =
      σ.put κ.index (.zset (eraseMembers z names)) := by
    rw [Cmd.apply, Cmd.run, hz]
    rfl
  rw [happly]
  refine ⟨fun m => ?_, fun k hk => Store.lookup_put_ne σ hk _, zset_put _ _⟩
  rw [Store.zscore_put, (Store.zset_ok hz).1]
  exact lookup_eraseMembers z names m

end Writes

/-! Between the old index and the live names. -/

/-- A store that interrupted rebuilds have made of `σ₀`: a name of the index has its old score, or it is live
and was added, or it is not live and was removed. -/
structure Between (κ : Catalog) (σ₀ σ : Store) : Prop where
  others : ∀ k, (∀ κ' : Catalog, k ≠ κ'.index) → σ.lookup k = σ₀.lookup k
  sorted : ∃ z, σ.zset κ.index = .ok z
  score : ∀ m, σ.zscore κ.index m = σ₀.zscore κ.index m ∨
    (m ∈ liveSet κ σ₀ ∧ m ∉ indexSet κ σ₀ ∧ σ.zscore κ.index m = some indexScore) ∨
    (m ∉ liveSet κ σ₀ ∧ σ.zscore κ.index m = none)

/-- A chunk that adds live names that were missing, or removes names that are not live. -/
inductive Safe (κ : Catalog) (σ₀ : Store) : Cmd → Prop
  | add (names : List Str) (h : ∀ n ∈ names, n ∈ liveSet κ σ₀ ∧ n ∉ indexSet κ σ₀) :
      Safe κ σ₀ (.zadd κ.index (names.map fun n => (n, indexScore)))
  | remove (names : List Str) (h : ∀ n ∈ names, n ∉ liveSet κ σ₀) : Safe κ σ₀ (.zrem κ.index names)

section Between

variable {κ : Catalog} {σ₀ σ : Store} {now : Time}

theorem between_refl (h : ∃ z, σ₀.zset κ.index = .ok z) : Between κ σ₀ σ₀ :=
  ⟨fun _ _ => rfl, h, fun _ => .inl rfl⟩

theorem Between.scannable (h : Between κ σ₀ σ) (κ' : Catalog) (k : Str) :
    scannable κ' σ k = SearchIndexMaintainer.scannable κ' σ₀ k := by
  by_cases hk : ∃ κ'' : Catalog, k = κ''.index
  · obtain ⟨κ'', rfl⟩ := hk
    rw [SearchIndexMaintainer.scannable, SearchIndexMaintainer.scannable, index_not_live, Bool.and_false,
      Bool.and_false]
  · rw [SearchIndexMaintainer.scannable, SearchIndexMaintainer.scannable, Store.val, Store.val,
      h.others k fun κ'' he => hk ⟨κ'', he⟩]

/-- The live names are those of the data keys, which no rebuild touches. -/
theorem Between.liveSet_eq (h : Between κ σ₀ σ) (κ' : Catalog) : liveSet κ' σ = liveSet κ' σ₀ := by
  ext m
  rw [mem_liveSet, mem_liveSet]
  exact exists_congr fun k => by rw [h.scannable κ' k]

theorem Between.kept (h : Between κ σ₀ σ) {m : Str} (hl : m ∈ liveSet κ σ₀) (ho : m ∈ indexSet κ σ₀) :
    σ.zscore κ.index m = σ₀.zscore κ.index m := by
  rcases h.score m with he | ⟨-, hn, -⟩ | ⟨hn, -⟩
  · exact he
  · exact absurd ho hn
  · exact absurd hl hn

theorem Between.apply (h : Between κ σ₀ σ) {c : Cmd} (hc : Safe κ σ₀ c) : Between κ σ₀ (c.apply now σ) := by
  cases hc with
  | add names hn =>
    have hr := apply_zadd now h.sorted names
    refine ⟨fun k hk => (hr.others k (hk κ)).trans (h.others k hk), hr.sorted, fun m => ?_⟩
    rw [hr.score]
    split_ifs with hm
    · exact .inr (.inl ⟨(hn m hm).1, (hn m hm).2, rfl⟩)
    · exact h.score m
  | remove names hn =>
    have hr := apply_zrem now h.sorted names
    refine ⟨fun k hk => (hr.others k (hk κ)).trans (h.others k hk), hr.sorted, fun m => ?_⟩
    rw [hr.score]
    split_ifs with hm
    · exact .inr (.inr ⟨hn m hm, rfl⟩)
    · exact h.score m

/-- The other index is not touched. -/
theorem Between.applyOther (h : Between κ σ₀ σ) {κ' : Catalog} (hne : κ' ≠ κ)
    (hσ : ∃ z, σ.zset κ'.index = .ok z) {τ : Store} {c : Cmd} (hc : Safe κ' τ c) :
    Between κ σ₀ (c.apply now σ) ∧ ∃ z, (c.apply now σ).zset κ'.index = .ok z := by
  have hindex : κ.index ≠ κ'.index := by
    cases κ <;> cases κ' <;> first | exact absurd rfl hne | decide
  obtain ⟨score, hr⟩ : ∃ score, Rescored κ' score σ (c.apply now σ) := by
    cases hc with
    | add names _ => exact ⟨_, apply_zadd now hσ names⟩
    | remove names _ => exact ⟨_, apply_zrem now hσ names⟩
  have hsame := hr.others κ.index hindex
  refine ⟨⟨fun k hk => (hr.others k (hk κ')).trans (h.others k hk), ?_, fun m => ?_⟩, hr.sorted⟩
  · rw [Store.zset_congr hsame]
    exact h.sorted
  · rw [Store.zscore, Store.val, hsame]
    exact h.score m

/-- What every safe chunk keeps holds wherever the chunks stop. -/
theorem writeChunks_induct {P : Store → Prop} {todo : List Cmd}
    (hstep : ∀ c ∈ todo, ∀ σ, P σ → P (c.apply now σ)) (h : P σ) (endings : List Ending) :
    P (writeChunks now todo endings σ).1 := by
  induction todo generalizing endings σ with
  | nil => exact h
  | cons c todo ih =>
    have hc := hstep c List.mem_cons_self σ h
    unfold SearchIndexMaintainer.writeChunks
    cases endings.headD .done with
    | done => exact ih (fun d hd => hstep d (List.mem_cons_of_mem _ hd)) hc _
    | cancelled => exact h
    | failed applied =>
      cases applied with
      | false => exact h
      | true => exact hc

/-- Texts that read back as they are need no encoding. -/
theorem map_wire {names : List Str} (h : ∀ n ∈ names, WellFormed n) : names.map wire = names :=
  (List.map_congr_left h).trans (List.map_id _)

theorem Legible.between (hσ : Legible κ σ₀) (h : Between κ σ₀ σ) : Legible κ σ := by
  refine ⟨fun k hk => ?_, fun m hm => ?_, h.sorted⟩
  · by_cases hi : ∃ κ' : Catalog, k = κ'.index
    · obtain ⟨κ', rfl⟩ := hi
      exact wire_catalog_index κ'
    · refine hσ.keys k ?_
      rwa [Store.val, ← h.others k fun κ' he => hi ⟨κ', he⟩]
  · rw [Store.mem_zmembers] at hm
    rcases h.score m with he | ⟨hl, -, -⟩ | ⟨-, hn⟩
    · exact hσ.members m ((Store.mem_zmembers ..).mpr (he ▸ hm))
    · exact hσ.live hl
    · rw [hn] at hm
      cases hm

/-- The chunks of any rebuild on the way are safe. -/
theorem Between.safe (h : Between κ σ₀ σ) (hσ : Legible κ σ₀) {zscanned scanned : List Str}
    (hs : Scans κ σ zscanned scanned) {c : Cmd}
    (hc : c ∈ writes κ.index zscanned.dedup (liveNames scanned)) : Safe κ σ₀ c := by
  have hlegible := hσ.between h
  rcases mem_writes hc with ⟨names, rfl, hn⟩ | ⟨names, rfl, hn⟩
  · have hmem : ∀ n ∈ names, n ∈ liveSet κ σ ∧ n ∉ indexSet κ σ := fun n hin => by
      have := List.mem_filter.mp (hn n hin)
      rw [decide_eq_true_eq, hs.mem_indexed, hs.mem_live] at this
      exact this
    have hwire : names.map (fun n => (wire n, indexScore)) = names.map fun n => (n, indexScore) :=
      List.map_congr_left fun n hin => by rw [show wire n = n from hlegible.live (hmem n hin).1]
    rw [hwire]
    refine .add names fun n hin => ?_
    obtain ⟨hl, hi⟩ := hmem n hin
    rw [h.liveSet_eq] at hl
    refine ⟨hl, fun ho => hi ?_⟩
    rw [mem_indexSet, h.kept hl ho]
    exact mem_indexSet.mp ho
  · have hmem : ∀ n ∈ names, n ∈ indexSet κ σ ∧ n ∉ liveSet κ σ := fun n hin => by
      have := List.mem_filter.mp (hn n hin)
      rw [decide_eq_true_eq, hs.mem_indexed, hs.mem_live] at this
      exact this
    rw [map_wire fun n hin => hlegible.members n (List.mem_toFinset.mp (hmem n hin).1)]
    refine .remove names fun n hin => ?_
    rw [← h.liveSet_eq]
    exact (hmem n hin).2

theorem rebuildAsync_induct (κ : Catalog) (now : Time) {P : Store → Prop} {a : Attempt}
    (hstep : ∀ c ∈ writes κ.index a.zscanned.dedup (liveNames a.scanned), ∀ σ, P σ → P (c.apply now σ))
    (h : P σ) : P (rebuildAsync κ now a σ).1 := by
  unfold SearchIndexMaintainer.rebuildAsync
  split
  · exact h
  · exact h
  · exact h
  · exact h
  · exact writeChunks_induct hstep h _

theorem Between.rebuildAsync (h : Between κ σ₀ σ) (hσ : Legible κ σ₀) {a : Attempt}
    (hs : Scans κ σ a.zscanned a.scanned) : Between κ σ₀ (rebuildAsync κ now a σ).1 :=
  rebuildAsync_induct κ now (fun _ hc _ hp => hp.apply (h.safe hσ hs hc)) h

theorem Between.rebuildOther (h : Between κ σ₀ σ) {κ' : Catalog} (hne : κ' ≠ κ) (h' : Between κ' σ₀ σ)
    (hσ : Legible κ' σ₀) {a : Attempt} (hs : Scans κ' σ a.zscanned a.scanned) :
    Between κ σ₀ (SearchIndexMaintainer.rebuildAsync κ' now a σ).1 := by
  have hp := rebuildAsync_induct κ' now (P := fun σ => Between κ σ₀ σ ∧ ∃ z, σ.zset κ'.index = .ok z)
    (fun _ hc _ hp => hp.1.applyOther hne hp.2 (h'.safe hσ hs hc)) ⟨h, h'.sorted⟩
  exact hp.1

end Between

/-! A rebuild that completes. -/

section Complete

variable {κ : Catalog} {σ : Store}

/-- Chunk after chunk, each of which gives its names one score (or none). -/
theorem applyAll_chunks (now : Time) {cmd : List Str → Cmd} {x : Option ℤ}
    (hcmd : ∀ σ : Store, (∃ z, σ.zset κ.index = .ok z) → ∀ names,
      Rescored κ (fun m => if m ∈ names then x else σ.zscore κ.index m) σ ((cmd names).apply now σ))
    (hσ : ∃ z, σ.zset κ.index = .ok z) (chunks : List (List Str)) :
    Rescored κ (fun m => if m ∈ chunks.flatten then x else σ.zscore κ.index m) σ
      (applyAll (chunks.map fun names => (now, cmd names)) σ) := by
  induction chunks generalizing σ with
  | nil => exact ⟨fun m => by simp [applyAll], fun _ _ => rfl, hσ⟩
  | cons names chunks ih =>
    have hr := hcmd σ hσ names
    have hrest := ih hr.sorted
    refine ⟨fun m => ?_, fun k hk => (hrest.others k hk).trans (hr.others k hk), hrest.sorted⟩
    refine (hrest.score m).trans ?_
    rw [hr.score, List.flatten_cons]
    by_cases hm : m ∈ chunks.flatten
    · rw [if_pos hm, if_pos (List.mem_append_right _ hm)]
    · by_cases hn : m ∈ names
      · rw [if_neg hm, if_pos hn, if_pos (List.mem_append_left _ hn)]
      · rw [if_neg hm, if_neg hn, if_neg fun h => (List.mem_append.mp h).elim hn hm]

/-- The index a rebuild leaves: the live names, each with the score it had or else a new one. -/
def target (κ : Catalog) (σ : Store) (m : Str) : Option ℤ :=
  if m ∈ liveSet κ σ then some ((σ.zscore κ.index m).getD indexScore) else none

theorem Legible.rebuild (hσ : Legible κ σ) (now : Time) {zscanned scanned : List Str} (hs : Scans κ σ zscanned scanned) :
    Rescored κ (target κ σ) σ (rebuild κ now zscanned scanned σ).1 := by
  generalize hadd : toAdd zscanned.dedup (liveNames scanned) = add
  generalize hrem : toRemove zscanned.dedup (liveNames scanned) = remove
  have hmemAdd : ∀ m, m ∈ add ↔ m ∈ liveSet κ σ ∧ m ∉ indexSet κ σ := fun m => by
    rw [← hadd, toAdd, List.mem_filter, decide_eq_true_eq, hs.mem_indexed, hs.mem_live]
  have hmemRem : ∀ m, m ∈ remove ↔ m ∈ indexSet κ σ ∧ m ∉ liveSet κ σ := fun m => by
    rw [← hrem, toRemove, List.mem_filter, decide_eq_true_eq, hs.mem_indexed, hs.mem_live]
  have hchunk : ∀ {l names : List Str}, names ∈ chunk writeChunkSize l → ∀ n ∈ names, n ∈ l :=
    fun hnames n hn => (mem_chunk (by decide) n).mp ⟨_, hnames, hn⟩
  have hwrites : (writes κ.index zscanned.dedup (liveNames scanned)).map (fun c => (now, c)) =
      (chunk writeChunkSize add).map (fun names => (now, Cmd.zadd κ.index (names.map fun n => (n, indexScore)))) ++
        (chunk writeChunkSize remove).map fun names => (now, Cmd.zrem κ.index names) := by
    rw [writes, hadd, hrem, List.map_append, List.map_map, List.map_map]
    congr 1
    · refine List.map_congr_left fun names hnames => ?_
      show (now, Cmd.zadd _ _) = _
      rw [wire_catalog_index, List.map_map]
      refine congrArg (fun es => (now, Cmd.zadd κ.index es)) (List.map_congr_left fun n hn => ?_)
      exact congrArg (·, indexScore) (hσ.live ((hmemAdd n).mp (hchunk hnames n hn)).1)
    · refine List.map_congr_left fun names hnames => ?_
      show (now, Cmd.zrem _ _) = _
      rw [wire_catalog_index, map_wire fun n hn => ?_]
      exact hσ.members n (List.mem_toFinset.mp ((hmemRem n).mp (hchunk hnames n hn)).1)
  have hr₁ := applyAll_chunks now (fun _ h names => apply_zadd now h names) hσ.sorted
    (chunk writeChunkSize add)
  have hr₂ := applyAll_chunks now (fun _ h names => apply_zrem now h names) hr₁.sorted
    (chunk writeChunkSize remove)
  show Rescored κ (target κ σ) σ (applyAll _ σ)
  rw [hwrites, applyAll_append]
  refine ⟨fun m => ?_, fun k hk => (hr₂.others k hk).trans (hr₁.others k hk), hr₂.sorted⟩
  rw [hr₂.score, hr₁.score, target]
  simp only [List.mem_flatten, mem_chunk (show 0 < writeChunkSize by decide), hmemAdd, hmemRem, mem_indexSet]
  cases hscore : σ.zscore κ.index m with
  | none => by_cases hl : m ∈ liveSet κ σ <;> simp [hl]
  | some x => by_cases hl : m ∈ liveSet κ σ <;> simp [hl]

theorem Rescored.indexSet_eq {σ' : Store} (h : Rescored κ (target κ σ) σ σ') : indexSet κ σ' = liveSet κ σ := by
  ext m
  rw [mem_indexSet, h.score, target]
  split_ifs with hm
  · exact iff_of_true rfl hm
  · exact iff_of_false Bool.false_ne_true hm

theorem Rescored.between {σ' : Store} (h : Rescored κ (target κ σ) σ σ') : Between κ σ σ' := by
  refine ⟨fun k hk => h.others k (hk κ), h.sorted, fun m => ?_⟩
  rw [h.score, target]
  split_ifs with hl
  · cases hs : σ.zscore κ.index m with
    | some x => exact .inl rfl
    | none =>
      refine .inr (.inl ⟨hl, fun ho => ?_, rfl⟩)
      rw [mem_indexSet, hs] at ho
      cases ho
  · exact .inr (.inr ⟨hl, rfl⟩)

/-- Added, removed and total, as sizes of sets. -/
theorem Scans.result_eq {zscanned scanned : List Str} (hs : Scans κ σ zscanned scanned) :
    result zscanned.dedup (liveNames scanned) =
      ⟨(liveSet κ σ \ indexSet κ σ).card, (indexSet κ σ \ liveSet κ σ).card, (liveSet κ σ).card⟩ := by
  have hlive : (liveNames scanned).Nodup := List.nodup_dedup _
  have hindexed : zscanned.dedup.Nodup := List.nodup_dedup _
  have hadd : (toAdd zscanned.dedup (liveNames scanned)).toFinset = liveSet κ σ \ indexSet κ σ := by
    ext m
    rw [List.mem_toFinset, toAdd, List.mem_filter, decide_eq_true_eq, hs.mem_indexed, hs.mem_live, Finset.mem_sdiff]
  have hremove : (toRemove zscanned.dedup (liveNames scanned)).toFinset = indexSet κ σ \ liveSet κ σ := by
    ext m
    rw [List.mem_toFinset, toRemove, List.mem_filter, decide_eq_true_eq, hs.mem_indexed, hs.mem_live,
      Finset.mem_sdiff]
  have htotal : (liveNames scanned).toFinset = liveSet κ σ := by
    ext m
    rw [List.mem_toFinset, hs.mem_live]
  have hnodupAdd : (toAdd zscanned.dedup (liveNames scanned)).Nodup := hlive.filter _
  have hnodupRemove : (toRemove zscanned.dedup (liveNames scanned)).Nodup := hindexed.filter _
  rw [← hadd, ← hremove, ← htotal, List.toFinset_card_of_nodup hnodupAdd,
    List.toFinset_card_of_nodup hnodupRemove, List.toFinset_card_of_nodup hlive]
  rfl

/-- A rebuild of an index that holds the live names writes nothing. -/
theorem writes_current {zscanned scanned : List Str} (hs : Scans κ σ zscanned scanned)
    (h : indexSet κ σ = liveSet κ σ) : writes κ.index zscanned.dedup (liveNames scanned) = [] := by
  have hadd : toAdd zscanned.dedup (liveNames scanned) = [] := by
    refine List.filter_eq_nil_iff.mpr fun m hm => ?_
    rw [decide_eq_true_eq, hs.mem_indexed, h, ← hs.mem_live]
    exact not_not.mpr hm
  have hremove : toRemove zscanned.dedup (liveNames scanned) = [] := by
    refine List.filter_eq_nil_iff.mpr fun m hm => ?_
    rw [decide_eq_true_eq, hs.mem_live, ← h, ← hs.mem_indexed]
    exact not_not.mpr hm
  rw [writes, hadd, hremove]
  rfl

end Complete

/-- What a rebuild of `σ` with the server to itself must come to, and what a second one must do. -/
structure ExactRebuild (κ : Catalog) (σ σ' : Store) (r : IndexRebuildResult) : Prop where
  members : indexSet κ σ' = liveSet κ σ
  counts : r = ⟨(liveSet κ σ \ indexSet κ σ).card, (indexSet κ σ \ liveSet κ σ).card, (liveSet κ σ).card⟩
  cardinality : r.total = (σ'.zmembers κ.index).length
  kept : ∀ m ∈ liveSet κ σ, m ∈ indexSet κ σ → σ'.zscore κ.index m = σ.zscore κ.index m
  added : ∀ m ∈ liveSet κ σ, m ∉ indexSet κ σ → σ'.zscore κ.index m = some indexScore
  again : ∀ now zscanned scanned, Scans κ σ' zscanned scanned →
    rebuild κ now zscanned scanned σ' = (σ', ⟨0, 0, r.total⟩)

/-- Whatever the scans repeat and in whatever order, a quiet rebuild computes the exact index, and a second
one finds nothing to do. -/
theorem quiet_rebuild_exact (κ : Catalog) (now : Time) (σ : Store) (hσ : Legible κ σ)
    (zscanned scanned : List Str) (hs : Scans κ σ zscanned scanned) :
    ExactRebuild κ σ (rebuild κ now zscanned scanned σ).1 (rebuild κ now zscanned scanned σ).2 := by
  have hr := hσ.rebuild now hs
  have hmembers := hr.indexSet_eq
  have hcounts : (rebuild κ now zscanned scanned σ).2 = _ := hs.result_eq
  generalize (rebuild κ now zscanned scanned σ).1 = σ' at hr hmembers
  generalize (rebuild κ now zscanned scanned σ).2 = r at hcounts
  subst hcounts
  refine ⟨hmembers, rfl, ?_, fun m hl ho => ?_, fun m hl ho => ?_, fun now' zs sc hs' => ?_⟩
  · rw [← List.toFinset_card_of_nodup (zmembers_nodup σ' κ.index)]
    exact congrArg Finset.card hmembers.symm
  · exact hr.between.kept hl ho
  · rw [hr.score, target, if_pos hl]
    rw [mem_indexSet, Option.not_isSome_iff_eq_none] at ho
    rw [ho]
    rfl
  · have hlive := hr.between.liveSet_eq κ
    have hcurrent : indexSet κ σ' = liveSet κ σ' := hmembers.trans hlive.symm
    refine Prod.ext ?_ ?_
    · show applyAll _ σ' = σ'
      rw [writes_current hs' hcurrent]
      rfl
    · refine hs'.result_eq.trans ?_
      rw [hcurrent, Finset.sdiff_self, Finset.card_empty, hlive]

/-- A docking at Sol, and a name in the index that nothing stands for. -/
def solStale : Store :=
  (Cmd.zadd systemIndex [(lit "ACHENAR", 7)]).apply 0 (recordAll asciiCasing (dockedAt "Sol") ∅)

theorem legible_solStale (κ : Catalog) : Legible κ solStale := by
  have hkeys : ∀ k ∈ solStale.keys, WellFormed k := by decide +kernel
  have hmembers : ∀ m ∈ solStale.zmembers κ.index, WellFormed m := by cases κ <;> decide +kernel
  refine ⟨fun k hk => hkeys k (Store.mem_keys hk), hmembers, ?_⟩
  cases κ <;> exact ⟨_, rfl⟩

theorem quiet_rebuild_exact_sol :
    (rebuild .system 0 (solStale.zmembers systemIndex) (solStale.keys.filter (scannable .system solStale))
        solStale).2 = ⟨0, 1, 1⟩ ∧
      ExactRebuild .system solStale
        (rebuild .system 0 (solStale.zmembers systemIndex) (solStale.keys.filter (scannable .system solStale))
          solStale).1
        (rebuild .system 0 (solStale.zmembers systemIndex) (solStale.keys.filter (scannable .system solStale))
          solStale).2 :=
  ⟨by decide +kernel, quiet_rebuild_exact .system 0 solStale (legible_solStale _) _ _ (scans_exist .system solStale)⟩

/-! Any number of interrupted rebuilds. -/

/-- Stores left by rebuilds of one index, each of them complete or not. -/
inductive Attempts (κ : Catalog) (σ₀ : Store) : Store → Prop
  | refl : Attempts κ σ₀ σ₀
  | attempt {σ : Store} (h : Attempts κ σ₀ σ) (now : Time) (a : Attempt)
      (hs : Scans κ σ a.zscanned a.scanned) : Attempts κ σ₀ (rebuildAsync κ now a σ).1

/-- The scans of a pass over both indexes. -/
structure PassScans (now : Time) (systems carriers : Attempt) (σ : Store) : Prop where
  system : Scans .system σ systems.zscanned systems.scanned
  carrier : Scans .carrier (rebuildAsync .system now systems σ).1 carriers.zscanned carriers.scanned

/-- Stores left by passes over both indexes, each of them complete or not. -/
inductive Passes (σ₀ : Store) : Store → Prop
  | refl : Passes σ₀ σ₀
  | pass {σ : Store} (h : Passes σ₀ σ) (now : Time) (systems carriers : Attempt)
      (hs : PassScans now systems carriers σ) : Passes σ₀ (rebuildBoth now systems carriers σ).1

/-- No live name of the old index is missing, and no name is there that was neither in it nor is live. -/
structure Spared (κ : Catalog) (σ₀ σ : Store) : Prop where
  kept : indexSet κ σ₀ ∩ liveSet κ σ₀ ⊆ indexSet κ σ
  bounded : indexSet κ σ ⊆ indexSet κ σ₀ ∪ liveSet κ σ₀

/-- The index of `σ` is the one an uninterrupted rebuild of `σ₀` produces. -/
def Rebuilt (κ : Catalog) (σ₀ σ : Store) : Prop :=
  ∀ now zscanned scanned, Scans κ σ₀ zscanned scanned →
    ∀ m, σ.zscore κ.index m = (rebuild κ now zscanned scanned σ₀).1.zscore κ.index m

section Retries

variable {κ : Catalog} {σ₀ σ : Store} {now : Time}

theorem Between.spared (h : Between κ σ₀ σ) : Spared κ σ₀ σ := by
  refine ⟨fun m hm => ?_, fun m hm => ?_⟩
  · obtain ⟨ho, hl⟩ := Finset.mem_inter.mp hm
    rw [mem_indexSet, h.kept hl ho]
    exact mem_indexSet.mp ho
  · rw [mem_indexSet] at hm
    rw [Finset.mem_union]
    rcases h.score m with he | ⟨hl, -, -⟩ | ⟨-, hn⟩
    · exact .inl (mem_indexSet.mpr (he ▸ hm))
    · exact .inr hl
    · rw [hn] at hm
      cases hm

/-- A rebuild aims at the same index from wherever the earlier ones stopped. -/
theorem Between.target_eq (h : Between κ σ₀ σ) (m : Str) : target κ σ m = target κ σ₀ m := by
  rw [target, target, h.liveSet_eq]
  split_ifs with hl
  · rcases h.score m with he | ⟨-, hn, he⟩ | ⟨hn, -⟩
    · rw [he]
    · rw [mem_indexSet, Option.not_isSome_iff_eq_none] at hn
      rw [he, hn]
      rfl
    · exact absurd hl hn
  · rfl

theorem Attempts.between (hσ : Legible κ σ₀) (h : Attempts κ σ₀ σ) : Between κ σ₀ σ := by
  induction h with
  | refl => exact between_refl hσ.sorted
  | attempt h now a hs ih => exact ih.rebuildAsync hσ hs

theorem writeChunks_done {todo : List Cmd} {endings : List Ending} (h : ∀ e ∈ endings, e = .done) :
    writeChunks now todo endings σ = (applyAll (todo.map fun c => (now, c)) σ, .ok ()) := by
  induction todo generalizing endings σ with
  | nil => rfl
  | cons c todo ih =>
    have hhead : endings.headD .done = .done := by
      cases endings with
      | nil => rfl
      | cons e endings => exact h e List.mem_cons_self
    rw [SearchIndexMaintainer.writeChunks, hhead]
    exact ih fun e he => h e (List.mem_of_mem_tail he)

theorem rebuildAsync_done {a : Attempt} (h : a.Uninterrupted) :
    rebuildAsync κ now a σ = ((rebuild κ now a.zscanned a.scanned σ).1,
      .ok (rebuild κ now a.zscanned a.scanned σ).2) := by
  obtain ⟨h₁, h₂, h₃⟩ := h
  rw [SearchIndexMaintainer.rebuildAsync, h₁, h₂]
  simp only [writeChunks_done h₃]
  rfl

theorem Legible.complete (hσ : Legible κ σ) {a : Attempt} (hs : Scans κ σ a.zscanned a.scanned)
    (hu : a.Uninterrupted) : (∃ r, (rebuildAsync κ now a σ).2 = .ok r) ∧
      Rescored κ (target κ σ) σ (rebuildAsync κ now a σ).1 := by
  rw [rebuildAsync_done hu]
  exact ⟨⟨_, rfl⟩, hσ.rebuild now hs⟩

/-- After it completes, the index is the one the first rebuild would have produced. -/
theorem Between.rebuilt (h : Between κ σ₀ σ) (hσ : Legible κ σ₀) {σ' : Store}
    (hr : ∀ m, σ'.zscore κ.index m = target κ σ m) : Rebuilt κ σ₀ σ' := by
  intro now zscanned scanned hs m
  rw [(hσ.rebuild now hs).score, hr, h.target_eq]

theorem rebuildBoth_cases (now : Time) (systems carriers : Attempt) (σ : Store) :
    (∃ e, (rebuildAsync .system now systems σ).2 = .error e ∧
      rebuildBoth now systems carriers σ = ((rebuildAsync .system now systems σ).1, .error e)) ∨
    (∃ r e, (rebuildAsync .system now systems σ).2 = .ok r ∧
      (rebuildAsync .carrier now carriers (rebuildAsync .system now systems σ).1).2 = .error e ∧
      rebuildBoth now systems carriers σ =
        ((rebuildAsync .carrier now carriers (rebuildAsync .system now systems σ).1).1, .error e)) ∨
    ∃ r r', (rebuildAsync .system now systems σ).2 = .ok r ∧
      (rebuildAsync .carrier now carriers (rebuildAsync .system now systems σ).1).2 = .ok r' ∧
      rebuildBoth now systems carriers σ =
        ((rebuildAsync .carrier now carriers (rebuildAsync .system now systems σ).1).1, .ok (r, r')) := by
  unfold rebuildBoth
  rcases hp : rebuildAsync .system now systems σ with ⟨σ₁, e | r⟩
  · exact .inl ⟨e, rfl, rfl⟩
  · rcases hq : rebuildAsync .carrier now carriers σ₁ with ⟨σ₂, e | r'⟩
    · exact .inr (.inl ⟨r, e, rfl, rfl, by simp only [hq]⟩)
    · exact .inr (.inr ⟨r, r', rfl, rfl, by simp only [hq]⟩)

theorem Passes.between (hσ : ∀ κ, Legible κ σ₀) (h : Passes σ₀ σ) : ∀ κ, Between κ σ₀ σ := by
  induction h with
  | refl => exact fun κ => between_refl (hσ κ).sorted
  | pass h now systems carriers hs ih =>
    have hsys : ∀ κ, Between κ σ₀ (rebuildAsync .system now systems _).1 := fun κ => by
      cases κ with
      | system => exact (ih .system).rebuildAsync (hσ _) hs.system
      | carrier => exact (ih .carrier).rebuildOther (by decide) (ih .system) (hσ _) hs.system
    have hcar : ∀ κ, Between κ σ₀ (rebuildAsync .carrier now carriers (rebuildAsync .system now systems _).1).1 :=
      fun κ => by
        cases κ with
        | system => exact (hsys .system).rebuildOther (by decide) (hsys .carrier) (hσ _) hs.carrier
        | carrier => exact (hsys .carrier).rebuildAsync (hσ _) hs.carrier
    intro κ
    rcases rebuildBoth_cases now systems carriers _ with ⟨e, -, he⟩ | ⟨r, e, -, -, he⟩ | ⟨r, r', -, -, he⟩
    · rw [he]
      exact hsys κ
    · rw [he]
      exact hcar κ
    · rw [he]
      exact hcar κ

/-- A pass that completes, after any number of others. -/
theorem Passes.complete (hσ : ∀ κ, Legible κ σ₀) (h : Passes σ₀ σ) {systems carriers : Attempt}
    (hs : PassScans now systems carriers σ) (hsu : systems.Uninterrupted) (hcu : carriers.Uninterrupted) :
    (∃ r, (rebuildBoth now systems carriers σ).2 = .ok r) ∧
      ∀ κ, Rebuilt κ σ₀ (rebuildBoth now systems carriers σ).1 := by
  have hb := h.between hσ
  obtain ⟨⟨r, hr⟩, hsys⟩ := ((hσ .system).between (hb .system)).complete hs.system hsu
  have hb₁ : Between .carrier σ₀ (rebuildAsync .system now systems σ).1 :=
    (hb .carrier).rebuildOther (by decide) (hb .system) (hσ _) hs.system
  obtain ⟨⟨r', hr'⟩, hcar⟩ := ((hσ .carrier).between hb₁).complete hs.carrier hcu
  rcases rebuildBoth_cases now systems carriers σ with
    ⟨e, he, -⟩ | ⟨r₀, e, -, he, -⟩ | ⟨r₀, r₁, -, -, hboth⟩
  · rw [hr] at he
    cases he
  · rw [hr'] at he
    cases he
  · rw [hboth]
    refine ⟨⟨_, rfl⟩, fun κ => ?_⟩
    cases κ with
    | system =>
      refine (hb .system).rebuilt (hσ _) fun m => ?_
      rw [← hsys.score, Store.zscore, Store.val, hcar.others _ (by decide), Store.zscore, Store.val]
    | carrier => exact hb₁.rebuilt (hσ _) hcar.score

end Retries

/-- However often and wherever rebuilds were stopped, no live name of the index is lost and none appears that is
not live, and a rebuild that completes ends with the index of an uninterrupted one; so for the pair of indexes,
where success is reported only if both rebuilds completed. -/
theorem interrupted_rebuild_harmless (σ₀ : Store) (hσ : ∀ κ, Legible κ σ₀) :
    (∀ κ σ, Attempts κ σ₀ σ → Spared κ σ₀ σ ∧
      ∀ now a, Scans κ σ a.zscanned a.scanned → a.Uninterrupted →
        (∃ r, (rebuildAsync κ now a σ).2 = .ok r) ∧ Rebuilt κ σ₀ (rebuildAsync κ now a σ).1) ∧
    (∀ σ, Passes σ₀ σ → (∀ κ, Spared κ σ₀ σ) ∧
      ∀ now systems carriers, PassScans now systems carriers σ → systems.Uninterrupted →
        carriers.Uninterrupted → (∃ r, (rebuildBoth now systems carriers σ).2 = .ok r) ∧
          ∀ κ, Rebuilt κ σ₀ (rebuildBoth now systems carriers σ).1) ∧
    ∀ now systems carriers σ,
      (((MaintenanceService.rebuildAsync now systems carriers ⟨σ, false⟩).1.hasSucceeded = true ∨
        (runRebuildCommand now systems carriers σ).2 = 0) →
        (∃ r, (rebuildAsync .system now systems σ).2 = .ok r) ∧
        ∃ r, (rebuildAsync .carrier now carriers (rebuildAsync .system now systems σ).1).2 = .ok r) ∧
      (MaintenanceService.rebuildAsync now systems carriers ⟨σ, false⟩).1.store =
        (rebuildBoth now systems carriers σ).1 ∧
      (runRebuildCommand now systems carriers σ).1 = (rebuildBoth now systems carriers σ).1 := by
  refine ⟨fun κ σ h => ?_, fun σ h => ?_, fun now systems carriers σ => ?_⟩
  · have hb := h.between (hσ κ)
    refine ⟨hb.spared, fun now a hs hu => ?_⟩
    obtain ⟨hr, hscore⟩ := ((hσ κ).between hb).complete hs hu
    exact ⟨hr, hb.rebuilt (hσ κ) hscore.score⟩
  · exact ⟨fun κ => (h.between hσ κ).spared, fun now systems carriers hs => h.complete hσ hs⟩
  · unfold MaintenanceService.rebuildAsync runRebuildCommand
    rcases rebuildBoth_cases now systems carriers σ with
      ⟨e, -, he⟩ | ⟨r, e, -, -, he⟩ | ⟨r, r', hr, hr', he⟩
    · rw [he]
      cases e <;> simp
    · rw [he]
      cases e <;> simp
    · rw [he]
      exact ⟨fun _ => ⟨⟨r, hr⟩, r', hr'⟩, rfl, rfl⟩

/-- A rebuild of Sol's index whose only chunk takes effect although the call fails. -/
def lostReply : Attempt :=
  ⟨solStale.zmembers systemIndex, .done, solStale.keys.filter (scannable .system solStale), .done, [.failed true]⟩

theorem interrupted_rebuild_harmless_sol :
    (rebuildAsync .system 0 lostReply solStale).2 = .error .failed ∧
      Spared .system solStale (rebuildAsync .system 0 lostReply solStale).1 :=
  ⟨by decide +kernel, ((interrupted_rebuild_harmless solStale legible_solStale).1 .system _
    (.attempt .refl 0 lostReply (scans_exist .system solStale))).1⟩

end EliteEvents

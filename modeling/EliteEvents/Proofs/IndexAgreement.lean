import EliteEvents.Proofs.Catalog

/-! The index the writer maintains inline and the one a rebuild computes. Without expiry they
agree exactly when no recorded name contains the separator: such a name is indexed whole but
read back from its key only up to the separator. -/

namespace EliteEvents

open Text Redis RedisKeys SearchIndexMaintainer

/-- Two scans that ran while nothing else did: every element, in any order and any number of
times, and nothing else. -/
structure Scans (κ : Catalog) (σ : Store) (zscanned scanned : List Str) : Prop where
  zscan : ∀ m, m ∈ zscanned ↔ m ∈ σ.zmembers κ.index
  scan : ∀ k, k ∈ scanned ↔ scannable κ σ k = true

theorem scans_exist (κ : Catalog) (σ : Store) :
    Scans κ σ (σ.zmembers κ.index) (σ.keys.filter (scannable κ σ)) := by
  refine ⟨fun m => Iff.rfl, fun k => ?_⟩
  rw [List.mem_filter]
  refine and_iff_right_of_imp fun h => ?_
  rw [scannable, Bool.and_eq_true] at h
  exact Store.mem_keys h.1

/-- The rebuild changed nothing and counted the members the index had. -/
def Neutral (κ : Catalog) (σ : Store) (r : IndexRebuildResult) : Prop :=
  r.added = 0 ∧ r.removed = 0 ∧ r.total = (σ.zmembers κ.index).length

/-- Between the calls and the store: what is indexed was recorded, and what was recorded is
indexed and has its data key; every other key a scan can return is filed under a recorded name. -/
structure Indexed (I : Casing) (κ : Catalog) (calls : List Recording) (σ : Store) : Prop where
  index : ∀ m, m ∈ σ.zmembers κ.index ↔ ∃ r ∈ calls, r.call.recorded I κ = some m
  data : ∀ r ∈ calls, ∀ m, r.call.recorded I κ = some m → (σ.val (κ.dataKey m)).isSome
  filed : ∀ k, scannable κ σ k = true → ∃ e : Entity, ∃ s, k = wire e.key ∧ e.name κ = some s ∧
    ∃ r ∈ calls, r.call.recorded I κ = some (wire s.val)

section Recorded

variable (I : Casing) (κ : Catalog) (calls : List Recording)

theorem sends_of_mem_commands {I : Casing} {calls : List Recording} {p : Time × Cmd}
    (hp : p ∈ calls.flatMap (Recording.commands I)) :
    ∃ r ∈ calls, Sends I r.call p.2 := by
  obtain ⟨r, hr, hp⟩ := List.mem_flatMap.mp hp
  obtain ⟨c, hc, rfl⟩ := List.mem_map.mp hp
  exact ⟨r, hr, sends_of_mem_batch hc⟩

theorem recordAll_indexed : Indexed I κ calls (recordAll I calls ∅) := by
  have hschem : ∀ p ∈ calls.flatMap (Recording.commands I), Schematic p.2 := fun p hp =>
    (sends_of_mem_commands hp).elim fun r hr => hr.2.schematic
  have hmem : ∀ r ∈ calls, ∀ c ∈ DockingWriter.batch I r.nextExpiration r.call,
      (r.now, c) ∈ calls.flatMap (Recording.commands I) := fun r hr c hc =>
    List.mem_flatMap.mpr ⟨r, hr, List.mem_map_of_mem hc⟩
  have hadds : ∀ e : Entity, e.encode ≠ .systemVisits →
      ∀ p ∈ calls.flatMap (Recording.commands I), p.2.OnlyAdds p.1 (wire e.key) := fun e he p hp =>
    (sends_of_mem_commands hp).elim fun r hr => hr.2.onlyAdds he p.1
  refine ⟨fun m => ?_, fun r hr m hm => ?_, fun k hk => ?_⟩
  · have hadd := hadds κ.indexEntity (by cases κ <;> simp [Catalog.indexEntity, Entity.encode])
    rw [wire_index] at hadd
    rw [Store.mem_zmembers, recordAll, isMember_applyAll hschem typed_empty hadd]
    constructor
    · rintro (h | ⟨p, hp, hm⟩)
      · cases h
      · obtain ⟨r, hr, hs⟩ := sends_of_mem_commands hp
        exact ⟨r, hr, hs.addsMember_index hm⟩
    · rintro ⟨r, hr, hm⟩
      obtain ⟨-, -, -, c, hc, hadd⟩ := exists_of_recorded hm r.nextExpiration
      exact .inr ⟨_, hmem r hr c hc, hadd⟩
  · obtain ⟨c, hc, ht, -⟩ := exists_of_recorded hm r.nextExpiration
    obtain ⟨e, he, hname⟩ := (sends_of_mem_batch hc).written (k := κ.dataKey m) (by
      cases c with
      | set k v ttl => cases ht
      | _ => exact ht)
    have hv : e.encode ≠ .systemVisits := by
      intro hv
      have : (κ.dataKey m).take 7 = lit "systems" := by rw [he, take_wire_key, ← tag_encode, hv]; rfl
      cases κ
      · exact absurd (show lit "system:" = lit "systems" from this) (by decide)
      · exact absurd (show lit "carrier" = lit "systems" from this) (by decide)
    rw [he]
    refine isSome_applyAll hschem typed_empty (hadds e hv) (fun p hp => ?_)
      (.inr ⟨_, hmem r hr c hc, by rw [← he]; exact ht⟩)
    exact (sends_of_mem_commands hp).elim fun r hr => hr.2.nonvoid
  · simp only [scannable, Bool.and_eq_true] at hk
    rcases written_of_applyAll hschem typed_empty hk.1 with h | ⟨p, hp, hw⟩
    · cases h
    · obtain ⟨r, hr, hs⟩ := sends_of_mem_commands hp
      obtain ⟨e, rfl, hname⟩ := hs.written hw
      obtain ⟨s, hs⟩ := name_of_livePattern κ hk.2
      exact ⟨e, s, rfl, hs, r, hr, hname κ s hs⟩

end Recorded

theorem mem_liveNames {keys : List Str} {m : Str} :
    m ∈ liveNames keys ↔ ∃ k ∈ keys, extractName k = some m := by
  rw [liveNames, List.mem_dedup, List.mem_filterMap]

section Rebuild

variable {I : Casing} {κ : Catalog} {calls : List Recording} {σ : Store}
  {zscanned scanned : List Str}

/-- With no separator in a recorded name, the scanned names are the indexed ones. -/
theorem Indexed.mem_liveNames_iff (h : Indexed I κ calls σ) (hs : Scans κ σ zscanned scanned)
    (hsep : ∀ r ∈ calls, ∀ m, r.call.recorded I κ = some m → colon ∉ m) (m : Str) :
    m ∈ liveNames scanned ↔ m ∈ zscanned := by
  rw [mem_liveNames, hs.zscan, h.index]
  constructor
  · rintro ⟨k, hk, hm⟩
    obtain ⟨e, s, rfl, hname, r, hr, hrec⟩ := h.filed k ((hs.scan k).mp hk)
    rw [extractName_key κ hname (hsep r hr _ hrec)] at hm
    cases hm
    exact ⟨r, hr, hrec⟩
  · rintro ⟨r, hr, hm⟩
    refine ⟨κ.dataKey m, (hs.scan _).mpr ?_, extractName_dataKey κ (hsep r hr m hm)⟩
    rw [scannable, h.data r hr m hm, livePattern_dataKey κ (wellFormed_of_recorded hm)]
    rfl

/-- A rebuild of this catalog alone is neutral exactly when no recorded name has the separator. -/
theorem Indexed.neutral_iff (h : Indexed I κ calls σ) (hs : Scans κ σ zscanned scanned)
    (now : Time) :
    Neutral κ σ (rebuild κ now zscanned scanned σ).2 ↔
      ∀ r ∈ calls, ∀ m, r.call.recorded I κ = some m → colon ∉ m := by
  show Neutral κ σ (result zscanned.dedup (liveNames scanned)) ↔ _
  constructor
  · rintro ⟨-, hrem, -⟩ r hr m hm hc
    -- the name is indexed whole, and no name read from a key is it
    have hin : m ∈ toRemove zscanned.dedup (liveNames scanned) := by
      rw [toRemove, List.mem_filter, List.mem_dedup, hs.zscan, h.index]
      refine ⟨⟨r, hr, hm⟩, decide_eq_true fun hl => ?_⟩
      obtain ⟨k, -, hk⟩ := mem_liveNames.mp hl
      exact colon_notMem_of_extractName hk hc
    rw [List.eq_nil_of_length_eq_zero (show (toRemove _ _).length = 0 from hrem)] at hin
    cases hin
  · intro hsep
    have hlive := h.mem_liveNames_iff hs hsep
    refine ⟨?_, ?_, ?_⟩
    · show (toAdd _ _).length = 0
      rw [List.length_eq_zero_iff, toAdd, List.filter_eq_nil_iff]
      intro m hm
      simp [(hlive m).mp hm]
    · show (toRemove _ _).length = 0
      rw [List.length_eq_zero_iff, toRemove, List.filter_eq_nil_iff]
      intro m hm
      simp [(hlive m).mpr (List.mem_dedup.mp hm)]
    · have hnd : (liveNames scanned).Nodup := List.nodup_dedup _
      refine ((List.perm_ext_iff_of_nodup hnd (zmembers_nodup σ _)).mpr fun m => ?_).length_eq
      exact (hlive m).trans (hs.zscan m)

end Rebuild

/-- A rebuild touches no key but its index. -/
theorem val_rebuild (κ : Catalog) (now : Time) (zscanned scanned : List Str) (σ : Store) {K : Str}
    (hK : K ≠ κ.index) : (rebuild κ now zscanned scanned σ).1.val K = σ.val K := by
  have happly : ∀ c ∈ writes κ.index zscanned.dedup (liveNames scanned), ∀ σ : Store,
      (c.apply now σ).val K = σ.val K := by
    intro c hc σ
    have hadd : c.OnlyAdds now K ∧ c.target ≠ some K := by
      rcases mem_writes hc with ⟨names, rfl, -⟩ | ⟨names, rfl, -⟩
      · exact ⟨trivial, fun h => hK (Option.some.inj h).symm⟩
      · exact ⟨Ne.symm hK, by simp [Cmd.target]⟩
    unfold Cmd.apply
    split
    · rename_i σ' hr
      exact run_val_of_target_ne hr hadd.1 hadd.2
    · rfl
  show (applyAll _ σ).val K = _
  unfold applyAll
  rw [List.foldl_map]
  generalize writes κ.index zscanned.dedup (liveNames scanned) = cs at happly
  induction cs generalizing σ with
  | nil => rfl
  | cons c cs ih =>
    rw [List.foldl_cons, ih _ fun d hd => happly d (by simp [hd]), happly c (by simp)]

/-- No separator in the name a call records. -/
def WriterCall.SeparatorFree (I : Casing) : WriterCall → Prop
  | .stationDocking s _ _ _ => colon ∉ normalizeSystem I s
  | .fleetCarrierDocking c _ => colon ∉ normalizeCarrier I c
  | .systemVisit _ => True

theorem separatorFree_iff (I : Casing) (call : WriterCall) :
    call.SeparatorFree I ↔ ∀ κ m, call.recorded I κ = some m → colon ∉ m := by
  cases call with
  | fleetCarrierDocking c t =>
    refine ⟨fun h κ m hm => ?_, fun h => ?_⟩
    · cases κ <;> cases hm
      exact fun hc => h (colon_wire.mp hc)
    · exact fun hc => h .carrier _ rfl (colon_wire.mpr hc)
  | stationDocking s x y t =>
    refine ⟨fun h κ m hm => ?_, fun h => ?_⟩
    · cases κ <;> cases hm
      exact fun hc => h (colon_wire.mp hc)
    · exact fun hc => h .system _ rfl (colon_wire.mpr hc)
  | systemVisit s =>
    refine ⟨fun _ κ m hm => ?_, fun _ => trivial⟩
    cases κ <;> cases hm

/-- The carrier side of the store is not the system rebuild's business. -/
theorem Indexed.after_systemRebuild {I : Casing} {calls : List Recording} {σ σ' : Store}
    (h : Indexed I .carrier calls σ) (hv : ∀ K, K ≠ Catalog.system.index → σ'.val K = σ.val K) :
    Indexed I .carrier calls σ' ∧
      σ'.zmembers Catalog.carrier.index = σ.zmembers Catalog.carrier.index := by
  have hz : σ'.zmembers Catalog.carrier.index = σ.zmembers Catalog.carrier.index := by
    unfold Store.zmembers
    rw [hv _ (by decide)]
  have hd : ∀ m, Catalog.carrier.dataKey m ≠ Catalog.system.index := fun m hm =>
    absurd (congrArg (List.take 7) hm) (show lit "carrier" ≠ lit "index:s" by decide)
  refine ⟨⟨fun m => by rw [hz, h.index], fun r hr m hm => ?_, fun k hk => h.filed k ?_⟩, hz⟩
  · rw [hv _ (hd m)]
    exact h.data r hr m hm
  · have hne : k ≠ Catalog.system.index := by
      rintro rfl
      simp only [scannable, Bool.and_eq_true] at hk
      exact absurd hk.2 (by decide)
    rwa [scannable, hv k hne] at hk

/-- Rebuilding both indexes after any calls is neutral exactly when no call recorded a name
with the separator in it. -/
theorem rebuilds_neutral_iff (I : Casing) (calls : List Recording) (now₁ now₂ : Time)
    (zscanned₁ scanned₁ zscanned₂ scanned₂ : List Str)
    (hs₁ : Scans .system (recordAll I calls ∅) zscanned₁ scanned₁)
    (hs₂ : Scans .carrier (rebuild .system now₁ zscanned₁ scanned₁ (recordAll I calls ∅)).1
      zscanned₂ scanned₂) :
    (Neutral .system (recordAll I calls ∅)
        (rebuild .system now₁ zscanned₁ scanned₁ (recordAll I calls ∅)).2 ∧
      Neutral .carrier (recordAll I calls ∅)
        (rebuild .carrier now₂ zscanned₂ scanned₂
          (rebuild .system now₁ zscanned₁ scanned₁ (recordAll I calls ∅)).1).2) ↔
      ∀ r ∈ calls, r.call.SeparatorFree I := by
  have hcar := (recordAll_indexed I .carrier calls).after_systemRebuild
    fun K hK => val_rebuild .system now₁ zscanned₁ scanned₁ (recordAll I calls ∅) hK
  have h₁ := (recordAll_indexed I .system calls).neutral_iff hs₁ now₁
  have h₂ := hcar.1.neutral_iff hs₂ now₂
  rw [Neutral, hcar.2, ← Neutral] at h₂
  rw [h₁, h₂]
  simp only [separatorFree_iff]
  constructor
  · rintro ⟨hsys, hcar⟩ r hr κ m hm
    cases κ with
    | system => exact hsys r hr m hm
    | carrier => exact hcar r hr m hm
  · exact fun h => ⟨fun r hr => h r hr .system, fun r hr => h r hr .carrier⟩

/-- One docking at a station of the given system. -/
def dockedAt (systemName : String) : List Recording :=
  [⟨.stationDocking (lit systemName) (lit "Abraham Lincoln") (lit "Orbis") .minValue, 0, 0⟩]

theorem rebuilds_neutral_sol :
    let σ := recordAll asciiCasing (dockedAt "Sol") ∅
    let r := rebuild .system 0 (σ.zmembers systemIndex) (σ.keys.filter (scannable .system σ)) σ
    Neutral .system σ r.2 ∧ Neutral .carrier σ (rebuild .carrier 0
      (r.1.zmembers carrierIndex) (r.1.keys.filter (scannable .carrier r.1)) r.1).2 := by
  refine (rebuilds_neutral_iff asciiCasing (dockedAt "Sol") 0 0 _ _ _ _ (scans_exist _ _)
    (scans_exist _ _)).mpr ?_
  intro r hr
  rw [List.mem_singleton.mp hr]
  show colon ∉ normalizeSystem asciiCasing (lit "Sol")
  decide

/-- The system `A:B` is indexed under its name and read back as `A`: the rebuild adds the one
and removes the other. -/
theorem rebuild_cuts_name :
    let σ := recordAll asciiCasing (dockedAt "A:B") ∅
    ∃ zscanned scanned, Scans .system σ zscanned scanned ∧
      (rebuild .system 0 zscanned scanned σ).2 = ⟨1, 1, 1⟩ ∧
      ¬ Neutral .system σ (rebuild .system 0 zscanned scanned σ).2 := by
  refine ⟨_, _, scans_exist .system _, by decide, ?_⟩
  rintro ⟨hadded, -⟩
  revert hadded
  decide

end EliteEvents

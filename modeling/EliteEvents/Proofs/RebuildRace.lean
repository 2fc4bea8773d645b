import EliteEvents.Proofs.Catalog

/-! A rebuild that runs while the writers do. A name is lost if its data key had lapsed when
the scan went by and is made anew before the removal: the name was in the snapshot, so the
snapshot does not protect it. Runs without such a step lose no live name. -/

namespace EliteEvents

open Text Redis RedisKeys SearchIndexMaintainer

/-- The members a command removes. -/
def removals : Cmd → List Str
  | .zrem _ ms => ms
  | _ => []

/-- The names a rebuild may still remove. -/
def Phase.doomed : Phase → List Str
  | .scan indexed _ keys => toRemove indexed (keys.filterMap extractName)
  | .write todo _ => todo.flatMap removals
  | .idle | .snapshot _ _ | .done _ => []

/-- A writer's command makes the data key of a name the rebuild may still remove, where there
was none. -/
def recreates (κ : Catalog) (w : RebuildWorld) : RebuildAction → Bool
  | .command i =>
    match w.batches[i]? with
    | some (c :: _) => w.phase.doomed.any fun X =>
        decide (c.target = some (κ.dataKey X)) && (w.store.val (κ.dataKey X)).isNone
    | _ => false
  | _ => false

/-- A run of actions none of which recreates the key of a doomed name. -/
def undisturbed (I : Casing) (κ : Catalog) : RebuildWorld → List RebuildAction → Bool
  | _, [] => true
  | w, a :: as => !recreates κ w a &&
    match w.step I κ a with
    | some w' => undisturbed I κ w' as
    | none => true

/-- What the writers and earlier rebuilds leave of an index: it has no deadline, and its
members are text that came over the wire. -/
structure Kept (κ : Catalog) (σ : Store) : Prop where
  typed : Typed σ
  lasting : σ.deadline κ.index = none
  members : ∀ m ∈ σ.zmembers κ.index, WellFormed m

section Keys

theorem take_dataKey (κ : Catalog) (X : Str) :
    (κ.dataKey X).take 7 = match κ with
      | .system => lit "system:"
      | .carrier => lit "carrier" := by
  cases κ <;> rfl

theorem index_ne_dataKey (κ κ' : Catalog) (X : Str) : κ.index ≠ κ'.dataKey X := by
  intro h
  have ht := congrArg (List.take 7) h
  rw [take_dataKey] at ht
  cases κ <;> cases κ' <;> exact absurd ht (by decide)

theorem count_dataKey (κ : Catalog) {X : Str} (hX : colon ∉ X) : (κ.dataKey X).count colon = 2 := by
  have h0 : X.count colon = 0 := List.count_eq_zero.mpr hX
  cases κ with
  | system =>
    rw [Catalog.dataKey, systemStations, List.count_append, List.count_append, h0]
    decide
  | carrier =>
    rw [Catalog.dataKey, carrierDays, List.count_append, List.count_append, h0]
    decide

theorem count_station (s x : Str) : 3 ≤ (station s x).count colon := by
  have h1 : (lit "system:").count colon = 1 := by decide
  have h2 : (lit ":station:").count colon = 2 := by decide
  rw [station, List.count_append, List.count_append, List.count_append, h1, h2]
  omega

theorem count_carrierDaily (c d : Str) : 3 ≤ (carrierDaily c d).count colon := by
  have h1 : (lit "carrier:").count colon = 1 := by decide
  have h2 : (lit ":daily:").count colon = 2 := by decide
  rw [carrierDaily, List.count_append, List.count_append, List.count_append, h1, h2]
  omega

theorem dataKey_injective (κ : Catalog) : Function.Injective κ.dataKey := by
  intro X Y h
  cases κ with
  | system => exact List.append_cancel_right (List.append_cancel_left h)
  | carrier => exact List.append_cancel_right (List.append_cancel_left h)

theorem wellFormed_of_dataKey {κ : Catalog} {X : Str} (h : WellFormed (κ.dataKey X)) :
    WellFormed X := by
  refine dataKey_injective κ ?_
  cases κ with
  | system => exact (wire_systemStations X).symm.trans h
  | carrier => exact (wire_carrierDays X).symm.trans h

/-- Only the sorted-set write of a call for this very name makes a data key. -/
theorem Sends.dataKey {I : Casing} {call : WriterCall} {c : Cmd} (h : Sends I call c)
    {κ : Catalog} {X : Str} (hX : colon ∉ X) (ht : c.target = some (κ.dataKey X)) :
    call.recorded I κ = some X ∧ ∃ es, c = .zadd (κ.dataKey X) es := by
  have hcount := count_dataKey κ hX
  have htag : ∀ {e : Entity}, wire e.key = κ.dataKey X → e.tag = (κ.dataKey X).take 7 := by
    intro e he
    rw [← take_wire_key, he]
  cases h with
  | countDay cr t =>
    have hk : wire (carrierDaily _ _) = κ.dataKey X := Option.some.inj ht
    rw [wire_carrierDaily] at hk
    have := count_carrierDaily (wire (I.upper cr).val) (wire t.date)
    rw [hk] at this
    omega
  | addDay cr t =>
    have hk : wire (carrierDays _) = κ.dataKey X := Option.some.inj ht
    cases κ with
    | system => exact absurd (htag (e := .carrierDays _) hk) (show lit "carrier" ≠ lit "system:" by decide)
    | carrier =>
      rw [wire_carrierDays] at hk
      exact ⟨congrArg some (dataKey_injective .carrier hk), _, by rw [← hk, ← wire_carrierDays]; rfl⟩
  | indexCarrier cr t =>
    have hk : wire carrierIndex = κ.dataKey X := Option.some.inj ht
    exact absurd ((wire_index .carrier).symm.trans hk) (index_ne_dataKey .carrier κ X)
  | countStation s x y t =>
    have hk : wire (station _ _) = κ.dataKey X := Option.some.inj ht
    rw [wire_station] at hk
    have := count_station (wire (I.upper s).val) (wire x)
    rw [hk] at this
    omega
  | describeStation s x y t =>
    have hk : wire (station _ _) = κ.dataKey X := Option.some.inj ht
    rw [wire_station] at hk
    have := count_station (wire (I.upper s).val) (wire x)
    rw [hk] at this
    omega
  | addStation s x y t =>
    have hk : wire (systemStations _) = κ.dataKey X := Option.some.inj ht
    cases κ with
    | system =>
      rw [wire_systemStations] at hk
      exact ⟨congrArg some (dataKey_injective .system hk), _,
        by rw [← hk, ← wire_systemStations]; rfl⟩
    | carrier =>
      exact absurd (htag (e := .systemStations _) hk) (show lit "system:" ≠ lit "carrier" by decide)
  | indexSystem s x y t =>
    have hk : wire systemIndex = κ.dataKey X := Option.some.inj ht
    exact absurd ((wire_index .system).symm.trans hk) (index_ne_dataKey .system κ X)
  | visit s =>
    have hk : wire systemVisits = κ.dataKey X := Option.some.inj ht
    cases κ with
    | system => exact absurd (htag (e := .systemVisits) hk) (show lit "systems" ≠ lit "system:" by decide)
    | carrier => exact absurd (htag (e := .systemVisits) hk) (show lit "systems" ≠ lit "carrier" by decide)
  | expireVisits s d => cases ht
  | expire call e he ttl => cases ht

/-- After the command that makes a data key, the rest of its batch files the name. -/
theorem addsMember_of_suffix {I : Casing} {call : WriterCall} {nextExpiration : Time} {κ : Catalog}
    {X : Str} (hX : colon ∉ X) {c : Cmd} {rest : List Cmd}
    (hs : c :: rest <:+ DockingWriter.batch I nextExpiration call)
    (ht : c.target = some (κ.dataKey X)) : ∃ c' ∈ rest, c'.AddsMember κ.index X := by
  obtain ⟨hrec, es, rfl⟩ :=
    (sends_of_mem_batch (hs.subset List.mem_cons_self)).dataKey hX ht
  cases κ with
  | system =>
    cases call with
    | stationDocking s x y t =>
      simp only [DockingWriter.batch, DockingWriter.recordStationDocking, List.map_cons,
        List.map_nil, List.suffix_cons_iff, Cmd.encode, List.cons.injEq, List.suffix_nil,
        reduceCtorEq, false_and, false_or, or_false] at hs
      rcases hs with ⟨-, rfl⟩ | ⟨hk, -⟩
      · refine ⟨_, List.mem_of_getElem? (i := 1) rfl, wire_index .system, ?_⟩
        rw [← Option.some.inj hrec]
        exact List.mem_singleton_self _
      · exact absurd ((wire_index .system).symm.trans (Cmd.zadd.inj hk).1.symm)
          (index_ne_dataKey .system .system X)
    | _ => cases hrec
  | carrier =>
    cases call with
    | fleetCarrierDocking cr t =>
      simp only [DockingWriter.batch, DockingWriter.recordFleetCarrierDocking, List.map_cons,
        List.map_nil, List.suffix_cons_iff, Cmd.encode, List.cons.injEq, List.suffix_nil,
        reduceCtorEq, false_and, false_or, or_false] at hs
      rcases hs with ⟨-, rfl⟩ | ⟨hk, -⟩
      · refine ⟨_, List.mem_of_getElem? (i := 1) rfl, wire_index .carrier, ?_⟩
        rw [← Option.some.inj hrec]
        exact List.mem_singleton_self _
      · exact absurd ((wire_index .carrier).symm.trans (Cmd.zadd.inj hk).1.symm)
          (index_ne_dataKey .carrier .carrier X)
    | _ => cases hrec

end Keys

/-- An addition to the index is on its way. -/
def Pending (κ : Catalog) (X : Str) (batches : List (List Cmd)) : Prop :=
  ∃ b ∈ batches, ∃ c ∈ b, c.AddsMember κ.index X

/-- What a rebuild may rely on in each phase, for one name. -/
def Settled (κ : Catalog) (X : Str) (σ : Store) (batches : List (List Cmd)) : Phase → Prop
  | .idle => True
  | .snapshot _ indexed => ∀ n ∈ indexed, n ∈ σ.zmembers κ.index
  | .scan indexed steady keys =>
    (∀ n ∈ indexed, n ∈ σ.zmembers κ.index) ∧
      -- a key that is not steady was made during the scan, and its name is no snapshot name
      ((σ.val (κ.dataKey X)).isSome → κ.dataKey X ∈ steady ∨ X ∈ keys.filterMap extractName ∨
        (X ∉ indexed ∧ (X ∈ σ.zmembers κ.index ∨ Pending κ X batches)))
  | .write todo _ =>
    ((σ.val (κ.dataKey X)).isSome → X ∈ σ.zmembers κ.index ∨ Pending κ X batches ∨
        ∃ c ∈ todo, c.AddsMember κ.index X) ∧
      (X ∈ todo.flatMap removals → σ.val (κ.dataKey X) = none) ∧
      ∀ c ∈ todo, (∃ names : List Str, c = .zadd κ.index (names.map fun n => (wire n, indexScore))) ∨
        ∃ ms, c = .zrem κ.index ms
  | .done _ =>
    (σ.val (κ.dataKey X)).isSome → X ∈ σ.zmembers κ.index ∨ Pending κ X batches

structure RaceInv (I : Casing) (κ : Catalog) (X : Str) (w : RebuildWorld) : Prop where
  kept : Kept κ w.store
  suffix : ∀ b ∈ w.batches, ∃ call nextExpiration, b <:+ DockingWriter.batch I nextExpiration call
  settled : Settled κ X w.store w.batches w.phase

section Store

variable {κ : Catalog} {σ : Store}

theorem Sends.timed_ne_index {I : Casing} {call : WriterCall} {c : Cmd} (h : Sends I call c)
    (κ : Catalog) : c.timed ≠ some κ.index := by
  rw [← wire_index]
  cases h with
  | expireVisits s d =>
    intro ht
    have he := encode_eq_of_wire_key (Option.some.inj ht)
    cases κ <;> cases he
  | expire call e he ttl =>
    intro ht
    have hk : e.encode = κ.indexEntity.encode := encode_eq_of_wire_key (Option.some.inj ht)
    cases κ <;> cases e <;> simp_all [Entity.encode, Catalog.indexEntity]
  | _ => simp [Cmd.timed]

/-- A writer's command keeps the index and everything in it. -/
theorem Kept.send {I : Casing} {call : WriterCall} {c : Cmd} (h : Kept κ σ) (hs : Sends I call c)
    (now : Time) :
    Kept κ (c.apply now σ) ∧ ∀ m, m ∈ (c.apply now σ).zmembers κ.index ↔
      m ∈ σ.zmembers κ.index ∨ c.AddsMember κ.index m := by
  obtain ⟨hr, ht⟩ := hs.schematic.apply h.typed now
  have hadd : c.OnlyAdds now κ.index := by
    rw [← wire_index]
    exact hs.onlyAdds (by cases κ <;> simp [Catalog.indexEntity, Entity.encode]) now
  have hmem : ∀ m, m ∈ (c.apply now σ).zmembers κ.index ↔
      m ∈ σ.zmembers κ.index ∨ c.AddsMember κ.index m := by
    intro m
    rw [Store.mem_zmembers, Store.mem_zmembers, isMember_run hr hadd]
  refine ⟨⟨ht, deadline_run hr (hs.timed_ne_index κ) h.lasting, fun m hm => ?_⟩, hmem⟩
  rcases (hmem m).mp hm with hm | hm
  · exact h.members m hm
  · exact wellFormed_of_recorded (hs.addsMember_index hm)

theorem Kept.zadd (h : Kept κ σ) (names : List Str) (now : Time) :
    let c := Cmd.zadd κ.index (names.map fun n => (wire n, indexScore))
    Kept κ (c.apply now σ) ∧ (∀ m, m ∈ (c.apply now σ).zmembers κ.index ↔
      m ∈ σ.zmembers κ.index ∨ c.AddsMember κ.index m) ∧
      ∀ K, K ≠ κ.index → (c.apply now σ).val K = σ.val K := by
  intro c
  have hs : Schematic c := by
    rw [show c = .zadd κ.index _ from rfl, ← wire_index]
    exact .zadd _ _ (indexEntity_isSortedSet κ)
  obtain ⟨hr, ht⟩ := hs.apply h.typed now
  have hmem : ∀ m, m ∈ (c.apply now σ).zmembers κ.index ↔
      m ∈ σ.zmembers κ.index ∨ c.AddsMember κ.index m := by
    intro m
    rw [Store.mem_zmembers, Store.mem_zmembers, isMember_run hr trivial]
  refine ⟨⟨ht, deadline_run hr (by simp [c, Cmd.timed]) h.lasting, fun m hm => ?_⟩, hmem,
    fun K hK => run_val_of_target_ne hr trivial fun hk => hK (Option.some.inj hk).symm⟩
  rcases (hmem m).mp hm with hm | hm
  · exact h.members m hm
  · obtain ⟨-, hm⟩ := hm
    simp only [List.map_map, List.mem_map, Function.comp] at hm
    obtain ⟨n, -, rfl⟩ := hm
    exact wellFormed_wire n

theorem Kept.zrem (h : Kept κ σ) (ms : List Str) (now : Time) :
    let c := Cmd.zrem κ.index ms
    Kept κ (c.apply now σ) ∧ (∀ m, m ∈ (c.apply now σ).zmembers κ.index ↔
      m ∈ σ.zmembers κ.index ∧ m ∉ ms) ∧
      ∀ K, K ≠ κ.index → (c.apply now σ).val K = σ.val K := by
  intro c
  have hs : Schematic c := by
    rw [show c = .zrem κ.index _ from rfl, ← wire_index]
    exact .zrem _ _ (indexEntity_isSortedSet κ)
  obtain ⟨hr, ht⟩ := hs.apply h.typed now
  have hmem : ∀ m, m ∈ (c.apply now σ).zmembers κ.index ↔ m ∈ σ.zmembers κ.index ∧ m ∉ ms := by
    intro m
    rw [Store.mem_zmembers, Store.mem_zmembers, isMember_zrem hr]
  exact ⟨⟨ht, deadline_run hr (by simp [c, Cmd.timed]) h.lasting,
      fun m hm => h.members m ((hmem m).mp hm).1⟩, hmem,
    fun K hK => run_val_of_target_ne hr (Ne.symm hK) (by simp [c, Cmd.target])⟩

theorem Kept.purge (h : Kept κ σ) (t : Time) :
    Kept κ (σ.purge t) ∧ (σ.purge t).zmembers κ.index = σ.zmembers κ.index := by
  obtain ⟨hv, hd⟩ := Store.val_purge_of_deadline h.lasting t
  have hz : (σ.purge t).zmembers κ.index = σ.zmembers κ.index := by
    unfold Store.zmembers
    rw [hv]
  exact ⟨⟨h.typed.purge t, hd, fun m hm => h.members m (hz ▸ hm)⟩, hz⟩

/-- A scan can return the data key of every name that has one. -/
theorem Kept.scannable (h : Kept κ σ) {X : Str} (hs : (σ.val (κ.dataKey X)).isSome) :
    scannable κ σ (κ.dataKey X) = true := by
  have hwf := wellFormed_of_dataKey (h.typed.wellFormed hs)
  rw [SearchIndexMaintainer.scannable, hs, livePattern_dataKey κ hwf]
  rfl

end Store

section Step

variable {I : Casing} {κ : Catalog} {X : Str} {w w' : RebuildWorld}

/-- A step of the writers or of time, seen from the rebuild: the index loses nothing, and a
data key that appears belongs to a name that is not doomed and is about to be filed. -/
theorem Settled.observe {σ σ' : Store} {batches batches' : List (List Cmd)} {p : Phase}
    (h : Settled κ X σ batches p) (hk : Kept κ σ')
    (hmem : ∀ m ∈ σ.zmembers κ.index, m ∈ σ'.zmembers κ.index)
    (hpend : Pending κ X batches → X ∈ σ'.zmembers κ.index ∨ Pending κ X batches')
    (hex : (σ'.val (κ.dataKey X)).isSome → (σ.val (κ.dataKey X)).isSome ∨
      (X ∉ p.doomed ∧ Pending κ X batches')) :
    Settled κ X σ' batches' (RebuildWorld.observe κ σ' p) := by
  have hfiled : X ∈ σ.zmembers κ.index ∨ Pending κ X batches →
      X ∈ σ'.zmembers κ.index ∨ Pending κ X batches' := fun h =>
    h.elim (fun h => .inl (hmem X h)) hpend
  cases p with
  | idle => trivial
  | snapshot steady indexed => exact fun n hn => hmem n (h n hn)
  | scan indexed steady keys =>
    refine ⟨fun n hn => hmem n (h.1 n hn), fun hs => ?_⟩
    rcases hex hs with hold | ⟨hd, hp⟩
    · rcases h.2 hold with hst | hkeys | ⟨hi, hf⟩
      · left
        exact List.mem_filter.mpr ⟨hst, hk.scannable hs⟩
      · exact .inr (.inl hkeys)
      · exact .inr (.inr ⟨hi, hfiled hf⟩)
    · by_cases hi : X ∈ indexed
      · right; left
        by_contra hkeys
        exact hd (List.mem_filter.mpr ⟨hi, decide_eq_true hkeys⟩)
      · exact .inr (.inr ⟨hi, .inr hp⟩)
  | write todo r =>
    refine ⟨fun hs => ?_, fun hx => ?_, h.2.2⟩
    · rcases hex hs with hold | ⟨-, hp⟩
      · rcases h.1 hold with hf | hf | hf
        · exact .inl (hmem X hf)
        · exact (hpend hf).imp_right .inl
        · exact .inr (.inr hf)
      · exact .inr (.inl hp)
    · have hn := h.2.1 hx
      by_contra hs
      rcases hex (Option.isSome_iff_ne_none.mpr hs) with hold | ⟨hd, -⟩
      · rw [hn] at hold
        cases hold
      · exact hd hx
  | done r =>
    intro hs
    rcases hex hs with hold | ⟨-, hp⟩
    · exact hfiled (h hold)
    · exact .inr hp

theorem Settled.mono {σ : Store} {batches batches' : List (List Cmd)} {p : Phase}
    (h : Settled κ X σ batches p) (hpend : Pending κ X batches → Pending κ X batches') :
    Settled κ X σ batches' p := by
  cases p with
  | idle => trivial
  | snapshot steady indexed => exact h
  | scan indexed steady keys =>
    refine ⟨h.1, fun hs => ?_⟩
    rcases h.2 hs with hst | hk | ⟨hi, hf⟩
    · exact .inl hst
    · exact .inr (.inl hk)
    · exact .inr (.inr ⟨hi, hf.imp_right hpend⟩)
  | write todo r =>
    refine ⟨fun hs => ?_, h.2⟩
    rcases h.1 hs with hf | hf | hf
    · exact .inl hf
    · exact .inr (.inl (hpend hf))
    · exact .inr (.inr hf)
  | done r => exact fun hs => (h hs).imp_right hpend

theorem pending_set {batches : List (List Cmd)} {i : ℕ} {c : Cmd} {rest : List Cmd}
    (hi : batches[i]? = some (c :: rest)) (h : Pending κ X batches) :
    c.AddsMember κ.index X ∨ Pending κ X (batches.set i rest) := by
  obtain ⟨b, hb, d, hd, hm⟩ := h
  obtain ⟨j, hj⟩ := List.mem_iff_getElem?.mp hb
  by_cases hij : i = j
  · subst hij
    cases hi.symm.trans hj
    rcases List.mem_cons.mp hd with rfl | hd
    · exact .inl hm
    · have hlt : i < batches.length := (List.getElem?_eq_some_iff.mp hi).1
      exact .inr ⟨rest, List.mem_of_getElem? (i := i) (by simp [hlt]), d, hd, hm⟩
  · refine .inr ⟨b, List.mem_of_getElem? (i := j) ?_, d, hd, hm⟩
    rw [List.getElem?_set_ne hij]
    exact hj

theorem RaceInv.tick (h : RaceInv I κ X w) (t : Time) :
    RaceInv I κ X { w.setStore κ (w.store.purge t) with now := t } := by
  obtain ⟨hk, hz⟩ := h.kept.purge t
  refine ⟨hk, h.suffix, h.settled.observe hk ?_ .inr fun hs => .inl (Store.isSome_of_purge hs)⟩
  intro m hm
  show m ∈ (w.store.purge t).zmembers κ.index
  rw [hz]
  exact hm

theorem RaceInv.command (h : RaceInv I κ X w) (hX : colon ∉ X) {i : ℕ} {c : Cmd} {rest : List Cmd}
    (hi : w.batches[i]? = some (c :: rest)) (hsafe : recreates κ w (.command i) = false) :
    RaceInv I κ X
      { w.setStore κ (c.apply w.now w.store) with batches := w.batches.set i rest } := by
  obtain ⟨call, nextExpiration, hsuf⟩ := h.suffix _ (List.mem_of_getElem? hi)
  have hs : Sends I call c := sends_of_mem_batch (hsuf.subset List.mem_cons_self)
  obtain ⟨hk, hmem⟩ := h.kept.send hs w.now
  have hlt : i < w.batches.length := (List.getElem?_eq_some_iff.mp hi).1
  have hrest : rest ∈ w.batches.set i rest := List.mem_of_getElem? (i := i) (by simp [hlt])
  refine ⟨hk, fun b hb => ?_, h.settled.observe hk (fun m hm => (hmem m).mpr (.inl hm)) ?_ ?_⟩
  · rcases List.mem_or_eq_of_mem_set hb with hb | rfl
    · exact h.suffix b hb
    · exact ⟨call, nextExpiration, (List.suffix_cons c _).trans hsuf⟩
  · intro hp
    exact (pending_set hi hp).imp_left fun hm => (hmem X).mpr (.inr hm)
  · intro hex
    by_cases hold : (w.store.val (κ.dataKey X)).isSome
    · exact .inl hold
    · -- the key is new: this command made it, so it was not doomed and its name follows
      have ht : c.target = some (κ.dataKey X) := by
        have hw : c.written = some (κ.dataKey X) := by
          by_contra hw
          exact hold (isSome_of_run (hs.schematic.apply h.kept.typed w.now).1 hw hex)
        cases hs <;> exact hw
      refine .inr ⟨fun hd => ?_, rest, hrest, addsMember_of_suffix hX hsuf ht⟩
      rw [recreates, hi] at hsafe
      refine Bool.eq_false_iff.mp hsafe (List.any_eq_true.mpr ⟨X, hd, ?_⟩)
      simpa [ht] using hold

/-- The plan of a rebuild: a live name is indexed, on its way, or among the additions, and the
names to remove have no data key. -/
theorem RaceInv.plan (h : RaceInv I κ X w) (hX : colon ∉ X) {indexed steady keys : List Str}
    (hp : w.phase = .scan indexed steady keys) (hend : ∀ k ∈ steady, k ∈ keys) :
    Settled κ X w.store w.batches (.write (writes κ.index indexed (liveNames keys))
      (result indexed (liveNames keys))) := by
  have hset := h.settled
  rw [hp] at hset
  have hlive : X ∈ keys.filterMap extractName → X ∈ liveNames keys := List.mem_dedup.mpr
  have hscan : (w.store.val (κ.dataKey X)).isSome → X ∈ liveNames keys ∨
      (X ∉ indexed ∧ (X ∈ w.store.zmembers κ.index ∨ Pending κ X w.batches)) := by
    intro hs
    rcases hset.2 hs with hst | hk | hf
    · refine .inl (hlive (List.mem_filterMap.mpr ⟨_, hend _ hst, extractName_dataKey κ hX⟩))
    · exact .inl (hlive hk)
    · exact .inr hf
  refine ⟨fun hs => ?_, fun hx => ?_, fun c hc => ?_⟩
  · rcases hscan hs with hl | ⟨-, hf | hf⟩
    · by_cases hi : X ∈ indexed
      · exact .inl (hset.1 X hi)
      · have hadd : X ∈ toAdd indexed (liveNames keys) :=
          List.mem_filter.mpr ⟨hl, decide_eq_true hi⟩
        obtain ⟨names, hn, hx⟩ := (mem_chunk (show 0 < writeChunkSize by decide) X).mpr hadd
        refine .inr (.inr ⟨_, List.mem_append_left _ (List.mem_map_of_mem hn), ?_⟩)
        refine ⟨wire_catalog_index κ, ?_⟩
        have hwf := wellFormed_of_dataKey (h.kept.typed.wellFormed hs)
        simp only [List.map_map, List.mem_map, Function.comp]
        exact ⟨X, hx, hwf⟩
    · exact .inl hf
    · exact .inr (.inl hf)
  · obtain ⟨c, hc, hx⟩ := List.mem_flatMap.mp hx
    rcases mem_writes hc with ⟨names, rfl, -⟩ | ⟨names, rfl, hnames⟩
    · cases hx
    · -- the snapshot holds text off the wire, so the name removed is the one planned
      obtain ⟨n, hn, rfl⟩ := List.mem_map.mp hx
      obtain ⟨hi, hl⟩ := List.mem_filter.mp (hnames n hn)
      have hwf : wire n = n := h.kept.members n (hset.1 n hi)
      rw [hwf] at hscan ⊢
      by_contra hs
      rcases hscan (Option.isSome_iff_ne_none.mpr hs) with hl' | ⟨hi', -⟩
      · exact of_decide_eq_true hl hl'
      · exact hi' hi
  · rcases mem_writes hc with ⟨names, rfl, -⟩ | ⟨names, rfl, -⟩
    · exact .inl ⟨names, rfl⟩
    · exact .inr ⟨_, rfl⟩

theorem RaceInv.writeChunk (h : RaceInv I κ X w) {c : Cmd} {todo : List Cmd}
    {r : IndexRebuildResult} (hp : w.phase = .write (c :: todo) r) :
    RaceInv I κ X { w with store := c.apply w.now w.store, phase := .write todo r } := by
  have hset := h.settled
  rw [hp] at hset
  obtain ⟨hlive, hdoomed, hform⟩ := hset
  have hne : κ.dataKey X ≠ κ.index := (index_ne_dataKey κ κ X).symm
  have hform' : ∀ d ∈ todo, _ := fun d hd => hform d (List.mem_cons_of_mem _ hd)
  rcases hform c List.mem_cons_self with ⟨names, rfl⟩ | ⟨ms, rfl⟩
  · obtain ⟨hk, hmem, hval⟩ := h.kept.zadd names w.now
    refine ⟨hk, h.suffix, fun hs => ?_, fun hx => ?_, hform'⟩
    · rw [hval _ hne] at hs
      rcases hlive hs with hf | hf | ⟨d, hd, hf⟩
      · exact .inl ((hmem X).mpr (.inl hf))
      · exact .inr (.inl hf)
      · rcases List.mem_cons.mp hd with rfl | hd
        · exact .inl ((hmem X).mpr (.inr hf))
        · exact .inr (.inr ⟨d, hd, hf⟩)
    · rw [hval _ hne]
      exact hdoomed (by rw [List.flatMap_cons]; exact List.mem_append_right _ hx)
  · obtain ⟨hk, hmem, hval⟩ := h.kept.zrem ms w.now
    refine ⟨hk, h.suffix, fun hs => ?_, fun hx => ?_, hform'⟩
    · rw [hval _ hne] at hs
      have hx : X ∉ ms := by
        intro hx
        rw [hdoomed (by rw [List.flatMap_cons]; exact List.mem_append_left _ hx)] at hs
        cases hs
      rcases hlive hs with hf | hf | ⟨d, hd, hf⟩
      · exact .inl ((hmem X).mpr ⟨hf, hx⟩)
      · exact .inr (.inl hf)
      · rcases List.mem_cons.mp hd with rfl | hd
        · exact hf.elim
        · exact .inr (.inr ⟨d, hd, hf⟩)
    · rw [hval _ hne]
      exact hdoomed (by rw [List.flatMap_cons]; exact List.mem_append_right _ hx)

/-- Every step that does not recreate a doomed name's key keeps the invariant. -/
theorem RaceInv.step (h : RaceInv I κ X w) (hX : colon ∉ X) {a : RebuildAction}
    (hsafe : recreates κ w a = false) (hs : w.step I κ a = some w') : RaceInv I κ X w' := by
  have hset := h.settled
  cases a with
  | tick t =>
    simp only [RebuildWorld.step] at hs
    split_ifs at hs
    cases hs
    exact h.tick t
  | submit call nextExpiration =>
    cases hs
    refine ⟨h.kept, fun b hb => ?_, ?_⟩
    · rcases List.mem_append.mp hb with hb | hb
      · exact h.suffix b hb
      · rw [List.mem_singleton.mp hb]
        exact ⟨call, nextExpiration, List.suffix_refl _⟩
    · refine hset.mono fun ⟨b, hb, hc⟩ => ⟨b, List.mem_append_left _ hb, hc⟩
  | command i =>
    simp only [RebuildWorld.step] at hs
    split at hs
    · rename_i c rest hi
      cases hs
      exact h.command hX hi hsafe
    · cases hs
  | start =>
    simp only [RebuildWorld.step] at hs
    split at hs
    · cases hs
      exact ⟨h.kept, h.suffix, fun n hn => by cases hn⟩
    · cases hs
  | zscanPage members =>
    simp only [RebuildWorld.step] at hs
    split at hs
    · rename_i steady indexed hp
      rw [hp] at hset
      split_ifs at hs with hm
      cases hs
      exact ⟨h.kept, h.suffix, fun n hn => (List.mem_append.mp hn).elim (hset n) (hm n)⟩
    · cases hs
  | zscanEnd =>
    simp only [RebuildWorld.step] at hs
    split at hs
    · rename_i steady indexed hp
      rw [hp] at hset
      split_ifs at hs
      cases hs
      refine ⟨h.kept, h.suffix, fun n hn => hset n (List.mem_dedup.mp hn), fun hex => .inl ?_⟩
      exact List.mem_filter.mpr ⟨Store.mem_keys hex, h.kept.scannable hex⟩
    · cases hs
  | scanPage keys =>
    simp only [RebuildWorld.step] at hs
    split at hs
    · rename_i indexed steady seen hp
      rw [hp] at hset
      split_ifs at hs with hm
      cases hs
      refine ⟨h.kept, h.suffix, hset.1, fun hex => ?_⟩
      rcases hset.2 hex with hst | hk | hf
      · exact .inl hst
      · refine .inr (.inl ?_)
        rw [List.filterMap_append]
        exact List.mem_append_left _ hk
      · exact .inr (.inr hf)
    · cases hs
  | scanEnd =>
    simp only [RebuildWorld.step] at hs
    split at hs
    · rename_i indexed steady seen hp
      split_ifs at hs with hm
      cases hs
      exact ⟨h.kept, h.suffix, h.plan hX hp hm⟩
    · cases hs
  | writeChunk =>
    simp only [RebuildWorld.step] at hs
    split at hs
    · rename_i c todo r hp
      cases hs
      exact h.writeChunk hp
    · cases hs
  | finish =>
    simp only [RebuildWorld.step] at hs
    split at hs
    · rename_i r hp
      cases hs
      rw [hp] at hset
      refine ⟨h.kept, h.suffix, fun hex => ?_⟩
      rcases hset.1 hex with hf | hf | ⟨c, hc, -⟩
      · exact .inl hf
      · exact .inr hf
      · cases hc
    · cases hs

end Step

theorem RaceInv.run {I : Casing} {κ : Catalog} {X : Str} (hX : colon ∉ X) {w w' : RebuildWorld}
    {as : List RebuildAction} (h : RaceInv I κ X w) (hu : undisturbed I κ w as = true)
    (hr : w.run I κ as = some w') : RaceInv I κ X w' := by
  induction as generalizing w with
  | nil =>
    cases hr
    exact h
  | cons a as ih =>
    obtain ⟨w₁, hs, hr⟩ := Option.bind_eq_some_iff.mp hr
    rw [undisturbed, hs, Bool.and_eq_true, Bool.not_eq_true'] at hu
    exact ih (h.step hX hu.1 hs) hu.2 hr

/-- In every undisturbed run from a store the services left, once the rebuild has finished and
no batch is in flight, every live name without a separator is indexed. -/
theorem live_names_indexed (I : Casing) (κ : Catalog) (now : Time) (σ : Store) (hσ : Kept κ σ)
    (as : List RebuildAction) (w : RebuildWorld)
    (hu : undisturbed I κ (RebuildWorld.init now σ) as = true)
    (hr : (RebuildWorld.init now σ).run I κ as = some w) (hq : w.quiet = true) (X : Str)
    (hX : colon ∉ X) (hlive : (w.store.val (κ.dataKey X)).isSome) :
    X ∈ w.store.zmembers κ.index := by
  have hinit : RaceInv I κ X (RebuildWorld.init now σ) := ⟨hσ, List.forall_mem_nil _, trivial⟩
  have hw := (hinit.run hX hu hr).settled
  rw [RebuildWorld.quiet, Bool.and_eq_true] at hq
  cases hp : w.phase with
  | done r =>
    rw [hp] at hw
    refine (hw hlive).resolve_right ?_
    rintro ⟨b, hb, c, hc, -⟩
    rw [List.isEmpty_iff.mp (List.all_eq_true.mp hq.2 b hb)] at hc
    cases hc
  | _ => rw [hp] at hq; cases hq.1

theorem kept_empty (κ : Catalog) : Kept κ ∅ := ⟨typed_empty, rfl, List.forall_mem_nil _⟩

section Scenario

/-- A docking at one station of Sol, its six commands run to the end as batch `i`. -/
def solDocking (i : ℕ) : List RebuildAction :=
  .submit (.stationDocking (lit "Sol") (lit "Abraham Lincoln") (lit "Orbis") .minValue) 0 ::
    List.replicate 6 (.command i)

/-- A rebuild over a store that holds Sol and nothing else. -/
def solRebuild : List RebuildAction :=
  [.start, .zscanPage [lit "SOL"], .zscanEnd, .scanPage [systemStations (lit "SOL")], .scanEnd,
    .finish]

theorem live_names_indexed_sol :
    ∃ w, (RebuildWorld.init 0 ∅).run asciiCasing .system (solDocking 0 ++ solRebuild) = some w ∧
      lit "SOL" ∈ w.store.zmembers systemIndex := by
  refine ⟨_, (Option.some_get (by decide)).symm, ?_⟩
  refine live_names_indexed asciiCasing .system 0 ∅ (kept_empty _) (solDocking 0 ++ solRebuild) _
    (by decide) (Option.some_get (by decide)).symm (by decide) _ (by decide) (by decide)

/-- Sol was docked at once and has lapsed; the snapshot still lists it and the scan finds no
key. It is docked at again before the removal, and the removal takes it out of the index. -/
def solLost : List RebuildAction :=
  solDocking 0 ++ [.tick (dataExpiration + 1), .start, .zscanPage [lit "SOL"], .zscanEnd, .scanEnd] ++
    solDocking 1 ++ [.writeChunk, .finish]

theorem rebuild_removes_live_name :
    ∃ w, (RebuildWorld.init 0 ∅).run asciiCasing .system solLost = some w ∧ w.quiet = true ∧
      colon ∉ lit "SOL" ∧ (w.store.val (Catalog.system.dataKey (lit "SOL"))).isSome ∧
      lit "SOL" ∉ w.store.zmembers Catalog.system.index := by
  refine ⟨_, (Option.some_get (by decide)).symm, ?_⟩
  decide

end Scenario

end EliteEvents

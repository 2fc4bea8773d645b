import EliteEvents.Proofs.TypedStore
import EliteEvents.Proofs.Catalog
import EliteEvents.Spec.WriterRuns

/-! A docking writes an item (the station's hash, the carrier's counter of the day) and files it in a
folder (the stations of the system, the days of the carrier), and sets both to lapse. Between two of
its commands the store is not yet as it should be: the item may have no deadline, or outlive the
folder. As long as the batch goes on this mends itself. -/

namespace EliteEvents

open Text Redis RedisKeys

/-- An item with the folder it is filed in, and under which name. -/
structure Slot where
  item : Entity
  folder : Entity
  member : Str

def stationSlot (s : UpperName) (x : Str) : Slot := ⟨.station s x, .systemStations s, wire x⟩
def dailySlot (c : UpperName) (d : Str) : Slot := ⟨.carrierDaily c d, .carrierDays c, wire d⟩

/-- The slots of the schema. -/
inductive IsSlot : Slot → Prop
  | station (s : UpperName) (x : Str) : IsSlot (stationSlot s x)
  | daily (c : UpperName) (d : Str) : IsSlot (dailySlot c d)

def DockingCall.slot (I : Casing) : DockingCall → Slot
  | .station s x _ _ => stationSlot (I.upper s) x
  | .carrier c t => dailySlot (I.upper c) t.date

def Slot.itemKey (r : Slot) : Str := wire r.item.key
def Slot.folderKey (r : Slot) : Str := wire r.folder.key

/-- How far a batch has come: nothing sent; the station counted but not described; the item written;
the item's deadline set; the item filed; the folder's deadline set. -/
inductive Stage
  | waiting
  | counted
  | written
  | exposed
  | filed
  | settled
  deriving DecidableEq

def Flight.stage : Flight → Stage
  | ⟨.station .., 0⟩ => .waiting
  | ⟨.station .., 1⟩ => .counted
  | ⟨.station .., 2⟩ => .written
  | ⟨.station .., 3⟩ => .exposed
  | ⟨.station .., 4⟩ => .filed
  | ⟨.station .., _⟩ => .settled
  | ⟨.carrier .., 0⟩ => .waiting
  | ⟨.carrier .., 1⟩ => .written
  | ⟨.carrier .., 2⟩ => .exposed
  | ⟨.carrier .., 3⟩ => .filed
  | ⟨.carrier .., _⟩ => .settled

/-- What a batch sends next, and where that takes it. -/
inductive Advance (I : Casing) (f : Flight) : Cmd → Stage → Prop
  | count (hs : f.stage = .waiting) (s : UpperName) (x : Str) (h : f.docking.slot I = stationSlot s x) :
      Advance I f (.hincrby (wire (Entity.station s x).key) stationCountField 1) .counted
  | describe (hs : f.stage = .counted) (s : UpperName) (x : Str) (h : f.docking.slot I = stationSlot s x)
      (fs : List (Str × Str)) (hfs : stationCountField ∉ fs.map Prod.fst) (hne : fs ≠ []) :
      Advance I f (.hset (wire (Entity.station s x).key) fs) .written
  | countDay (hs : f.stage = .waiting) (c : UpperName) (d : Str) (h : f.docking.slot I = dailySlot c d) :
      Advance I f (.incr (wire (Entity.carrierDaily c d).key)) .written
  | expose (hs : f.stage = .written) : Advance I f (.expire (f.docking.slot I).itemKey dataExpiration) .exposed
  | file (hs : f.stage = .exposed) (x : ℤ) :
      Advance I f (.zadd (f.docking.slot I).folderKey [((f.docking.slot I).member, x)]) .filed
  | settle (hs : f.stage = .filed) :
      Advance I f (.expire (f.docking.slot I).folderKey dataExpiration) .settled
  | index (hs : f.stage = .settled) (κ : Catalog) (m : Str) (x : ℤ) :
      Advance I f (.zadd (wire κ.indexEntity.key) [(m, x)]) .settled

theorem advance_of_head {I : Casing} {f : Flight} {c : Cmd} (h : (f.rest I).head? = some c) :
    Advance I f c (Flight.stage { f with sent := f.sent + 1 }) := by
  obtain ⟨d, n⟩ := f
  cases d with
  | station s x y t =>
    simp only [Flight.rest, DockingCall.call, batch_stationDocking] at h
    match n with
    | 0 => cases h; exact .count rfl _ _ rfl
    | 1 => cases h; exact .describe rfl _ _ rfl _ (by simp only [List.map_cons, List.map_nil]; decide) (by simp)
    | 2 => cases h; exact .expose rfl
    | 3 => cases h; exact .file rfl _
    | 4 => cases h; exact .settle rfl
    | 5 => cases h; exact .index rfl .system _ _
    | n + 6 =>
      rw [List.drop_eq_nil_of_le (Nat.le_add_left 6 n)] at h
      cases h
  | carrier c t =>
    simp only [Flight.rest, DockingCall.call, batch_fleetCarrierDocking] at h
    match n with
    | 0 => cases h; exact .countDay rfl _ _ rfl
    | 1 => cases h; exact .expose rfl
    | 2 => cases h; exact .file rfl _
    | 3 => cases h; exact .settle rfl
    | 4 => cases h; exact .index rfl .carrier _ _
    | n + 5 =>
      rw [List.drop_eq_nil_of_le (Nat.le_add_left 5 n)] at h
      cases h

theorem stage_of_rest {I : Casing} {f : Flight} (h : f.rest I = []) : f.stage = .settled := by
  obtain ⟨d, n⟩ := f
  cases d with
  | station s x y t =>
    simp only [Flight.rest, DockingCall.call, batch_stationDocking] at h
    match n with
    | 0 | 1 | 2 | 3 | 4 => cases h
    | n + 5 => rfl
  | carrier c t =>
    simp only [Flight.rest, DockingCall.call, batch_fleetCarrierDocking] at h
    match n with
    | 0 | 1 | 2 | 3 => cases h
    | n + 4 => rfl

/-! Keys. -/

section Keys

variable {r r' : Slot}

/-- An item is filed in one folder, under one name. -/
theorem IsSlot.unique (h : IsSlot r) (h' : IsSlot r') (hk : r.itemKey = r'.itemKey) :
    r.folderKey = r'.folderKey ∧ r.member = r'.member := by
  have he := encode_eq_of_wire_key hk
  cases h with
  | station s x =>
    cases h' with
    | station s' x' =>
      obtain ⟨hs, hx⟩ := Entity.station.inj he
      refine ⟨?_, hx⟩
      show wire (Entity.systemStations s).key = wire (Entity.systemStations s').key
      rw [wire_key, wire_key, Entity.encode, Entity.encode, hs]
    | daily c' d' => cases he
  | daily c d =>
    cases h' with
    | station s' x' => cases he
    | daily c' d' =>
      obtain ⟨hc, hd⟩ := Entity.carrierDaily.inj he
      refine ⟨?_, hd⟩
      show wire (Entity.carrierDays c).key = wire (Entity.carrierDays c').key
      rw [wire_key, wire_key, Entity.encode, Entity.encode, hc]

theorem IsSlot.item_ne_folder (h : IsSlot r) (h' : IsSlot r') : r.itemKey ≠ r'.folderKey := by
  intro hk
  cases h <;> cases h' <;> cases encode_eq_of_wire_key hk

theorem IsSlot.item_ne_index (h : IsSlot r) (κ : Catalog) : r.itemKey ≠ wire κ.indexEntity.key := by
  intro hk
  cases h <;> cases κ <;> cases encode_eq_of_wire_key hk

theorem IsSlot.folder_ne_index (h : IsSlot r) (κ : Catalog) : r.folderKey ≠ wire κ.indexEntity.key := by
  intro hk
  cases h <;> cases κ <;> cases encode_eq_of_wire_key hk

theorem DockingCall.isSlot (I : Casing) (d : DockingCall) : IsSlot (d.slot I) := by
  cases d with
  | station s x y t => exact .station _ _
  | carrier c t => exact .daily _ _

end Keys

/-! The invariant. -/

/-- Some batch in flight, at one of these stages, has the key still to see to. -/
def Owed (I : Casing) (flights : List Flight) (stages : List Stage) (key : Slot → Str) (k : Str) : Prop :=
  ∃ f ∈ flights, key (f.docking.slot I) = k ∧ f.stage ∈ stages

section Owed

variable {I : Casing} {flights : List Flight} {stages : List Stage} {key : Slot → Str} {k : Str} {i : ℕ}
  {f : Flight}

theorem Owed.append (h : Owed I flights stages key k) (f : Flight) :
    Owed I (flights ++ [f]) stages key k := by
  obtain ⟨f₀, hmem, hf⟩ := h
  exact ⟨f₀, List.mem_append_left _ hmem, hf⟩

/-- A batch moves on: another one still sees to the key, or it was this one. -/
theorem Owed.set (h : Owed I flights stages key k) (hi : flights[i]? = some f) (f' : Flight) :
    Owed I (flights.set i f') stages key k ∨ (key (f.docking.slot I) = k ∧ f.stage ∈ stages) := by
  obtain ⟨f₀, hmem, hf⟩ := h
  obtain ⟨j, hj⟩ := List.mem_iff_getElem?.mp hmem
  by_cases hij : i = j
  · subst hij
    rw [hi] at hj
    cases hj
    exact .inr hf
  · refine .inl ⟨f₀, List.mem_iff_getElem?.mpr ⟨j, ?_⟩, hf⟩
    rw [List.getElem?_set_ne hij]
    exact hj

theorem Owed.eraseIdx (h : Owed I flights stages key k) (hi : flights[i]? = some f) :
    Owed I (flights.eraseIdx i) stages key k ∨ (key (f.docking.slot I) = k ∧ f.stage ∈ stages) := by
  obtain ⟨f₀, hmem, hf⟩ := h
  obtain ⟨j, hj⟩ := List.mem_iff_getElem?.mp hmem
  by_cases hij : j = i
  · subst hij
    rw [hi] at hj
    cases hj
    exact .inr hf
  · exact .inl ⟨f₀, List.mem_eraseIdx_iff_getElem?.mpr ⟨j, hij, hj⟩, hf⟩

theorem owed_self (hi : flights[i]? = some f) {n : ℕ} (hk : key (f.docking.slot I) = k)
    (hs : Flight.stage { f with sent := n } ∈ stages) :
    Owed I (flights.set i { f with sent := n }) stages key k :=
  ⟨_, List.mem_set (List.getElem?_eq_some_iff.mp hi).1 _, hk, hs⟩

end Owed

/-- Every item without a deadline, every item that may outlive its folder and every folder without a
deadline is being seen to. -/
structure Accounted (I : Casing) (w : WriterWorld) : Prop where
  typed : Typed w.store
  deadlines : ∀ k d, w.store.deadline k = some d → w.now ≤ d ∧ d ≤ w.now + dataExpiration
  counted : ∀ s x, (w.store.val (wire (Entity.station s x).key)).isSome →
    1 ≤ w.store.hcount (wire (Entity.station s x).key) stationCountField
  undated : ∀ r, IsSlot r → (w.store.val r.itemKey).isSome → w.store.deadline r.itemKey = none →
    Owed I w.flights [.counted, .written] Slot.itemKey r.itemKey
  dated : ∀ r, IsSlot r → ∀ d, w.store.deadline r.itemKey = some d →
    Owed I w.flights [.exposed, .filed] Slot.itemKey r.itemKey ∨
      ((w.store.zscore r.folderKey r.member).isSome ∧
        ∀ d', w.store.deadline r.folderKey = some d' → d ≤ d')
  folders : ∀ r, IsSlot r → (w.store.val r.folderKey).isSome → w.store.deadline r.folderKey = none →
    Owed I w.flights [.filed] Slot.folderKey r.folderKey

theorem accounted_initial (I : Casing) (now : Time) : Accounted I (WriterWorld.initial now) where
  typed := typed_empty
  deadlines := fun _ _ h => by cases h
  counted := fun _ _ h => by cases h
  undated := fun _ _ h _ => by cases h
  dated := fun _ _ _ h => by cases h
  folders := fun _ _ h _ => by cases h

/-- Cuts and lapses that do no harm. The connection fails before a batch is sent or when both deadlines
are set, or with the item written but its deadline not yet renewed, if it has one already. When a station is
described it is still there, and when a folder's deadline is set the item is still filed in it. -/
def Benign (I : Casing) (w : WriterWorld) : WriterAction → Prop
  | .tick _ | .submit _ => True
  | .command i => ∀ f, w.flights[i]? = some f →
    (f.stage = .counted → (w.store.val (f.docking.slot I).itemKey).isSome) ∧
    (f.stage = .filed → (w.store.zscore (f.docking.slot I).folderKey (f.docking.slot I).member).isSome)
  | .cut i => ∀ f, w.flights[i]? = some f → f.stage ≠ .exposed ∧ f.stage ≠ .filed ∧
    (f.stage = .counted ∨ f.stage = .written → (w.store.val (f.docking.slot I).itemKey).isSome →
      w.store.deadline (f.docking.slot I).itemKey ≠ none)

section Steps

variable {I : Casing} {w : WriterWorld}

theorem Accounted.submit (h : Accounted I w) (d : DockingCall) :
    Accounted I { w with flights := w.flights ++ [⟨d, 0⟩] } where
  typed := h.typed
  deadlines := h.deadlines
  counted := h.counted
  undated := fun r hr hs hd => (h.undated r hr hs hd).append _
  dated := fun r hr d hd => (h.dated r hr d hd).imp_left fun ho => ho.append _
  folders := fun r hr hs hd => (h.folders r hr hs hd).append _

theorem Accounted.cut (h : Accounted I w) {i : ℕ} {f : Flight} (hi : w.flights[i]? = some f)
    (hg : Benign I w (.cut i)) : Accounted I { w with flights := w.flights.eraseIdx i } where
  typed := h.typed
  deadlines := h.deadlines
  counted := h.counted
  undated := by
    intro r hr hs hd
    rcases (h.undated r hr hs hd).eraseIdx hi with ho | ⟨hk, hstage⟩
    · exact ho
    · obtain ⟨-, -, hdated⟩ := hg f hi
      rw [List.mem_pair] at hstage
      exact absurd hd (hk ▸ hdated hstage (hk ▸ hs))
  dated := by
    intro r hr d hd
    refine (h.dated r hr d hd).imp_left fun ho => ?_
    rcases ho.eraseIdx hi with ho | ⟨-, hstage⟩
    · exact ho
    · obtain ⟨hexposed, hfiled, -⟩ := hg f hi
      rw [List.mem_pair] at hstage
      exact absurd hstage (not_or.mpr ⟨hexposed, hfiled⟩)
  folders := by
    intro r hr hs hd
    rcases (h.folders r hr hs hd).eraseIdx hi with ho | ⟨-, hstage⟩
    · exact ho
    · exact absurd (List.mem_singleton.mp hstage) (hg f hi).2.1

theorem Accounted.tick (h : Accounted I w) {t : Time} (ht : w.now ≤ t) :
    Accounted I { w with now := t, store := w.store.purge t } where
  typed := h.typed.purge t
  deadlines := by
    intro k d hd
    obtain ⟨hd, htd⟩ := deadline_purge hd
    exact ⟨htd, (h.deadlines k d hd).2.trans (Nat.add_le_add_right ht _)⟩
  counted := by
    intro s x hs
    have hl := lookup_purge_of_isSome hs
    have hc := h.counted s x (Store.isSome_of_purge hs)
    unfold Store.hcount Store.hget Store.val at hc ⊢
    rw [hl]
    exact hc
  undated := by
    intro r hr hs hd
    have hl := lookup_purge_of_isSome hs
    refine h.undated r hr (Store.isSome_of_purge hs) ?_
    rw [Store.deadline, ← hl]
    exact hd
  dated := by
    intro r hr d hd
    obtain ⟨hd, htd⟩ := deadline_purge hd
    refine (h.dated r hr d hd).imp_right fun hfiled => ?_
    obtain ⟨hm, hcover⟩ := hfiled
    have hl := lookup_purge_of_deadline fun d' hd' => htd.trans (hcover d' hd')
    refine ⟨?_, fun d' hd' => hcover d' (deadline_purge hd').1⟩
    unfold Store.zscore Store.val at hm ⊢
    rw [hl]
    exact hm
  folders := by
    intro r hr hs hd
    have hl := lookup_purge_of_isSome hs
    refine h.folders r hr (Store.isSome_of_purge hs) ?_
    rw [Store.deadline, ← hl]
    exact hd

end Steps

section Command

variable {I : Casing} {w : WriterWorld} {σ' : Store} {f : Flight} {c : Cmd} {g : Stage} {i : ℕ}

/-- A command writes the item, files it or writes an index, or sets one of the two deadlines. -/
theorem Advance.kinds (h : Advance I f c g) :
    (∃ k, c.target = some k ∧
      ((k = (f.docking.slot I).itemKey ∧ f.stage ∈ [.waiting, .counted] ∧ g ∈ [.counted, .written]) ∨
        (k = (f.docking.slot I).folderKey ∧ f.stage = .exposed ∧ g = .filed) ∨
        ((∃ κ : Catalog, k = wire κ.indexEntity.key) ∧ f.stage = .settled))) ∨
    ∃ k, c = .expire k dataExpiration ∧
      ((k = (f.docking.slot I).itemKey ∧ f.stage = .written ∧ g = .exposed) ∨
        (k = (f.docking.slot I).folderKey ∧ f.stage = .filed ∧ g = .settled)) := by
  cases h with
  | count hs s x h =>
    rw [h, hs]
    exact .inl ⟨_, rfl, .inl ⟨rfl, by decide, by decide⟩⟩
  | describe hs s x h fs hfs hne =>
    rw [h, hs]
    exact .inl ⟨_, rfl, .inl ⟨rfl, by decide, by decide⟩⟩
  | countDay hs cr d h =>
    rw [h, hs]
    exact .inl ⟨_, rfl, .inl ⟨rfl, by decide, by decide⟩⟩
  | expose hs => exact .inr ⟨_, rfl, .inl ⟨rfl, hs, rfl⟩⟩
  | file hs x => exact .inl ⟨_, rfl, .inr (.inl ⟨rfl, hs, rfl⟩)⟩
  | settle hs => exact .inr ⟨_, rfl, .inr ⟨rfl, hs, rfl⟩⟩
  | index hs κ m x => exact .inl ⟨_, rfl, .inr (.inr ⟨⟨κ, rfl⟩, hs⟩)⟩

theorem Advance.onlyAdds (h : Advance I f c g) (now : Time) (K : Str) : c.OnlyAdds now K := by
  cases h <;> trivial

/-- A command that writes a key. -/
theorem Accounted.write (h : Accounted I w) (hi : w.flights[i]? = some f)
    (hr : c.run w.now w.store = .ok σ') (htyped : Typed σ') (hadd : ∀ K, c.OnlyAdds w.now K)
    (hv : c.Nonvoid) {k : Str} (hk : c.target = some k) {n : ℕ}
    (hkind : (k = (f.docking.slot I).itemKey ∧ f.stage ∈ [.waiting, .counted] ∧
        Flight.stage { f with sent := n } ∈ [.counted, .written]) ∨
      (k = (f.docking.slot I).folderKey ∧ f.stage = .exposed ∧ Flight.stage { f with sent := n } = .filed) ∨
      ((∃ κ : Catalog, k = wire κ.indexEntity.key) ∧ f.stage = .settled))
    (hcount : ∀ s x, (σ'.val (wire (Entity.station s x).key)).isSome →
      1 ≤ σ'.hcount (wire (Entity.station s x).key) stationCountField) :
    Accounted I { w with store := σ', flights := w.flights.set i { f with sent := n } } := by
  obtain ⟨v, hv, rfl⟩ := put_of_run hr hk hv
  have hslot := f.docking.isSlot I
  refine ⟨htyped, fun K d hd => ?_, hcount, fun r hrs hs hd => ?_, fun r hrs d hd => ?_, fun r hrs hs hd => ?_⟩
  · rw [deadline_put_eq hv] at hd
    exact h.deadlines K d hd
  · rw [deadline_put_eq hv] at hd
    rcases (isSome_put hv _).mp hs with hrk | hs
    · rcases hkind with ⟨hki, -, hg⟩ | ⟨hkf, -, -⟩ | ⟨⟨κ, hκ⟩, -⟩
      · exact owed_self hi (hki.symm.trans hrk.symm) hg
      · exact absurd (hrk.trans hkf) (hrs.item_ne_folder hslot)
      · exact absurd (hrk.trans hκ) (hrs.item_ne_index κ)
    · rcases (h.undated r hrs hs hd).set hi { f with sent := n } with ho | ⟨hfr, hstage⟩
      · exact ho
      · rcases hkind with ⟨-, -, hg⟩ | ⟨-, hst, -⟩ | ⟨-, hst⟩
        · exact owed_self hi hfr hg
        · rw [hst] at hstage
          exact absurd hstage (by decide)
        · rw [hst] at hstage
          exact absurd hstage (by decide)
  · rw [deadline_put_eq hv] at hd
    rcases h.dated r hrs d hd with ho | ⟨hm, hcover⟩
    · rcases ho.set hi { f with sent := n } with ho | ⟨hfr, hstage⟩
      · exact .inl ho
      · rcases hkind with ⟨-, hst, -⟩ | ⟨-, -, hg⟩ | ⟨-, hst⟩
        · rcases List.mem_pair.mp hst with hst | hst
          · rw [hst] at hstage
            exact absurd hstage (by decide)
          · rw [hst] at hstage
            exact absurd hstage (by decide)
        · exact .inl (owed_self hi hfr (by rw [hg]; decide))
        · rw [hst] at hstage
          exact absurd hstage (by decide)
    · refine .inr ⟨(isMember_run hr (hadd _)).mpr (.inl hm), fun d' hd' => hcover d' ?_⟩
      rwa [deadline_put_eq hv] at hd'
  · rw [deadline_put_eq hv] at hd
    rcases (isSome_put hv _).mp hs with hrk | hs
    · rcases hkind with ⟨hki, -, -⟩ | ⟨hkf, -, hg⟩ | ⟨⟨κ, hκ⟩, -⟩
      · exact absurd (hki.symm.trans hrk.symm) (hslot.item_ne_folder hrs)
      · exact owed_self hi (hkf.symm.trans hrk.symm) (by rw [hg]; decide)
      · exact absurd (hrk.trans hκ) (hrs.folder_ne_index κ)
    · rcases (h.folders r hrs hs hd).set hi { f with sent := n } with ho | ⟨-, hstage⟩
      · exact ho
      · rw [List.mem_singleton.mp hstage] at hkind
        rcases hkind with ⟨-, hst, -⟩ | ⟨-, hst, -⟩ | ⟨-, hst⟩
        · exact absurd hst (by decide)
        · cases hst
        · cases hst

/-- A command that sets a deadline. -/
theorem Accounted.expire (h : Accounted I w) (hi : w.flights[i]? = some f) {k : Str}
    (hr : (Cmd.expire k dataExpiration).run w.now w.store = .ok σ') (htyped : Typed σ')
    (hb : Benign I w (.command i)) {n : ℕ}
    (hkind : (k = (f.docking.slot I).itemKey ∧ f.stage = .written ∧ Flight.stage { f with sent := n } = .exposed) ∨
      (k = (f.docking.slot I).folderKey ∧ f.stage = .filed ∧ Flight.stage { f with sent := n } = .settled)) :
    Accounted I { w with store := σ', flights := w.flights.set i { f with sent := n } } := by
  have hval := val_expire hr
  have hdead := deadline_expire hr
  have hslot := f.docking.isSlot I
  have hmember : ∀ K m, σ'.zscore K m = w.store.zscore K m := fun K m => by
    rw [Store.zscore, hval, Store.zscore]
  refine ⟨htyped, fun K d hd => ?_, fun s x hs => ?_, fun r hrs hs hd => ?_, fun r hrs d hd => ?_,
    fun r hrs hs hd => ?_⟩
  · rw [hdead] at hd
    split_ifs at hd
    · cases hd
      exact ⟨Nat.le_add_right _ _, le_rfl⟩
    · exact h.deadlines K d hd
  · rw [hval] at hs
    rw [Store.hcount, Store.hget, hval]
    exact h.counted s x hs
  · rw [hval] at hs
    rw [hdead] at hd
    split_ifs at hd with hcond
    rcases (h.undated r hrs hs hd).set hi { f with sent := n } with ho | ⟨hfr, hstage⟩
    · exact ho
    · rcases hkind with ⟨hki, -, -⟩ | ⟨-, hst, -⟩
      · have hrk : r.itemKey = k := (hki.trans hfr).symm
        exact absurd ⟨hrk, hrk ▸ hs⟩ hcond
      · rw [hst] at hstage
        exact absurd hstage (by decide)
  · rw [hdead] at hd
    split_ifs at hd with hcond
    · rcases hkind with ⟨hki, -, hg⟩ | ⟨hkf, -, -⟩
      · exact .inl (owed_self hi (hki.symm.trans hcond.1.symm) (by rw [hg]; decide))
      · exact absurd (hcond.1.trans hkf) (hrs.item_ne_folder hslot)
    · rcases h.dated r hrs d hd with ho | ⟨hm, hcover⟩
      · rcases ho.set hi { f with sent := n } with ho | ⟨hfr, hstage⟩
        · exact .inl ho
        · rcases hkind with ⟨-, hst, -⟩ | ⟨hkf, hst, -⟩
          · rw [hst] at hstage
            exact absurd hstage (by decide)
          · -- the batch ends: its item is filed in the folder whose deadline it has just set
            obtain ⟨hfolder, hname⟩ := hslot.unique hrs hfr
            have hm := (hb f hi).2 hst
            rw [hfolder, hname] at hm
            refine .inr ⟨by rwa [hmember], fun d' hd' => ?_⟩
            have hrk : r.folderKey = k := (hkf.trans hfolder).symm
            rw [hdead] at hd'
            split_ifs at hd' with hset
            · cases hd'
              exact (h.deadlines _ _ hd).2
            · exact absurd ⟨hrk, hrk ▸ isSome_of_deadline hd'⟩ hset
      · refine .inr ⟨by rwa [hmember], fun d' hd' => ?_⟩
        rw [hdead] at hd'
        split_ifs at hd'
        · cases hd'
          exact (h.deadlines _ _ hd).2
        · exact hcover d' hd'
  · rw [hval] at hs
    rw [hdead] at hd
    split_ifs at hd with hcond
    rcases (h.folders r hrs hs hd).set hi { f with sent := n } with ho | ⟨hfr, hstage⟩
    · exact ho
    · rcases hkind with ⟨-, hst, -⟩ | ⟨hkf, -, -⟩
      · rw [hst] at hstage
        exact absurd hstage (by decide)
      · have hrk : r.folderKey = k := (hkf.trans hfr).symm
        exact absurd ⟨hrk, hrk ▸ hs⟩ hcond

/-- A station that exists has been counted. -/
theorem counted_run (h : Accounted I w) (hi : w.flights[i]? = some f) (hb : Benign I w (.command i))
    (hadv : Advance I f c g) (hr : c.run w.now w.store = .ok σ') (s : UpperName) (x : Str)
    (hs : (σ'.val (wire (Entity.station s x).key)).isSome) :
    1 ≤ σ'.hcount (wire (Entity.station s x).key) stationCountField := by
  have hkeep : c.KeepsField (wire (Entity.station s x).key) stationCountField := by
    cases hadv with
    | describe hs s x h fs hfs hne => exact fun _ => hfs
    | _ => trivial
  have hadds : 0 ≤ c.hashAdds (wire (Entity.station s x).key) stationCountField := by
    cases hadv with
    | count hs s x h =>
      simp only [Cmd.hashAdds]
      split_ifs <;> decide
    | _ => exact le_rfl
  rw [hcount_run hr (hadv.onlyAdds _ _) hkeep]
  by_cases hold : (w.store.val (wire (Entity.station s x).key)).isSome
  · have hcount := h.counted s x hold
    omega
  · -- the station is new, so the command was the one that counts it
    have hzero : w.store.hcount (wire (Entity.station s x).key) stationCountField = 0 := by
      unfold Store.hcount Store.hget
      rw [Option.not_isSome_iff_eq_none.mp hold]
      rfl
    have hnew : ∀ k, c.target = some k → c.Nonvoid → wire (Entity.station s x).key = k := by
      intro k hk hv
      obtain ⟨v, hv, rfl⟩ := put_of_run hr hk hv
      exact ((isSome_put hv _).mp hs).resolve_right hold
    have hslot := f.docking.isSlot I
    have hitem : IsSlot (stationSlot s x) := .station s x
    cases hadv with
    | count hst s' x' _ =>
      rw [hzero, hnew _ rfl trivial]
      simp [Cmd.hashAdds]
    | describe hst s' x' he fs hfs hne =>
      have hcounted := (hb f hi).1 hst
      rw [he] at hcounted
      rw [hnew _ rfl hne] at hold
      exact absurd hcounted hold
    | countDay hst c' d' he => cases encode_eq_of_wire_key (hnew _ rfl trivial)
    | file hst x' => exact absurd (hnew _ rfl (by simp [Cmd.Nonvoid])) (hitem.item_ne_folder hslot)
    | index hst κ m x' => exact absurd (hnew _ rfl (by simp [Cmd.Nonvoid])) (hitem.item_ne_index κ)
    | expose hst =>
      rw [val_expire hr] at hs
      exact absurd hs hold
    | settle hst =>
      rw [val_expire hr] at hs
      exact absurd hs hold

theorem Accounted.command (h : Accounted I w) (hi : w.flights[i]? = some f) (hc : (f.rest I).head? = some c)
    (hb : Benign I w (.command i)) :
    Accounted I { w with store := c.apply w.now w.store,
                         flights := w.flights.set i { f with sent := f.sent + 1 } } := by
  have hadv := advance_of_head hc
  have hsends : Sends I f.docking.call c :=
    sends_of_mem_batch (List.mem_of_mem_drop (List.mem_of_mem_head? hc))
  obtain ⟨hr, htyped⟩ := hsends.schematic.apply h.typed w.now
  have hcounted := counted_run h hi hb hadv hr
  rcases hadv.kinds with ⟨k, hk, hkind⟩ | ⟨k, rfl, hkind⟩
  · exact h.write hi hr htyped (hadv.onlyAdds w.now) hsends.nonvoid hk hkind hcounted
  · exact h.expire hi hr htyped hb hkind

theorem Accounted.step {w' : WriterWorld} {a : WriterAction} (h : Accounted I w) (hb : Benign I w a)
    (hs : w.step I a = some w') : Accounted I w' := by
  cases a with
  | tick t =>
    simp only [WriterWorld.step] at hs
    split_ifs at hs with ht
    cases hs
    exact h.tick ht
  | submit d =>
    cases hs
    exact h.submit d
  | command i =>
    obtain ⟨f, hi, hs⟩ := Option.bind_eq_some_iff.mp hs
    obtain ⟨c, hc, hs⟩ := Option.bind_eq_some_iff.mp hs
    cases hs
    exact h.command hi hc hb
  | cut i =>
    obtain ⟨f, hi, hs⟩ := Option.bind_eq_some_iff.mp hs
    cases hs
    exact h.cut hi hb

theorem Accounted.reaches {w' : WriterWorld} (h : Accounted I w) (hr : w.Reaches I (Benign I) w') :
    Accounted I w' := by
  induction hr with
  | refl => exact h
  | step a _ hok hs ih => exact ih.step hok hs

end Command

/-! Between batches. -/

/-- Every data key lapses some day; every station has been counted and is listed in its system; every
day of a carrier is listed. -/
structure WellKept (σ : Store) : Prop where
  expires : ∀ k, (σ.val k).isSome → lit "system:" <+: k ∨ lit "carrier:" <+: k → (σ.deadline k).isSome
  stations : ∀ s x, (σ.val (wire (Entity.station s x).key)).isSome →
    1 ≤ σ.hcount (wire (Entity.station s x).key) stationCountField ∧
      (σ.zscore (wire (Entity.systemStations s).key) (wire x)).isSome
  days : ∀ c d, (σ.val (wire (Entity.carrierDaily c d).key)).isSome →
    (σ.zscore (wire (Entity.carrierDays c).key) (wire d)).isSome

section Quiet

variable {I : Casing} {w : WriterWorld}

theorem not_owed (hq : w.Quiet I) {stages : List Stage} (hs : Stage.settled ∉ stages) {key : Slot → Str}
    {k : Str} : ¬ Owed I w.flights stages key k := by
  rintro ⟨f, hf, -, hstage⟩
  rw [stage_of_rest (hq f hf)] at hstage
  exact hs hstage

theorem Accounted.item_dated (h : Accounted I w) (hq : w.Quiet I) {r : Slot} (hr : IsSlot r)
    (hs : (w.store.val r.itemKey).isSome) : ∃ d, w.store.deadline r.itemKey = some d := by
  rw [← Option.ne_none_iff_exists']
  exact fun hd => not_owed hq (by decide) (h.undated r hr hs hd)

theorem Accounted.folder_dated (h : Accounted I w) (hq : w.Quiet I) {r : Slot} (hr : IsSlot r)
    (hs : (w.store.val r.folderKey).isSome) : ∃ d, w.store.deadline r.folderKey = some d := by
  rw [← Option.ne_none_iff_exists']
  exact fun hd => not_owed hq (by decide) (h.folders r hr hs hd)

theorem Accounted.item_filed (h : Accounted I w) (hq : w.Quiet I) {r : Slot} (hr : IsSlot r)
    (hs : (w.store.val r.itemKey).isSome) : (w.store.zscore r.folderKey r.member).isSome := by
  obtain ⟨d, hd⟩ := h.item_dated hq hr hs
  exact ((h.dated r hr d hd).resolve_left (not_owed hq (by decide))).1

private theorem tag_of_data {e : Entity} {k : Str} (he : wire e.key = k)
    (hk : lit "system:" <+: k ∨ lit "carrier:" <+: k) : e.tag = lit "system:" ∨ e.tag = lit "carrier" := by
  rw [← take_wire_key, he]
  rcases hk with ⟨rest, rfl⟩ | ⟨rest, rfl⟩
  · exact .inl rfl
  · exact .inr rfl

theorem Accounted.wellKept (h : Accounted I w) (hq : w.Quiet I) : WellKept w.store where
  expires := by
    intro k hs hk
    obtain ⟨v, hv⟩ := Option.isSome_iff_exists.mp hs
    obtain ⟨e, rfl, -⟩ := h.typed k v hv
    rw [Option.isSome_iff_exists]
    cases e with
    | station s x => exact h.item_dated hq (.station s x) hs
    | systemStations s => exact h.folder_dated hq (.station s []) hs
    | carrierDaily c d => exact h.item_dated hq (.daily c d) hs
    | carrierDays c => exact h.folder_dated hq (.daily c []) hs
    | _ => exact absurd (tag_of_data rfl hk) (by decide)
  stations := fun s x hs => ⟨h.counted s x hs, h.item_filed hq (.station s x) hs⟩
  days := fun c d hs => h.item_filed hq (.daily c d) hs

/-- After any run of docking batches, command by command, whose cuts and lapses are benign, the store is
well kept whenever no batch is in progress. -/
theorem batches_keep_store (I : Casing) (now : Time) {w : WriterWorld}
    (h : (WriterWorld.initial now).Reaches I (Benign I) w) (hq : w.Quiet I) : WellKept w.store :=
  ((accounted_initial I now).reaches h).wellKept hq

end Quiet

section Abraham

instance (I : Casing) (w : WriterWorld) (a : WriterAction) : Decidable (Benign I w a) :=
  match a with
  | .tick _ | .submit _ => inferInstanceAs (Decidable True)
  | .command i => inferInstanceAs (Decidable (∀ f ∈ w.flights[i]?,
      (f.stage = .counted → (w.store.val (f.docking.slot I).itemKey).isSome) ∧
      (f.stage = .filed → (w.store.zscore (f.docking.slot I).folderKey (f.docking.slot I).member).isSome)))
  | .cut i => inferInstanceAs (Decidable (∀ f ∈ w.flights[i]?, f.stage ≠ .exposed ∧ f.stage ≠ .filed ∧
      (f.stage = .counted ∨ f.stage = .written → (w.store.val (f.docking.slot I).itemKey).isSome →
        w.store.deadline (f.docking.slot I).itemKey ≠ none)))

instance (I : Casing) (w : WriterWorld) : Decidable (w.Quiet I) :=
  inferInstanceAs (Decidable (∀ f ∈ w.flights, f.rest I = []))

/-- A scripted run whose actions are checked one by one. -/
def WriterWorld.runIf (I : Casing) (ok : WriterWorld → WriterAction → Prop) [∀ w a, Decidable (ok w a)] :
    List WriterAction → WriterWorld → Option WriterWorld
  | [], w => some w
  | a :: as, w => if ok w a then (w.step I a).bind (runIf I ok as) else none

theorem WriterWorld.reaches_runIf {I : Casing} {ok : WriterWorld → WriterAction → Prop}
    [∀ w a, Decidable (ok w a)] {acts : List WriterAction} {w₀ w w' : WriterWorld} (h : w₀.Reaches I ok w)
    (hr : w.runIf I ok acts = some w') : w₀.Reaches I ok w' := by
  induction acts generalizing w with
  | nil =>
    cases hr
    exact h
  | cons a acts ih =>
    unfold WriterWorld.runIf at hr
    split_ifs at hr with ha
    obtain ⟨w₁, hs, hr⟩ := Option.bind_eq_some_iff.mp hr
    exact ih (.step a h ha hs) hr

def abrahamLincoln : DockingCall :=
  .station (lit "Sol") (lit "Abraham Lincoln") (lit "Orbis") ⟨638712864000000000, 0, by decide⟩

def abrahamKey : Str := wire (Entity.station (asciiCasing.upper (lit "Sol")) (lit "Abraham Lincoln")).key

/-- A docking runs to its end, with a pause in it; a second one is cut after its first command. -/
theorem batches_keep_store_abraham :
    ∃ w, (WriterWorld.initial 0).runIf asciiCasing (Benign asciiCasing)
        ([.submit abrahamLincoln, .command 0, .command 0, .tick 1000, .command 0, .command 0, .tick 2000,
          .command 0, .command 0, .submit abrahamLincoln, .command 1, .cut 1]) = some w ∧
      w.Quiet asciiCasing ∧ w.store.hcount abrahamKey stationCountField = 2 ∧ WellKept w.store := by
  have h : (((WriterWorld.initial 0).runIf asciiCasing (Benign asciiCasing)
      ([.submit abrahamLincoln, .command 0, .command 0, .tick 1000, .command 0, .command 0, .tick 2000,
        .command 0, .command 0, .submit abrahamLincoln, .command 1, .cut 1])).map fun w =>
      decide (w.Quiet asciiCasing ∧ w.store.hcount abrahamKey stationCountField = 2)) = some true := by
    decide +kernel
  obtain ⟨w, hw, h⟩ := Option.map_eq_some_iff.mp h
  obtain ⟨hq, hcount⟩ := of_decide_eq_true h
  exact ⟨w, hw, hq, hcount, batches_keep_store asciiCasing 0 (WriterWorld.reaches_runIf .refl hw) hq⟩

/-- The connection fails after the first command of the first docking: the station's hash stays for ever. -/
theorem cut_batch_never_expires :
    ¬ ∀ (I : Casing) (now : Time) (w : WriterWorld),
      (WriterWorld.initial now).Reaches I (fun _ _ => True) w → w.Quiet I → WellKept w.store := by
  intro hall
  have h : (((WriterWorld.initial 0).runIf asciiCasing (fun _ _ => True)
      [.submit abrahamLincoln, .command 0, .cut 0]).map fun w =>
      decide (w.Quiet asciiCasing ∧ (w.store.val abrahamKey).isSome ∧ w.store.deadline abrahamKey = none ∧
        lit "system:" <+: abrahamKey)) = some true := by
    decide +kernel
  obtain ⟨w, hw, h⟩ := Option.map_eq_some_iff.mp h
  obtain ⟨hq, hs, hd, hsystem⟩ := of_decide_eq_true h
  have hexpires := (hall asciiCasing 0 w (WriterWorld.reaches_runIf .refl hw) hq).expires _ hs (.inl hsystem)
  rw [hd] at hexpires
  cases hexpires

end Abraham

end EliteEvents

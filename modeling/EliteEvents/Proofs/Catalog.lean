import EliteEvents.Proofs.TypedStore
import EliteEvents.Spec.SearchIndex

/-! What the writer's batches mean for a search index: which names they record, which of
their keys a rebuild's scan can return, and which name it reads from each. -/

namespace EliteEvents

open Text Redis RedisKeys SearchIndexMaintainer

/-- The blind split on `:` recovers the second part, whatever follows it. -/
theorem extractName_tagged (tag rest : Str) {name : Str} (ht : colon ∉ tag) (hn : colon ∉ name) :
    extractName (tag ++ colon :: (name ++ colon :: rest)) = some name := by
  rw [extractName, List.splitOn_append_cons_self_of_not_mem ht,
    List.splitOn_append_cons_self_of_not_mem hn]
  rfl

theorem colon_notMem_of_mem_splitOn {l m : Str} (h : m ∈ l.splitOn colon) : colon ∉ m := by
  induction l generalizing m with
  | nil =>
    rw [List.splitOn_nil, List.mem_singleton] at h
    simp [h]
  | cons u l ih =>
    rw [List.splitOn_cons_eq_if_modifyHead] at h
    split_ifs at h with hu
    · rcases List.mem_cons.mp h with rfl | h
      · exact List.not_mem_nil
      · exact ih h
    · cases hs : l.splitOn colon with
      | nil => exact absurd hs (List.splitOn_ne_nil colon l)
      | cons p ps =>
        rw [hs, List.modifyHead_cons] at h
        rcases List.mem_cons.mp h with rfl | h
        · rw [List.mem_cons, not_or]
          exact ⟨fun e => hu (by rw [e]; exact beq_self_eq_true _), ih (by rw [hs]; simp)⟩
        · exact ih (by rw [hs]; exact List.mem_cons_of_mem _ h)

/-- A name read from a key never contains the separator. -/
theorem colon_notMem_of_extractName {k m : Str} (h : extractName k = some m) : colon ∉ m :=
  colon_notMem_of_mem_splitOn (List.mem_of_getElem? h)

/-- The name an entity's key is filed under in a catalog. -/
def Entity.name : Catalog → Entity → Option UpperName
  | .system, .station s _ | .system, .systemStations s => some s
  | .carrier, .carrierDaily c _ | .carrier, .carrierDays c => some c
  | _, _ => none

/-- The name a call puts in a catalog's index, as the server stores it. -/
def WriterCall.recorded (I : Casing) : Catalog → WriterCall → Option Str
  | .system, .stationDocking s _ _ _ => some (wire (normalizeSystem I s))
  | .carrier, .fleetCarrierDocking c _ => some (wire (normalizeCarrier I c))
  | _, _ => none

theorem tag_encode (e : Entity) : e.encode.tag = e.tag := by
  cases e <;> rfl

theorem take_wire_key (e : Entity) : (wire e.key).take 7 = e.tag := by
  rw [wire_key, key_take, tag_encode]

/-- A key that matches the pattern starts and ends with its two literals. -/
theorem livePattern_iff (κ : Catalog) {k : Str} (hk : WellFormed k) :
    globMatch κ.livePattern k = true ↔ ∃ cs, k = κ.dataKey (ofChars cs) := by
  cases κ with
  | system =>
    exact globMatch_iff (a := "system:".toList) (b := ":stations".toList) (by decide) (by decide)
      (by decide) (by decide) hk
  | carrier =>
    exact globMatch_iff (a := "carrier:".toList) (b := ":days".toList) (by decide) (by decide)
      (by decide) (by decide) hk

theorem livePattern_dataKey (κ : Catalog) {m : Str} (hm : WellFormed m) :
    globMatch κ.livePattern (κ.dataKey m) = true := by
  have hk : WellFormed (κ.dataKey m) := by
    cases κ with
    | system => exact (wire_systemStations m).trans (congrArg systemStations hm)
    | carrier => exact (wire_carrierDays m).trans (congrArg carrierDays hm)
  rw [livePattern_iff κ hk]
  refine ⟨scalars m, ?_⟩
  rw [show ofChars (scalars m) = m from hm]

theorem extractName_dataKey (κ : Catalog) {m : Str} (hm : colon ∉ m) :
    extractName (κ.dataKey m) = some m := by
  cases κ with
  | system => exact extractName_tagged (lit "system") (lit "stations") (by decide) hm
  | carrier => exact extractName_tagged (lit "carrier") (lit "days") (by decide) hm

/-- The scan of a catalog returns only keys that are filed in it, the keys of stations whose
names look like the end of the pattern among them. -/
theorem name_of_livePattern (κ : Catalog) {e : Entity}
    (h : globMatch κ.livePattern (wire e.key) = true) : ∃ s, e.name κ = some s := by
  obtain ⟨cs, hk⟩ := (livePattern_iff κ (wellFormed_wire _)).mp h
  have ht : e.tag = (κ.dataKey (ofChars cs)).take 7 := by rw [← take_wire_key, hk]
  cases κ with
  | system =>
    have ht : e.tag = lit "system:" := ht
    cases e <;> simp only [Entity.tag] at ht <;>
      first | exact ⟨_, rfl⟩ | exact absurd ht (by decide)
  | carrier =>
    have ht : e.tag = lit "carrier" := ht
    cases e <;> simp only [Entity.tag] at ht <;>
      first | exact ⟨_, rfl⟩ | exact absurd ht (by decide)

theorem colon_wire {s : Str} : colon ∈ wire s ↔ colon ∈ s := mem_wire (by decide) s

/-- A key is filed under the name the split reads from it, if the name has no separator. -/
theorem extractName_key (κ : Catalog) {e : Entity} {s : UpperName} (h : e.name κ = some s)
    (hs : colon ∉ wire s.val) : extractName (wire e.key) = some (wire s.val) := by
  cases κ with
  | system =>
    cases e with
    | station s' x =>
      cases h
      rw [Entity.key, wire_station]
      exact extractName_tagged (lit "system") (lit "station:" ++ wire x) (by decide) hs
    | systemStations s' =>
      cases h
      rw [Entity.key, wire_systemStations]
      exact extractName_dataKey .system hs
    | _ => cases h
  | carrier =>
    cases e with
    | carrierDaily c d =>
      cases h
      rw [Entity.key, wire_carrierDaily]
      exact extractName_tagged (lit "carrier") (lit "daily:" ++ wire d) (by decide) hs
    | carrierDays c =>
      cases h
      rw [Entity.key, wire_carrierDays]
      exact extractName_dataKey .carrier hs
    | _ => cases h

def Catalog.indexEntity : Catalog → Entity
  | .system => .systemIndex
  | .carrier => .carrierIndex

theorem wire_index (κ : Catalog) : wire κ.indexEntity.key = κ.index := by
  cases κ <;> decide

theorem wire_catalog_index (κ : Catalog) : wire κ.index = κ.index := by
  rw [← wire_index, wire_wire]

theorem mem_chunkFrom {size : ℕ} (hs : 0 < size) {fuel : ℕ} {l : List Str} (hl : l.length ≤ fuel)
    (n : Str) : (∃ c ∈ chunkFrom size fuel l, n ∈ c) ↔ n ∈ l := by
  induction fuel generalizing l with
  | zero =>
    rw [List.length_eq_zero_iff.mp (Nat.le_zero.mp hl)]
    simp [chunkFrom]
  | succ fuel ih =>
    unfold chunkFrom
    split_ifs with h
    · simp [h]
    · have hpos : 0 < l.length := List.length_pos_iff.mpr h
      have hd : (l.drop size).length ≤ fuel := by rw [List.length_drop]; omega
      rw [List.exists_mem_cons_iff, ih hd, ← List.mem_append, List.take_append_drop]

theorem mem_chunk {size : ℕ} (hs : 0 < size) {l : List Str} (n : Str) :
    (∃ c ∈ chunk size l, n ∈ c) ↔ n ∈ l := mem_chunkFrom hs le_rfl n

/-- The commands of a rebuild: additions to its index, and removals from it. -/
theorem mem_writes {κ : Catalog} {indexed live : List Str} {c : Cmd}
    (hc : c ∈ writes κ.index indexed live) :
    (∃ names : List Str, c = .zadd κ.index (names.map fun n => (wire n, indexScore)) ∧
      ∀ n ∈ names, n ∈ toAdd indexed live) ∨
    (∃ names : List Str, c = .zrem κ.index (names.map wire) ∧ ∀ n ∈ names, n ∈ toRemove indexed live) := by
  rcases List.mem_append.mp hc with hc | hc
  · obtain ⟨names, hn, rfl⟩ := List.mem_map.mp hc
    refine .inl ⟨names, ?_, fun n h => (mem_chunk (by decide) n).mp ⟨names, hn, h⟩⟩
    rw [Cmd.encode, wire_catalog_index, List.map_map]
    rfl
  · obtain ⟨names, hn, rfl⟩ := List.mem_map.mp hc
    refine .inr ⟨names, ?_, fun n h => (mem_chunk (by decide) n).mp ⟨names, hn, h⟩⟩
    rw [Cmd.encode, wire_catalog_index]

theorem indexEntity_isSortedSet (κ : Catalog) : κ.indexEntity.IsSortedSet := by
  cases κ <;> trivial

section Batch

variable {I : Casing} {call : WriterCall} {c : Cmd}

/-- A batch writes only keys of the schema, and files them under the name it records. -/
theorem Sends.written (h : Sends I call c) {k : Str} (hk : c.written = some k) :
    ∃ e : Entity, k = wire e.key ∧
      ∀ κ s, e.name κ = some s → call.recorded I κ = some (wire s.val) := by
  cases h <;> cases hk
  case countDay cr t =>
    refine ⟨.carrierDaily (I.upper cr) t.date, rfl, fun κ s hs => ?_⟩
    cases κ <;> cases hs
    rfl
  case addDay cr t =>
    refine ⟨.carrierDays (I.upper cr), rfl, fun κ s hs => ?_⟩
    cases κ <;> cases hs
    rfl
  case indexCarrier cr t => exact ⟨.carrierIndex, rfl, fun κ s hs => by cases κ <;> cases hs⟩
  case countStation s x y t =>
    refine ⟨.station (I.upper s) x, rfl, fun κ s hs => ?_⟩
    cases κ <;> cases hs
    rfl
  case describeStation s x y t =>
    refine ⟨.station (I.upper s) x, rfl, fun κ s hs => ?_⟩
    cases κ <;> cases hs
    rfl
  case addStation s x y t =>
    refine ⟨.systemStations (I.upper s), rfl, fun κ s hs => ?_⟩
    cases κ <;> cases hs
    rfl
  case indexSystem s x y t => exact ⟨.systemIndex, rfl, fun κ s hs => by cases κ <;> cases hs⟩
  case visit s => exact ⟨.systemVisits, rfl, fun κ s hs => by cases κ <;> cases hs⟩

/-- A sorted set of a batch is an index exactly when the command files the recorded name. -/
theorem Sends.addsMember_index (h : Sends I call c) {κ : Catalog} {m : Str}
    (hm : c.AddsMember κ.index m) : call.recorded I κ = some m := by
  rw [← wire_index] at hm
  have key : ∀ {e : Entity}, wire e.key = wire κ.indexEntity.key → e.encode = κ.indexEntity := by
    intro e he
    rw [encode_eq_of_wire_key he]
    cases κ <;> rfl
  cases h with
  | addDay cr t => cases κ <;> cases key (e := .carrierDays (I.upper cr)) hm.1
  | indexCarrier cr t =>
    obtain ⟨hk, hm⟩ := hm
    cases κ with
    | system => cases key (e := .carrierIndex) hk
    | carrier => rw [show m = wire (normalizeCarrier I cr) by simpa using hm]; rfl
  | addStation s x y t => cases κ <;> cases key (e := .systemStations (I.upper s)) hm.1
  | indexSystem s x y t =>
    obtain ⟨hk, hm⟩ := hm
    cases κ with
    | system => rw [show m = wire (normalizeSystem I s) by simpa using hm]; rfl
    | carrier => cases key (e := .systemIndex) hk
  | visit s => cases κ <;> cases key (e := .systemVisits) hm.1
  | _ => exact hm.elim

/-- A call that records a name adds it to the index and makes its data key, in this order. -/
theorem exists_of_recorded {κ : Catalog} {m : Str} (h : call.recorded I κ = some m)
    (nextExpiration : Time) :
    ∃ c ∈ DockingWriter.batch I nextExpiration call, c.target = some (κ.dataKey m) ∧
      ∃ c' ∈ DockingWriter.batch I nextExpiration call, c'.AddsMember κ.index m := by
  cases κ with
  | system =>
    cases call with
    | stationDocking s x y t =>
      cases h
      rw [Catalog.dataKey, ← wire_systemStations]
      refine ⟨_, List.mem_of_getElem? (i := 3) rfl, rfl, _, List.mem_of_getElem? (i := 5) rfl, ?_⟩
      exact ⟨wire_index .system, List.mem_singleton_self _⟩
    | _ => cases h
  | carrier =>
    cases call with
    | fleetCarrierDocking cr t =>
      cases h
      rw [Catalog.dataKey, ← wire_carrierDays]
      refine ⟨_, List.mem_of_getElem? (i := 2) rfl, rfl, _, List.mem_of_getElem? (i := 4) rfl, ?_⟩
      exact ⟨wire_index .carrier, List.mem_singleton_self _⟩
    | _ => cases h

theorem wellFormed_of_recorded {κ : Catalog} {m : Str} (h : call.recorded I κ = some m) :
    WellFormed m := by
  cases κ with
  | system =>
    cases call with
    | stationDocking s x y t => cases h; exact wellFormed_wire _
    | _ => cases h
  | carrier =>
    cases call with
    | fleetCarrierDocking cr t => cases h; exact wellFormed_wire _
    | _ => cases h

end Batch

end EliteEvents

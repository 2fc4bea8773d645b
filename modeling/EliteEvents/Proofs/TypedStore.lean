import EliteEvents.Lib.RedisLemmas
import EliteEvents.Proofs.KeySchema
import EliteEvents.Spec.DockingWriter

/-! Every key of the store has the Redis type its builder calls for. Two names that differ
only in unpaired surrogates share a key once they are encoded, but never across builders,
so no command of the writer or of the index maintenance meets a key of another type. -/

namespace EliteEvents

open Text Redis RedisKeys

theorem noLower_wire {s : Str} (h : NoLower s) : NoLower (wire s) := by
  intro u hu hl
  refine h u ((mem_wire ?_ s).mp hu) hl
  omega

def UpperName.encode (s : UpperName) : UpperName := ⟨wire s.val, noLower_wire s.noLower⟩

/-- The entity a server sees: its free text after the encoding. -/
def Entity.encode : Entity → Entity
  | .station s x => .station s.encode (wire x)
  | .systemStations s => .systemStations s.encode
  | .carrierDaily c d => .carrierDaily c.encode (wire d)
  | .carrierDays c => .carrierDays c.encode
  | .systemVisits => .systemVisits
  | .systemCountCache => .systemCountCache
  | .eddnHeartbeat => .eddnHeartbeat
  | .systemIndex => .systemIndex
  | .carrierIndex => .carrierIndex

theorem wire_station (s x : Str) : wire (station s x) = station (wire s) (wire x) := by
  rw [station, wire_plain_append (by decide), wire_append_plain s (by decide) (by decide), station]

theorem wire_systemStations (s : Str) : wire (systemStations s) = systemStations (wire s) := by
  have h := wire_append_plain s (l := lit ":stations") (by decide) (by decide) []
  rw [List.append_nil] at h
  rw [systemStations, wire_plain_append (by decide), h]
  rfl

theorem wire_carrierDaily (c d : Str) :
    wire (carrierDaily c d) = carrierDaily (wire c) (wire d) := by
  rw [carrierDaily, wire_plain_append (by decide), wire_append_plain c (by decide) (by decide),
    carrierDaily]

theorem wire_carrierDays (c : Str) : wire (carrierDays c) = carrierDays (wire c) := by
  have h := wire_append_plain c (l := lit ":days") (by decide) (by decide) []
  rw [List.append_nil] at h
  rw [carrierDays, wire_plain_append (by decide), h]
  rfl

theorem wire_key (e : Entity) : wire e.key = e.encode.key := by
  cases e with
  | station s x => exact wire_station s.val x
  | systemStations s => exact wire_systemStations s.val
  | carrierDaily c d => exact wire_carrierDaily c.val d
  | carrierDays c => exact wire_carrierDays c.val
  | systemVisits => decide
  | systemCountCache => decide
  | eddnHeartbeat => decide
  | systemIndex => decide
  | carrierIndex => decide

theorem encode_eq_of_wire_key {e e' : Entity} (h : wire e.key = wire e'.key) :
    e.encode = e'.encode := by
  rw [wire_key, wire_key] at h
  exact entity_key_injective h

/-- The values an entity's key may hold. -/
def Entity.Admits : Entity → Value → Prop
  | .station _ _, v =>
    ∃ h, v = .hash h ∧ ∀ s, h.lookup stationCountField = some s → (Decimal.ofText s).isSome
  | .carrierDaily _ _, v => ∃ s, v = .str s ∧ (Decimal.ofText s).isSome
  | .systemStations _, v | .carrierDays _, v | .systemVisits, v | .systemIndex, v
  | .carrierIndex, v => ∃ z, v = .zset z
  | .systemCountCache, v | .eddnHeartbeat, v => ∃ s, v = .str s

def Entity.IsSortedSet : Entity → Prop
  | .systemStations _ | .carrierDays _ | .systemVisits | .systemIndex | .carrierIndex => True
  | .station _ _ | .carrierDaily _ _ | .systemCountCache | .eddnHeartbeat => False

theorem Entity.IsSortedSet.admits_iff {e : Entity} (h : e.IsSortedSet) (v : Value) :
    e.Admits v ↔ ∃ z, v = .zset z := by
  cases e with
  | station s x => exact h.elim
  | carrierDaily c d => exact h.elim
  | systemCountCache => exact h.elim
  | eddnHeartbeat => exact h.elim
  | _ => exact Iff.rfl

theorem admits_encode (e : Entity) (v : Value) : e.encode.Admits v ↔ e.Admits v := by
  cases e <;> exact Iff.rfl

/-- The keyspace holds only keys of the schema, each with a value of its own type. -/
def Typed (σ : Store) : Prop := ∀ k v, σ.val k = some v → ∃ e : Entity, wire e.key = k ∧ e.Admits v

theorem Typed.admits {σ : Store} (h : Typed σ) {e : Entity} {v : Value}
    (hv : σ.val (wire e.key) = some v) : e.Admits v := by
  obtain ⟨e', hk, ha⟩ := h _ _ hv
  rw [← admits_encode, ← encode_eq_of_wire_key hk, admits_encode]
  exact ha

theorem Typed.wellFormed {σ : Store} (h : Typed σ) {k : Str} (hk : (σ.val k).isSome) :
    WellFormed k := by
  obtain ⟨v, hv⟩ := Option.isSome_iff_exists.mp hk
  obtain ⟨e, rfl, -⟩ := h k v hv
  exact wellFormed_wire _

theorem typed_empty : Typed ∅ := by
  intro k v hv
  cases hv

/-- A store none of whose values are new is typed if the old one was. -/
theorem Typed.of_val {σ σ' : Store} (h : Typed σ) (hv : ∀ k v, σ'.val k = some v → σ.val k = some v) :
    Typed σ' := fun k v hk => h k v (hv k v hk)

theorem Typed.put {σ : Store} (h : Typed σ) {e : Entity} {v : Value} (hv : e.Admits v) :
    Typed (σ.put (wire e.key) v) := by
  intro k w hk
  by_cases hke : k = wire e.key
  · subst hke
    rw [Store.val_put_self] at hk
    split_ifs at hk
    cases hk
    exact ⟨e, rfl, hv⟩
  · rw [Store.val_put_ne σ hke] at hk
    exact h k w hk

theorem Typed.zset {σ : Store} (h : Typed σ) {e : Entity} (he : e.IsSortedSet) :
    ∃ z, σ.zset (wire e.key) = .ok z := by
  unfold Store.zset
  cases hv : σ.val (wire e.key) with
  | none => exact ⟨∅, rfl⟩
  | some v =>
    obtain ⟨z, rfl⟩ := (he.admits_iff v).mp (h.admits hv)
    exact ⟨z, rfl⟩

theorem Typed.hash {σ : Store} (h : Typed σ) (s : UpperName) (x : Str) :
    ∃ hs, σ.hash (wire (Entity.station s x).key) = .ok hs ∧
      ∀ c, hs.lookup stationCountField = some c → (Decimal.ofText c).isSome := by
  unfold Store.hash
  cases hv : σ.val (wire (Entity.station s x).key) with
  | none => exact ⟨∅, rfl, fun c hc => by cases hc⟩
  | some v =>
    obtain ⟨hs, rfl, hc⟩ := h.admits hv
    exact ⟨hs, rfl, hc⟩

theorem Typed.purge {σ : Store} (h : Typed σ) (now : Time) : Typed (σ.purge now) := by
  refine h.of_val fun k v hv => ?_
  unfold Store.val at hv ⊢
  rw [Store.lookup_purge] at hv
  cases hl : σ.lookup k with
  | none => rw [hl] at hv; cases hv
  | some e =>
    rw [hl, Option.filter_some] at hv
    split_ifs at hv
    · exact hv
    · cases hv

/-- The commands the services send: each on a key of the schema and of the type it wants. -/
inductive Schematic : Cmd → Prop
  | incr (c : UpperName) (d : Str) : Schematic (.incr (wire (Entity.carrierDaily c d).key))
  | hincrby (s : UpperName) (x : Str) (n : ℤ) :
      Schematic (.hincrby (wire (Entity.station s x).key) stationCountField n)
  | hset (s : UpperName) (x : Str) (fs : List (Str × Str))
      (h : stationCountField ∉ fs.map Prod.fst) :
      Schematic (.hset (wire (Entity.station s x).key) fs)
  | zadd (e : Entity) (es : List (Str × ℤ)) (h : e.IsSortedSet) : Schematic (.zadd (wire e.key) es)
  | zincrby (e : Entity) (n : ℤ) (m : Str) (h : e.IsSortedSet) :
      Schematic (.zincrby (wire e.key) n m)
  | zrem (e : Entity) (ms : List Str) (h : e.IsSortedSet) : Schematic (.zrem (wire e.key) ms)
  | expire (k : Str) (ttl : Time) : Schematic (.expire k ttl)
  | expireAt (k : Str) (deadline : Time) : Schematic (.expireAt k deadline)
  | heartbeat (v : Str) (ttl : Option Time) :
      Schematic (.set (wire Entity.eddnHeartbeat.key) v ttl)

theorem val_erase {σ : Store} {k K : Str} {v : Value} (h : Store.val (σ.erase k) K = some v) :
    σ.val K = some v := by
  unfold Store.val at h ⊢
  by_cases hk : K = k
  · subst hk
    rw [AList.lookup_erase] at h
    cases h
  · rwa [AList.lookup_erase_ne hk] at h

/-- On a typed store such a command succeeds and leaves a typed store. -/
theorem Schematic.run {c : Cmd} (hc : Schematic c) {σ : Store} (h : Typed σ) (now : Time) :
    ∃ σ', c.run now σ = .ok σ' ∧ Typed σ' := by
  cases hc with
  | incr cr d =>
    simp only [Cmd.run]
    cases hv : σ.val (wire (Entity.carrierDaily cr d).key) with
    | none => exact ⟨_, rfl, h.put (e := .carrierDaily cr d) ⟨_, rfl, by simp⟩⟩
    | some v =>
      obtain ⟨s, rfl, hs⟩ := h.admits hv
      obtain ⟨n, hn⟩ := Option.isSome_iff_exists.mp hs
      simp only [hn]
      exact ⟨_, rfl, h.put (e := .carrierDaily cr d) ⟨_, rfl, by simp⟩⟩
  | hincrby s x n =>
    obtain ⟨hs, hh, hcount⟩ := h.hash s x
    simp only [Cmd.run, hh]
    have hnew : ∀ m : ℤ, (Entity.station s x).Admits
        (.hash (hs.insert stationCountField (Decimal.text m))) := by
      intro m
      refine ⟨_, rfl, fun c hl => ?_⟩
      rw [AList.lookup_insert] at hl
      cases hl
      simp
    cases hl : hs.lookup stationCountField with
    | none => exact ⟨_, rfl, h.put (hnew n)⟩
    | some c =>
      obtain ⟨m, hm⟩ := Option.isSome_iff_exists.mp (hcount c hl)
      simp only [hm]
      exact ⟨_, rfl, h.put (hnew (m + n))⟩
  | hset s x fs hf =>
    obtain ⟨hs, hh, hcount⟩ := h.hash s x
    refine ⟨_, by rw [Cmd.run, hh]; rfl, h.put (e := .station s x) ⟨_, rfl, fun c hl => ?_⟩⟩
    rw [lookup_addFields_of_notMem hs fs hf] at hl
    exact hcount c hl
  | zadd e es he =>
    obtain ⟨z, hz⟩ := h.zset he
    exact ⟨_, by rw [Cmd.run, hz]; rfl, h.put ((he.admits_iff _).mpr ⟨_, rfl⟩)⟩
  | zincrby e n m he =>
    obtain ⟨z, hz⟩ := h.zset he
    exact ⟨_, by rw [Cmd.run, hz]; rfl, h.put ((he.admits_iff _).mpr ⟨_, rfl⟩)⟩
  | zrem e ms he =>
    obtain ⟨z, hz⟩ := h.zset he
    exact ⟨_, by rw [Cmd.run, hz]; rfl, h.put ((he.admits_iff _).mpr ⟨_, rfl⟩)⟩
  | expire k ttl =>
    refine ⟨_, rfl, h.of_val fun K v hv => ?_⟩
    split at hv
    · exact hv
    · rename_i e he
      rwa [val_insert_expiry he] at hv
  | expireAt k deadline =>
    refine ⟨_, rfl, h.of_val fun K v hv => ?_⟩
    split at hv
    · exact hv
    · rename_i e he
      split_ifs at hv
      · exact val_erase hv
      · rwa [val_insert_expiry he] at hv
  | heartbeat v ttl =>
    refine ⟨_, rfl, fun k w hk => ?_⟩
    by_cases hke : k = wire Entity.eddnHeartbeat.key
    · subst hke
      rw [Store.val, AList.lookup_insert] at hk
      cases hk
      exact ⟨.eddnHeartbeat, rfl, v, rfl⟩
    · rw [Store.val, AList.lookup_insert_ne hke] at hk
      exact h k w hk

theorem Schematic.apply {c : Cmd} (hc : Schematic c) {σ : Store} (h : Typed σ) (now : Time) :
    c.run now σ = .ok (c.apply now σ) ∧ Typed (c.apply now σ) := by
  obtain ⟨σ', hr, ht⟩ := hc.run h now
  have he : c.apply now σ = σ' := by rw [Cmd.apply, hr]
  rw [he]
  exact ⟨hr, ht⟩

/-- Within a batch no key lapses between two commands. -/
theorem Schematic.exec_fresh {c : Cmd} (hc : Schematic c) {σ : Store} {now : Time} (h : Typed σ)
    (hf : σ.Fresh now) :
    c.run now σ = .ok (c.exec now σ) ∧ Typed (c.exec now σ) ∧ (c.exec now σ).Fresh now := by
  rw [Cmd.exec_eq_apply hf]
  obtain ⟨hr, ht⟩ := hc.apply h now
  exact ⟨hr, ht, hf.run hr⟩

section Runs

variable {cs : List (Time × Cmd)} {σ : Store}

theorem typed_applyAll (hcs : ∀ p ∈ cs, Schematic p.2) (h : Typed σ) : Typed (applyAll cs σ) := by
  induction cs generalizing σ with
  | nil => exact h
  | cons p cs ih =>
    exact ih (fun q hq => hcs q (by simp [hq])) ((hcs p (by simp)).apply h p.1).2

theorem isMember_applyAll (hcs : ∀ p ∈ cs, Schematic p.2) (h : Typed σ) {K : Str}
    (hadd : ∀ p ∈ cs, p.2.OnlyAdds p.1 K) (m : Str) :
    ((applyAll cs σ).zscore K m).isSome ↔
      (σ.zscore K m).isSome ∨ ∃ p ∈ cs, p.2.AddsMember K m := by
  induction cs generalizing σ with
  | nil => simp [applyAll]
  | cons p cs ih =>
    obtain ⟨hr, ht⟩ := (hcs p (by simp)).apply h p.1
    have hstep := isMember_run (m := m) hr (hadd p (by simp))
    have hrest := ih (fun q hq => hcs q (by simp [hq])) ht (fun q hq => hadd q (by simp [hq]))
    show ((applyAll cs (p.2.apply p.1 σ)).zscore K m).isSome ↔ _
    rw [hrest, hstep, List.exists_mem_cons_iff, or_assoc]

theorem written_of_applyAll (hcs : ∀ p ∈ cs, Schematic p.2) (h : Typed σ) {K : Str}
    (hs : ((applyAll cs σ).val K).isSome) :
    (σ.val K).isSome ∨ ∃ p ∈ cs, p.2.written = some K := by
  induction cs generalizing σ with
  | nil => exact .inl hs
  | cons p cs ih =>
    obtain ⟨hr, ht⟩ := (hcs p (by simp)).apply h p.1
    rcases ih (fun q hq => hcs q (by simp [hq])) ht hs with hs | ⟨q, hq, hw⟩
    · by_cases hw : p.2.written = some K
      · exact .inr ⟨p, by simp, hw⟩
      · exact .inl (isSome_of_run hr hw hs)
    · exact .inr ⟨q, by simp [hq], hw⟩

theorem isSome_applyAll (hcs : ∀ p ∈ cs, Schematic p.2) (h : Typed σ) {K : Str}
    (hadd : ∀ p ∈ cs, p.2.OnlyAdds p.1 K) (hv : ∀ p ∈ cs, p.2.Nonvoid)
    (hs : (σ.val K).isSome ∨ ∃ p ∈ cs, p.2.target = some K) : ((applyAll cs σ).val K).isSome := by
  induction cs generalizing σ with
  | nil => exact hs.resolve_right (by simp)
  | cons p cs ih =>
    obtain ⟨hr, ht⟩ := (hcs p (by simp)).apply h p.1
    refine ih (fun q hq => hcs q (by simp [hq])) ht (fun q hq => hadd q (by simp [hq]))
      (fun q hq => hv q (by simp [hq])) ?_
    have hstep := isSome_run hr (hadd p (by simp)) (hv p (by simp))
    rw [List.exists_mem_cons_iff] at hs
    rcases hs with hs | hs | hs
    · exact .inl (hstep (.inl hs))
    · exact .inl (hstep (.inr hs))
    · exact .inr hs

end Runs

/-- The commands a call sends, by what each one writes. -/
inductive Sends (I : Casing) : WriterCall → Cmd → Prop
  | countDay (c : Str) (t : DateTimeOffset) :
      Sends I (.fleetCarrierDocking c t) (.incr (wire (Entity.carrierDaily (I.upper c) t.date).key))
  | addDay (c : Str) (t : DateTimeOffset) :
      Sends I (.fleetCarrierDocking c t) (.zadd (wire (Entity.carrierDays (I.upper c)).key)
        [(wire t.date, t.toUnixTimeSeconds)])
  | indexCarrier (c : Str) (t : DateTimeOffset) :
      Sends I (.fleetCarrierDocking c t)
        (.zadd (wire Entity.carrierIndex.key) [(wire (normalizeCarrier I c), indexScore)])
  | countStation (s x y : Str) (t : DateTimeOffset) :
      Sends I (.stationDocking s x y t)
        (.hincrby (wire (Entity.station (I.upper s) x).key) stationCountField 1)
  | describeStation (s x y : Str) (t : DateTimeOffset) :
      Sends I (.stationDocking s x y t) (.hset (wire (Entity.station (I.upper s) x).key)
        [(stationTypeField, wire y), (stationLastSeenField, Decimal.text t.toUnixTimeSeconds)])
  | addStation (s x y : Str) (t : DateTimeOffset) :
      Sends I (.stationDocking s x y t) (.zadd (wire (Entity.systemStations (I.upper s)).key)
        [(wire x, t.toUnixTimeSeconds)])
  | indexSystem (s x y : Str) (t : DateTimeOffset) :
      Sends I (.stationDocking s x y t)
        (.zadd (wire Entity.systemIndex.key) [(wire (normalizeSystem I s), indexScore)])
  | visit (s : Str) :
      Sends I (.systemVisit s) (.zincrby (wire Entity.systemVisits.key) 1 (wire (normalizeSystem I s)))
  | expireVisits (s : Str) (deadline : Time) :
      Sends I (.systemVisit s) (.expireAt (wire Entity.systemVisits.key) deadline)
  | expire (call : WriterCall) (e : Entity) (h : e ≠ .systemIndex ∧ e ≠ .carrierIndex) (ttl : Time) :
      Sends I call (.expire (wire e.key) ttl)

theorem batch_stationDocking (I : Casing) (nextExpiration : Time) (s x y : Str)
    (t : DateTimeOffset) :
    DockingWriter.batch I nextExpiration (.stationDocking s x y t) =
      [.hincrby (wire (Entity.station (I.upper s) x).key) stationCountField 1,
        .hset (wire (Entity.station (I.upper s) x).key)
          [(stationTypeField, wire y), (stationLastSeenField, Decimal.text t.toUnixTimeSeconds)],
        .expire (wire (Entity.station (I.upper s) x).key) dataExpiration,
        .zadd (wire (Entity.systemStations (I.upper s)).key) [(wire x, t.toUnixTimeSeconds)],
        .expire (wire (Entity.systemStations (I.upper s)).key) dataExpiration,
        .zadd (wire Entity.systemIndex.key) [(wire (normalizeSystem I s), indexScore)]] := by
  have hc : wire stationCountField = stationCountField := by decide
  have ht : wire stationTypeField = stationTypeField := by decide
  have hl : wire stationLastSeenField = stationLastSeenField := by decide
  simp only [DockingWriter.batch, DockingWriter.recordStationDocking, List.map_cons, List.map_nil,
    Cmd.encode, hc, ht, hl, Decimal.wire_text]
  rfl

theorem batch_fleetCarrierDocking (I : Casing) (nextExpiration : Time) (c : Str) (t : DateTimeOffset) :
    DockingWriter.batch I nextExpiration (.fleetCarrierDocking c t) =
      [.incr (wire (Entity.carrierDaily (I.upper c) t.date).key),
        .expire (wire (Entity.carrierDaily (I.upper c) t.date).key) dataExpiration,
        .zadd (wire (Entity.carrierDays (I.upper c)).key) [(wire t.date, t.toUnixTimeSeconds)],
        .expire (wire (Entity.carrierDays (I.upper c)).key) dataExpiration,
        .zadd (wire Entity.carrierIndex.key) [(wire (normalizeCarrier I c), indexScore)]] := rfl

theorem sends_of_mem_batch {I : Casing} {nextExpiration : Time} {call : WriterCall} {c : Cmd}
    (hc : c ∈ DockingWriter.batch I nextExpiration call) : Sends I call c := by
  cases call with
  | fleetCarrierDocking cr t =>
    simp only [batch_fleetCarrierDocking, List.mem_cons, List.not_mem_nil, or_false] at hc
    rcases hc with rfl | rfl | rfl | rfl | rfl
    · exact .countDay cr t
    · exact .expire _ (.carrierDaily (I.upper cr) t.date) (by simp) _
    · exact .addDay cr t
    · exact .expire _ (.carrierDays (I.upper cr)) (by simp) _
    · exact .indexCarrier cr t
  | stationDocking s x y t =>
    simp only [batch_stationDocking, List.mem_cons, List.not_mem_nil, or_false] at hc
    rcases hc with rfl | rfl | rfl | rfl | rfl | rfl
    · exact .countStation s x y t
    · exact .describeStation s x y t
    · exact .expire _ (.station (I.upper s) x) (by simp) _
    · exact .addStation s x y t
    · exact .expire _ (.systemStations (I.upper s)) (by simp) _
    · exact .indexSystem s x y t
  | systemVisit s =>
    simp only [DockingWriter.batch, DockingWriter.recordSystemVisit, List.map_cons,
      List.map_nil, List.mem_cons, List.not_mem_nil, or_false] at hc
    rcases hc with rfl | rfl
    · exact .visit s
    · exact .expireVisits s _

theorem Sends.schematic {I : Casing} {call : WriterCall} {c : Cmd} (h : Sends I call c) :
    Schematic c := by
  cases h with
  | countDay cr t => exact .incr _ _
  | addDay cr t => exact .zadd (.carrierDays (I.upper cr)) _ trivial
  | indexCarrier cr t => exact .zadd .carrierIndex _ trivial
  | countStation s x y t => exact .hincrby _ _ _
  | describeStation s x y t => exact .hset _ _ _ (by simp only [List.map_cons, List.map_nil]; decide)
  | addStation s x y t => exact .zadd (.systemStations (I.upper s)) _ trivial
  | indexSystem s x y t => exact .zadd .systemIndex _ trivial
  | visit s => exact .zincrby .systemVisits _ _ trivial
  | expireVisits s d => exact .expireAt _ _
  | expire call e he ttl => exact .expire _ _

theorem Sends.nonvoid {I : Casing} {call : WriterCall} {c : Cmd} (h : Sends I call c) :
    c.Nonvoid := by
  cases h <;> simp [Cmd.Nonvoid]

/-- Only the visit counts can be made to lapse at once by a batch. -/
theorem Sends.onlyAdds {I : Casing} {call : WriterCall} {c : Cmd} (h : Sends I call c) {e : Entity}
    (he : e.encode ≠ .systemVisits) (now : Time) : c.OnlyAdds now (wire e.key) := by
  cases h with
  | expireVisits s d => exact fun hk => absurd (encode_eq_of_wire_key hk).symm he
  | _ => trivial

end EliteEvents

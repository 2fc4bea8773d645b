import EliteEvents.Lib.TimedMap
import EliteEvents.Proofs.TypedStore
import EliteEvents.Spec.DockingReader

/-! Writer and reader implement one timed map. The sorted set of a system and the hashes of
its stations are separate keys with separate deadlines, but every docking touches both, so
the set never lapses before a hash it lists; members it keeps too long are skipped. -/

namespace EliteEvents

open Text Redis RedisKeys

section Batch

variable {now : Time} {σ σ' : Store}

/-- The three commands on a station's hash. -/
theorem station_effect (u : UpperName) (x y : Str) (n : ℤ) (ttl : Time) (hT : Typed σ)
    (hF : σ.Fresh now)
    (he : execAll now [.hincrby (wire (Entity.station u x).key) stationCountField 1,
      .hset (wire (Entity.station u x).key)
        [(stationTypeField, y), (stationLastSeenField, Decimal.text n)],
      .expire (wire (Entity.station u x).key) ttl] σ = σ') :
    ∃ hs, σ.hash (wire (Entity.station u x).key) = .ok hs ∧
      σ'.lookup (wire (Entity.station u x).key) = some ⟨.hash (addFields
        (hs.insert stationCountField
          (Decimal.text (σ.hcount (wire (Entity.station u x).key) stationCountField + 1)))
        [(stationTypeField, y), (stationLastSeenField, Decimal.text n)]), some (now + ttl)⟩ ∧
      (∀ K, K ≠ wire (Entity.station u x).key → σ'.lookup K = σ.lookup K) ∧
      Typed σ' ∧ σ'.Fresh now := by
  generalize hK : wire (Entity.station u x).key = K at he ⊢
  have hfs : stationCountField ∉
      [(stationTypeField, y), (stationLastSeenField, Decimal.text n)].map Prod.fst := by
    simp only [List.map_cons, List.map_nil]
    decide
  obtain ⟨h₁, hT₁, hF₁⟩ := (hK ▸ Schematic.hincrby u x 1).exec_fresh hT hF
  obtain ⟨h₂, hT₂, hF₂⟩ := (hK ▸ Schematic.hset u x _ hfs).exec_fresh hT₁ hF₁
  obtain ⟨h₃, hT₃, hF₃⟩ := (Schematic.expire K ttl).exec_fresh hT₂ hF₂
  rw [show Cmd.exec now (.expire K ttl) _ = σ' from he] at h₃ hT₃ hF₃
  obtain ⟨hs, hh, hl₁, hne₁⟩ := lookup_hincrby h₁
  obtain ⟨hs', hh', hl₂, hne₂⟩ := lookup_hset (by simp) h₂
  cases (Store.hash_of_lookup hl₁).symm.trans hh'
  obtain ⟨hl₃, hne₃⟩ := lookup_expire h₃ hl₂
  refine ⟨hs, hh, hl₃, fun K' hK' => ?_, hT₃, hF₃⟩
  rw [hne₃ K' hK', hne₂ K' hK', hne₁ K' hK']

/-- The two commands on a sorted set with a deadline. -/
theorem member_effect {e : Entity} (hset : e.IsSortedSet) (m : Str) (n : ℤ) (ttl : Time)
    (hT : Typed σ) (hF : σ.Fresh now)
    (he : execAll now [.zadd (wire e.key) [(m, n)], .expire (wire e.key) ttl] σ = σ') :
    ∃ z, σ.zset (wire e.key) = .ok z ∧
      σ'.lookup (wire e.key) = some ⟨.zset (z.insert m n), some (now + ttl)⟩ ∧
      (∀ K, K ≠ wire e.key → σ'.lookup K = σ.lookup K) ∧ Typed σ' ∧ σ'.Fresh now := by
  obtain ⟨h₁, hT₁, hF₁⟩ := (Schematic.zadd e [(m, n)] hset).exec_fresh hT hF
  obtain ⟨h₂, hT₂, hF₂⟩ := (Schematic.expire (wire e.key) ttl).exec_fresh hT₁ hF₁
  rw [show Cmd.exec now (.expire (wire e.key) ttl) _ = σ' from he] at h₂ hT₂ hF₂
  obtain ⟨z, hz, hl₁, hne₁⟩ := lookup_zadd (by simp) h₁
  obtain ⟨hl₂, hne₂⟩ := lookup_expire h₂ hl₁
  refine ⟨z, hz, hl₂, fun K hK => ?_, hT₂, hF₂⟩
  rw [hne₂ K hK, hne₁ K hK]

/-- The six commands of a station docking at one instant: what each key holds afterwards. -/
theorem docking_effect (I : Casing) (nextExpiration : Time) (s x y : Str) (t : DateTimeOffset)
    (hT : Typed σ)
    (he : execAll now (DockingWriter.batch I nextExpiration (.stationDocking s x y t)) σ = σ') :
    ∃ hs z, (σ.purge now).hash (wire (Entity.station (I.upper s) x).key) = .ok hs ∧
      (σ.purge now).zset (wire (Entity.systemStations (I.upper s)).key) = .ok z ∧
      σ'.lookup (wire (Entity.station (I.upper s) x).key) = some ⟨.hash (addFields
        (hs.insert stationCountField (Decimal.text ((σ.purge now).hcount
          (wire (Entity.station (I.upper s) x).key) stationCountField + 1)))
        [(stationTypeField, wire y), (stationLastSeenField, Decimal.text t.toUnixTimeSeconds)]),
        some (now + dataExpiration)⟩ ∧
      σ'.lookup (wire (Entity.systemStations (I.upper s)).key) =
        some ⟨.zset (z.insert (wire x) t.toUnixTimeSeconds), some (now + dataExpiration)⟩ ∧
      (∀ K, K ≠ wire (Entity.station (I.upper s) x).key →
        K ≠ wire (Entity.systemStations (I.upper s)).key → K ≠ wire Entity.systemIndex.key →
        σ'.lookup K = (σ.purge now).lookup K) ∧ Typed σ' := by
  have hdiff : ∀ {e e' : Entity}, e.encode ≠ e'.encode → wire e.key ≠ wire e'.key :=
    fun h hk => h (encode_eq_of_wire_key hk)
  have hsh : wire (Entity.systemStations (I.upper s)).key ≠ wire (Entity.station (I.upper s) x).key :=
    hdiff (by simp [Entity.encode])
  have hhi : wire (Entity.station (I.upper s) x).key ≠ wire Entity.systemIndex.key :=
    hdiff (by simp [Entity.encode])
  have hsi : wire (Entity.systemStations (I.upper s)).key ≠ wire Entity.systemIndex.key :=
    hdiff (by simp [Entity.encode])
  -- the first command drops the lapsed keys, and nothing lapses after it
  rw [batch_stationDocking, execAll_purge] at he
  obtain ⟨τ₁, hτ₁⟩ : ∃ τ, execAll now [.hincrby (wire (Entity.station (I.upper s) x).key)
      stationCountField 1, .hset (wire (Entity.station (I.upper s) x).key)
        [(stationTypeField, wire y), (stationLastSeenField, Decimal.text t.toUnixTimeSeconds)],
      .expire (wire (Entity.station (I.upper s) x).key) dataExpiration] (σ.purge now) = τ := ⟨_, rfl⟩
  obtain ⟨τ₂, hτ₂⟩ : ∃ τ, execAll now [.zadd (wire (Entity.systemStations (I.upper s)).key)
      [(wire x, t.toUnixTimeSeconds)],
      .expire (wire (Entity.systemStations (I.upper s)).key) dataExpiration] τ₁ = τ := ⟨_, rfl⟩
  have h₃ : Cmd.exec now (.zadd (wire Entity.systemIndex.key)
      [(wire (normalizeSystem I s), indexScore)]) τ₂ = σ' := by
    rw [← he, ← hτ₂, ← hτ₁]
    simp only [execAll, List.foldl_cons, List.foldl_nil]
  obtain ⟨hs, hh, hl₁, hne₁, hT₁, hF₁⟩ := station_effect (I.upper s) x (wire y)
    t.toUnixTimeSeconds dataExpiration (hT.purge now) (Store.fresh_purge now σ) hτ₁
  obtain ⟨z, hz, hl₂, hne₂, hT₂, hF₂⟩ := member_effect (e := .systemStations (I.upper s)) trivial
    (wire x) t.toUnixTimeSeconds dataExpiration hT₁ hF₁ hτ₂
  obtain ⟨hr₃, hT₃, -⟩ := (Schematic.zadd .systemIndex
    [(wire (normalizeSystem I s), indexScore)] trivial).exec_fresh hT₂ hF₂
  rw [h₃] at hr₃ hT₃
  obtain ⟨-, -, -, hne₃⟩ := lookup_zadd (by simp) hr₃
  refine ⟨hs, z, hh, ?_, ?_, ?_, fun K h1 h2 h3 => ?_, hT₃⟩
  · rw [← hz]
    exact (Store.zset_congr (hne₁ _ hsh)).symm
  · rw [hne₃ _ hhi, hne₂ _ (Ne.symm hsh), hl₁]
  · rw [hne₃ _ hsi, hl₂]
  · rw [hne₃ K h3, hne₂ K h2, hne₁ K h1]

end Batch

/-- A station docking and the server time its batch runs at. -/
structure Docking where
  now : Time
  systemName : Str
  stationName : Str
  stationType : Str
  utcTimestamp : DateTimeOffset

/-- What a docking says, in the terms of the timed map: system and station as they read back,
the system upper-cased. -/
def Docking.event (I : Casing) (d : Docking) : TimedMap.Event (Str × Str) (Str × ℤ) :=
  ⟨d.now, (wire (normalizeSystem I d.systemName), wire d.stationName),
    (wire d.stationType, d.utcTimestamp.toUnixTimeSeconds)⟩

section Mirror

open TimedMap

abbrev DockingEvent := TimedMap.Event (Str × Str) (Str × ℤ)

/-- The hash of a station, from its history. -/
def HashMirrors (T : Time) : List DockingEvent → Option Entry → Prop
  | [], o => o = none
  | e :: h, o => (o = none ∧ e.time + dataExpiration < T) ∨
    ∃ hs, o = some ⟨.hash hs, some (e.time + dataExpiration)⟩ ∧
      hs.lookup stationCountField = some (Decimal.text (session dataExpiration (e :: h)).length) ∧
      hs.lookup stationTypeField = some e.value.1 ∧
      hs.lookup stationLastSeenField = some (Decimal.text e.value.2)

def stationHistory (S x : Str) (es : List DockingEvent) : List DockingEvent :=
  history (fun k => decide (k = (S, x))) es

def systemHistory (S : Str) (es : List DockingEvent) : List DockingEvent :=
  history (fun k => decide (k.1 = S)) es

/-- The sorted set of a system, from its history: every member has the score of its latest
docking, and no station that is still alive is missing. -/
def SetMirrors (T : Time) (S : Str) (es : List DockingEvent) (o : Option Entry) : Prop :=
  match systemHistory S es with
  | [] => o = none
  | e :: _ => (o = none ∧ e.time + dataExpiration < T) ∨
    ∃ z, o = some ⟨.zset z, some (e.time + dataExpiration)⟩ ∧
      (∀ x n, z.lookup x = some n → ∃ e' h, stationHistory S x es = e' :: h ∧ n = e'.value.2) ∧
      ∀ x e' h, stationHistory S x es = e' :: h → T ≤ e'.time + dataExpiration → x ∈ z

/-- The store holds what the events say at `T`. -/
structure Mirrors (es : List DockingEvent) (T : Time) (σ : Store) : Prop where
  typed : Typed σ
  hash : ∀ (u : UpperName) (x : Str), HashMirrors T (stationHistory (wire u.val) (wire x) es)
    (σ.lookup (wire (Entity.station u x).key))
  set : ∀ u : UpperName, SetMirrors T (wire u.val) es
    (σ.lookup (wire (Entity.systemStations u).key))

theorem lapsed_iff (v : Value) (d T : Time) : Entry.lapsed T ⟨v, some d⟩ = true ↔ d < T := by
  simp [Entry.lapsed]

theorem HashMirrors.purge {T T' : Time} (hT : T ≤ T') {h : List DockingEvent} {o : Option Entry}
    (hm : HashMirrors T h o) : HashMirrors T' h (o.filter fun e => !e.lapsed T') := by
  cases h with
  | nil => rw [show o = none from hm]; rfl
  | cons e h =>
    rcases hm with ⟨rfl, hl⟩ | ⟨hs, rfl, hh⟩
    · exact .inl ⟨rfl, lt_of_lt_of_le hl hT⟩
    · by_cases hl : e.time + dataExpiration < T'
      · refine .inl ⟨?_, hl⟩
        simp [Option.filter, (lapsed_iff (.hash hs) _ T').mpr hl]
      · refine .inr ⟨hs, ?_, hh⟩
        have : Entry.lapsed T' ⟨.hash hs, some (e.time + dataExpiration)⟩ = false :=
          Bool.eq_false_iff.mpr fun h => hl ((lapsed_iff _ _ _).mp h)
        simp [Option.filter, this]

theorem SetMirrors.purge {T T' : Time} (hT : T ≤ T') {S : Str} {es : List DockingEvent}
    {o : Option Entry} (hm : SetMirrors T S es o) :
    SetMirrors T' S es (o.filter fun e => !e.lapsed T') := by
  unfold SetMirrors at hm ⊢
  cases hh : systemHistory S es with
  | nil =>
    rw [hh] at hm
    rw [show o = none from hm]
    rfl
  | cons e h =>
    rw [hh] at hm
    rcases hm with ⟨rfl, hl⟩ | ⟨z, rfl, hz, halive⟩
    · exact .inl ⟨rfl, lt_of_lt_of_le hl hT⟩
    · by_cases hl : e.time + dataExpiration < T'
      · refine .inl ⟨?_, hl⟩
        simp [Option.filter, (lapsed_iff (.zset z) _ T').mpr hl]
      · refine .inr ⟨z, ?_, hz, fun x e' h' hx ha => halive x e' h' hx (le_trans hT ha)⟩
        have : Entry.lapsed T' ⟨.zset z, some (e.time + dataExpiration)⟩ = false :=
          Bool.eq_false_iff.mpr fun h => hl ((lapsed_iff _ _ _).mp h)
        simp [Option.filter, this]

theorem Mirrors.purge {es : List DockingEvent} {T T' : Time} {σ : Store} (h : Mirrors es T σ)
    (hT : T ≤ T') : Mirrors es T' (σ.purge T') := by
  refine ⟨h.typed.purge T', fun u x => ?_, fun u => ?_⟩
  · rw [Store.lookup_purge]
    exact (h.hash u x).purge hT
  · rw [Store.lookup_purge]
    exact (h.set u).purge hT

theorem station_key_iff {u u' : UpperName} {x x' : Str} :
    wire (Entity.station u x).key = wire (Entity.station u' x').key ↔
      (wire u.val, wire x) = (wire u'.val, wire x') := by
  constructor
  · intro h
    have he := encode_eq_of_wire_key h
    simp only [Entity.encode, Entity.station.injEq, UpperName.encode, UpperName.mk.injEq] at he
    rw [he.1, he.2]
  · intro h
    obtain ⟨hu, hx⟩ := Prod.mk.inj h
    have hu : u.encode = u'.encode := UpperName.ext_val hu
    rw [wire_key, wire_key, Entity.encode, Entity.encode, hu, hx]

theorem set_key_iff {u u' : UpperName} :
    wire (Entity.systemStations u).key = wire (Entity.systemStations u').key ↔
      wire u.val = wire u'.val := by
  constructor
  · intro h
    have he := encode_eq_of_wire_key h
    simpa only [Entity.encode, Entity.systemStations.injEq, UpperName.encode,
      UpperName.mk.injEq] using he
  · intro h
    have hu : u.encode = u'.encode := UpperName.ext_val h
    rw [wire_key, wire_key, Entity.encode, Entity.encode, hu]

/-- The counter of a hash goes on while the station is alive and restarts at one after a lapse. -/
theorem HashMirrors.count {h : List DockingEvent} {e : DockingEvent} {σ : Store} {K : Str}
    (hm : HashMirrors e.time h (σ.lookup K)) (hF : σ.Fresh e.time) :
    σ.hcount K stationCountField + 1 = (session dataExpiration (e :: h)).length := by
  have hnone : σ.lookup K = none → σ.hcount K stationCountField = 0 := by
    intro hl
    simp [Store.hcount, Store.hget, Store.val, hl]
  cases h with
  | nil => rw [hnone hm]; rfl
  | cons e' h =>
    rw [session_length_cons]
    rcases hm with ⟨hl, ht⟩ | ⟨hs, hl, hc, -, -⟩
    · rw [hnone hl, if_neg (not_le.mpr ht)]
      rfl
    · have halive : e.time ≤ e'.time + dataExpiration := by
        have := hF K _ hl
        exact not_lt.mp fun hlt => by rw [(lapsed_iff _ _ _).mpr hlt] at this; cases this
      have hcount : σ.hcount K stationCountField = (session dataExpiration (e' :: h)).length := by
        simp [Store.hcount, Store.hget, Store.val, hl, Value.hget, hc]
      rw [hcount, if_pos halive]
      rfl

/-- A station never outlives the set of its system. -/
theorem station_before_system {es : List DockingEvent} (hc : Chronological es) {S x : Str}
    {e : DockingEvent} {h : List DockingEvent} (hh : stationHistory S x es = e :: h) :
    ∃ e' h', systemHistory S es = e' :: h' ∧ e.time ≤ e'.time := by
  refine history_dominates hc (fun k hk => ?_) hh
  rw [decide_eq_true_eq] at hk ⊢
  rw [hk]

/-- The members of a system's set before a docking, with every live station among them. -/
theorem SetMirrors.members {es : List DockingEvent} (hc : Chronological es) {T : Time} {S : Str}
    {σ : Store} {K : Str} {z : ZSet} (hm : SetMirrors T S es (σ.lookup K)) (hz : σ.zset K = .ok z) :
    (∀ x n, z.lookup x = some n → ∃ e' h, stationHistory S x es = e' :: h ∧ n = e'.value.2) ∧
      ∀ x e' h, stationHistory S x es = e' :: h → T ≤ e'.time + dataExpiration → x ∈ z := by
  have hempty : σ.lookup K = none → z = ∅ := by
    intro hl
    rw [Store.zset, Store.val, hl] at hz
    cases hz
    rfl
  unfold SetMirrors at hm
  cases hh : systemHistory S es with
  | nil =>
    rw [hh] at hm
    rw [hempty hm]
    refine ⟨fun x n hn => (by cases hn), fun x e' h hx => ?_⟩
    obtain ⟨e, t, hs, -⟩ := station_before_system hc hx
    rw [hh] at hs
    cases hs
  | cons e h =>
    rw [hh] at hm
    rcases hm with ⟨hl, hlapsed⟩ | ⟨z', hl, hmem, halive⟩
    · rw [hempty hl]
      refine ⟨fun x n hn => (by cases hn), fun x e' h' hx ha => ?_⟩
      -- the set lapsed after its last docking, so every station of it has
      obtain ⟨e₀, t, hs, hle⟩ := station_before_system hc hx
      rw [hh] at hs
      cases hs
      exact absurd (lt_of_lt_of_le hlapsed ha) (not_lt.mpr (Nat.add_le_add_right hle _))
    · rw [Store.zset, Store.val, hl] at hz
      cases hz
      exact ⟨hmem, halive⟩

end Mirror

section Read

open TimedMap DockingReader

variable {es : List DockingEvent} {T : Time} {σ : Store}

theorem toUnixTimeSeconds_range (t : DateTimeOffset) :
    -62135596800 ≤ t.toUnixTimeSeconds ∧ t.toUnixTimeSeconds ≤ 253402300799 := by
  have h : t.utcTicks ≤ 3155378975999999999 := t.utcTicks_le
  simp only [DateTimeOffset.toUnixTimeSeconds, DateTimeOffset.ticksPerSecond,
    DateTimeOffset.unixEpochSeconds]
  omega

theorem parseInt_text {bits : ℕ} {n : ℤ} (h : -2 ^ (bits - 1) ≤ n ∧ n < 2 ^ (bits - 1)) :
    parseInt bits (Decimal.text n) = .ok n := by
  simp [parseInt, h]

end Read

end EliteEvents

import EliteEvents.Proofs.Broadcast
import EliteEvents.Proofs.DockingMap
import EliteEvents.Proofs.Retention

/-! What a broadcast leaves in Redis. When the consumers of a feed have processed it, every key of the schema holds what
the broadcast told of it: nothing is lost or counted twice on the way through the shards, the writer and the server. -/

namespace EliteEvents

open Text Redis RedisKeys

variable {J : Type}

/-- The writer calls of a broadcast, in its order. -/
def broadcastCalls (X : External J) (frames : List Str) : List WriterCall := frames.filterMap (frameCall X)

/-- The station of the system that a call docks at. -/
def dockedStation (I : Casing) (system : Str) : WriterCall → Option Str
  | .stationDocking s x _ _ => if wire (normalizeSystem I s) = wire system then some (wire x) else none
  | _ => none

/-- The day on which a call docks at the carrier. -/
def visitorDay (I : Casing) (carrier : Str) : WriterCall → Option ℕ
  | .fleetCarrierDocking c ts => if wire (normalizeCarrier I c) = wire carrier then some ts.day else none
  | _ => none

/-- The system that a call jumps to. -/
def visitedSystem (I : Casing) : WriterCall → Option Str
  | .systemVisit s => some (wire (normalizeSystem I s))
  | _ => none

section Work

variable (X : External J)

theorem broadcastCalls_cons (json : Str) (frames : List Str) :
    broadcastCalls X (json :: frames) = (frameCall X json).toList ++ broadcastCalls X frames := by
  rw [broadcastCalls, List.filterMap_cons]
  cases frameCall X json <;> rfl

theorem mem_work {frames : List Str} {c : Cmd} : c ∈ (frames.map (frameWork X)).sum ↔
    ∃ call ∈ broadcastCalls X frames, c ∈ counted (DockingWriter.batch X.casing 0 call) := by
  induction frames with
  | nil => simp [broadcastCalls]
  | cons json frames ih =>
    rw [List.map_cons, List.sum_cons, Multiset.mem_add, ih, frameWork, broadcastCalls_cons]
    cases frameCall X json with
    | none => simp
    | some call => simp

/-- What adds one for a call that tells `x` and nothing for another adds up to how often the broadcast tells it. -/
theorem sum_work {β : Type} [DecidableEq β] [BEq β] [LawfulBEq β] {w : Cmd → ℤ} {g : WriterCall → Option β} {x : β}
    (hw : ∀ c, c.counts = false → w c = 0)
    (hg : ∀ call, ((DockingWriter.batch X.casing 0 call).map w).sum = if g call = some x then 1 else 0)
    (frames : List Str) :
    (((frames.map (frameWork X)).sum).map w).sum = ((broadcastCalls X frames).filterMap g).count x := by
  induction frames with
  | nil => simp [broadcastCalls]
  | cons json frames ih =>
    rw [List.map_cons, List.sum_cons, Multiset.map_add, Multiset.sum_add, ih, frameWork, broadcastCalls_cons]
    cases frameCall X json with
    | none => simp
    | some call =>
      rw [← sum_counted hw, hg, Option.toList_some, List.singleton_append, List.filterMap_cons]
      cases hcall : g call with
      | none => simp
      | some y =>
        rw [List.count_cons]
        by_cases hy : y = x
        · simp [hy, add_comm]
        · simp [hy]

end Work

section Batches

variable (I : Casing) (call : WriterCall)

theorem batch_hashAdds (u : UpperName) (x : Str) :
    ((DockingWriter.batch I 0 call).map (Cmd.hashAdds (wire (Entity.station u x).key) stationCountField)).sum =
      if dockedStation I u.val call = some (wire x) then 1 else 0 := by
  cases call with
  | fleetCarrierDocking c ts => simp [batch_fleetCarrierDocking, Cmd.hashAdds, dockedStation]
  | stationDocking s x' y ts =>
    have hkey := @station_key_iff (I.upper s) u x' x
    rw [Prod.mk.injEq] at hkey
    simp only [batch_stationDocking, List.map_cons, List.map_nil, Cmd.hashAdds, hkey, dockedStation, and_true,
      List.sum_cons, List.sum_nil, add_zero]
    show (if wire (normalizeSystem I s) = wire u.val ∧ wire x' = wire x then (1 : ℤ) else 0) = _
    by_cases hs : wire (normalizeSystem I s) = wire u.val <;> simp [hs]
  | systemVisit s => simp [DockingWriter.batch, DockingWriter.recordSystemVisit, Cmd.encode, Cmd.hashAdds, dockedStation]

theorem daily_key_iff {u u' : UpperName} {d d' : ℕ} :
    wire (Entity.carrierDaily u (dateText d)).key = wire (Entity.carrierDaily u' (dateText d')).key ↔
      wire u.val = wire u'.val ∧ d = d' := by
  constructor
  · intro h
    have he := Entity.carrierDaily.inj (encode_eq_of_wire_key h)
    rw [wire_dateText, wire_dateText] at he
    exact ⟨congrArg UpperName.val he.1, dateText_injective he.2⟩
  · rintro ⟨h, rfl⟩
    have hu : u.encode = u'.encode := UpperName.ext_val h
    rw [wire_key, wire_key, Entity.encode, Entity.encode, hu]

theorem batch_counterAdds (u : UpperName) (day : ℕ) :
    ((DockingWriter.batch I 0 call).map (Cmd.counterAdds (wire (Entity.carrierDaily u (dateText day)).key))).sum =
      if visitorDay I u.val call = some day then 1 else 0 := by
  cases call with
  | fleetCarrierDocking c ts =>
    have hkey := @daily_key_iff (I.upper c) u ts.day day
    rw [← date_eq] at hkey
    simp only [batch_fleetCarrierDocking, List.map_cons, List.map_nil, Cmd.counterAdds, hkey, visitorDay,
      List.sum_cons, List.sum_nil, add_zero]
    show (if wire (normalizeCarrier I c) = wire u.val ∧ ts.day = day then (1 : ℤ) else 0) = _
    by_cases hc : wire (normalizeCarrier I c) = wire u.val <;> simp [hc]
  | stationDocking s x y ts => simp [batch_stationDocking, Cmd.counterAdds, visitorDay]
  | systemVisit s =>
    simp [DockingWriter.batch, DockingWriter.recordSystemVisit, Cmd.encode, Cmd.counterAdds, visitorDay]

theorem batch_scoreAdds (m : Str) :
    ((DockingWriter.batch I 0 call).map (Cmd.scoreAdds (wire Entity.systemVisits.key) m)).sum =
      if visitedSystem I call = some m then 1 else 0 := by
  cases call with
  | fleetCarrierDocking c ts => simp [batch_fleetCarrierDocking, Cmd.scoreAdds, visitedSystem]
  | stationDocking s x y ts => simp [batch_stationDocking, Cmd.scoreAdds, visitedSystem]
  | systemVisit s =>
    simp only [DockingWriter.batch, DockingWriter.recordSystemVisit, Cmd.encode, List.map_cons, List.map_nil,
      Cmd.scoreAdds, visitedSystem, List.sum_cons, List.sum_nil, add_zero, Option.some.injEq]
    show (if wire systemVisits = wire systemVisits ∧ wire (normalizeSystem I s) = m then (1 : ℤ) else 0) = _
    simp

/-- The members that a call adds to a sorted set of the schema. -/
theorem addsMember_batch {e : Entity} {m : Str} :
    (∃ c ∈ counted (DockingWriter.batch I 0 call), c.AddsMember (wire e.key) m) ↔
      ∃ c ∈ DockingWriter.batch I 0 call, c.AddsMember (wire e.key) m := by
  unfold counted
  simp only [Multiset.mem_coe, List.mem_filter]
  constructor
  · rintro ⟨c, ⟨hc, -⟩, hm⟩
    exact ⟨c, hc, hm⟩
  · rintro ⟨c, hc, hm⟩
    refine ⟨c, ⟨hc, ?_⟩, hm⟩
    cases c with
    | zadd k es => rfl
    | zincrby k n m' => rfl
    | _ => exact hm.elim

section Members

variable {e : Entity} (m : Str)

private theorem key_ne {e e' : Entity} (h : e.encode ≠ e'.encode) : wire e.key ≠ wire e'.key :=
  fun hk => h (encode_eq_of_wire_key hk)

theorem batch_adds_station (u : UpperName) :
    (∃ c ∈ DockingWriter.batch I 0 call, c.AddsMember (wire (Entity.systemStations u).key) m) ↔
      dockedStation I u.val call = some m := by
  cases call with
  | fleetCarrierDocking c ts =>
    have hdays := @key_ne (.carrierDays (I.upper c)) (.systemStations u) (by simp [Entity.encode])
    have hindex := @key_ne .carrierIndex (.systemStations u) (by simp [Entity.encode])
    simp [batch_fleetCarrierDocking, Cmd.AddsMember, dockedStation, hdays, hindex]
  | stationDocking s x y ts =>
    have hindex := @key_ne .systemIndex (.systemStations u) (by simp [Entity.encode])
    have hkey := @set_key_iff (I.upper s) u
    simp only [batch_stationDocking, List.mem_cons, List.not_mem_nil, or_false, exists_eq_or_imp, exists_eq_left,
      Cmd.AddsMember, hindex, hkey, dockedStation, false_and, or_false, false_or, List.map_cons, List.map_nil]
    show wire (normalizeSystem I s) = wire u.val ∧ m = wire x ↔ _
    by_cases hs : wire (normalizeSystem I s) = wire u.val <;> simp [hs, eq_comm]
  | systemVisit s =>
    have hvisits : wire systemVisits ≠ wire (Entity.systemStations u).key :=
      @key_ne .systemVisits (.systemStations u) (by simp [Entity.encode])
    simp [DockingWriter.batch, DockingWriter.recordSystemVisit, Cmd.encode, Cmd.AddsMember, dockedStation, hvisits]

theorem batch_adds_day (u : UpperName) :
    (∃ c ∈ DockingWriter.batch I 0 call, c.AddsMember (wire (Entity.carrierDays u).key) m) ↔
      ∃ day, visitorDay I u.val call = some day ∧ dateText day = m := by
  cases call with
  | fleetCarrierDocking c ts =>
    have hindex := @key_ne .carrierIndex (.carrierDays u) (by simp [Entity.encode])
    have hkey := @days_key_iff (I.upper c) u
    simp only [batch_fleetCarrierDocking, List.mem_cons, List.not_mem_nil, or_false, exists_eq_or_imp,
      exists_eq_left, Cmd.AddsMember, hindex, hkey, visitorDay, false_and, or_false, false_or, List.map_cons,
      List.map_nil]
    show wire (normalizeCarrier I c) = wire u.val ∧ m = wire (dateText ts.day) ↔ _
    rw [wire_dateText]
    by_cases hc : wire (normalizeCarrier I c) = wire u.val <;> simp [hc, eq_comm]
  | stationDocking s x y ts =>
    have hstations := @key_ne (.systemStations (I.upper s)) (.carrierDays u) (by simp [Entity.encode])
    have hindex := @key_ne .systemIndex (.carrierDays u) (by simp [Entity.encode])
    simp [batch_stationDocking, Cmd.AddsMember, visitorDay, hstations, hindex]
  | systemVisit s =>
    have hvisits : wire systemVisits ≠ wire (Entity.carrierDays u).key :=
      @key_ne .systemVisits (.carrierDays u) (by simp [Entity.encode])
    simp [DockingWriter.batch, DockingWriter.recordSystemVisit, Cmd.encode, Cmd.AddsMember, visitorDay, hvisits]

theorem batch_adds_visit :
    (∃ c ∈ DockingWriter.batch I 0 call, c.AddsMember (wire Entity.systemVisits.key) m) ↔
      visitedSystem I call = some m := by
  cases call with
  | fleetCarrierDocking c ts =>
    have hdays := @key_ne (.carrierDays (I.upper c)) .systemVisits (by simp [Entity.encode])
    have hindex := @key_ne .carrierIndex .systemVisits (by simp [Entity.encode])
    simp [batch_fleetCarrierDocking, Cmd.AddsMember, visitedSystem, hdays, hindex]
  | stationDocking s x y ts =>
    have hstations := @key_ne (.systemStations (I.upper s)) .systemVisits (by simp [Entity.encode])
    have hindex := @key_ne .systemIndex .systemVisits (by simp [Entity.encode])
    simp [batch_stationDocking, Cmd.AddsMember, visitedSystem, hstations, hindex]
  | systemVisit s =>
    have hself : wire systemVisits = wire Entity.systemVisits.key := rfl
    simp [DockingWriter.batch, DockingWriter.recordSystemVisit, Cmd.encode, Cmd.AddsMember, visitedSystem, hself]

end Members

end Batches

section Settle

variable {I : Casing} {calls : List WriterCall} {t : Time} {σ : Store}

/-- A store that these calls have made of nothing and that keeps until `t`: of each key it has the counts and the
members that the calls come to, and every station is described as one of its dockings describes it. -/
structure StoreTells (I : Casing) (calls : List WriterCall) (t : Time) (σ : Store) : Prop where
  typed : Typed σ
  lasts : ∀ e : Entity, e.encode ≠ .eddnHeartbeat → ∀ d, σ.deadline (wire e.key) = some d → t ≤ d
  stationCount : ∀ u x, σ.hcount (wire (Entity.station u x).key) stationCountField =
    (calls.filterMap (dockedStation I u.val)).count (wire x)
  stationMember : ∀ u m, (σ.zscore (wire (Entity.systemStations u).key) m).isSome ↔
    m ∈ calls.filterMap (dockedStation I u.val)
  described : ∀ u x, wire x ∈ calls.filterMap (dockedStation I u.val) →
    ∃ s x' y ts, .stationDocking s x' y ts ∈ calls ∧ dockedStation I u.val (.stationDocking s x' y ts) = some (wire x) ∧
      σ.hget (wire (Entity.station u x).key) stationTypeField = some (wire y) ∧
      σ.hget (wire (Entity.station u x).key) stationLastSeenField = some (Decimal.text ts.toUnixTimeSeconds)
  dayCount : ∀ u day, σ.counter (wire (Entity.carrierDaily u (dateText day)).key) =
    (calls.filterMap (visitorDay I u.val)).count day
  dayMember : ∀ u m, (σ.zscore (wire (Entity.carrierDays u).key) m).isSome ↔
    ∃ day ∈ calls.filterMap (visitorDay I u.val), dateText day = m
  dayScore : ∀ u m n, σ.zscore (wire (Entity.carrierDays u).key) m = some n →
    ∃ c ts, .fleetCarrierDocking c ts ∈ calls ∧ dateText ts.day = m ∧ n = ts.toUnixTimeSeconds
  visitScore : ∀ m, σ.zscore (wire Entity.systemVisits.key) m =
    if m ∈ calls.filterMap (visitedSystem I) then some ((calls.filterMap (visitedSystem I)).count m : ℤ) else none

variable {J : Type} {X : External J} {frames : List Str} {now : Time} {c : Cmd}

theorem Sent.schematic (h : Sent I c) : Schematic c := by
  rcases h with ⟨call, hs⟩ | ⟨v, ttl, rfl⟩
  · exact hs.schematic
  · exact .heartbeat v ttl

theorem mem_broadcastCalls {json : Str} {call : WriterCall} (hjson : json ∈ frames)
    (hcall : frameCall X json = some call) : call ∈ broadcastCalls X frames :=
  List.mem_filterMap.mpr ⟨json, hjson, hcall⟩

/-- A command of the broadcast lets nothing but the heartbeat lapse before `t`. -/
theorem Told.lasts (h : Told X frames t c) (hnow : t ≤ now + dataExpiration) {e : Entity}
    (he : e.encode ≠ .eddnHeartbeat) : c.Lasts now t (wire e.key) := by
  rcases h with ⟨json, -, call, -, next, hnext, hc⟩ | ⟨v, ttl, rfl⟩
  · cases call with
    | fleetCarrierDocking cr ts =>
      simp only [batch_fleetCarrierDocking, List.mem_cons, List.not_mem_nil, or_false] at hc
      rcases hc with rfl | rfl | rfl | rfl | rfl <;> simp only [Cmd.Lasts] <;> exact fun _ => hnow
    | stationDocking s x y ts =>
      simp only [batch_stationDocking, List.mem_cons, List.not_mem_nil, or_false] at hc
      rcases hc with rfl | rfl | rfl | rfl | rfl | rfl <;> simp only [Cmd.Lasts] <;> exact fun _ => hnow
    | systemVisit s =>
      simp only [DockingWriter.batch, DockingWriter.recordSystemVisit, Cmd.encode, List.map_cons, List.map_nil,
        List.mem_cons, List.not_mem_nil, or_false] at hc
      rcases hc with rfl | rfl
      · trivial
      · exact fun _ => hnext
  · exact fun hk => he (encode_eq_of_wire_key hk).symm

/-- At a station a command of the broadcast writes type and time together. -/
theorem Told.describes (h : Told X frames t c) (u : UpperName) (x : Str) :
    c.Describes (wire (Entity.station u x).key) [stationTypeField, stationLastSeenField] := by
  rcases h.sent with ⟨call, hs⟩ | ⟨v, ttl, rfl⟩
  · cases hs with
    | describeStation s x' y ts => exact fun _ => rfl
    | countStation s x' y ts => exact fun _ => by decide
    | _ => trivial
  · trivial

/-- An HSET of the broadcast is that of a docking. -/
theorem Told.hset {K : Str} {fs : List (Str × Str)} (h : Told X frames t (.hset K fs)) :
    ∃ s x y ts, .stationDocking s x y ts ∈ broadcastCalls X frames ∧
      K = wire (Entity.station (X.casing.upper s) x).key ∧
      fs = [(stationTypeField, wire y), (stationLastSeenField, Decimal.text ts.toUnixTimeSeconds)] := by
  rcases h with ⟨json, hjson, call, hcall, next, -, hc⟩ | ⟨v, ttl, hc⟩
  · have hs := sends_of_mem_batch hc
    have hmem := mem_broadcastCalls hjson hcall
    cases hs with
    | describeStation s x y ts => exact ⟨s, x, y, ts, hmem, rfl, rfl⟩
  · cases hc

section Counts

variable {cs : List (Time × Cmd)}

/-- The members that a run of the broadcast's commands leaves. -/
theorem isMember_broadcast (hcs : runAll cs ∅ = .ok σ) (hsent : ∀ p ∈ cs, Sent X.casing p.2 ∧ lapses p.1 p.2 = false)
    (hwork : counted (cs.map Prod.snd) = (frames.map (frameWork X)).sum) {e : Entity} (he : e.encode ≠ .eddnHeartbeat)
    (m : Str) : (σ.zscore (wire e.key) m).isSome ↔ ∃ call ∈ broadcastCalls X frames,
      ∃ c ∈ DockingWriter.batch X.casing 0 call, c.AddsMember (wire e.key) m := by
  rw [isMember_runAll hcs fun p hp => (hsent p hp).1.onlyAdds (hsent p hp).2 he, hwork]
  simp only [mem_work, ← addsMember_batch]
  constructor
  · rintro (h | ⟨c, ⟨call, hcall, hc⟩, hm⟩)
    · cases h
    · exact ⟨call, hcall, c, hc, hm⟩
  · rintro ⟨call, hcall, c, hc, hm⟩
    exact .inr ⟨c, ⟨call, hcall, hc⟩, hm⟩

theorem visitScore_broadcast (hcs : runAll cs ∅ = .ok σ)
    (hsent : ∀ p ∈ cs, Sent X.casing p.2 ∧ lapses p.1 p.2 = false)
    (hwork : counted (cs.map Prod.snd) = (frames.map (frameWork X)).sum) (m : Str) :
    σ.zscore (wire Entity.systemVisits.key) m =
      if m ∈ (broadcastCalls X frames).filterMap (visitedSystem X.casing) then
        some (((broadcastCalls X frames).filterMap (visitedSystem X.casing)).count m : ℤ) else none := by
  have hne : Entity.systemVisits.encode ≠ .eddnHeartbeat := by simp [Entity.encode]
  have hmem := isMember_broadcast hcs hsent hwork hne m
  simp only [batch_adds_visit, ← List.mem_filterMap] at hmem
  have hscore := score_runAll (m := m) hcs (fun p hp => (hsent p hp).1.onlyAdds (hsent p hp).2 hne)
    fun p hp es => (hsent p hp).1.ne_zadd_visits es
  rw [hwork, sum_work X (g := visitedSystem X.casing) (x := m) (fun c hc => by cases c <;> first | rfl | cases hc)
    fun call => batch_scoreAdds X.casing call m] at hscore
  cases hz : σ.zscore (wire Entity.systemVisits.key) m with
  | none =>
    rw [if_neg]
    rw [← hmem, hz]
    exact Bool.false_ne_true
  | some a =>
    rw [hz] at hmem hscore
    rw [if_pos (hmem.mp rfl)]
    have hempty : Store.zscore ∅ (wire Entity.systemVisits.key) m = none := rfl
    rw [hempty, Option.getD_none, zero_add] at hscore
    exact congrArg some hscore

/-- Every station that the broadcast docks at is described as one of its dockings describes it. -/
theorem described_broadcast (hcs : runAll cs ∅ = .ok σ)
    (htold : ∀ p ∈ cs, Told X frames t p.2 ∧ lapses p.1 p.2 = false)
    (hexecuted : ∀ call ∈ broadcastCalls X frames, ∀ c, (∀ next, c ∈ DockingWriter.batch X.casing next call) →
      c ∈ cs.map Prod.snd) (u : UpperName) (x : Str)
    (hx : wire x ∈ (broadcastCalls X frames).filterMap (dockedStation X.casing u.val)) :
    ∃ s x' y ts, .stationDocking s x' y ts ∈ broadcastCalls X frames ∧
      dockedStation X.casing u.val (.stationDocking s x' y ts) = some (wire x) ∧
      σ.hget (wire (Entity.station u x).key) stationTypeField = some (wire y) ∧
      σ.hget (wire (Entity.station u x).key) stationLastSeenField = some (Decimal.text ts.toUnixTimeSeconds) := by
  -- what it means for two stations to have one key
  have hkey : ∀ s x', dockedStation X.casing u.val (.stationDocking s x' [] .minValue) = some (wire x) ↔
      wire (Entity.station (X.casing.upper s) x').key = wire (Entity.station u x).key := by
    intro s x'
    rw [station_key_iff, Prod.mk.injEq, dockedStation]
    show (if wire (normalizeSystem X.casing s) = wire u.val then some (wire x') else none) = some (wire x) ↔
      wire (normalizeSystem X.casing s) = wire u.val ∧ wire x' = wire x
    by_cases hs : wire (normalizeSystem X.casing s) = wire u.val <;> simp [hs]
  obtain ⟨call, hcall, hdocked⟩ := List.mem_filterMap.mp hx
  cases call with
  | stationDocking s x' y ts =>
    have hset := hexecuted _ hcall _ fun next => by
      rw [batch_stationDocking]
      exact List.mem_cons_of_mem _ List.mem_cons_self
    rw [(hkey s x').mp hdocked] at hset
    obtain ⟨fs, hfs, hget⟩ := described_runAll [stationTypeField, stationLastSeenField] (by decide) hset hcs
      (fun p hp => (htold p hp).1.sent.onlyAdds (htold p hp).2 (by simp [Entity.encode]))
      fun p hp => (htold p hp).1.describes u x
    obtain ⟨p, hp, hpfs⟩ := List.mem_map.mp hfs
    have htoldset := (htold p hp).1
    rw [hpfs] at htoldset
    obtain ⟨s₁, x₁, y₁, ts₁, hmem, hk, rfl⟩ := htoldset.hset
    exact ⟨s₁, x₁, y₁, ts₁, hmem, (hkey s₁ x₁).mpr hk.symm, hget _ List.mem_cons_self,
      hget _ (List.mem_cons_of_mem _ List.mem_cons_self)⟩
  | _ => cases hdocked

end Counts

/-- A ZADD of the broadcast on the days of a carrier is that of a docking. -/
theorem Told.zadd_day {u : UpperName} {es : List (Str × ℤ)}
    (h : Told X frames t (.zadd (wire (Entity.carrierDays u).key) es)) :
    ∃ c ts, .fleetCarrierDocking c ts ∈ broadcastCalls X frames ∧ es = [(dateText ts.day, ts.toUnixTimeSeconds)] := by
  rcases h with ⟨json, hjson, call, hcall, next, -, hc⟩ | ⟨v, ttl, hc⟩
  · have hs := sends_of_mem_batch hc
    have hmem := mem_broadcastCalls hjson hcall
    generalize hk : wire (Entity.carrierDays u).key = K at hs
    cases hs with
    | addDay c ts => exact ⟨c, ts, hmem, by rw [date_eq, wire_dateText]⟩
    | indexCarrier c ts => cases encode_eq_of_wire_key hk
    | addStation s x y ts => cases encode_eq_of_wire_key hk
    | indexSystem s x y ts => cases encode_eq_of_wire_key hk
  · cases hc

/-- The scores that a run of the broadcast's commands leaves at the days of a carrier. -/
theorem dayScore_broadcast {cs : List (Time × Cmd)} (hcs : runAll cs ∅ = .ok σ)
    (htold : ∀ p ∈ cs, Told X frames t p.2 ∧ lapses p.1 p.2 = false) {u : UpperName} {m : Str} {n : ℤ}
    (hs : σ.zscore (wire (Entity.carrierDays u).key) m = some n) :
    ∃ c ts, .fleetCarrierDocking c ts ∈ broadcastCalls X frames ∧ dateText ts.day = m ∧ n = ts.toUnixTimeSeconds := by
  have hinc : ∀ p ∈ cs, ∀ n m, p.2 ≠ .zincrby (wire (Entity.carrierDays u).key) n m := by
    intro p hp n m hq
    have hsent := (htold p hp).1.sent
    rw [hq] at hsent
    rcases hsent with ⟨call, hs⟩ | ⟨v, ttl, hc⟩
    · generalize hk : wire (Entity.carrierDays u).key = K at hs
      cases hs with
      | visit s => cases encode_eq_of_wire_key hk
    · cases hc
  rcases zscore_runAll hcs (fun p hp => (htold p hp).1.sent.onlyAdds (htold p hp).2 (by simp [Entity.encode])) hinc hs
    with h | ⟨es, hes, hm⟩
  · cases h
  · obtain ⟨p, hp, hpes⟩ := List.mem_map.mp hes
    have hadd := (htold p hp).1
    rw [hpes] at hadd
    obtain ⟨c, ts, hmem, rfl⟩ := hadd.zadd_day
    obtain ⟨rfl, rfl⟩ := Prod.mk.inj (List.mem_singleton.mp hm)
    exact ⟨c, ts, hmem, rfl, rfl⟩

/-- What the consumers leave on an empty server, however they are interleaved, when they are done. -/
theorem storeTells_of_done {n : ℕ} {filters : Fin n → MessageShardFilter}
    (howner : ∀ str, ∃! k, (filters k).owns str = true) {starts : Fin n → ℕ} {acts : List (IngestionAction n)}
    {w : Ingestion n} (hrun : (Ingestion.start X.casing filters starts frames ∅).run X acts = some w) (hdone : w.Done)
    (hlast : ∀ a ∈ acts, a.Lasts X t) : StoreTells X.casing (broadcastCalls X frames) t w.store := by
  obtain ⟨cs, hcs, hsent, hwork⟩ := Ingestion.run_trace hrun (Ingestion.pending_start X.casing filters starts frames ∅)
  rw [hdone.owed_eq_zero, add_zero, Ingestion.owed_start howner] at hwork
  replace hcs : runAll cs ∅ = .ok w.store := hcs
  have hstart : Ingestion.Traced X filters frames t ∅ (Ingestion.start X.casing filters starts frames ∅) [] :=
    ⟨rfl, fun _ hp => (List.not_mem_nil hp).elim, fun k => .start X (filters k) (starts k) frames t⟩
  obtain ⟨ds, htraced⟩ := hstart.run hlast hrun
  rw [List.nil_append] at htraced
  have hadd : ∀ {e : Entity}, e.encode ≠ .eddnHeartbeat → ∀ p ∈ cs, p.2.OnlyAdds p.1 (wire e.key) :=
    fun he p hp => (hsent p hp).1.onlyAdds (hsent p hp).2 he
  refine ⟨?_, fun e he d hd => ?_, fun u x => ?_, fun u m => ?_, ?_, fun u day => ?_, fun u m => ?_, fun u m n =>
    dayScore_broadcast htraced.runs fun p hp => ⟨(htraced.told p hp).1, (htraced.told p hp).2.1⟩,
    visitScore_broadcast hcs hsent hwork⟩
  · rw [← applyAll_of_runAll hcs]
    exact typed_applyAll (fun p hp => (hsent p hp).1.schematic) typed_empty
  · exact deadline_runAll_le htraced.runs (fun p hp => (htraced.told p hp).1.lasts (htraced.told p hp).2.2 he)
      (fun d hd => by cases hd) hd
  · rw [hcount_runAll hcs (hadd (by simp [Entity.encode])) fun p hp => (hsent p hp).1.keepsCount _, hwork,
      sum_work X (g := dockedStation X.casing u.val) (x := wire x) (fun c hc => by cases c <;> first | rfl | cases hc)
        fun call => batch_hashAdds X.casing call u x]
    simp [Store.hcount, Store.hget, Store.val]
  · simp only [isMember_broadcast hcs hsent hwork (e := .systemStations u) (by simp [Entity.encode]) m,
      batch_adds_station, List.mem_filterMap]
  · refine described_broadcast htraced.runs (fun p hp => ⟨(htraced.told p hp).1, (htraced.told p hp).2.1⟩)
      fun call hcall c hc => ?_
    obtain ⟨json, hjson, hframe⟩ := List.mem_filterMap.mp hcall
    exact htraced.executed hdone howner hjson hframe hc
  · rw [counter_runAll hcs (hadd (by simp [Entity.encode])), hwork,
      sum_work X (g := visitorDay X.casing u.val) (x := day) (fun c hc => by cases c <;> first | rfl | cases hc)
        fun call => batch_counterAdds X.casing call u day]
    simp [Store.counter, Store.val]
  · simp only [isMember_broadcast hcs hsent hwork (e := .carrierDays u) (by simp [Entity.encode]) m,
      batch_adds_day, List.mem_filterMap]
    constructor
    · rintro ⟨call, hcall, day, hday, hm⟩
      exact ⟨day, ⟨call, hcall, hday⟩, hm⟩
    · rintro ⟨day, ⟨call, hcall, hday⟩, hm⟩
      exact ⟨call, hcall, day, hday, hm⟩

end Settle

end EliteEvents

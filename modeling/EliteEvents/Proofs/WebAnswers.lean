import EliteEvents.Proofs.BroadcastStore
import EliteEvents.Proofs.CarrierHistory
import EliteEvents.Proofs.Leaderboard
import EliteEvents.Spec.WebApi

/-! From the broadcast to the browser. When the consumers of a feed have processed a broadcast, what the API and the
leaderboards answer is what the broadcast told. -/

namespace EliteEvents

open Text Redis RedisKeys

variable {J : Type}

section Answers

variable {I : Casing} {calls : List WriterCall} {t : Time} {σ : Store}

/-- Nothing that the calls made has lapsed at `t`. -/
theorem StoreTells.purge (h : StoreTells I calls t σ) : StoreTells I calls t (σ.purge t) := by
  have hlookup : ∀ e : Entity, e.encode ≠ .eddnHeartbeat → (σ.purge t).lookup (wire e.key) = σ.lookup (wire e.key) :=
    fun e he => lookup_purge_of_deadline (h.lasts e he)
  have hval : ∀ e : Entity, e.encode ≠ .eddnHeartbeat → (σ.purge t).val (wire e.key) = σ.val (wire e.key) :=
    fun e he => congrArg (Option.map Entry.val) (hlookup e he)
  refine ⟨h.typed.purge t, fun e he d hd => h.lasts e he d ?_, fun u x => ?_, fun u m => ?_, fun u x hx => ?_,
    fun u day => ?_, fun u m => ?_, fun u m n hn => ?_, fun m => ?_⟩
  · rwa [Store.deadline, hlookup e he] at hd
  · rw [Store.hcount, Store.hget, hval _ (by simp [Entity.encode])]
    exact h.stationCount u x
  · rw [Store.zscore, hval _ (by simp [Entity.encode])]
    exact h.stationMember u m
  · rw [Store.hget, Store.hget, hval _ (by simp [Entity.encode])]
    exact h.described u x hx
  · rw [Store.counter, hval _ (by simp [Entity.encode])]
    exact h.dayCount u day
  · rw [Store.zscore, hval _ (by simp [Entity.encode])]
    exact h.dayMember u m
  · rw [Store.zscore, hval _ (by simp [Entity.encode])] at hn
    exact h.dayScore u m n hn
  · rw [Store.zscore, hval _ (by simp [Entity.encode])]
    exact h.visitScore m

/-- The systems that the calls visit, ranked, are what every read of the leaderboard takes its first rows from. -/
theorem StoreTells.getSystemVisits (h : StoreTells I calls t σ) : ∃ ranking : List SystemVisitInfo,
    (∀ n, Ranks (calls.filterMap (visitedSystem I)) n (ranking.take n)) ∧
      ∀ topN, DockingReader.getSystemVisits topN t σ = .ok (ranking.take topN.toNat) := by
  obtain ⟨z, hz⟩ := h.purge.typed.zset (e := .systemVisits) trivial
  refine ⟨((zrevrange z).filter fun p => decide (1 < p.2)).map visitRow, fun n => ?_, fun topN => ?_⟩
  · rw [← List.map_take]
    exact ranks_of_lookup (fun m => ((Store.zset_ok hz).1 m).symm.trans (h.purge.visitScore m)) n
  · rw [getSystemVisits_of_zset hz, List.map_take]

/-- The rows of names that all have one. -/
theorem stationRows_forall {system : Str} {P : StationDockingInfo → Prop} {names : List Str}
    (h : ∀ x ∈ names, ∃ r, DockingReader.stationRow system σ x = .ok (some r) ∧ r.stationName = x ∧ P r) :
    ∃ rows, DockingReader.stationRows system σ names = .ok rows ∧ rows.map StationDockingInfo.stationName = names ∧
      ∀ r ∈ rows, P r := by
  induction names with
  | nil => exact ⟨[], rfl, rfl, fun r hr => (List.not_mem_nil hr).elim⟩
  | cons x names ih =>
    obtain ⟨r, hr, hname, hp⟩ := h x List.mem_cons_self
    obtain ⟨rows, hrows, hnames, hall⟩ := ih fun y hy => h y (List.mem_cons_of_mem x hy)
    refine ⟨r :: rows, ?_, ?_, List.forall_mem_cons.mpr ⟨hp, hall⟩⟩
    · rw [DockingReader.stationRows, hr, hrows]
      rfl
    · rw [List.map_cons, hname, hnames]

/-- What the reader makes of a station that the calls dock at. -/
def ReadOf (I : Casing) (calls : List WriterCall) (system : Str) (r : StationDockingInfo) : Prop :=
  r.dockingCount = (calls.filterMap (dockedStation I system)).count r.stationName ∧
    ∃ s x y ts, .stationDocking s x y ts ∈ calls ∧
      dockedStation I system (.stationDocking s x y ts) = some r.stationName ∧
      r.stationType = wire y ∧ r.lastSeen = ts.toUnixTimeSeconds

theorem StoreTells.stationRow (h : StoreTells I calls t σ) (hfew : calls.length < 2 ^ 31) (name : Str) {m : Str}
    (hm : m ∈ calls.filterMap (dockedStation I (normalizeSystem I name))) :
    ∃ r, DockingReader.stationRow (normalizeSystem I name) σ m = .ok (some r) ∧ r.stationName = m ∧
      ReadOf I calls (normalizeSystem I name) r := by
  have hm' : m ∈ calls.filterMap (dockedStation I (I.upper name).val) := hm
  have hwire : wire m = m := by
    obtain ⟨call, -, hcall⟩ := List.mem_filterMap.mp hm
    cases call with
    | stationDocking s x y ts =>
      simp only [dockedStation] at hcall
      split_ifs at hcall
      cases hcall
      exact wire_wire x
    | _ => cases hcall
  obtain ⟨s, x, y, ts, hmem, hdocked, htype, hseen⟩ := h.described (I.upper name) m (by rwa [hwire])
  rw [hwire] at hdocked
  obtain ⟨hs, hhash, -⟩ := h.typed.hash (I.upper name) m
  have hcount := h.stationCount (I.upper name) m
  rw [hwire] at hcount
  rw [(Store.hash_ok hhash).1] at htype hseen
  rw [Store.hcount, (Store.hash_ok hhash).1] at hcount
  set c := (calls.filterMap (dockedStation I (I.upper name).val)).count m with hc
  have hpos : 0 < c := List.count_pos_iff.mpr hm'
  have hlt : c < 2 ^ 31 := (List.count_le_length.trans (List.length_filterMap_le _ _)).trans_lt hfew
  have hne : hs.entries.isEmpty = false := by
    cases hent : hs.entries with
    | nil => simp [AList.lookup, hent] at htype
    | cons p ps => rfl
  obtain ⟨txt, htxt, hnum⟩ : ∃ txt, hs.lookup stationCountField = some txt ∧ Decimal.ofText txt = some (c : ℤ) := by
    cases hl : hs.lookup stationCountField with
    | none =>
      rw [hl] at hcount
      have : (0 : ℤ) = c := hcount
      omega
    | some txt =>
      rw [hl, Option.bind_some] at hcount
      cases hn : Decimal.ofText txt with
      | none =>
        rw [hn] at hcount
        have : (0 : ℤ) = c := hcount
        omega
      | some n =>
        rw [hn] at hcount
        exact ⟨txt, rfl, hn.trans (congrArg some hcount)⟩
  have hparse : parseInt 32 txt = .ok (c : ℤ) := by
    rw [parseInt, hnum]
    exact if_pos ⟨by norm_num, by norm_num; omega⟩
  obtain ⟨h1, h2⟩ := toUnixTimeSeconds_range ts
  have hunix : fromUnixTimeSeconds ts.toUnixTimeSeconds = .ok ts.toUnixTimeSeconds := if_pos ⟨h1, h2⟩
  have hlong : parseInt 64 (Decimal.text ts.toUnixTimeSeconds) = .ok ts.toUnixTimeSeconds :=
    parseInt_text ⟨by norm_num; omega, by norm_num; omega⟩
  refine ⟨⟨normalizeSystem I name, m, wire y, c, ts.toUnixTimeSeconds⟩, ?_, rfl, rfl, s, x, y, ts, hmem, hdocked, rfl,
    rfl⟩
  rw [DockingReader.stationRow, show σ.hash (wire (station (normalizeSystem I name) m)) = .ok hs from hhash]
  simp only [hne, htxt, htype, hseen, Option.getD_some, hparse, hlong, hunix, bind, Except.bind, Bool.false_eq_true,
    if_false]
  rfl

/-- The rows are the stations of the system that the calls dock at, each once, with the number of its dockings and
with what one of them says of it. -/
structure StationsTold (I : Casing) (calls : List WriterCall) (system : Str) (rows : List StationDocking) : Prop where
  distinct : (rows.map StationDocking.station).Nodup
  complete : ∀ m, m ∈ rows.map StationDocking.station ↔ m ∈ calls.filterMap (dockedStation I system)
  counted : ∀ r ∈ rows, r.count = (calls.filterMap (dockedStation I system)).count r.station
  described : ∀ r ∈ rows, ∃ s x y ts, .stationDocking s x y ts ∈ calls ∧
    dockedStation I system (.stationDocking s x y ts) = some r.station ∧
    r.type = (if wire y = [] then lit "Unknown" else wire y) ∧ r.lastSeen = ts.toUnixTimeSeconds

theorem StoreTells.system (h : StoreTells I calls t σ) (hfew : calls.length < 2 ^ 31) (name : Str) :
    ∃ rows, ApiEndpoints.system I name t σ = .ok ⟨normalizeSystem I name, rows⟩ ∧
      StationsTold I calls (normalizeSystem I name) rows := by
  obtain ⟨z, hz⟩ := h.purge.typed.zset (e := .systemStations (I.upper name)) trivial
  have hmem : ∀ m, m ∈ (zrevrange z).map Prod.fst ↔ m ∈ calls.filterMap (dockedStation I (normalizeSystem I name)) := by
    intro m
    show _ ↔ m ∈ calls.filterMap (dockedStation I (I.upper name).val)
    rw [← h.purge.stationMember (I.upper name) m, (Store.zset_ok hz).1 m, Option.isSome_iff_exists, List.mem_map]
    constructor
    · rintro ⟨p, hp, rfl⟩
      exact ⟨p.2, mem_zrevrange.mp hp⟩
    · rintro ⟨n, hn⟩
      exact ⟨(m, n), mem_zrevrange.mpr hn, rfl⟩
  obtain ⟨rows, hrows, hnames, hread⟩ := stationRows_forall (σ := σ.purge t)
    fun x hx => h.purge.stationRow hfew name ((hmem x).mp hx)
  have hstation : (rows.map ApiEndpoints.stationDocking).map StationDocking.station = (zrevrange z).map Prod.fst := by
    rw [List.map_map]
    exact hnames
  refine ⟨rows.map ApiEndpoints.stationDocking, ?_, ?_, ?_, ?_, ?_⟩
  · rw [ApiEndpoints.system, DockingReader.getSystemDocking,
      show (σ.purge t).zset (wire (systemStations (normalizeSystem I name))) = .ok z from hz]
    simp only [hrows]
    rfl
  · rw [hstation]
    exact zrevrange_nodup z
  · intro m
    rw [hstation]
    exact hmem m
  · intro r hr
    obtain ⟨r', hr', rfl⟩ := List.mem_map.mp hr
    exact (hread r' hr').1
  · intro r hr
    obtain ⟨r', hr', rfl⟩ := List.mem_map.mp hr
    obtain ⟨-, s, x, y, ts, hcall, hdocked, htype, hseen⟩ := hread r' hr'
    refine ⟨s, x, y, ts, hcall, hdocked, ?_, hseen⟩
    rw [ApiEndpoints.stationDocking, htype]

end Answers

section Days

variable {I : Casing} {calls : List WriterCall} {t : Time} {σ : Store}

theorem StoreTells.carrierRow (h : StoreTells I calls t σ) (hfew : calls.length < 2 ^ 31) (id : Str) {d : ℕ}
    (hd : d ∈ calls.filterMap (visitorDay I (normalizeCarrier I id))) :
    DockingReader.carrierRow (normalizeCarrier I id) σ (dateText d) =
      .ok (some ⟨normalizeCarrier I id, d, (calls.filterMap (visitorDay I (normalizeCarrier I id))).count d⟩) := by
  have hcount : σ.counter (wire (carrierDaily (normalizeCarrier I id) (dateText d))) =
      (calls.filterMap (visitorDay I (normalizeCarrier I id))).count d := h.dayCount (I.upper id) d
  set c := (calls.filterMap (visitorDay I (normalizeCarrier I id))).count d
  have hpos : 0 < c := List.count_pos_iff.mpr hd
  have hlt : c < 2 ^ 31 := (List.count_le_length.trans (List.length_filterMap_le _ _)).trans_lt hfew
  unfold DockingReader.carrierRow
  rw [Store.counter] at hcount
  cases hv : σ.val (wire (carrierDaily (normalizeCarrier I id) (dateText d))) with
  | none =>
    rw [hv] at hcount
    have : (0 : ℤ) = c := hcount
    omega
  | some v =>
    obtain ⟨s, rfl, hs⟩ := h.typed.admits (e := .carrierDaily (I.upper id) (dateText d)) hv
    obtain ⟨n, hn⟩ := Option.isSome_iff_exists.mp hs
    rw [hv, Option.map_some, Value.counter, hn] at hcount
    obtain rfl : n = c := hcount
    have hparse : parseInt 32 s = .ok (c : ℤ) := by
      rw [parseInt, hn]
      exact if_pos ⟨by norm_num, by norm_num; omega⟩
    simp only [parseDate_dateText, hparse, bind, Except.bind]
    rfl

theorem StoreTells.carrierRows (h : StoreTells I calls t σ) (hfew : calls.length < 2 ^ 31) (id : Str) {ds : List ℕ}
    (hds : ∀ d ∈ ds, d ∈ calls.filterMap (visitorDay I (normalizeCarrier I id))) :
    DockingReader.carrierRows (normalizeCarrier I id) σ (ds.map dateText) =
      .ok (ds.map fun d =>
        ⟨normalizeCarrier I id, d, (calls.filterMap (visitorDay I (normalizeCarrier I id))).count d⟩) := by
  induction ds with
  | nil => rfl
  | cons d ds ih =>
    rw [List.map_cons, DockingReader.carrierRows, h.carrierRow hfew id (hds d List.mem_cons_self),
      ih fun d hd => hds d (List.mem_cons_of_mem _ hd)]
    rfl

/-- The thirty most recent days of the carrier, each with the number of its dockings. -/
theorem StoreTells.carrier (h : StoreTells I calls t σ) (hfew : calls.length < 2 ^ 31)
    (hzero : ∀ c ts, .fleetCarrierDocking c ts ∈ calls → ts.offsetMinutes = 0) (id : Str) :
    ∃ days : List ℕ, (days.Pairwise fun a b => b < a) ∧
      (∀ d, d ∈ days ↔ d ∈ calls.filterMap (visitorDay I (normalizeCarrier I id))) ∧
      ApiEndpoints.carrier I id t σ = .ok ⟨normalizeCarrier I id, (days.take 30).map fun d =>
        ⟨dateText d, (calls.filterMap (visitorDay I (normalizeCarrier I id))).count d⟩⟩ := by
  obtain ⟨z, hz⟩ := h.purge.typed.zset (e := .carrierDays (I.upper id)) trivial
  have hlookup := (Store.zset_ok hz).1
  obtain ⟨days, hdays, hdec⟩ := dates_of_range (z := z) fun p hp => by
    obtain ⟨c, ts, hcall, htext, hscore⟩ :=
      h.purge.dayScore (I.upper id) p.1 p.2 ((hlookup p.1).trans (mem_zrevrange.mp hp))
    rw [hscore, day_of_unixTimeSeconds (hzero c ts hcall), htext]
  have hmem : ∀ d, d ∈ days ↔ d ∈ calls.filterMap (visitorDay I (normalizeCarrier I id)) := by
    intro d
    rw [← List.mem_map_of_injective dateText_injective, ← hdays, List.mem_map]
    constructor
    · rintro ⟨p, hp, htext⟩
      have hsome := (h.purge.dayMember (I.upper id) p.1).mp (by
        rw [hlookup, mem_zrevrange.mp hp]
        rfl)
      obtain ⟨d', hd', htext'⟩ := hsome
      rwa [← dateText_injective (htext'.trans htext)]
    · intro hd
      obtain ⟨n, hn⟩ := Option.isSome_iff_exists.mp ((h.purge.dayMember (I.upper id) (dateText d)).mpr ⟨d, hd, rfl⟩)
      exact ⟨(dateText d, n), mem_zrevrange.mpr ((hlookup _).symm.trans hn), rfl⟩
  refine ⟨days, hdec, hmem, ?_⟩
  rw [ApiEndpoints.carrier, DockingReader.getCarrierDocking,
    show (σ.purge t).zset (wire (carrierDays (normalizeCarrier I id))) = .ok z from hz]
  have htold : ∀ d ∈ days.take 30, d ∈ calls.filterMap (visitorDay I (normalizeCarrier I id)) :=
    fun d hd => (hmem d).mp (List.mem_of_mem_take hd)
  have hrows := h.purge.carrierRows hfew id htold
  show ApiResponse.ofRead _ (DockingReader.carrierRows _ _ (((zrevrange z).take 30).map Prod.fst)) = _
  rw [List.map_take, hdays, ← List.map_take, hrows, ApiResponse.ofRead, List.map_map]
  rfl

end Days

section Processed

variable {X : External J} {fl : FeedListener} {frames : List Str} {t : Time} {σ : Store}

/-- The consumers of the feed have processed the broadcast, in some order of their turns and commands, and have left
`σ` on a server that was empty; and nothing that they wrote lapses before `t`. -/
def Processed (X : External J) (fl : FeedListener) (frames : List Str) (t : Time) (σ : Store) : Prop :=
  ∃ (configHash : String) (filters : Fin fl.spec.shards → MessageShardFilter) (starts : Fin fl.spec.shards → ℕ)
    (acts : List (IngestionAction fl.spec.shards)) (w : Ingestion fl.spec.shards),
    (∀ k, shardFilter (shardEnv fl k.val configHash) = .ok (filters k)) ∧
    (Ingestion.start X.casing filters starts frames ∅).run X acts = some w ∧ w.Done ∧
    (∀ a ∈ acts, a.Lasts X t) ∧ w.store = σ

theorem Processed.storeTells (hN : 1 ≤ fl.spec.consumers) (h : Processed X fl frames t σ) :
    StoreTells X.casing (broadcastCalls X frames) t σ := by
  obtain ⟨configHash, filters, starts, acts, w, hf, hrun, hdone, hlast, rfl⟩ := h
  choose filters' hf' hindex hcount using fun k : Fin fl.spec.shards => shardFilter_shardEnv fl hN k.isLt configHash
  obtain rfl : filters' = filters := funext fun k => Except.ok.inj ((hf' k).symm.trans (hf k))
  refine storeTells_of_done (fun json => ?_) hrun hdone hlast
  have h := consumers_eq hN
  have h1 := Int32.le_iff_toInt_le.mp hN
  rw [h, Int32.toInt_one] at h1
  exact Partition.owner_unique (fun k => ⟨hindex k, hcount k⟩) (by omega) json

/-- The leaderboards of the API, the home page and the page of its own are cut from one ranking of the systems that the
broadcast visited, with no more visits than there were frames: below 2^53 a score is exact as a double. -/
theorem leaderboards_rank_broadcast (hN : 1 ≤ fl.spec.consumers) (h : Processed X fl frames t σ) :
    ∃ ranking : List SystemVisitInfo,
      (∀ n, Ranks ((broadcastCalls X frames).filterMap (visitedSystem X.casing)) n (ranking.take n)) ∧
      (∀ limit, ApiEndpoints.mostVisited limit t σ = .ok
        ((ranking.take (ApiEndpoints.leaderboardLimit limit).toNat).map fun s => ⟨s.systemName, s.visitCount⟩)) ∧
      LeaderboardTable.home t σ = .ofRead (.ok (ranking.take 25)) ∧
      LeaderboardTable.mostVisited t σ = .ofRead (.ok (ranking.take 100)) ∧
      ∀ s ∈ ranking, s.visitCount ≤ frames.length := by
  obtain ⟨ranking, hranks, hread⟩ := (h.storeTells hN).getSystemVisits
  refine ⟨ranking, hranks, fun limit => ?_, ?_, ?_, fun s hs => ?_⟩
  · rw [ApiEndpoints.mostVisited, hread]
    rfl
  · rw [LeaderboardTable.home, hread]
    rfl
  · rw [LeaderboardTable.mostVisited, hread]
    rfl
  · have hcount := ((hranks ranking.length).exact s (by rwa [List.take_length])).1
    rw [hcount]
    exact_mod_cast List.count_le_length.trans
      ((List.length_filterMap_le _ _).trans (List.length_filterMap_le _ frames))

end Processed

section Tour

/-- A docking in the Sol system as it is broadcast on 1 January 2026, and the message it is read as. -/
def dockedFrame (stationName stationType : String) : Str :=
  lit "\x7b\"message\":\x7b\"StationName\":\"" ++ lit stationName ++ lit "\",\"StationType\":\"" ++ lit stationType ++
    lit "\",\"event\":\"Docked\",\"StarSystem\":\"Sol\"\x7d," ++
    lit "\"header\":\x7b\"gatewayTimestamp\":\"2026-01-01T00:00:00Z\"\x7d," ++
    lit "\"$schemaRef\":\"https://eddn.edcd.io/schemas/journal/1\"\x7d"

def dockedMessage (stationName stationType : String) : JournalMessage :=
  { jumpMessage with
    event := .docked
    additionalProperties :=
      [(lit "StationName", some (lit stationName)), (lit "StationType", some (lit stationType))] }

/-- The libraries on a jump to Sol, a docking at a station there and one on a carrier. -/
def tourExternal : External JournalMessage :=
  { jumpExternal with
    parse := fun json =>
      if json = dockedFrame "Abraham Lincoln" "Orbis" then .ok (dockedMessage "Abraham Lincoln" "Orbis")
      else if json = dockedFrame "K7Q-BQL" "FleetCarrier" then .ok (dockedMessage "K7Q-BQL" "FleetCarrier")
      else if json = jumpFrame then .ok jumpMessage
      else .error .json }

def tourFrames : List Str :=
  [jumpFrame, jumpFrame, dockedFrame "Abraham Lincoln" "Orbis", dockedFrame "K7Q-BQL" "FleetCarrier"]

def tourStart : Ingestion 2 := Ingestion.start tourExternal.casing eddnFilter (fun _ => 639028224000000000) tourFrames ∅

def tourActs : List (IngestionAction 2) := eddnActs [(false, 2), (false, 2), (false, 6), (true, 5)]

/-- One hour later. -/
theorem processed_tour : ∃ σ, Processed tourExternal (eddnFeed 1 2) tourFrames 1767229200000 σ := by
  have h : (tourStart.run tourExternal tourActs).any (fun w => decide w.Done) = true := by decide +kernel
  have hlast : ∀ a ∈ tourActs, a.Lasts tourExternal 1767229200000 := by decide
  obtain ⟨w, hw, hp⟩ := (Option.any_eq_true _ _).mp h
  have hdone : w.Done := of_decide_eq_true hp
  exact ⟨w.store, "", eddnFilter, _, tourActs, w, eddnFilter_env, hw, hdone, hlast, rfl⟩

theorem broadcastCalls_tour : broadcastCalls tourExternal tourFrames =
    [.systemVisit (lit "Sol"), .systemVisit (lit "Sol"),
      .stationDocking (lit "Sol") (lit "Abraham Lincoln") (lit "Orbis") jumpMessage.gatewayTimestamp,
      .fleetCarrierDocking (lit "K7Q-BQL") jumpMessage.gatewayTimestamp] := by
  decide +kernel

theorem leaderboards_rank_broadcast_tour : ∃ σ rows, Processed tourExternal (eddnFeed 1 2) tourFrames 1767229200000 σ ∧
    ApiEndpoints.mostVisited none 1767229200000 σ = .ok rows ∧ rows.length = 1 := by
  obtain ⟨σ, hσ⟩ := processed_tour
  obtain ⟨ranking, hranks, hapi, -⟩ := leaderboards_rank_broadcast (by decide) hσ
  refine ⟨σ, _, hσ, hapi none, ?_⟩
  have hnames : (broadcastCalls tourExternal tourFrames).filterMap (visitedSystem tourExternal.casing) =
      [lit "SOL", lit "SOL"] := by
    rw [broadcastCalls_tour]
    decide
  have hlength := (hranks 25).length
  rw [hnames] at hlength
  rw [List.length_map]
  exact hlength

end Tour

end EliteEvents

import EliteEvents.Lib.Ranking
import EliteEvents.Proofs.Retention

/-! The days of a carrier, read back. The limit on the rows is put on the dates the carrier's set still lists, and
the dates whose counter has lapsed are dropped after that; so a lapsed date can take the place of a live one. -/

namespace EliteEvents

open Text Redis RedisKeys TimedMap DockingReader Ranking

/-- The dates of the dockings by carriers. -/
def carrierDates (rs : List Recording) : List ℕ :=
  (rs.filterMap fun r =>
    match r.call with
    | .fleetCarrierDocking _ ts => some ts.day
    | _ => none).dedup

section History

variable (I : Casing) (rs : List Recording) (carrierId : Str) (t : Time)

/-- The dockings that the counter of a date counts: those since it was created, while it is live. -/
def dockingsOn (day : ℕ) : List Filing :=
  live dataExpiration t (itemHistory (wire (carrierDays (normalizeCarrier I carrierId))) (dateText day) (filings I rs))

/-- The dockings since the carrier's set was created, while it is live. -/
def listedDockings : List Filing :=
  live dataExpiration t (folderHistory (wire (carrierDays (normalizeCarrier I carrierId))) (filings I rs))

/-- The dates whose counter is live. -/
def liveDates : List ℕ := (carrierDates rs).filter fun d => decide (dockingsOn I rs carrierId t d ≠ [])

/-- The dates the set lists. -/
def listedDates : List ℕ :=
  (carrierDates rs).filter fun d => decide (dateText d ∈ (listedDockings I rs carrierId t).map fun e => e.key.2)

/-- The `daysBack` most recent live dates with their counts, newest first. -/
def HistoryComplete (daysBack : ℤ) : Prop :=
  ∃ rows, getCarrierDocking I carrierId daysBack t (executeAll I rs) = .ok rows ∧
    (rows.Pairwise fun a b => b.date < a.date) ∧
    ∀ row, row ∈ rows ↔ row.date ∈ liveDates I rs carrierId t ∧
      (rank (liveDates I rs carrierId t) row.date : ℤ) < daysBack ∧
      row = ⟨normalizeCarrier I carrierId, row.date, (dockingsOn I rs carrierId t row.date).length⟩

end History

section Scores

variable {I : Casing} {rs : List Recording} {carrierId : Str} {t : Time}

/-- The day a time stamp falls on, if its clock is UTC. -/
theorem day_of_unixTimeSeconds {ts : DateTimeOffset} (h : ts.offsetMinutes = 0) :
    ((ts.toUnixTimeSeconds + 62135596800) / 86400).toNat = ts.day := by
  unfold DateTimeOffset.toUnixTimeSeconds DateTimeOffset.day DateTimeOffset.unixEpochSeconds
    DateTimeOffset.ticksPerSecond
  rw [h]
  omega

/-- What a docking of the carrier says. -/
theorem carrier_filing {u : UpperName} {e : Filing}
    (hzero : ∀ r ∈ rs, ∀ c ts, r.call = .fleetCarrierDocking c ts → ts.offsetMinutes = 0)
    (he : e ∈ filings I rs) (hk : e.key.1 = wire (carrierDays u.val)) :
    ∃ d ∈ carrierDates rs, e.key.2 = dateText d ∧ ((e.value + 62135596800) / 86400).toNat = d := by
  obtain ⟨r, hr, hf⟩ := mem_filings.mp he
  obtain ⟨call, nextExpiration, now⟩ := r
  cases call with
  | fleetCarrierDocking c ts =>
    cases hf
    refine ⟨ts.day, List.mem_dedup.mpr (List.mem_filterMap.mpr ⟨_, hr, rfl⟩), wire_dateText ts.day, ?_⟩
    exact day_of_unixTimeSeconds (hzero _ hr c ts rfl)
  | stationDocking s x y ts =>
    cases hf
    have hfolder : wire (Entity.systemStations (I.upper s)).key = wire (Entity.carrierDays u).key := hk
    cases encode_eq_of_wire_key hfolder
  | systemVisit s => cases hf

/-- Dates scored with a time on the date read back newest first. -/
theorem dates_of_range {z : ZSet} (hdate : ∀ p ∈ zrevrange z, p.1 = dateText ((p.2 + 62135596800) / 86400).toNat) :
    ∃ l : List ℕ, (zrevrange z).map Prod.fst = l.map dateText ∧ l.Pairwise fun a b => b < a := by
  have hnodup : (zrevrange z).Pairwise fun a b => a.1 ≠ b.1 := List.pairwise_map.mp (zrevrange_nodup z)
  refine ⟨(zrevrange z).map fun p => ((p.2 + 62135596800) / 86400).toNat, ?_, ?_⟩
  · rw [List.map_map]
    exact List.map_congr_left hdate
  · refine List.pairwise_map.mpr (((zrevrange_pairwise z).and hnodup).imp_of_mem fun ha hb hab => ?_)
    refine lt_of_le_of_ne (Int.toNat_le_toNat (Int.ediv_le_ediv (by decide) (by omega))) fun heq => hab.2 ?_
    rw [hdate _ ha, hdate _ hb, heq]

/-- The set reads back the listed dates, newest first. -/
theorem listed_range {z : ZSet}
    (hzero : ∀ r ∈ rs, ∀ c ts, r.call = .fleetCarrierDocking c ts → ts.offsetMinutes = 0)
    (hz : ∀ m, z.lookup m = ((listedDockings I rs carrierId t).find? fun e => decide (e.key.2 = m)).map Event.value)
    (hmem : ∀ e ∈ listedDockings I rs carrierId t, e ∈ filings I rs ∧
      e.key.1 = wire (carrierDays (normalizeCarrier I carrierId))) :
    ∃ l : List ℕ, (zrevrange z).map Prod.fst = l.map dateText ∧ (l.Pairwise fun a b => b < a) ∧
      l.Perm (listedDates I rs carrierId t) := by
  have hentry : ∀ p ∈ zrevrange z, ∃ d ∈ listedDates I rs carrierId t, p.1 = dateText d ∧
      ((p.2 + 62135596800) / 86400).toNat = d := by
    intro p hp
    obtain ⟨e, hfind, hval⟩ := Option.map_eq_some_iff.mp ((hz p.1).symm.trans (mem_zrevrange.mp hp))
    have he := List.mem_of_find?_eq_some hfind
    have hkey : e.key.2 = p.1 := by simpa using List.find?_some hfind
    obtain ⟨hfiled, hfolder⟩ := hmem e he
    obtain ⟨d, hd, htext, hday⟩ := carrier_filing (u := I.upper carrierId) hzero hfiled hfolder
    refine ⟨d, List.mem_filter.mpr ⟨hd, decide_eq_true ?_⟩, hkey.symm.trans htext, by rw [← hval]; exact hday⟩
    exact List.mem_map.mpr ⟨e, he, htext⟩
  have hdate : ∀ p ∈ zrevrange z, p.1 = dateText ((p.2 + 62135596800) / 86400).toNat := by
    intro p hp
    obtain ⟨d, -, htext, hday⟩ := hentry p hp
    rw [htext, hday]
  obtain ⟨l, hl, hdec⟩ := dates_of_range hdate
  have hmem : ∀ d, d ∈ l ↔ (z.lookup (dateText d)).isSome := by
    intro d
    rw [← List.mem_map_of_injective dateText_injective, ← hl, Option.isSome_iff_exists, List.mem_map]
    constructor
    · rintro ⟨p, hp, htext⟩
      exact ⟨p.2, htext ▸ mem_zrevrange.mp hp⟩
    · rintro ⟨n, hn⟩
      exact ⟨(dateText d, n), mem_zrevrange.mpr hn, rfl⟩
  refine ⟨l, hl, hdec, ?_⟩
  refine (List.perm_ext_iff_of_nodup (hdec.imp fun h => h.ne') ((List.nodup_dedup _).filter _)).mpr fun d => ?_
  rw [hmem]
  constructor
  · intro hsome
    obtain ⟨n, hn⟩ := Option.isSome_iff_exists.mp hsome
    obtain ⟨d', hd', htext, -⟩ := hentry (dateText d, n) (mem_zrevrange.mpr hn)
    rwa [dateText_injective htext]
  · intro hd
    obtain ⟨e, he, htext⟩ := List.mem_map.mp (of_decide_eq_true (List.mem_filter.mp hd).2)
    rw [hz, Option.isSome_map, List.find?_isSome]
    exact ⟨e, he, decide_eq_true htext⟩

/-- A live date is listed. -/
theorem live_mem_listed (hc : InOrder rs) (ht : ∀ r ∈ rs, r.now ≤ t) {d : ℕ} (hd : d ∈ liveDates I rs carrierId t) :
    d ∈ listedDates I rs carrierId t := by
  obtain ⟨hdate, hlive⟩ := List.mem_filter.mp hd
  obtain ⟨e, l, hel⟩ := List.exists_cons_of_ne_nil (of_decide_eq_true hlive)
  have hchron := chronological_filings (I := I) hc
  have he : e ∈ dockingsOn I rs carrierId t d := by
    rw [hel]
    exact List.mem_cons_self
  obtain ⟨hitem, hub⟩ := (mem_live_iff dataExpiration (history_pairwise hchron)
    fun e he => filing_time_le ht (mem_history.mp he).1).mp he
  obtain ⟨hfiled, hkey⟩ := mem_history.mp hitem
  have hkey := of_decide_eq_true hkey
  refine List.mem_filter.mpr ⟨hdate, decide_eq_true (List.mem_map.mpr ⟨e, ?_, by rw [hkey]⟩)⟩
  refine (mem_live_iff dataExpiration (history_pairwise hchron) fun e he => filing_time_le ht (mem_history.mp he).1).mpr
    ⟨mem_history.mpr ⟨hfiled, by rw [hkey]; exact decide_eq_true rfl⟩, fun s h1 h2 => ?_⟩
  -- what keeps the counter alive keeps the set alive
  obtain ⟨e', he', hcover⟩ := hub s h1 h2
  obtain ⟨hfiled', hkey'⟩ := mem_history.mp he'
  exact ⟨e', mem_history.mpr ⟨hfiled', by rw [of_decide_eq_true hkey']; exact decide_eq_true rfl⟩, hcover⟩

end Scores

section Rows

variable {I : Casing} {rs : List Recording} {carrierId : Str} {t : Time} {σ : Store}

/-- The row of a date. -/
def rowOn (I : Casing) (rs : List Recording) (carrierId : Str) (t : Time) (d : ℕ) : Option CarrierDockingInfo :=
  if dockingsOn I rs carrierId t d = [] then none
  else some ⟨normalizeCarrier I carrierId, d, (dockingsOn I rs carrierId t d).length⟩

/-- The counter of a date in the store. -/
theorem counter_on (h : FiledStore (filings I rs) t σ) (d : ℕ) :
    σ.val (wire (carrierDaily (normalizeCarrier I carrierId) (dateText d))) =
      if dockingsOn I rs carrierId t d = [] then none
      else some (.str (Decimal.text (dockingsOn I rs carrierId t d).length)) := by
  have hcounter := h.counter (I.upper carrierId) (dateText d)
  rw [show (dailySlot (I.upper carrierId) (dateText d)).member = dateText d from wire_dateText d] at hcounter
  unfold dockingsOn
  cases hl : live dataExpiration t (itemHistory (wire (carrierDays (normalizeCarrier I carrierId))) (dateText d)
      (filings I rs)) with
  | nil =>
    rw [show live dataExpiration t (itemHistory (dailySlot (I.upper carrierId) (dateText d)).folderKey (dateText d)
      (filings I rs)) = [] from hl] at hcounter
    rw [if_pos rfl, Store.val]
    exact congrArg (Option.map Entry.val) hcounter
  | cons e l =>
    rw [show live dataExpiration t (itemHistory (dailySlot (I.upper carrierId) (dateText d)).folderKey (dateText d)
      (filings I rs)) = e :: l from hl] at hcounter
    obtain ⟨v, hv, rfl⟩ := hcounter
    rw [if_neg (List.cons_ne_nil e l), Store.val]
    exact congrArg (Option.map Entry.val) hv

theorem carrierRow_eq (h : FiledStore (filings I rs) t σ) {d : ℕ}
    (hlt : (dockingsOn I rs carrierId t d).length < 2 ^ 31) :
    carrierRow (normalizeCarrier I carrierId) σ (dateText d) = .ok (rowOn I rs carrierId t d) := by
  have hcount : parseInt 32 (Decimal.text (dockingsOn I rs carrierId t d).length) =
      .ok ((dockingsOn I rs carrierId t d).length : ℤ) :=
    parseInt_text ⟨by norm_num, by norm_num; omega⟩
  unfold carrierRow rowOn
  rw [counter_on h d]
  split_ifs with hl
  · rfl
  · simp only [parseDate_dateText, hcount, bind, Except.bind]
    rfl

theorem carrierRow_overflow (h : FiledStore (filings I rs) t σ) {d : ℕ}
    (hge : 2 ^ 31 ≤ (dockingsOn I rs carrierId t d).length) :
    carrierRow (normalizeCarrier I carrierId) σ (dateText d) = .error .overflow := by
  have hne : dockingsOn I rs carrierId t d ≠ [] := by
    intro hl
    rw [hl] at hge
    exact absurd hge (by decide)
  have hcount : parseInt 32 (Decimal.text (dockingsOn I rs carrierId t d).length) = .error .overflow := by
    have hbig : ¬ (-2 ^ (32 - 1) ≤ ((dockingsOn I rs carrierId t d).length : ℤ) ∧
        ((dockingsOn I rs carrierId t d).length : ℤ) < 2 ^ (32 - 1)) := by
      norm_num at hge ⊢
      omega
    simp only [parseInt, Decimal.ofText_text, if_neg hbig]
  unfold carrierRow
  rw [counter_on h d, if_neg hne]
  simp only [parseDate_dateText, hcount, bind, Except.bind]

theorem carrierRows_eq (h : FiledStore (filings I rs) t σ) {ds : List ℕ}
    (hlt : ∀ d ∈ ds, (dockingsOn I rs carrierId t d).length < 2 ^ 31) :
    carrierRows (normalizeCarrier I carrierId) σ (ds.map dateText) = .ok (ds.filterMap (rowOn I rs carrierId t)) := by
  induction ds with
  | nil => rfl
  | cons d ds ih =>
    rw [List.map_cons, carrierRows, carrierRow_eq h (hlt d List.mem_cons_self),
      ih fun d hd => hlt d (List.mem_cons_of_mem _ hd)]
    cases hrow : rowOn I rs carrierId t d with
    | none => simp [hrow, bind, Except.bind, pure, Except.pure]
    | some row => simp [hrow, bind, Except.bind, pure, Except.pure]

/-- A read that succeeds has met no count beyond an `int`. -/
theorem carrierRows_ok (h : FiledStore (filings I rs) t σ) {ds : List ℕ} {rows : List CarrierDockingInfo}
    (hok : carrierRows (normalizeCarrier I carrierId) σ (ds.map dateText) = .ok rows) :
    ∀ d ∈ ds, (dockingsOn I rs carrierId t d).length < 2 ^ 31 := by
  induction ds generalizing rows with
  | nil => exact fun d hd => by cases hd
  | cons d ds ih =>
    have hd : (dockingsOn I rs carrierId t d).length < 2 ^ 31 := by
      by_contra hge
      rw [List.map_cons, carrierRows, carrierRow_overflow h (not_lt.mp hge)] at hok
      cases hok
    rw [List.map_cons, carrierRows, carrierRow_eq h hd] at hok
    cases hrest : carrierRows (normalizeCarrier I carrierId) σ (ds.map dateText) with
    | error e =>
      rw [hrest] at hok
      cases hok
    | ok rest =>
      intro d' hd'
      rcases List.mem_cons.mp hd' with rfl | hd'
      · exact hd
      · exact ih hrest d' hd'

end Rows

section Complete

variable {I : Casing} {rs : List Recording} {carrierId : Str} {t : Time}

theorem mem_liveDates (hzero : ∀ r ∈ rs, ∀ c ts, r.call = .fleetCarrierDocking c ts → ts.offsetMinutes = 0) {d : ℕ} :
    d ∈ liveDates I rs carrierId t ↔ dockingsOn I rs carrierId t d ≠ [] := by
  constructor
  · intro h
    exact of_decide_eq_true (List.mem_filter.mp h).2
  · intro h
    refine List.mem_filter.mpr ⟨?_, decide_eq_true h⟩
    obtain ⟨e, he⟩ := List.exists_mem_of_ne_nil _ h
    obtain ⟨hfiled, hkey⟩ := mem_history.mp (mem_of_mem_live dataExpiration he)
    have hkey := of_decide_eq_true hkey
    obtain ⟨d', hd', htext, -⟩ := carrier_filing (u := I.upper carrierId) hzero hfiled (congrArg Prod.fst hkey)
    have hsame : dateText d' = dateText d := htext.symm.trans (congrArg Prod.snd hkey)
    rw [← dateText_injective hsame]
    exact hd'

/-- The rows of a list of dates. -/
theorem mem_rows (hzero : ∀ r ∈ rs, ∀ c ts, r.call = .fleetCarrierDocking c ts → ts.offsetMinutes = 0) {ds : List ℕ}
    {row : CarrierDockingInfo} : row ∈ ds.filterMap (rowOn I rs carrierId t) ↔ row.date ∈ ds ∧
      row.date ∈ liveDates I rs carrierId t ∧
      row = ⟨normalizeCarrier I carrierId, row.date, (dockingsOn I rs carrierId t row.date).length⟩ := by
  rw [List.mem_filterMap]
  constructor
  · intro h
    obtain ⟨d, hd, hrow⟩ := h
    unfold rowOn at hrow
    split_ifs at hrow with hl
    cases hrow
    exact ⟨hd, (mem_liveDates hzero).mpr hl, rfl⟩
  · intro h
    obtain ⟨hd, hlive, hrow⟩ := h
    refine ⟨row.date, hd, ?_⟩
    rw [rowOn, if_neg ((mem_liveDates hzero).mp hlive), ← hrow]

/-- Rows of dates in decreasing order. -/
theorem rows_pairwise {ds : List ℕ} (hds : ds.Pairwise fun a b => b < a) :
    (ds.filterMap (rowOn I rs carrierId t)).Pairwise fun a b => b.date < a.date := by
  have hdate : ∀ d row, rowOn I rs carrierId t d = some row → row.date = d := by
    intro d row hrow
    unfold rowOn at hrow
    split_ifs at hrow
    cases hrow
    rfl
  refine List.pairwise_filterMap.mpr (hds.imp fun hab row hrow row' hrow' => ?_)
  rw [hdate _ _ hrow, hdate _ _ hrow']
  exact hab

/-- What the read goes through: the first of the listed dates. -/
theorem getCarrierDocking_rows (I : Casing) (carrierId : Str) (hc : InOrder rs) (ht : ∀ r ∈ rs, r.now ≤ t)
    (hzero : ∀ r ∈ rs, ∀ c ts, r.call = .fleetCarrierDocking c ts → ts.offsetMinutes = 0) {daysBack : ℤ}
    (hpos : 1 ≤ daysBack) : ∃ l : List ℕ, (l.Pairwise fun a b => b < a) ∧ l.Perm (listedDates I rs carrierId t) ∧
      getCarrierDocking I carrierId daysBack t (executeAll I rs) = carrierRows (normalizeCarrier I carrierId)
        ((executeAll I rs).purge t) ((l.take daysBack.toNat).map dateText) := by
  have hfiled := filedStore_executeAll I hc ht
  obtain ⟨z, hz, hlookup⟩ := hfiled.zset (.daily (I.upper carrierId) [])
  obtain ⟨l, hl, hdec, hperm⟩ := listed_range hzero hlookup fun e he => by
    obtain ⟨hfiled, hkey⟩ := mem_history.mp (mem_of_mem_live dataExpiration he)
    exact ⟨hfiled, of_decide_eq_true hkey⟩
  refine ⟨l, hdec, hperm, ?_⟩
  have hz : ((executeAll I rs).purge t).zset (wire (carrierDays (normalizeCarrier I carrierId))) = .ok z := hz
  unfold getCarrierDocking
  simp only [hz]
  rw [limited, if_neg (by omega), List.map_take, hl, List.map_take]

/-- The live dates among the listed ones. -/
theorem filter_live_perm (hc : InOrder rs) (ht : ∀ r ∈ rs, r.now ≤ t) {l : List ℕ}
    (hperm : l.Perm (listedDates I rs carrierId t)) :
    (l.filter fun d => decide (d ∈ liveDates I rs carrierId t)).Perm (liveDates I rs carrierId t) := by
  have hnodup : l.Nodup := hperm.nodup_iff.mpr ((List.nodup_dedup _).filter _)
  refine (List.perm_ext_iff_of_nodup (hnodup.filter _) ((List.nodup_dedup _).filter _)).mpr fun d => ?_
  rw [List.mem_filter, decide_eq_true_eq]
  exact ⟨fun h => h.2, fun h => ⟨hperm.mem_iff.mpr (live_mem_listed hc ht h), h⟩⟩

/-- A read that goes through the dates `l` is complete if no count overflows and it meets the live dates it is
asked for. -/
theorem historyComplete_iff (hc : InOrder rs) (ht : ∀ r ∈ rs, r.now ≤ t)
    (hzero : ∀ r ∈ rs, ∀ c ts, r.call = .fleetCarrierDocking c ts → ts.offsetMinutes = 0) {daysBack : ℤ} {l : List ℕ}
    (hdec : l.Pairwise fun a b => b < a) (hperm : l.Perm (listedDates I rs carrierId t))
    (hread : getCarrierDocking I carrierId daysBack t (executeAll I rs) = carrierRows (normalizeCarrier I carrierId)
      ((executeAll I rs).purge t) ((l.take daysBack.toNat).map dateText)) :
    HistoryComplete I rs carrierId t daysBack ↔
      (∀ d ∈ l.take daysBack.toNat, (dockingsOn I rs carrierId t d).length < 2 ^ 31) ∧
      ∀ d ∈ liveDates I rs carrierId t, rank (liveDates I rs carrierId t) d < daysBack.toNat →
        rank l d < daysBack.toNat := by
  have hfiled := filedStore_executeAll I hc ht
  have hrank : ∀ d, rank (liveDates I rs carrierId t) d ≤ rank l d := fun d => by
    rw [← rank_perm (filter_live_perm hc ht hperm)]
    exact rank_filter_le _ l d
  unfold HistoryComplete
  rw [hread]
  constructor
  · intro h
    obtain ⟨rows, hok, -, hrows⟩ := h
    have hcounts := carrierRows_ok hfiled hok
    refine ⟨hcounts, fun d hd hlt => ?_⟩
    cases (carrierRows_eq hfiled hcounts).symm.trans hok
    have hlt : (rank (liveDates I rs carrierId t) d : ℤ) < daysBack := by omega
    have hrow := (hrows ⟨normalizeCarrier I carrierId, d, (dockingsOn I rs carrierId t d).length⟩).mpr ⟨hd, hlt, rfl⟩
    exact ((mem_take_iff hdec).mp ((mem_rows hzero).mp hrow).1).2
  · intro h
    obtain ⟨hcounts, hfirst⟩ := h
    refine ⟨_, carrierRows_eq hfiled hcounts, rows_pairwise (hdec.sublist (List.take_sublist _ _)), fun row => ?_⟩
    rw [mem_rows hzero, mem_take_iff hdec]
    constructor
    · intro h
      obtain ⟨⟨-, hlt⟩, hlive, hrow⟩ := h
      have := hrank row.date
      exact ⟨hlive, by omega, hrow⟩
    · intro h
      obtain ⟨hlive, hlt, hrow⟩ := h
      exact ⟨⟨hperm.mem_iff.mpr (live_mem_listed hc ht hlive), hfirst row.date hlive (by omega)⟩, hlive, hrow⟩

/-- The carrier's history is complete exactly if no lapsed date is among the first that are listed while a live
one is not, and no count on the way is beyond an `int`. -/
theorem carrier_history_complete_iff (I : Casing) {rs : List Recording} (hc : InOrder rs) {t : Time}
    (ht : ∀ r ∈ rs, r.now ≤ t)
    (hzero : ∀ r ∈ rs, ∀ c ts, r.call = .fleetCarrierDocking c ts → ts.offsetMinutes = 0)
    (carrierId : Str) {daysBack : ℤ} (hpos : 1 ≤ daysBack) :
    (∀ d, d ∈ liveDates I rs carrierId t ↔ (((executeAll I rs).purge t).val
      (wire (carrierDaily (normalizeCarrier I carrierId) (dateText d)))).isSome) ∧
    (HistoryComplete I rs carrierId t daysBack ↔
      (∀ d ∈ liveDates I rs carrierId t, ∀ d' ∈ listedDates I rs carrierId t, d' ∉ liveDates I rs carrierId t →
        ¬ ((rank (listedDates I rs carrierId t) d' : ℤ) < daysBack ∧
          daysBack ≤ rank (listedDates I rs carrierId t) d)) ∧
      ∀ d ∈ liveDates I rs carrierId t, (rank (listedDates I rs carrierId t) d : ℤ) < daysBack →
        (dockingsOn I rs carrierId t d).length < 2 ^ 31) := by
  have hfiled := filedStore_executeAll I hc ht
  refine ⟨fun d => ?_, ?_⟩
  · rw [mem_liveDates hzero, counter_on hfiled d]
    split_ifs with hl <;> simp [hl]
  · obtain ⟨l, hdec, hperm, hread⟩ := getCarrierDocking_rows I carrierId hc ht hzero hpos
    have hfirst := filter_first_iff hdec (fun d => decide (d ∈ liveDates I rs carrierId t)) daysBack.toNat
    simp only [(filter_live_perm hc ht hperm).mem_iff, rank_perm (filter_live_perm hc ht hperm)] at hfirst
    rw [historyComplete_iff hc ht hzero hdec hperm hread, hfirst, and_comm]
    simp only [← rank_perm hperm, ← hperm.mem_iff]
    refine and_congr ?_ ?_
    · refine forall₂_congr fun d _ => forall₂_congr fun d' _ => ?_
      rw [decide_eq_false_iff_not]
      refine imp_congr_right fun _ => not_congr (and_congr ?_ ?_) <;> omega
    · constructor
      · intro h d hd hlt
        exact h d ((mem_take_iff hdec).mpr ⟨hperm.mem_iff.mpr (live_mem_listed hc ht hd), by omega⟩)
      · intro h d hd
        by_cases hlive : d ∈ liveDates I rs carrierId t
        · have hlt := ((mem_take_iff hdec).mp hd).2
          exact h d hlive (by omega)
        · -- a lapsed date has no dockings to count
          have hnil := not_not.mp fun hne => hlive ((mem_liveDates hzero).mpr hne)
          rw [hnil]
          decide

end Complete

section January

/-- A carrier's docking of 1 January 2024, or of a later day. -/
def januaryDocking (day : ℕ) (h : (738885 + day) * 864000000000 ≤ maxTicks) (now : Time) : Recording :=
  ⟨.fleetCarrierDocking (lit "k7q-b2x") ⟨(738885 + day) * 864000000000, 0, h⟩, 0, now⟩

/-- Two days, each recorded on its own day. -/
def timelyDays : List Recording :=
  [januaryDocking 0 (by decide) 0, januaryDocking 1 (by decide) 86400000]

/-- Two days, the earlier of which is recorded twenty days after the later one. -/
def lateDays : List Recording :=
  [januaryDocking 1 (by decide) 0, januaryDocking 0 (by decide) (20 * 86400000)]

theorem carrier_history_complete_iff_january :
    738885 ∈ liveDates asciiCasing timelyDays (lit "K7Q-B2X") (2 * 86400000) ∧
      HistoryComplete asciiCasing timelyDays (lit "K7Q-B2X") (2 * 86400000) 1 := by
  refine ⟨by decide +kernel, (carrier_history_complete_iff asciiCasing ?_ ?_ ?_ (lit "K7Q-B2X") le_rfl).2.mpr ?_⟩
  · unfold InOrder
    decide
  · decide
  · intro r hr c ts hcall
    simp only [timelyDays, List.mem_cons, List.not_mem_nil, or_false] at hr
    rcases hr with rfl | rfl <;> cases hcall <;> rfl
  · constructor
    · decide +kernel
    · decide +kernel

/-- Forty days on, the later date has lapsed and is still listed first: asked for one day, the read finds none,
though the earlier date is live. -/
theorem lapsed_date_hides_live :
    ¬ ∀ (I : Casing) (rs : List Recording) (t : Time) (carrierId : Str) (daysBack : ℤ), InOrder rs →
      (∀ r ∈ rs, r.now ≤ t) → (∀ r ∈ rs, ∀ c ts, r.call = .fleetCarrierDocking c ts → ts.offsetMinutes = 0) →
      1 ≤ daysBack → HistoryComplete I rs carrierId t daysBack := by
  intro hall
  have hc : InOrder lateDays := by
    unfold InOrder
    decide
  have ht : ∀ r ∈ lateDays, r.now ≤ 40 * 86400000 := by decide
  have hzero : ∀ r ∈ lateDays, ∀ c ts, r.call = .fleetCarrierDocking c ts → ts.offsetMinutes = 0 := by
    intro r hr c ts hcall
    simp only [lateDays, List.mem_cons, List.not_mem_nil, or_false] at hr
    rcases hr with rfl | rfl <;> cases hcall <;> rfl
  have hcomplete := hall asciiCasing lateDays _ (lit "K7Q-B2X") 1 hc ht hzero le_rfl
  obtain ⟨l, hdec, hperm, hread⟩ := getCarrierDocking_rows asciiCasing (lit "K7Q-B2X") hc ht hzero le_rfl
  have hfirst := ((historyComplete_iff hc ht hzero hdec hperm hread).mp hcomplete).2 738885
    (by decide +kernel) (by decide +kernel)
  rw [rank_perm hperm] at hfirst
  exact absurd hfirst (by decide +kernel)

end January

end EliteEvents

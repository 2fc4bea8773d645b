import EliteEvents.Proofs.Calendar
import EliteEvents.Proofs.Filing

/-! How long a folder keeps what is filed in it. The thirty days run for the folder as a whole, and any docking
filed in it starts them anew; so a name stays for as long as the others keep coming. -/

namespace EliteEvents

open Text Redis RedisKeys TimedMap

/-- The day of server time. -/
def serverDay (now : Time) : ℕ := 719162 + now / 86400000

/-- Stations and days of the last thirty days, and at most 31 days for a carrier whose dockings are recorded on
the day they are dated. -/
structure Retained (I : Casing) (rs : List Recording) (t : Time) : Prop where
  stations : ∀ u : UpperName, ∀ x ∈ ((executeAll I rs).purge t).zmembers (wire (systemStations u.val)),
    ∃ r ∈ rs, ∃ s x' y ts, r.call = .stationDocking s x' y ts ∧ wire (normalizeSystem I s) = wire u.val ∧
      wire x' = x ∧ t ≤ r.now + dataExpiration
  days : ∀ u : UpperName, ∀ d ∈ ((executeAll I rs).purge t).zmembers (wire (carrierDays u.val)),
    ∃ r ∈ rs, ∃ c ts, r.call = .fleetCarrierDocking c ts ∧ wire (normalizeCarrier I c) = wire u.val ∧
      ts.date = d ∧ t ≤ r.now + dataExpiration
  month : ∀ u : UpperName, (∀ r ∈ rs, ∀ c ts, r.call = .fleetCarrierDocking c ts →
      wire (normalizeCarrier I c) = wire u.val → ts.day = serverDay r.now) →
    (((executeAll I rs).purge t).zmembers (wire (carrierDays u.val))).length ≤ 31

/-- After every docking whose station (or date) has seen none for thirty days, the folder has gone as long
without any. -/
def FoldersLapse (es : List Filing) (t : Time) : Prop :=
  ∀ e ∈ es, (∀ e' ∈ es, e'.key = e.key → e'.time + dataExpiration < t) →
    ∃ s, e.time < s ∧ s ≤ t ∧ ∀ e' ∈ es, e'.key.1 = e.key.1 → e'.time < s → e'.time + dataExpiration < s

section Members

variable {I : Casing} {rs : List Recording} {t : Time}

theorem mem_filings {e : Filing} : e ∈ filings I rs ↔ ∃ r ∈ rs, r.filing I = some e := List.mem_filterMap

theorem isSlot_of_filing {r : Recording} {e : Filing} (h : r.filing I = some e) :
    ∃ slot, IsSlot slot ∧ e.key = (slot.folderKey, slot.member) ∧ e.time = r.now := by
  unfold Recording.filing at h
  split at h
  · cases h
    exact ⟨_, .daily _ _, rfl, rfl⟩
  · cases h
    exact ⟨_, .station _ _, rfl, rfl⟩
  · cases h

theorem chronological_filings (hc : InOrder rs) : Chronological (filings I rs) := by
  refine List.pairwise_filterMap.mpr (hc.imp fun h e he e' he' => ?_)
  obtain ⟨-, -, -, h1⟩ := isSlot_of_filing he
  obtain ⟨-, -, -, h2⟩ := isSlot_of_filing he'
  rw [h1, h2]
  exact h

theorem filing_time_le (ht : ∀ r ∈ rs, r.now ≤ t) {e : Filing} (he : e ∈ filings I rs) : e.time ≤ t := by
  obtain ⟨r, hr, hf⟩ := mem_filings.mp he
  obtain ⟨-, -, -, hnow⟩ := isSlot_of_filing hf
  rw [hnow]
  exact ht r hr

/-- A folder lists a name from a docking on, until a stretch of thirty days without one. -/
theorem mem_folder_iff (hc : InOrder rs) (ht : ∀ r ∈ rs, r.now ≤ t) {slot : Slot} (hs : IsSlot slot) {m : Str} :
    m ∈ ((executeAll I rs).purge t).zmembers slot.folderKey ↔ ∃ e ∈ filings I rs, e.key = (slot.folderKey, m) ∧
      Unbroken dataExpiration (folderHistory slot.folderKey (filings I rs)) e.time t := by
  obtain ⟨z, hz, hlookup⟩ := (filedStore_executeAll I hc ht).zset hs
  have hsorted := history_pairwise (p := fun k : Str × Str => decide (k.1 = slot.folderKey))
    (chronological_filings (I := I) hc)
  have htimes : ∀ e ∈ folderHistory slot.folderKey (filings I rs), e.time ≤ t :=
    fun e he => filing_time_le ht (mem_history.mp he).1
  rw [Store.mem_zmembers, (Store.zset_ok hz).1 m, hlookup m, Option.isSome_map, List.find?_isSome]
  constructor
  · intro h
    obtain ⟨e, he, hm⟩ := h
    obtain ⟨hmem, hub⟩ := (mem_live_iff dataExpiration hsorted htimes).mp he
    obtain ⟨hmem, hk⟩ := mem_history.mp hmem
    exact ⟨e, hmem, Prod.ext (of_decide_eq_true hk) (of_decide_eq_true hm), hub⟩
  · intro h
    obtain ⟨e, he, hk, hub⟩ := h
    have hmem : e ∈ folderHistory slot.folderKey (filings I rs) :=
      mem_history.mpr ⟨he, by rw [hk]; exact decide_eq_true rfl⟩
    exact ⟨e, (mem_live_iff dataExpiration hsorted htimes).mpr ⟨hmem, hub⟩, by rw [hk]; exact decide_eq_true rfl⟩

/-- Folder by folder: everything listed is of the last thirty days exactly if the folders lapse in between. -/
theorem folders_fresh_iff (hc : InOrder rs) (ht : ∀ r ∈ rs, r.now ≤ t) :
    (∀ slot, IsSlot slot → ∀ m ∈ ((executeAll I rs).purge t).zmembers slot.folderKey,
      ∃ e ∈ filings I rs, e.key = (slot.folderKey, m) ∧ t ≤ e.time + dataExpiration) ↔
      FoldersLapse (filings I rs) t := by
  constructor
  · intro hfresh e he hold
    obtain ⟨r, -, hf⟩ := mem_filings.mp he
    obtain ⟨slot, hslot, hkey, -⟩ := isSlot_of_filing hf
    -- without such a stretch the name would still be listed
    by_contra hnone
    have hub : Unbroken dataExpiration (folderHistory slot.folderKey (filings I rs)) e.time t := by
      intro s h1 h2
      by_contra hgap
      refine hnone ⟨s, h1, h2, fun e' he' hk' hlt => not_le.mp fun hle => hgap ⟨e', ?_, hlt, hle⟩⟩
      rw [hkey] at hk'
      exact mem_history.mpr ⟨he', decide_eq_true hk'⟩
    obtain ⟨e', he', hk', hle⟩ := hfresh slot hslot slot.member ((mem_folder_iff hc ht hslot).mpr ⟨e, he, hkey, hub⟩)
    exact absurd hle (not_le.mpr (hold e' he' (hk'.trans hkey.symm)))
  · intro hlapse slot hslot m hm
    obtain ⟨e, he, hkey, hub⟩ := (mem_folder_iff hc ht hslot).mp hm
    by_contra hnone
    have hold : ∀ e' ∈ filings I rs, e'.key = e.key → e'.time + dataExpiration < t :=
      fun e' he' hk => not_le.mp fun hle => hnone ⟨e', he', hk.trans hkey, hle⟩
    obtain ⟨s, h1, h2, hgap⟩ := hlapse e he hold
    obtain ⟨e', he', hlt, hle⟩ := hub s h1 h2
    obtain ⟨he', hk'⟩ := mem_history.mp he'
    have hfolder : e'.key.1 = e.key.1 := by
      rw [hkey]
      exact of_decide_eq_true hk'
    exact absurd hle (not_le.mpr (hgap e' he' hfolder hlt))

theorem days_key_iff {u u' : UpperName} :
    wire (Entity.carrierDays u).key = wire (Entity.carrierDays u').key ↔ wire u.val = wire u'.val := by
  constructor
  · intro h
    have he := Entity.carrierDays.inj (encode_eq_of_wire_key h)
    exact congrArg UpperName.val he
  · intro h
    have hu : u.encode = u'.encode := UpperName.ext_val h
    rw [wire_key, wire_key, Entity.encode, Entity.encode, hu]

/-- The dockings filed in the folder of a system. -/
theorem station_filing_iff {u : UpperName} {x : Str} {now : Time} :
    (∃ e ∈ filings I rs, e.key = (wire (systemStations u.val), x) ∧ now ≤ e.time + dataExpiration) ↔
      ∃ r ∈ rs, ∃ s x' y ts, r.call = .stationDocking s x' y ts ∧ wire (normalizeSystem I s) = wire u.val ∧
        wire x' = x ∧ now ≤ r.now + dataExpiration := by
  constructor
  · intro h
    obtain ⟨e, he, hk, hle⟩ := h
    obtain ⟨r, hr, hf⟩ := mem_filings.mp he
    obtain ⟨call, nextExpiration, rnow⟩ := r
    cases call with
    | fleetCarrierDocking c ts =>
      cases hf
      have hfolder : wire (Entity.carrierDays (I.upper c)).key = wire (Entity.systemStations u).key :=
        congrArg Prod.fst hk
      cases encode_eq_of_wire_key hfolder
    | stationDocking s x' y ts =>
      cases hf
      obtain ⟨hs, hx⟩ := Prod.mk.inj hk
      exact ⟨_, hr, s, x', y, ts, rfl, set_key_iff.mp hs, hx, hle⟩
    | systemVisit s => cases hf
  · intro h
    obtain ⟨r, hr, s, x', y, ts, hcall, hs, hx, hle⟩ := h
    refine ⟨(stationSlot (I.upper s) x').filing r.now ts.toUnixTimeSeconds, mem_filings.mpr ⟨r, hr, ?_⟩, ?_, hle⟩
    · rw [Recording.filing, hcall]
    · exact Prod.ext (set_key_iff.mpr hs) hx

/-- The dockings filed in the folder of a carrier. -/
theorem carrier_filing_iff {u : UpperName} {d : Str} {now : Time} :
    (∃ e ∈ filings I rs, e.key = (wire (carrierDays u.val), d) ∧ now ≤ e.time + dataExpiration) ↔
      ∃ r ∈ rs, ∃ c ts, r.call = .fleetCarrierDocking c ts ∧ wire (normalizeCarrier I c) = wire u.val ∧
        ts.date = d ∧ now ≤ r.now + dataExpiration := by
  constructor
  · intro h
    obtain ⟨e, he, hk, hle⟩ := h
    obtain ⟨r, hr, hf⟩ := mem_filings.mp he
    obtain ⟨call, nextExpiration, rnow⟩ := r
    cases call with
    | fleetCarrierDocking c ts =>
      cases hf
      obtain ⟨hc, hd⟩ := Prod.mk.inj hk
      exact ⟨_, hr, c, ts, rfl, days_key_iff.mp hc, (wire_dateText ts.day).symm.trans hd, hle⟩
    | stationDocking s x' y ts =>
      cases hf
      have hfolder : wire (Entity.systemStations (I.upper s)).key = wire (Entity.carrierDays u).key :=
        congrArg Prod.fst hk
      cases encode_eq_of_wire_key hfolder
    | systemVisit s => cases hf
  · intro h
    obtain ⟨r, hr, c, ts, hcall, hc, hd, hle⟩ := h
    refine ⟨(dailySlot (I.upper c) ts.date).filing r.now ts.toUnixTimeSeconds, mem_filings.mpr ⟨r, hr, ?_⟩, ?_, hle⟩
    · rw [Recording.filing, hcall]
    · exact Prod.ext (days_key_iff.mpr hc) ((wire_dateText ts.day).trans hd)

private theorem day_window {a b : ℕ} (hab : a ≤ b) (hle : b ≤ a + 2592000000) :
    b / 86400000 - a / 86400000 < 31 ∧ b / 86400000 - (b / 86400000 - a / 86400000) = a / 86400000 := by
  omega

/-- Thirty days touch at most 31 days of the calendar. -/
theorem serverDay_mem {now : Time} (hnow : now ≤ t) (hle : t ≤ now + dataExpiration) :
    dateText (serverDay now) ∈ (List.range 31).map fun k => dateText (719162 + (t / 86400000 - k)) := by
  obtain ⟨hlt, hback⟩ := day_window hnow hle
  refine List.mem_map.mpr ⟨t / 86400000 - now / 86400000, List.mem_range.mpr hlt, ?_⟩
  rw [hback, serverDay]

theorem month_of_days (ht : ∀ r ∈ rs, r.now ≤ t) {u : UpperName} {ms : List Str} (hnodup : ms.Nodup)
    (hdays : ∀ d ∈ ms, ∃ r ∈ rs, ∃ c ts, r.call = .fleetCarrierDocking c ts ∧
      wire (normalizeCarrier I c) = wire u.val ∧ ts.date = d ∧ t ≤ r.now + dataExpiration)
    (hdated : ∀ r ∈ rs, ∀ c ts, r.call = .fleetCarrierDocking c ts → wire (normalizeCarrier I c) = wire u.val →
      ts.day = serverDay r.now) : ms.length ≤ 31 := by
  have hsub : ms ⊆ (List.range 31).map fun k => dateText (719162 + (t / 86400000 - k)) := by
    intro d hd
    obtain ⟨r, hr, c, ts, hcall, hc, rfl, hle⟩ := hdays d hd
    rw [date_eq, hdated r hr c ts hcall hc]
    exact serverDay_mem (ht r hr) hle
  have hlen := (hnodup.subperm hsub).length_le
  rwa [List.length_map, List.length_range] at hlen

end Members

/-- The window bounds the stored data at a time exactly if by then every folder has lapsed after the last docking
under each name that is older than the window. -/
theorem retained_iff (I : Casing) {rs : List Recording} (hc : InOrder rs) {t : Time} (ht : ∀ r ∈ rs, r.now ≤ t) :
    Retained I rs t ↔ FoldersLapse (filings I rs) t := by
  rw [← folders_fresh_iff hc ht]
  constructor
  · intro h slot hslot m hm
    cases hslot with
    | station u x => exact station_filing_iff.mpr (h.stations u m hm)
    | daily u d => exact carrier_filing_iff.mpr (h.days u m hm)
  · intro h
    have hdays : ∀ u : UpperName, ∀ d ∈ ((executeAll I rs).purge t).zmembers (wire (carrierDays u.val)),
        ∃ r ∈ rs, ∃ c ts, r.call = .fleetCarrierDocking c ts ∧ wire (normalizeCarrier I c) = wire u.val ∧
          ts.date = d ∧ t ≤ r.now + dataExpiration :=
      fun u d hd => carrier_filing_iff.mp (h (dailySlot u d) (.daily u d) d hd)
    refine ⟨fun u x hx => ?_, hdays, fun u hdated => ?_⟩
    · exact station_filing_iff.mp (h (stationSlot u x) (.station u x) x hx)
    · exact month_of_days ht (zmembers_nodup _ _) (hdays u) hdated

section Days

/-- One docking at each of two stations of Sol, `days` apart. -/
def solStations (days : ℕ) : List Recording :=
  [⟨.stationDocking (lit "Sol") (lit "Abraham Lincoln") (lit "Orbis") .minValue, 0, 0⟩,
    ⟨.stationDocking (lit "Sol") (lit "Galileo") (lit "Ocellus") .minValue, 0, days * 86400000⟩]

/-- After forty days the set has lapsed and lists the second station only. -/
theorem retained_iff_sol :
    Retained asciiCasing (solStations 40) (50 * 86400000) ∧
      lit "Galileo" ∈ ((executeAll asciiCasing (solStations 40)).purge (50 * 86400000)).zmembers
        (wire (systemStations (lit "SOL"))) := by
  have hgap : ∀ e ∈ filings asciiCasing (solStations 40),
      (∀ e' ∈ filings asciiCasing (solStations 40), e'.key = e.key → e'.time + dataExpiration < 50 * 86400000) →
        e.time < 40 * 86400000 ∧ 40 * 86400000 ≤ 50 * 86400000 ∧ ∀ e' ∈ filings asciiCasing (solStations 40),
          e'.key.1 = e.key.1 → e'.time < 40 * 86400000 → e'.time + dataExpiration < 40 * 86400000 := by
    decide +kernel
  refine ⟨(retained_iff asciiCasing ?_ ?_).mpr fun e he hold => ⟨40 * 86400000, hgap e he hold⟩, ?_⟩
  · unfold InOrder
    decide
  · decide
  · decide +kernel

/-- The second station, docked at after twenty days, keeps the first one listed for twenty more. -/
theorem stale_station_listed :
    ¬ ∀ (I : Casing) (rs : List Recording) (t : Time), InOrder rs → (∀ r ∈ rs, r.now ≤ t) → Retained I rs t := by
  intro hall
  have hret := hall asciiCasing (solStations 20) (40 * 86400000) (by
    unfold InOrder
    decide) (by decide)
  have hlisted : lit "Abraham Lincoln" ∈ ((executeAll asciiCasing (solStations 20)).purge (40 * 86400000)).zmembers
      (wire (systemStations (asciiCasing.upper (lit "Sol")).val)) := by
    decide +kernel
  obtain ⟨r, hr, s, x, y, ts, hcall, -, hx, hle⟩ := hret.stations _ _ hlisted
  have hlate : ∀ r ∈ solStations 20, r.now = 0 ∨ r.call = .stationDocking (lit "Sol") (lit "Galileo") (lit "Ocellus")
      .minValue := by
    decide
  rcases hlate r hr with h0 | hother
  · rw [h0] at hle
    exact absurd hle (by decide)
  · cases hcall.symm.trans hother
    exact absurd hx (by decide)

end Days

end EliteEvents

import EliteEvents.Proofs.Platform

/-! What the application leaves behind: every key it writes lapses by itself within 30 days of silence, but for
the two search indexes, and those are what a drain deletes. -/

namespace EliteEvents

open Text Redis RedisKeys

/-- The deadlines a command sets lie at most 30 days ahead. -/
def ShortLived (now : Time) : Cmd → Prop
  | .expire _ ttl => ttl ≤ dataExpiration
  | .expireAt _ deadline => deadline ≤ now + dataExpiration
  | .set _ _ ttl => ∃ t, ttl = some t ∧ t ≤ dataExpiration
  | _ => True

theorem ShortLived.mono {now now' : Time} {c : Cmd} (h : ShortLived now c) (hle : now ≤ now') :
    ShortLived now' c := by
  cases c with
  | expireAt k d => exact h.trans (Nat.add_le_add_right hle _)
  | _ => exact h

/-- Whatever the commands write under `K`, a later one of them gives it a deadline. -/
def Covered (K : Str) : List Cmd → Prop
  | [] => True
  | c :: rest => (K ∈ c.keys → c.timed = none → (∀ ks, c ≠ .del ks) → ∃ d ∈ rest, d.timed = some K) ∧
    Covered K rest

def IsIndexKey (k : Str) : Prop := k = wire Entity.systemIndex.key ∨ k = wire Entity.carrierIndex.key

theorem getNextExpirationUtc_le (now : Time) :
    WeeklyExpirationCalculator.getNextExpirationUtc now ≤ now + dataExpiration := by
  unfold WeeklyExpirationCalculator.getNextExpirationUtc WeeklyExpirationCalculator.weekOf
    WeeklyExpirationCalculator.week WeeklyExpirationCalculator.firstReset dataExpiration
  omega

theorem shortLived_commands {I : Casing} {now : Time} (j : ClientJob) {c : Cmd} (hc : c ∈ j.commands I now) :
    ShortLived now c := by
  cases j with
  | record call =>
    cases call with
    | stationDocking s x y t =>
      simp only [ClientJob.commands, batch_stationDocking, List.mem_cons, List.not_mem_nil, or_false] at hc
      rcases hc with rfl | rfl | rfl | rfl | rfl | rfl <;> first | trivial | exact le_rfl
    | fleetCarrierDocking cr t =>
      simp only [ClientJob.commands, batch_fleetCarrierDocking, List.mem_cons, List.not_mem_nil, or_false] at hc
      rcases hc with rfl | rfl | rfl | rfl | rfl <;> first | trivial | exact le_rfl
    | systemVisit s =>
      simp only [ClientJob.commands, DockingWriter.batch, DockingWriter.recordSystemVisit, List.map_cons,
        List.map_nil, List.mem_cons, List.not_mem_nil, or_false] at hc
      rcases hc with rfl | rfl
      · trivial
      · exact getNextExpirationUtc_le now
  | heartbeat ms =>
    obtain rfl := List.mem_singleton.mp hc
    exact ⟨heartbeatExpiration, rfl, by decide⟩
  | rebuild κ indexed live =>
    rcases mem_writes hc with ⟨names, rfl, -⟩ | ⟨names, rfl, -⟩ <;> trivial
  | purge =>
    obtain rfl := List.mem_singleton.mp hc
    trivial

theorem covered_of_notMem {K : Str} {cs : List Cmd} (h : ∀ c ∈ cs, K ∉ c.keys) : Covered K cs := by
  induction cs with
  | nil => trivial
  | cons c rest ih =>
    exact ⟨fun hk => absurd hk (h c List.mem_cons_self), ih fun d hd => h d (List.mem_cons_of_mem c hd)⟩

/-- A command on a key, with one for its deadline behind it. -/
theorem covered_cons {K k : Str} {c d : Cmd} {rest : List Cmd} (hk : c.keys = [k]) (hd : d ∈ rest)
    (ht : d.timed = some k) (h : Covered K rest) : Covered K (c :: rest) := by
  refine ⟨fun hK _ _ => ⟨d, hd, ?_⟩, h⟩
  rw [hk] at hK
  rw [ht, List.mem_singleton.mp hK]

theorem covered_timed {K k : Str} {c : Cmd} {rest : List Cmd} (ht : c.timed = some k) (h : Covered K rest) :
    Covered K (c :: rest) := by
  refine ⟨fun _ hn => ?_, h⟩
  rw [ht] at hn
  cases hn

theorem covered_commands {I : Casing} {now : Time} (j : ClientJob) {K : Str} (hK : ¬IsIndexKey K) :
    Covered K (j.commands I now) := by
  cases j with
  | record call =>
    cases call with
    | stationDocking s x y t =>
      rw [ClientJob.commands, batch_stationDocking]
      refine covered_cons rfl (List.mem_cons_of_mem _ List.mem_cons_self) rfl ?_
      refine covered_cons rfl List.mem_cons_self rfl (covered_timed rfl ?_)
      refine covered_cons rfl List.mem_cons_self rfl (covered_timed rfl ?_)
      exact ⟨fun hk => absurd (.inl (List.mem_singleton.mp hk)) hK, trivial⟩
    | fleetCarrierDocking cr t =>
      rw [ClientJob.commands, batch_fleetCarrierDocking]
      refine covered_cons rfl List.mem_cons_self rfl (covered_timed rfl ?_)
      refine covered_cons rfl List.mem_cons_self rfl (covered_timed rfl ?_)
      exact ⟨fun hk => absurd (.inr (List.mem_singleton.mp hk)) hK, trivial⟩
    | systemVisit s => exact covered_cons rfl List.mem_cons_self rfl (covered_timed rfl trivial)
  | heartbeat ms => exact covered_timed rfl trivial
  | rebuild κ indexed live =>
    refine covered_of_notMem fun c hc hk => hK ?_
    obtain ⟨e, rfl, ht⟩ := @touches_of_mem_keys I now _ _ hc _ hk
    cases κ <;> cases e <;> cases ht
    · exact .inl rfl
    · exact .inr rfl
  | purge => exact ⟨fun _ _ hd => absurd rfl (hd _), trivial⟩

namespace Platform

variable {I : Casing} {w w' : Platform} {a : PlatformAction} {as : List PlatformAction}

/-- Every key but an index has a deadline at most 30 days ahead, or a command in flight is about to set one. -/
structure Expiring (w : Platform) : Prop where
  short : InFlight (ShortLived w.now) w
  covered : ∀ K, ¬IsIndexKey K → ∀ cs ∈ w.jobs, Covered K cs
  entries : ∀ K e, ¬IsIndexKey K → w.store.lookup K = some e →
    (∃ d, e.expiry = some d ∧ d ≤ w.now + dataExpiration) ∨ ∃ cs ∈ w.jobs, ∃ c ∈ cs, c.timed = some K

theorem expiring_initial (now : Time) : Expiring (initial now) := by
  refine ⟨?_, ?_, fun K e _ he => ?_⟩
  · simp [InFlight, initial]
  · simp [initial]
  · cases he

/-- What a command does to the deadline of a key, with all commands in flight being what they are. -/
theorem expiry_bounded {c : Cmd} {K : Str} {e : Entry} (hs : ShortLived w.now c)
    (he : (c.apply w.now w.store).lookup K = some e) :
    (∃ d, e.expiry = some d ∧ d ≤ w.now + dataExpiration) ∨
      (∃ e₀, w.store.lookup K = some e₀ ∧ e.expiry = e₀.expiry ∧ c.timed ≠ some K) ∨
      (K ∈ c.keys ∧ c.timed = none ∧ ∀ ks, c ≠ .del ks) := by
  rcases expiry_of_apply he with ⟨e₀, hl, hx, ht⟩ | ⟨-, hk, ht, hd, -⟩ | ⟨ttl, rfl, hx⟩ | ⟨d, rfl, hx⟩ |
    ⟨v, ttl, rfl, hx⟩
  · refine .inr (.inl ⟨e₀, hl, hx, fun h => ?_⟩)
    rw [ht (mem_keys_of_timed h)] at h
    cases h
  · exact .inr (.inr ⟨hk, ht, hd⟩)
  · exact .inl ⟨_, hx, Nat.add_le_add_left hs _⟩
  · exact .inl ⟨_, hx, hs⟩
  · obtain ⟨t, rfl, ht⟩ := hs
    exact .inl ⟨_, hx, Nat.add_le_add_left ht _⟩

theorem entries_command {i : ℕ} {c : Cmd} {rest : List Cmd} (h : Expiring w) (hi : w.jobs[i]? = some (c :: rest))
    {K : Str} {e : Entry} (hK : ¬IsIndexKey K) (he : (c.apply w.now w.store).lookup K = some e) :
    (∃ d, e.expiry = some d ∧ d ≤ w.now + dataExpiration) ∨
      ∃ cs ∈ w.jobs.set i rest, ∃ d ∈ cs, d.timed = some K := by
  have hlt : i < w.jobs.length := (List.getElem?_eq_some_iff.mp hi).1
  have hrest : rest ∈ w.jobs.set i rest := List.mem_set hlt rest
  rcases expiry_bounded (h.short.next hi) he with hd | ⟨e₀, hl, hx, ht⟩ | ⟨hk, ht, hd⟩
  · exact .inl hd
  · rcases h.entries K e₀ hK hl with ⟨d, hd, hle⟩ | ⟨cs, hcs, d, hd, hdt⟩
    · exact .inl ⟨d, hx.trans hd, hle⟩
    · -- the command that will set the deadline is not the one that just ran
      obtain ⟨j, hj⟩ := List.mem_iff_getElem?.mp hcs
      by_cases hij : i = j
      · subst hij
        rw [hi] at hj
        obtain rfl := Option.some.inj hj
        rcases List.mem_cons.mp hd with rfl | hd
        · exact absurd hdt ht
        · exact .inr ⟨rest, hrest, d, hd, hdt⟩
      · refine .inr ⟨cs, List.mem_iff_getElem?.mpr ⟨j, ?_⟩, d, hd, hdt⟩
        rw [List.getElem?_set_ne hij, hj]
  · obtain ⟨d, hmem, hdt⟩ := (h.covered K hK _ (List.mem_of_getElem? hi)).1 hk ht hd
    exact .inr ⟨rest, hrest, d, hmem, hdt⟩

theorem entries_cache {n : ℕ} (h : Expiring w) {K : Str} {e : Entry} (hK : ¬IsIndexKey K)
    (he : ((CachedSystemCount.command n).apply w.now w.store).lookup K = some e) :
    (∃ d, e.expiry = some d ∧ d ≤ w.now + dataExpiration) ∨ ∃ cs ∈ w.jobs, ∃ c ∈ cs, c.timed = some K := by
  rw [cacheCommand_eq] at he
  have hs : ShortLived w.now
      (.set (wire Entity.systemCountCache.key) (Decimal.text n) (some systemCountCacheDuration)) :=
    ⟨systemCountCacheDuration, rfl, by decide⟩
  rcases expiry_bounded hs he with hd | ⟨e₀, hl, hx, -⟩ | ⟨-, ht, -⟩
  · exact .inl hd
  · rcases h.entries K e₀ hK hl with ⟨d, hd, hle⟩ | hd
    · exact .inl ⟨d, hx.trans hd, hle⟩
    · exact .inr hd
  · cases ht

theorem Expiring.move (h : Expiring w) (hm : Move I w a w') (hcut : ∀ i, a ≠ .cut i) : Expiring w' := by
  cases hm with
  | tick t ht =>
    refine ⟨fun cs hcs c hc => (h.short cs hcs c hc).mono ht, h.covered, fun K e hK he => ?_⟩
    change (w.store.purge t).lookup K = some e at he
    rw [Store.lookup_purge, Option.filter_eq_some_iff] at he
    rcases h.entries K e hK he.1 with ⟨d, hd, hle⟩ | hd
    · exact .inl ⟨d, hd, hle.trans (Nat.add_le_add_right ht _)⟩
    · exact .inr hd
  | submit j =>
    refine ⟨h.short.move (.submit (I := I) j) fun j' _ c hc => shortLived_commands j' hc, fun K hK cs hcs => ?_,
      fun K e hK he => ?_⟩
    · rcases List.mem_append.mp hcs with hcs | hcs
      · exact h.covered K hK cs hcs
      · obtain rfl := List.mem_singleton.mp hcs
        exact covered_commands j hK
    · rcases h.entries K e hK he with hd | ⟨cs, hcs, hd⟩
      · exact .inl hd
      · exact .inr ⟨cs, List.mem_append_left _ hcs, hd⟩
  | command i c rest hi =>
    refine ⟨h.short.move (.command (I := I) i c rest hi) fun j hj => ?_, fun K hK cs hcs => ?_,
      fun K e hK he => entries_command h hi hK he⟩
    · cases hj
    · rcases List.mem_or_eq_of_mem_set hcs with hcs | rfl
      · exact h.covered K hK cs hcs
      · exact (h.covered K hK _ (List.mem_of_getElem? hi)).2
  | cut i hi => exact absurd rfl (hcut i)
  | store i got counted n hv => exact ⟨h.short, h.covered, fun K e hK he => entries_cache h hK he⟩
  | storeUnreplied i got counted n hv => exact ⟨h.short, h.covered, fun K e hK he => entries_cache h hK he⟩
  | _ => exact ⟨h.short, h.covered, h.entries⟩

theorem Expiring.run (h : Expiring w) (hr : Platform.run I as w = some w') (hcut : ∀ i, .cut i ∉ as) :
    Expiring w' := by
  induction as generalizing w with
  | nil => exact Option.some.inj hr ▸ h
  | cons a as ih =>
    obtain ⟨w₁, h₁, hr⟩ := Option.bind_eq_some_iff.mp hr
    refine ih (h.move (move_of_step h₁) fun i hi => hcut i ?_) hr fun i hi => hcut i (List.mem_cons_of_mem a hi)
    rw [hi]
    exact List.mem_cons_self

/-- With nothing in flight, every key but an index has its deadline. -/
theorem Expiring.deadline (h : Expiring w) (hq : w.Quiet) {K : Str} {e : Entry} (hK : ¬IsIndexKey K)
    (he : w.store.lookup K = some e) : ∃ d, e.expiry = some d ∧ d ≤ w.now + dataExpiration := by
  rcases h.entries K e hK he with hd | ⟨cs, hcs, c, hc, -⟩
  · exact hd
  · rw [hq cs hcs] at hc
    cases hc

theorem purge_lapsed {σ : Store} {t d : Time} {K : Str} {e : Entry} (he : σ.lookup K = some e)
    (hd : e.expiry = some d) (hlt : d < t) : (σ.purge t).lookup K = none := by
  rw [Store.lookup_purge, he, Option.filter_some]
  simp [Entry.lapsed, hd, hlt]

/-- As long as no connection fails in the middle of a job: once all is quiet for 30 days, the keyspace holds
nothing but the search indexes, and nothing at all if the feed was drained. -/
theorem only_indexes_outlive_silence {now t : Time} (h : run I as (initial now) = some w)
    (hcut : ∀ i, .cut i ∉ as) (hq : w.Quiet) (ht : w.now + dataExpiration < t) :
    (∀ k, (w.store.purge t).lookup k ≠ none → k = wire systemIndex ∨ k = wire carrierIndex) ∧
      ∀ k, ((SearchIndexPurger.command.apply w.now w.store).purge t).lookup k = none := by
  have hx := (expiring_initial now).run h hcut
  have hlapse : ∀ k, ¬IsIndexKey k → (w.store.purge t).lookup k = none := by
    intro k hk
    cases hl : w.store.lookup k with
    | none => rw [Store.lookup_purge, hl, Option.filter_none]
    | some e =>
      obtain ⟨d, hd, hle⟩ := hx.deadline hq hk hl
      exact purge_lapsed hl hd (lt_of_le_of_lt hle ht)
  refine ⟨fun k hk => ?_, fun k => ?_⟩
  · by_contra hn
    exact hk (hlapse k hn)
  · rw [Store.lookup_purge, lookup_apply]
    split_ifs with hmem
    · rfl
    · have hk : ¬IsIndexKey k := by
        intro hk
        refine hmem ?_
        change k ∈ SearchIndexPurger.keys.map wire
        rw [wire_purged]
        rcases hk with rfl | rfl <;> simp
      rw [← Store.lookup_purge]
      exact hlapse k hk

/-- A docking, a visit, a heartbeat and a page, each to its end. -/
def quietEvening : List PlatformAction :=
  [.submit (.record (.fleetCarrierDocking (lit "K7Q-BQL") .minValue)), .command 0, .command 0, .command 0,
    .submit (.record (.systemVisit (lit "Sol"))), .command 1, .command 0, .command 1, .command 0,
    .submit (.heartbeat 0), .command 2, .view, .get 0, .count 0, .store 0 true]

theorem quietEvening_lapses : ∃ w, run asciiCasing quietEvening (initial 0) = some w ∧
    (∀ k, (w.store.purge 2592000001).lookup k ≠ none → k = wire systemIndex ∨ k = wire carrierIndex) ∧
      ∀ k, ((SearchIndexPurger.command.apply w.now w.store).purge 2592000001).lookup k = none := by
  have hrun : ((run asciiCasing quietEvening (initial 0)).filter fun w =>
      decide (w.now = 0) && w.jobs.all List.isEmpty).isSome = true := by decide +kernel
  obtain ⟨w, hw⟩ := Option.isSome_iff_exists.mp hrun
  obtain ⟨hw, hend⟩ := Option.filter_eq_some_iff.mp hw
  simp only [Bool.and_eq_true, decide_eq_true_eq, List.all_eq_true, List.isEmpty_iff] at hend
  refine ⟨w, hw, only_indexes_outlive_silence hw ?_ hend.2 ?_⟩
  · simp [quietEvening]
  · rw [hend.1]
    decide

end Platform

end EliteEvents

import EliteEvents.Lib.Runs
import EliteEvents.Proofs.Platform

/-! The system count on the pages: how old it can be, with any number of pages at work on one cached value, and
that it is the only thing the web tier leaves on the server. -/

namespace EliteEvents

open Text Redis RedisKeys

/-- The key of the cached count, on the server. -/
def cacheKey : Str := wire Entity.systemCountCache.key

theorem cacheKey_notMem {I : Casing} {now : Time} {j : ClientJob} {c : Cmd} (hc : c ∈ j.commands I now) :
    cacheKey ∉ c.keys := by
  intro hk
  obtain ⟨e, he, ht⟩ := touches_of_mem_keys hc hk
  have hcache := encode_eq_of_wire_key he
  cases e <;> cases hcache
  cases j with
  | record call => cases call <;> cases ht
  | rebuild κ indexed live => cases κ <;> cases ht
  | _ => cases ht

namespace Platform

variable {I : Casing} {w w' v : Platform} {a : PlatformAction} {as : List PlatformAction}

/-! Without the web tier. -/

/-- The same server to everyone but the pages. -/
structure SameData (w v : Platform) : Prop where
  now : v.now = w.now
  jobs : v.jobs = w.jobs
  store : Store.AgreesOff cacheKey w.store v.store

theorem SameData.web (h : SameData w v) (hm : Move I w a w') (ha : a.isWeb = true) : SameData w' v := by
  have hset : ∀ n, SameData (w.setStore ((CachedSystemCount.command n).apply w.now w.store)) v := fun n =>
    ⟨h.now, h.jobs, h.store.apply_left rfl⟩
  cases hm with
  | store i got counted n hv => exact ⟨h.now, h.jobs, (hset n).store⟩
  | storeUnreplied i got counted n hv => exact ⟨h.now, h.jobs, (hset n).store⟩
  | tick t ht => cases ha
  | submit j => cases ha
  | command i c rest hi => cases ha
  | cut i hi => cases ha
  | _ => exact ⟨h.now, h.jobs, h.store⟩

theorem SameData.ingestion (h : SameData w v) (hm : Move I w a w') (ha : a.isWeb = false) :
    ∃ v', v.step I a = some v' ∧ SameData w' v' := by
  cases hm with
  | tick t ht => exact ⟨_, if_pos (h.now ▸ ht), rfl, h.jobs, h.store.purge t⟩
  | submit j => exact ⟨_, rfl, h.now, by rw [h.now, h.jobs], h.store⟩
  | command i c rest hi =>
    refine ⟨({ v with jobs := v.jobs.set i rest }.setStore (c.apply v.now v.store)), ?_, h.now, ?_, ?_⟩
    · simp only [step, h.jobs, hi]
    · simp only [setStore, h.jobs]
    · simp only [setStore, h.now]
      exact h.store.apply c w.now
  | cut i hi => exact ⟨_, if_pos (h.jobs ▸ hi), h.now, by rw [h.jobs], h.store⟩
  | _ => cases ha

/-- Take the pages out of a run, and the server holds the same at every key but their own: what the web tier
does can be seen nowhere else. -/
theorem web_touches_nothing_else (h : run I as w = some w') :
    ∃ v, run I (as.filter fun a => !a.isWeb) w = some v ∧ v.now = w'.now ∧ v.jobs = w'.jobs ∧
      ∀ k, k ≠ wire systemCountCache → v.store.lookup k = w'.store.lookup k := by
  have hsim : ∀ (as : List PlatformAction) (w w' v : Platform), SameData w v → run I as w = some w' →
      ∃ v', run I (as.filter fun a => !a.isWeb) v = some v' ∧ SameData w' v' := by
    intro as
    induction as with
    | nil =>
      intro w w' v hs h
      exact ⟨v, rfl, Option.some.inj h ▸ hs⟩
    | cons a as ih =>
      intro w w' v hs h
      obtain ⟨w₁, h₁, h⟩ := Option.bind_eq_some_iff.mp h
      cases ha : a.isWeb with
      | true =>
        rw [List.filter_cons_of_neg (by simp [ha])]
        exact ih w₁ w' v (hs.web (move_of_step h₁) ha) h
      | false =>
        obtain ⟨v₁, hv₁, hs₁⟩ := hs.ingestion (move_of_step h₁) ha
        obtain ⟨v', hv', hs'⟩ := ih w₁ w' v₁ hs₁ h
        rw [List.filter_cons_of_pos (by simp [ha])]
        exact ⟨v', Option.bind_eq_some_iff.mpr ⟨v₁, hv₁, hv'⟩, hs'⟩
  obtain ⟨v, hv, hs⟩ := hsim as w w' w ⟨rfl, rfl, fun _ _ => rfl⟩ h
  exact ⟨v, hv, hs.now, hs.jobs, fun k hk => (hs.store k hk).symm⟩

theorem busyDay_without_pages : ∃ w v, run asciiCasing busyDay (initial 0) = some w ∧
    run asciiCasing (busyDay.filter fun a => !a.isWeb) (initial 0) = some v ∧
      ∀ k, k ≠ wire systemCountCache → v.store.lookup k = w.store.lookup k := by
  obtain ⟨w, hw⟩ := Option.isSome_iff_exists.mp
    (show (run asciiCasing busyDay (initial 0)).isSome = true by decide +kernel)
  obtain ⟨v, hv, -, -, hsame⟩ := web_touches_nothing_else hw
  exact ⟨w, v, hw, hv, hsame⟩

/-! How old the count is. -/

/-- A page that has counted stores what it counted at most `latency` later. -/
def punctual (latency : Time) (w : Platform) : PlatformAction → Bool
  | .store i _ =>
    match w.views[i]? with
    | some (.storing _ counted _) => decide (w.now ≤ counted + latency)
    | _ => true
  | _ => true

/-- The number `n` is the size the index had at `m`. -/
structure Counted (w : Platform) (m : Time) (n : ℕ) : Prop where
  size : (m, n) ∈ w.sizes
  past : m ≤ w.now

/-- A page was served a size that the index had since it asked, or not long before. -/
def Recent (latency : Time) (w : Platform) (s : Served) : Prop :=
  ∃ m n, (m, n) ∈ w.sizes ∧ s.got ≤ m + latency + systemCountCacheDuration ∧ m ≤ s.returned ∧
    (n < 2 ^ 63 → s.answer = .ok n)

/-- Where a page stands, against the sizes so far. -/
def Tracks (w : Platform) : PageView → Prop
  | .asking => True
  | .counting got => got ≤ w.now
  | .storing got counted n => got ≤ counted ∧ Counted w counted n

/-- The cached entry, if there is one, is a count that was taken not long before. -/
def CacheFresh (latency : Time) (w : Platform) : Prop :=
  ∀ e, w.store.lookup cacheKey = some e → ∃ m n d, Counted w m n ∧ e = ⟨.str (Decimal.text n), some d⟩ ∧
    w.now ≤ d ∧ d ≤ m + latency + systemCountCacheDuration

structure CountsRecent (I : Casing) (latency : Time) (w : Platform) : Prop where
  sound : Sound I w
  others : InFlight (fun c => cacheKey ∉ c.keys) w
  current : (w.now, indexSize w.store) ∈ w.sizes
  views : ∀ v ∈ w.views, Tracks w v
  cache : CacheFresh latency w
  served : ∀ s ∈ w.served, Recent latency w s

/-- Time goes on, and what the sizes were stays known. -/
theorem grows_of_move (hm : Move I w a w') : w.now ≤ w'.now ∧ w.sizes ⊆ w'.sizes := by
  cases hm with
  | tick t ht => exact ⟨ht, List.subset_cons_self _ _⟩
  | command i c rest hi => exact ⟨le_rfl, List.subset_cons_self _ _⟩
  | store i got counted n hv => exact ⟨le_rfl, List.subset_cons_self _ _⟩
  | storeUnreplied i got counted n hv => exact ⟨le_rfl, List.subset_cons_self _ _⟩
  | _ => exact ⟨le_rfl, List.Subset.refl _⟩

theorem Counted.move {m : Time} {n : ℕ} (h : Counted w m n) (hm : Move I w a w') : Counted w' m n :=
  ⟨(grows_of_move hm).2 h.size, h.past.trans (grows_of_move hm).1⟩

theorem tracks_move {p : PageView} (h : Tracks w p) (hm : Move I w a w') : Tracks w' p := by
  cases p with
  | asking => trivial
  | counting got => exact h.trans (grows_of_move hm).1
  | storing got counted n => exact ⟨h.1, h.2.move hm⟩

theorem Recent.move {latency : Time} {s : Served} (h : Recent latency w s) (hm : Move I w a w') :
    Recent latency w' s := by
  obtain ⟨m, n, hsize, hgot, hret, hans⟩ := h
  exact ⟨m, n, (grows_of_move hm).2 hsize, hgot, hret, hans⟩

theorem current_move (h : (w.now, indexSize w.store) ∈ w.sizes) (hm : Move I w a w') :
    (w'.now, indexSize w'.store) ∈ w'.sizes := by
  cases hm with
  | tick t ht => exact List.mem_cons_self
  | command i c rest hi => exact List.mem_cons_self
  | store i got counted n hv => exact List.mem_cons_self
  | storeUnreplied i got counted n hv => exact List.mem_cons_self
  | _ => exact h

theorem views_move {latency : Time} (h : CountsRecent I latency w) (hm : Move I w a w') :
    ∀ p ∈ w'.views, Tracks w' p := by
  have hold : ∀ p ∈ w.views, Tracks w' p := fun p hp => tracks_move (h.views p hp) hm
  cases hm with
  | view =>
    intro p hp
    rcases List.mem_append.mp hp with hp | hp
    · exact hold p hp
    · obtain rfl := List.mem_singleton.mp hp
      trivial
  | miss i hv hc =>
    intro p hp
    rcases List.mem_or_eq_of_mem_set hp with hp | rfl
    · exact hold p hp
    · exact le_rfl
  | count i got n hv hn =>
    intro p hp
    rcases List.mem_or_eq_of_mem_set hp with hp | rfl
    · exact hold p hp
    · rw [h.sound.calculateActualCount] at hn
      cases hn
      exact ⟨h.views _ (List.mem_of_getElem? hv), h.current, le_rfl⟩
  | hit i answer hv hc => exact fun p hp => hold p (List.mem_of_mem_eraseIdx hp)
  | uncountable i got e hv hn => exact fun p hp => hold p (List.mem_of_mem_eraseIdx hp)
  | store i got counted n hv => exact fun p hp => hold p (List.mem_of_mem_eraseIdx hp)
  | storeUnreplied i got counted n hv => exact fun p hp => hold p (List.mem_of_mem_eraseIdx hp)
  | fail i hi => exact fun p hp => hold p (List.mem_of_mem_eraseIdx hp)
  | _ => exact hold

/-- The entry that a page leaves. -/
theorem lookup_cacheCommand (n : ℕ) (now : Time) (σ : Store) :
    ((CachedSystemCount.command n).apply now σ).lookup cacheKey =
      some ⟨.str (Decimal.text n), some (now + systemCountCacheDuration)⟩ := by
  rw [cacheCommand_eq, lookup_apply]
  exact if_pos (List.mem_singleton_self _)

theorem cache_move {latency : Time} (h : CountsRecent I latency w) (hp : punctual latency w a = true)
    (hm : Move I w a w') : CacheFresh latency w' := by
  -- an entry that a move leaves alone is as recent after it, unless time passes
  have hkeep : w'.now = w.now → w'.store.lookup cacheKey = w.store.lookup cacheKey → CacheFresh latency w' := by
    intro hnow hsame e he
    obtain ⟨m, n, d, hc, hval, hd, hle⟩ := h.cache e (hsame ▸ he)
    exact ⟨m, n, d, hc.move hm, hval, hnow ▸ hd, hle⟩
  have hset : ∀ {i : ℕ} {got counted : Time} {n : ℕ}, w.views[i]? = some (.storing got counted n) →
      w.now ≤ counted + latency → w'.now = w.now →
      w'.store.lookup cacheKey = some ⟨.str (Decimal.text n), some (w.now + systemCountCacheDuration)⟩ →
      CacheFresh latency w' := by
    intro i got counted n hv hle hnow hstored e he
    rw [hstored] at he
    obtain rfl := Option.some.inj he
    have hc := (h.views _ (List.mem_of_getElem? hv)).2
    refine ⟨counted, n, w.now + systemCountCacheDuration, hc.move hm, rfl, ?_, ?_⟩
    · rw [hnow]
      exact Nat.le_add_right _ _
    · exact Nat.add_le_add_right hle _
  cases hm with
  | tick t ht =>
    intro e he
    have hdead : ∀ {d}, e.expiry = some d → t ≤ d := by
      intro d hd
      refine (deadline_purge (σ := w.store) (k := cacheKey) (t := t) ?_).2
      change (w.store.purge t).lookup cacheKey = some e at he
      rw [Store.deadline, he]
      exact hd
    have hold : w.store.lookup cacheKey = some e := by
      change (w.store.purge t).lookup cacheKey = some e at he
      rw [← lookup_purge_of_isSome (t := t) (by rw [Store.val, he]; rfl)]
      exact he
    obtain ⟨m, n, d, hc, rfl, hd, hle⟩ := h.cache e hold
    exact ⟨m, n, d, hc.move (I := I) (.tick t ht), rfl, hdead rfl, hle⟩
  | command i c rest hi =>
    refine hkeep rfl ?_
    change (c.apply w.now w.store).lookup cacheKey = _
    rw [lookup_apply, if_neg (h.others.next hi)]
  | store i got counted n hv =>
    simp only [punctual, hv, decide_eq_true_eq] at hp
    exact hset hv hp rfl (lookup_cacheCommand n _ _)
  | storeUnreplied i got counted n hv =>
    simp only [punctual, hv, decide_eq_true_eq] at hp
    exact hset hv hp rfl (lookup_cacheCommand n _ _)
  | _ => exact hkeep rfl rfl

theorem parseInt_text {n : ℕ} (h : n < 2 ^ 63) : parseInt 64 (Decimal.text n) = .ok n := by
  unfold parseInt
  rw [Decimal.ofText_text]
  exact if_pos (by omega)

theorem served_move {latency : Time} (h : CountsRecent I latency w) (hm : Move I w a w') :
    ∀ s ∈ w'.served, Recent latency w' s := by
  have hold : ∀ s ∈ w.served, Recent latency w' s := fun s hs => (h.served s hs).move hm
  cases hm with
  | hit i answer hv hc =>
    refine List.forall_mem_cons.mpr ⟨?_, hold⟩
    obtain ⟨v, hval, rfl⟩ := h.sound.cached hc
    obtain ⟨e, he, hev⟩ := Option.map_eq_some_iff.mp hval
    obtain ⟨m, n, d, hcount, rfl, hd, hle⟩ := h.cache e he
    cases hev
    exact ⟨m, n, hcount.size, hd.trans hle, hcount.past, parseInt_text⟩
  | uncountable i got e hv hn =>
    rw [h.sound.calculateActualCount] at hn
    cases hn
  | store i got counted n hv =>
    refine List.forall_mem_cons.mpr ⟨?_, hold⟩
    obtain ⟨hgot, hcount⟩ := h.views _ (List.mem_of_getElem? hv)
    refine ⟨counted, n, List.mem_cons_of_mem _ hcount.size, ?_, hcount.past, fun _ => rfl⟩
    exact hgot.trans ((Nat.le_add_right _ _).trans (Nat.le_add_right _ _))
  | _ => exact hold

theorem countsRecent_reaches {latency now : Time}
    (h : Runs.Reaches (step I) (fun w a => punctual latency w a = true) (initial now) w) : CountsRecent I latency w := by
  refine h.invariant ?_ fun w a w' hw hp hs => ?_
  · refine ⟨sound_initial now, ?_, List.mem_cons_self, ?_, fun e he => ?_, ?_⟩
    · simp [InFlight, initial]
    · simp [initial]
    · cases he
    · simp [initial]
  · have hm := move_of_step hs
    exact ⟨hw.sound.move hm, hw.others.move hm fun j _ c hc => cacheKey_notMem hc, current_move hw.current hm,
      views_move hw hm, cache_move hw hp hm, served_move hw hm⟩

/-- However many pages share the cached count, and whatever happens to the index meanwhile, a page is answered
with a size the index had: at most a minute, and the time a page takes from its count to its SET, before it
asked. -/
theorem served_count_is_recent {latency now : Time}
    (h : Runs.Reaches (step I) (fun w a => punctual latency w a = true) (initial now) w) {s : Served} (hs : s ∈ w.served) :
    ∃ m n, (m, n) ∈ w.sizes ∧ s.got ≤ m + latency + systemCountCacheDuration ∧ m ≤ s.returned ∧
      (n < 2 ^ 63 → s.answer = .ok n) :=
  (countsRecent_reaches h).served s hs

/-- Two pages: one counts while the index is empty, the other is answered from its cache half a minute and one
docking later. -/
def twoPages : List PlatformAction :=
  [.view, .get 0, .count 0, .store 0 true,
    .submit (.record (.stationDocking (lit "Sol") (lit "Abraham Lincoln") (lit "Orbis") .minValue)),
    .command 0, .command 0, .command 0, .command 0, .command 0, .command 0, .tick 30000, .view, .get 0]

theorem twoPages_recent : ∃ w s, Runs.Reaches (step asciiCasing) (fun w a => punctual 0 w a = true) (initial 0) w ∧
    s ∈ w.served ∧ ∃ m n, (m, n) ∈ w.sizes ∧ s.got ≤ m + 0 + systemCountCacheDuration ∧ m ≤ s.returned ∧
      (n < 2 ^ 63 → s.answer = .ok n) := by
  have hrun : ((Runs.runIf (step asciiCasing) (fun w a => punctual 0 w a = true) twoPages (initial 0)).bind
      fun w => w.served.head?).isSome = true := by decide +kernel
  obtain ⟨s, hs⟩ := Option.isSome_iff_exists.mp hrun
  obtain ⟨w, hw, hs⟩ := Option.bind_eq_some_iff.mp hs
  have hreach := Runs.reaches_runIf .refl hw
  exact ⟨w, s, hreach, List.mem_of_head? hs, served_count_is_recent hreach (List.mem_of_head? hs)⟩

end Platform

end EliteEvents

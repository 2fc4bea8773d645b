import EliteEvents.Proofs.SelfCleaning

/-! What `RedisHealthCheck` calls data: the keys of dockings, and nothing else that the clients leave on the
server. A docking keeps the probe healthy until its keys lapse, and only dockings do. -/

namespace EliteEvents

open Text Redis RedisKeys

/-- The keys of dockings: those of stations and of carriers. -/
def IsDockingKey (k : Str) : Prop := ∃ (e : Entity) (κ : Catalog) (s : UpperName), e.name κ = some s ∧ k = wire e.key

theorem systemPattern_iff {k : Str} (hk : WellFormed k) :
    globMatch (lit "system:*") k = true ↔ ∃ cs, k = lit "system:" ++ ofChars cs := by
  have h := @globMatch_iff (lit "system:*") "system:".toList [] (by decide) (by decide) (by decide) (by decide) _ hk
  simp only [show ofChars [] = [] from rfl, List.append_nil] at h
  exact h

theorem carrierPattern_iff {k : Str} (hk : WellFormed k) :
    globMatch (lit "carrier:*") k = true ↔ ∃ cs, k = lit "carrier:" ++ ofChars cs := by
  have h := @globMatch_iff (lit "carrier:*") "carrier:".toList [] (by decide) (by decide) (by decide) (by decide) _ hk
  simp only [show ofChars [] = [] from rfl, List.append_nil] at h
  exact h

/-- A key of the schema matches one of the patterns if it belongs to a docking. -/
theorem dataKeyPatterns_iff (e : Entity) : (∃ pattern ∈ dataKeyPatterns, globMatch pattern (wire e.key) = true) ↔
    ∃ κ s, e.name κ = some s := by
  have hw : WellFormed (wire e.key) := wellFormed_wire _
  simp only [dataKeyPatterns, List.mem_cons, List.not_mem_nil, or_false, exists_eq_or_imp, exists_eq_left,
    systemPattern_iff hw, carrierPattern_iff hw]
  constructor
  · have htag := take_wire_key e
    rintro (⟨cs, hk⟩ | ⟨cs, hk⟩) <;> rw [hk] at htag
    · have ht : e.tag = lit "system:" := htag.symm
      cases e <;> simp only [Entity.tag] at ht <;> first | exact ⟨.system, _, rfl⟩ | exact absurd ht (by decide)
    · have ht : e.tag = lit "carrier" := htag.symm
      cases e <;> simp only [Entity.tag] at ht <;> first | exact ⟨.carrier, _, rfl⟩ | exact absurd ht (by decide)
  · rintro ⟨κ, s, hs⟩
    cases e with
    | station s' x => exact .inl ⟨_, wire_plain_append (l := lit "system:") (by decide) _⟩
    | systemStations s' => exact .inl ⟨_, wire_plain_append (l := lit "system:") (by decide) _⟩
    | carrierDaily c d => exact .inr ⟨_, wire_plain_append (l := lit "carrier:") (by decide) _⟩
    | carrierDays c => exact .inr ⟨_, wire_plain_append (l := lit "carrier:") (by decide) _⟩
    | _ => cases κ <;> cases hs

theorem isSome_name_encode (κ : Catalog) (e : Entity) : (e.encode.name κ).isSome = (e.name κ).isSome := by
  cases κ <;> cases e <;> rfl

/-- On a server that only the clients write to, the probe is healthy if the key of some docking is there. -/
theorem checkRedis_eq_healthy {σ : Store} (h : Typed σ) :
    checkRedis σ = .healthy ↔ ∃ k, IsDockingKey k ∧ (σ.lookup k).isSome := by
  have hif : checkRedis σ = .healthy ↔
      ∃ k, (∃ pattern ∈ dataKeyPatterns, globMatch pattern k = true) ∧ k ∈ σ.keys := by
    unfold checkRedis
    split_ifs with hany
    · simp only [List.any_eq_true] at hany
      obtain ⟨pattern, hp, k, hk, hg⟩ := hany
      exact ⟨fun _ => ⟨k, ⟨pattern, hp, hg⟩, hk⟩, fun _ => rfl⟩
    · simp only [List.any_eq_true] at hany
      exact ⟨fun hh => (by cases hh), fun ⟨k, ⟨pattern, hp, hg⟩, hk⟩ => absurd ⟨pattern, hp, k, hk, hg⟩ hany⟩
  rw [hif]
  refine exists_congr fun k => ?_
  rw [AList.lookup_isSome, AList.mem_keys]
  refine and_congr_left fun hk => ?_
  obtain ⟨x, hx⟩ := Option.isSome_iff_exists.mp (AList.lookup_isSome.mpr hk)
  obtain ⟨e, rfl, -⟩ := h k x.val (by rw [Store.val, hx]; rfl)
  rw [dataKeyPatterns_iff]
  constructor
  · rintro ⟨κ, s, hs⟩
    exact ⟨e, κ, s, hs, rfl⟩
  · rintro ⟨e', κ, s, hs, hk'⟩
    refine ⟨κ, Option.isSome_iff_exists.mp ?_⟩
    rw [← isSome_name_encode, encode_eq_of_wire_key hk', isSome_name_encode, hs]
    rfl

theorem IsDockingKey.ne {k : Str} (h : IsDockingKey k) {e : Entity} (he : ∀ κ, e.name κ = none) :
    k ≠ wire e.key := by
  rintro rfl
  obtain ⟨e', κ, s, hs, hk⟩ := h
  have hname := isSome_name_encode κ e
  rw [encode_eq_of_wire_key hk, isSome_name_encode, hs, he κ] at hname
  cases hname

theorem IsDockingKey.notMem_cache {k : Str} (h : IsDockingKey k) (n : ℕ) :
    k ∉ (CachedSystemCount.command n).keys := by
  rw [cacheCommand_eq]
  exact fun hmem => h.ne (e := .systemCountCache) (by simp [Entity.name]) (List.mem_singleton.mp hmem)

/-- The jobs that record a docking. -/
def ClientJob.isDocking : ClientJob → Bool
  | .record (.stationDocking _ _ _ _) | .record (.fleetCarrierDocking _ _) => true
  | _ => false

/-- Only a docking touches the keys of dockings. -/
theorem isDocking_of_mem_keys {I : Casing} {now : Time} {j : ClientJob} {c : Cmd} (hc : c ∈ j.commands I now)
    {k : Str} (hd : IsDockingKey k) (hk : k ∈ c.keys) : j.isDocking = true := by
  obtain ⟨e, κ, s, hs, rfl⟩ := hd
  obtain ⟨e', he, ht⟩ := touches_of_mem_keys hc hk
  have hname : (e'.name κ).isSome = true := by
    rw [← isSome_name_encode, ← encode_eq_of_wire_key he, isSome_name_encode, hs]
    rfl
  cases j with
  | record call =>
    cases call with
    | systemVisit s => cases e' <;> cases ht; cases κ <;> cases hname
    | _ => rfl
  | heartbeat ms => cases e' <;> cases ht; cases κ <;> cases hname
  | rebuild κ' indexed live => cases κ' <;> cases e' <;> cases ht <;> cases κ <;> cases hname
  | purge => cases e' <;> cases ht <;> cases κ <;> cases hname

/-- What a command does to the key of a docking, if it names one. -/
def KeepsData (c : Cmd) : Prop := ∀ k, IsDockingKey k → k ∈ c.keys →
  c = .expire k dataExpiration ∨ c.target = some k ∧ c.Nonvoid

theorem keepsData_commands {I : Casing} {now : Time} (j : ClientJob) {c : Cmd} (hc : c ∈ j.commands I now) :
    KeepsData c := by
  intro k hd hk
  have hj := isDocking_of_mem_keys hc hd hk
  cases j with
  | record call =>
    cases call with
    | stationDocking s x y t =>
      simp only [ClientJob.commands, batch_stationDocking, List.mem_cons, List.not_mem_nil, or_false] at hc
      rcases hc with rfl | rfl | rfl | rfl | rfl | rfl <;> rw [List.mem_singleton.mp hk] <;>
        first | exact .inl rfl | exact .inr ⟨rfl, by simp [Cmd.Nonvoid]⟩
    | fleetCarrierDocking cr t =>
      simp only [ClientJob.commands, batch_fleetCarrierDocking, List.mem_cons, List.not_mem_nil, or_false] at hc
      rcases hc with rfl | rfl | rfl | rfl | rfl <;> rw [List.mem_singleton.mp hk] <;>
        first | exact .inl rfl | exact .inr ⟨rfl, by simp [Cmd.Nonvoid]⟩
    | systemVisit s => cases hj
  | _ => cases hj

namespace Platform

variable {I : Casing} {w w' : Platform} {a : PlatformAction} {as bs : List PlatformAction} {now : Time}

theorem run_append {w₁ w₂ : Platform} (h₁ : run I as w = some w₁) (h₂ : run I bs w₁ = some w₂) :
    run I (as ++ bs) w = some w₂ := by
  induction as generalizing w with
  | nil => exact Option.some.inj h₁ ▸ h₂
  | cons a as ih =>
    obtain ⟨v, hv, h₁⟩ := Option.bind_eq_some_iff.mp h₁
    exact Option.bind_eq_some_iff.mpr ⟨v, hv, ih h₁⟩

/-- No deadline lies more than 30 days ahead. -/
structure Bounded (w : Platform) : Prop where
  short : InFlight (ShortLived w.now) w
  deadlines : ∀ k e d, w.store.lookup k = some e → e.expiry = some d → d ≤ w.now + dataExpiration

theorem bounded_apply {c : Cmd} (h : Bounded w) (hc : ShortLived w.now c) {k : Str} {e : Entry} {d : Time}
    (he : (c.apply w.now w.store).lookup k = some e) (hd : e.expiry = some d) : d ≤ w.now + dataExpiration := by
  rcases expiry_of_apply he with ⟨e₀, hl, hx, -⟩ | ⟨-, -, -, -, hx⟩ | ⟨ttl, rfl, hx⟩ | ⟨d', rfl, hx⟩ |
    ⟨v, ttl, rfl, hx⟩
  · exact h.deadlines k e₀ d hl (hx ▸ hd)
  · rw [hx] at hd
    cases hd
  · obtain rfl := Option.some.inj (hx.symm.trans hd)
    exact Nat.add_le_add_left hc _
  · obtain rfl := Option.some.inj (hx.symm.trans hd)
    exact hc
  · obtain ⟨t, rfl, ht⟩ := hc
    obtain rfl := Option.some.inj (hx.symm.trans hd)
    exact Nat.add_le_add_left ht _

theorem Bounded.move (h : Bounded w) (hm : Move I w a w') : Bounded w' := by
  have hcache : ∀ n, ShortLived w.now (CachedSystemCount.command n) := by
    intro n
    rw [cacheCommand_eq]
    exact ⟨systemCountCacheDuration, rfl, by decide⟩
  cases hm with
  | tick t ht =>
    refine ⟨fun cs hcs c hc => (h.short cs hcs c hc).mono ht, fun k e d he hd => ?_⟩
    change (w.store.purge t).lookup k = some e at he
    rw [Store.lookup_purge, Option.filter_eq_some_iff] at he
    exact (h.deadlines k e d he.1 hd).trans (Nat.add_le_add_right ht _)
  | submit j => exact ⟨h.short.move (.submit (I := I) j) fun j' _ c hc => shortLived_commands j' hc, h.deadlines⟩
  | command i c rest hi =>
    refine ⟨h.short.move (.command (I := I) i c rest hi) fun j hj => ?_, fun k e d he hd =>
      bounded_apply h (h.short.next hi) he hd⟩
    cases hj
  | cut i hi =>
    refine ⟨h.short.move (.cut (I := I) i hi) fun j hj => ?_, h.deadlines⟩
    cases hj
  | store i got counted n hv => exact ⟨h.short, fun k e d he hd => bounded_apply h (hcache n) he hd⟩
  | storeUnreplied i got counted n hv => exact ⟨h.short, fun k e d he hd => bounded_apply h (hcache n) he hd⟩
  | _ => exact ⟨h.short, h.deadlines⟩

/-- Until `d`, the key `k` of a docking is there, and lapses no sooner. -/
structure StaysUntil (I : Casing) (k : Str) (d : Time) (w : Platform) : Prop where
  sound : Sound I w
  keeps : InFlight KeepsData w
  ahead : d ≤ w.now + dataExpiration
  entry : w.now ≤ d → ∃ e, w.store.lookup k = some e ∧ ∀ d', e.expiry = some d' → d ≤ d'

theorem entry_apply {k : Str} {d : Time} {c : Cmd} (h : StaysUntil I k d w) (hk : IsDockingKey k)
    (hc : Issued I c) (hkeep : KeepsData c) (hnow : w.now ≤ d) :
    ∃ e, (c.apply w.now w.store).lookup k = some e ∧ ∀ d', e.expiry = some d' → d ≤ d' := by
  obtain ⟨e, he, hd⟩ := h.entry hnow
  by_cases hmem : k ∈ c.keys
  · rcases hkeep k hk hmem with rfl | ⟨ht, hv⟩
    · refine ⟨{ e with expiry := some (w.now + dataExpiration) }, ?_, ?_⟩
      · rw [lookup_apply, if_pos hmem, he]
        rfl
      · rintro d' ⟨⟩
        exact h.ahead
    · obtain ⟨v, hne, hput⟩ := put_of_run (hc.apply h.sound.typed w.now).1 ht hv
      refine ⟨⟨v, e.expiry⟩, ?_, hd⟩
      rw [hput, lookup_put, if_pos rfl, he, hne]
      rfl
  · refine ⟨e, ?_, hd⟩
    rw [lookup_apply, if_neg hmem, he]

theorem StaysUntil.move {k : Str} {d : Time} (h : StaysUntil I k d w) (hk : IsDockingKey k) (hm : Move I w a w') :
    StaysUntil I k d w' := by
  have hkeeps := h.keeps.move hm fun j _ c hc => keepsData_commands j hc
  have hsound := h.sound.move hm
  have hcache : ∀ n, KeepsData (CachedSystemCount.command n) := fun n k hk hmem => absurd hmem (hk.notMem_cache n)
  cases hm with
  | tick t ht =>
    refine ⟨hsound, hkeeps, h.ahead.trans (Nat.add_le_add_right ht _), fun htd => ?_⟩
    obtain ⟨e, he, hd⟩ := h.entry (ht.trans htd)
    refine ⟨e, ?_, hd⟩
    change (w.store.purge t).lookup k = some e
    rw [lookup_purge_of_deadline, he]
    intro d' hd'
    rw [Store.deadline, he] at hd'
    exact htd.trans (hd d' hd')
  | command i c rest hi =>
    exact ⟨hsound, hkeeps, h.ahead, entry_apply h hk (h.sound.issued.next hi) (h.keeps.next hi)⟩
  | store i got counted n hv => exact ⟨hsound, hkeeps, h.ahead, entry_apply h hk (.cache n) (hcache n)⟩
  | storeUnreplied i got counted n hv => exact ⟨hsound, hkeeps, h.ahead, entry_apply h hk (.cache n) (hcache n)⟩
  | _ => exact ⟨hsound, hkeeps, h.ahead, h.entry⟩

/-- The key of a docking keeps the probe healthy until the deadline it has now, whatever the clients do meanwhile
and whatever connections fail. -/
theorem docking_keeps_ready {k : Str} {d : Time} (h : run I as (initial now) = some w) (hk : IsDockingKey k)
    (hd : w.store.deadline k = some d) (h' : run I bs w = some w') (ht : w'.now ≤ d) :
    checkRedis w'.store = .healthy := by
  have hw : Bounded w ∧ InFlight KeepsData w := by
    refine run_invariant (P := fun w => Bounded w ∧ InFlight KeepsData w)
      (fun w a w' hw hm => ⟨hw.1.move hm, hw.2.move hm fun j _ c hc => keepsData_commands j hc⟩) h
      ⟨⟨?_, fun k e d he _ => ?_⟩, ?_⟩
    · simp [InFlight, initial]
    · cases he
    · simp [InFlight, initial]
  obtain ⟨e, he, hx⟩ := Option.bind_eq_some_iff.mp hd
  have hstart : StaysUntil I k d w := by
    refine ⟨(sound_initial now).run h, hw.2, hw.1.deadlines k e d he hx, fun _ => ⟨e, he, fun d' hd' => ?_⟩⟩
    rw [hx] at hd'
    exact (Option.some.inj hd').le
  have hend := run_invariant (fun _ _ _ hs hm => StaysUntil.move hs hk hm) h' hstart
  obtain ⟨e', he', -⟩ := hend.entry ht
  exact (checkRedis_eq_healthy hend.sound.typed).mpr ⟨k, hk, by rw [he']; rfl⟩

/-- A month to the millisecond after one docking, with the rest of its batch lost and the feed drained. -/
theorem ready_a_month_after_docking : ∃ w w',
    run asciiCasing [.submit (.record (.fleetCarrierDocking (lit "K7Q-BQL") .minValue)), .command 0, .command 0]
      (initial 0) = some w ∧
    run asciiCasing [.cut 0, .submit .purge, .command 0, .tick 2592000000] w = some w' ∧
      checkRedis w'.store = .healthy := by
  have hrun : (run asciiCasing [.submit (.record (.fleetCarrierDocking (lit "K7Q-BQL") .minValue)), .command 0,
      .command 0] (initial 0)).any (fun w => decide (w.store.deadline (wire (Entity.carrierDaily
        (asciiCasing.upper (lit "K7Q-BQL")) DateTimeOffset.minValue.date).key) = some 2592000000)) = true := by
    decide +kernel
  have hmore : ((run asciiCasing [.submit (.record (.fleetCarrierDocking (lit "K7Q-BQL") .minValue)), .command 0,
      .command 0] (initial 0)).bind (run asciiCasing [.cut 0, .submit .purge, .command 0, .tick 2592000000])).any
        (fun w => decide (w.now = 2592000000)) = true := by decide +kernel
  obtain ⟨w, hw, hd⟩ := Option.any_eq_true _ _ |>.mp hrun
  obtain ⟨w', hw', hnow⟩ := Option.any_eq_true _ _ |>.mp hmore
  rw [hw, Option.bind_some] at hw'
  rw [decide_eq_true_eq] at hd hnow
  exact ⟨w, w', hw, hw', docking_keeps_ready hw ⟨_, .carrier, _, rfl, rfl⟩ hd hw' hnow.le⟩

end Platform

end EliteEvents

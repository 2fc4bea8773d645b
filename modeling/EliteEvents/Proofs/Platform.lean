import EliteEvents.Lib.RedisFrame
import EliteEvents.Proofs.Catalog
import EliteEvents.Spec.Platform

/-! All clients at once on one keyspace: every command that is ever in flight has the type its key calls for, so
none of them can fail there, whoever else is at work. -/

namespace EliteEvents

open Text Redis RedisKeys

/-- The commands of the clients, by what each one is for. -/
inductive Issued (I : Casing) : Cmd → Prop
  | sends {c : Cmd} (call : WriterCall) (h : Sends I call c) : Issued I c
  | heartbeat (v : Str) (ttl : Time) : Issued I (.set (wire Entity.eddnHeartbeat.key) v (some ttl))
  | cache (n : ℕ) : Issued I (CachedSystemCount.command n)
  | indexAdd (κ : Catalog) (es : List (Str × ℤ)) : Issued I (.zadd (wire κ.indexEntity.key) es)
  | indexRemove (κ : Catalog) (ms : List Str) : Issued I (.zrem (wire κ.indexEntity.key) ms)
  | purge : Issued I SearchIndexPurger.command

theorem wire_purged : SearchIndexPurger.keys.map wire =
    [wire Entity.systemIndex.key, wire Entity.carrierIndex.key, wire Entity.eddnHeartbeat.key] := rfl

theorem cacheCommand_eq (n : ℕ) : CachedSystemCount.command n =
    .set (wire Entity.systemCountCache.key) (Decimal.text n) (some systemCountCacheDuration) := by
  rw [CachedSystemCount.command, Cmd.encode, Decimal.wire_text]
  rfl

theorem heartbeatCommand_eq (ms : ℤ) : StreamHeartbeat.command ms =
    .set (wire Entity.eddnHeartbeat.key) (Decimal.text ms) (some heartbeatExpiration) := by
  rw [StreamHeartbeat.command, Cmd.encode, Decimal.wire_text]
  rfl

theorem issued_of_mem_commands {I : Casing} {now : Time} {j : ClientJob} {c : Cmd} (hc : c ∈ j.commands I now) :
    Issued I c := by
  cases j with
  | record call => exact .sends call (sends_of_mem_batch hc)
  | heartbeat ms =>
    obtain rfl := List.mem_singleton.mp hc
    rw [heartbeatCommand_eq]
    exact .heartbeat _ _
  | rebuild κ indexed live =>
    rcases mem_writes hc with ⟨names, rfl, -⟩ | ⟨names, rfl, -⟩ <;> rw [← wire_index]
    · exact .indexAdd κ _
    · exact .indexRemove κ _
  | purge =>
    obtain rfl := List.mem_singleton.mp hc
    exact .purge

/-- The entities whose keys a job names. -/
def ClientJob.touches : ClientJob → Entity → Bool
  | .record (.stationDocking _ _ _ _), .station _ _
  | .record (.stationDocking _ _ _ _), .systemStations _
  | .record (.stationDocking _ _ _ _), .systemIndex
  | .record (.fleetCarrierDocking _ _), .carrierDaily _ _
  | .record (.fleetCarrierDocking _ _), .carrierDays _
  | .record (.fleetCarrierDocking _ _), .carrierIndex
  | .record (.systemVisit _), .systemVisits
  | .heartbeat _, .eddnHeartbeat
  | .rebuild .system _ _, .systemIndex
  | .rebuild .carrier _ _, .carrierIndex
  | .purge, .systemIndex | .purge, .carrierIndex | .purge, .eddnHeartbeat => true
  | _, _ => false

theorem touches_of_mem_keys {I : Casing} {now : Time} {j : ClientJob} {c : Cmd} (hc : c ∈ j.commands I now)
    {k : Str} (hk : k ∈ c.keys) : ∃ e : Entity, k = wire e.key ∧ j.touches e := by
  cases j with
  | record call =>
    cases call with
    | stationDocking s x y t =>
      simp only [ClientJob.commands, batch_stationDocking, List.mem_cons, List.not_mem_nil, or_false] at hc
      rcases hc with rfl | rfl | rfl | rfl | rfl | rfl <;> obtain rfl := List.mem_singleton.mp hk
      · exact ⟨.station (I.upper s) x, rfl, rfl⟩
      · exact ⟨.station (I.upper s) x, rfl, rfl⟩
      · exact ⟨.station (I.upper s) x, rfl, rfl⟩
      · exact ⟨.systemStations (I.upper s), rfl, rfl⟩
      · exact ⟨.systemStations (I.upper s), rfl, rfl⟩
      · exact ⟨.systemIndex, rfl, rfl⟩
    | fleetCarrierDocking cr t =>
      simp only [ClientJob.commands, batch_fleetCarrierDocking, List.mem_cons, List.not_mem_nil, or_false] at hc
      rcases hc with rfl | rfl | rfl | rfl | rfl <;> obtain rfl := List.mem_singleton.mp hk
      · exact ⟨.carrierDaily (I.upper cr) t.date, rfl, rfl⟩
      · exact ⟨.carrierDaily (I.upper cr) t.date, rfl, rfl⟩
      · exact ⟨.carrierDays (I.upper cr), rfl, rfl⟩
      · exact ⟨.carrierDays (I.upper cr), rfl, rfl⟩
      · exact ⟨.carrierIndex, rfl, rfl⟩
    | systemVisit s =>
      simp only [ClientJob.commands, DockingWriter.batch, DockingWriter.recordSystemVisit, List.map_cons,
        List.map_nil, List.mem_cons, List.not_mem_nil, or_false] at hc
      rcases hc with rfl | rfl <;> obtain rfl := List.mem_singleton.mp hk <;> exact ⟨.systemVisits, rfl, rfl⟩
  | heartbeat ms =>
    obtain rfl := List.mem_singleton.mp hc
    obtain rfl := List.mem_singleton.mp hk
    exact ⟨.eddnHeartbeat, rfl, rfl⟩
  | rebuild κ indexed live =>
    refine ⟨κ.indexEntity, ?_, by cases κ <;> rfl⟩
    rw [wire_index]
    rcases mem_writes hc with ⟨names, rfl, -⟩ | ⟨names, rfl, -⟩ <;> exact List.mem_singleton.mp hk
  | purge =>
    obtain rfl := List.mem_singleton.mp hc
    change k ∈ SearchIndexPurger.keys.map wire at hk
    rw [wire_purged] at hk
    simp only [List.mem_cons, List.not_mem_nil, or_false] at hk
    rcases hk with rfl | rfl | rfl
    · exact ⟨.systemIndex, rfl, rfl⟩
    · exact ⟨.carrierIndex, rfl, rfl⟩
    · exact ⟨.eddnHeartbeat, rfl, rfl⟩

theorem Typed.insert_str {σ : Store} (h : Typed σ) {e : Entity} (he : ∀ s, e.Admits (.str s)) (s : Str)
    (d : Option Time) : Typed (σ.insert (wire e.key) ⟨.str s, d⟩) := by
  intro k v hk
  rw [Store.val, lookup_insert] at hk
  split_ifs at hk with hke
  · cases hk
    exact ⟨e, hke.symm, he s⟩
  · exact h k v hk

/-- On a typed store a client's command succeeds and leaves a typed store. -/
theorem Issued.apply {I : Casing} {c : Cmd} (hc : Issued I c) {σ : Store} (h : Typed σ) (now : Time) :
    c.run now σ = .ok (c.apply now σ) ∧ Typed (c.apply now σ) := by
  cases hc with
  | sends call hs => exact hs.schematic.apply h now
  | heartbeat v ttl => exact ⟨rfl, h.insert_str (e := .eddnHeartbeat) (fun s => ⟨s, rfl⟩) v _⟩
  | cache n =>
    rw [cacheCommand_eq]
    exact ⟨rfl, h.insert_str (e := .systemCountCache) (fun s => ⟨s, rfl⟩) _ _⟩
  | indexAdd κ es => exact (Schematic.zadd κ.indexEntity es (indexEntity_isSortedSet κ)).apply h now
  | indexRemove κ ms => exact (Schematic.zrem κ.indexEntity ms (indexEntity_isSortedSet κ)).apply h now
  | purge =>
    refine ⟨rfl, h.of_val fun k v hv => ?_⟩
    rw [Store.val, lookup_apply] at hv
    split_ifs at hv
    · cases hv
    · exact hv

namespace Platform

variable {I : Casing} {w w' : Platform} {a : PlatformAction} {as : List PlatformAction}

/-- Everything a step can do. -/
inductive Move (I : Casing) (w : Platform) : PlatformAction → Platform → Prop
  | tick (t : Time) (h : w.now ≤ t) : Move I w (.tick t) ({ w with now := t }.setStore (w.store.purge t))
  | submit (j : ClientJob) : Move I w (.submit j) { w with jobs := w.jobs ++ [j.commands I w.now] }
  | command (i : ℕ) (c : Cmd) (rest : List Cmd) (h : w.jobs[i]? = some (c :: rest)) :
      Move I w (.command i) ({ w with jobs := w.jobs.set i rest }.setStore (c.apply w.now w.store))
  | cut (i : ℕ) (h : i < w.jobs.length) : Move I w (.cut i) { w with jobs := w.jobs.eraseIdx i }
  | view : Move I w .view { w with views := w.views ++ [.asking] }
  | miss (i : ℕ) (h : w.views[i]? = some .asking) (hc : CachedSystemCount.cached w.store = none) :
      Move I w (.get i) { w with views := w.views.set i (.counting w.now) }
  | hit (i : ℕ) (answer : Except ReadError ℤ) (h : w.views[i]? = some .asking)
      (hc : CachedSystemCount.cached w.store = some answer) : Move I w (.get i) (w.finish i w.now answer)
  | count (i : ℕ) (got : Time) (n : ℕ) (h : w.views[i]? = some (.counting got))
      (hn : CachedSystemCount.calculateActualCount w.store = .ok n) :
      Move I w (.count i) { w with views := w.views.set i (.storing got w.now n) }
  | uncountable (i : ℕ) (got : Time) (e : ReadError) (h : w.views[i]? = some (.counting got))
      (hn : CachedSystemCount.calculateActualCount w.store = .error e) :
      Move I w (.count i) (w.finish i got (.error e))
  | store (i : ℕ) (got counted : Time) (n : ℕ) (h : w.views[i]? = some (.storing got counted n)) :
      Move I w (.store i true)
        ((w.setStore ((CachedSystemCount.command n).apply w.now w.store)).finish i got (.ok n))
  | storeUnreplied (i : ℕ) (got counted : Time) (n : ℕ) (h : w.views[i]? = some (.storing got counted n)) :
      Move I w (.store i false)
        { w.setStore ((CachedSystemCount.command n).apply w.now w.store) with views := w.views.eraseIdx i }
  | fail (i : ℕ) (h : i < w.views.length) : Move I w (.fail i) { w with views := w.views.eraseIdx i }

theorem move_of_step (h : w.step I a = some w') : Move I w a w' := by
  cases a with
  | tick t =>
    simp only [step] at h
    split_ifs at h with ht
    exact Option.some.inj h ▸ .tick t ht
  | submit j => exact Option.some.inj h ▸ .submit j
  | command i =>
    simp only [step] at h
    split at h
    · rename_i c rest hj
      exact Option.some.inj h ▸ .command i c rest hj
    · cases h
  | cut i =>
    simp only [step] at h
    split_ifs at h with hi
    exact Option.some.inj h ▸ .cut i hi
  | view => exact Option.some.inj h ▸ .view
  | get i =>
    simp only [step] at h
    split at h
    · rename_i hv
      split at h
      · rename_i hc
        exact Option.some.inj h ▸ .miss i hv hc
      · rename_i answer hc
        exact Option.some.inj h ▸ .hit i answer hv hc
    · cases h
  | count i =>
    simp only [step] at h
    split at h
    · rename_i got hv
      split at h
      · rename_i n hn
        exact Option.some.inj h ▸ .count i got n hv hn
      · rename_i e hn
        exact Option.some.inj h ▸ .uncountable i got e hv hn
    · cases h
  | store i replied =>
    simp only [step] at h
    split at h
    · rename_i got counted n hv
      cases replied with
      | true => exact Option.some.inj h ▸ .store i got counted n hv
      | false => exact Option.some.inj h ▸ .storeUnreplied i got counted n hv
    · cases h
  | fail i =>
    simp only [step] at h
    split_ifs at h with hi
    exact Option.some.inj h ▸ .fail i hi

/-- What holds at the start and is kept by every move holds after a run. -/
theorem run_invariant {P : Platform → Prop} (hstep : ∀ w a w', P w → Move I w a w' → P w')
    (h : run I as w = some w') (hw : P w) : P w' := by
  induction as generalizing w with
  | nil => exact Option.some.inj h ▸ hw
  | cons a as ih =>
    obtain ⟨w₁, h₁, h⟩ := Option.bind_eq_some_iff.mp h
    exact ih h (hstep w a w₁ hw (move_of_step h₁))

/-- All commands in flight are of a kind. -/
def InFlight (P : Cmd → Prop) (w : Platform) : Prop := ∀ cs ∈ w.jobs, ∀ c ∈ cs, P c

theorem InFlight.move {P : Cmd → Prop} (h : InFlight P w) (hm : Move I w a w')
    (hj : ∀ j, a = .submit j → ∀ c ∈ j.commands I w.now, P c) : InFlight P w' := by
  cases hm with
  | submit j =>
    intro cs hcs c hc
    rcases List.mem_append.mp hcs with hcs | hcs
    · exact h cs hcs c hc
    · obtain rfl := List.mem_singleton.mp hcs
      exact hj j rfl c hc
  | command i c rest hi =>
    intro cs hcs d hd
    rcases List.mem_or_eq_of_mem_set hcs with hcs | rfl
    · exact h cs hcs d hd
    · exact h _ (List.mem_of_getElem? hi) d (List.mem_cons_of_mem c hd)
  | cut i hi => exact fun cs hcs => h cs (List.mem_of_mem_eraseIdx hcs)
  | _ => exact h

theorem InFlight.next {P : Cmd → Prop} (h : InFlight P w) {i : ℕ} {c : Cmd} {rest : List Cmd}
    (hi : w.jobs[i]? = some (c :: rest)) : P c := h _ (List.mem_of_getElem? hi) c List.mem_cons_self

/-- What is in flight belongs to the clients, and the keyspace is typed. -/
structure Sound (I : Casing) (w : Platform) : Prop where
  typed : Typed w.store
  issued : InFlight (Issued I) w

theorem sound_initial (now : Time) : Sound I (initial now) := ⟨typed_empty, by simp [InFlight, initial]⟩

theorem Sound.move (h : Sound I w) (hm : Move I w a w') : Sound I w' := by
  refine ⟨?_, h.issued.move hm fun j _ c hc => issued_of_mem_commands hc⟩
  cases hm with
  | tick t ht => exact h.typed.purge t
  | command i c rest hi => exact ((h.issued.next hi).apply h.typed w.now).2
  | store i got counted n hv => exact ((Issued.cache (I := I) n).apply h.typed w.now).2
  | storeUnreplied i got counted n hv => exact ((Issued.cache (I := I) n).apply h.typed w.now).2
  | _ => exact h.typed

theorem Sound.run (h : Sound I w) (hr : Platform.run I as w = some w') : Sound I w' :=
  run_invariant (fun _ _ _ hs hm => hs.move hm) hr h

theorem Sound.cached (h : Sound I w) {answer : Except ReadError ℤ}
    (hc : CachedSystemCount.cached w.store = some answer) :
    ∃ v, w.store.val (wire systemCountCache) = some (.str v) ∧ answer = parseInt 64 v := by
  unfold CachedSystemCount.cached at hc
  split at hc
  · cases hc
  · rename_i v hv
    exact ⟨v, hv, (Option.some.inj hc).symm⟩
  · rename_i v hn hv
    obtain ⟨s, rfl⟩ := h.typed.admits (e := .systemCountCache) hv
    exact absurd rfl (hn s)

theorem Sound.calculateActualCount (h : Sound I w) :
    CachedSystemCount.calculateActualCount w.store = .ok (indexSize w.store) := by
  obtain ⟨z, hz⟩ := h.typed.zset (e := .systemIndex) trivial
  unfold CachedSystemCount.calculateActualCount indexSize Store.zmembers
  change w.store.zset (wire RedisKeys.systemIndex) = .ok z at hz
  rw [hz]
  unfold Store.zset at hz
  split at hz
  · rename_i hv
    cases hz
    rw [hv]
    rfl
  · rename_i z' hv
    cases hz
    rw [hv]
    simp [AList.keys, List.keys]
  · cases hz

/-- In every state that any clients can bring about on a server of their own, no command in flight can fail on
the keyspace, and no page that asks for the system count meets a key of the wrong type. -/
theorem no_command_fails {now : Time} (h : run I as (initial now) = some w) :
    (∀ cs ∈ w.jobs, ∀ c ∈ cs, ∃ σ, c.run w.now w.store = .ok σ) ∧
      ∀ s ∈ w.served, ∀ e, s.answer ≠ .error (.redis e) := by
  have hs : Sound I w ∧ ∀ s ∈ w.served, ∀ e, s.answer ≠ .error (.redis e) := by
    refine run_invariant (P := fun w => Sound I w ∧ ∀ s ∈ w.served, ∀ e, s.answer ≠ .error (.redis e))
      (fun w a w' hw hm => ⟨hw.1.move hm, ?_⟩) h ⟨sound_initial now, by simp [initial]⟩
    cases hm with
    | hit i answer hv hc =>
      obtain ⟨v, -, rfl⟩ := hw.1.cached hc
      refine List.forall_mem_cons.mpr ⟨fun e => ?_, hw.2⟩
      unfold parseInt
      split
      · simp
      · split_ifs <;> simp
    | uncountable i got e hv hn =>
      rw [hw.1.calculateActualCount] at hn
      cases hn
    | store i got counted n hv => exact List.forall_mem_cons.mpr ⟨fun e => by simp, hw.2⟩
    | _ => exact hw.2
  exact ⟨fun cs hcs c hc => ⟨_, ((hs.1.issued cs hcs c hc).apply hs.1.typed w.now).1⟩, hs.2⟩

/-- A docking, a visit, a heartbeat, a rebuild, a drain and a page, all under way. -/
def busyDay : List PlatformAction :=
  [.submit (.record (.stationDocking (lit "Sol") (lit "Abraham Lincoln") (lit "Orbis") .minValue)), .command 0, .view,
    .submit (.record (.systemVisit (lit "Sol"))), .command 1, .submit (.heartbeat 0), .get 0, .command 0, .count 0,
    .submit (.rebuild .system [] [lit "SOL"]), .submit .purge, .command 4, .store 0 true, .tick 1000, .command 0]

theorem no_command_fails_busyDay : ∃ w, run asciiCasing busyDay (initial 0) = some w ∧
    ∀ cs ∈ w.jobs, ∀ c ∈ cs, ∃ σ, c.run w.now w.store = .ok σ := by
  obtain ⟨w, hw⟩ := Option.isSome_iff_exists.mp
    (show (run asciiCasing busyDay (initial 0)).isSome = true by decide +kernel)
  exact ⟨w, hw, (no_command_fails hw).1⟩

end Platform

end EliteEvents

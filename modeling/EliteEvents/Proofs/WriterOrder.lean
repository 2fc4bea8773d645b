import EliteEvents.Lib.RedisView
import EliteEvents.Proofs.TypedStore
import EliteEvents.Spec.WriterRuns

/-! The writer's commands are increments, which commute, and sets, which are idempotent but do not:
the last one wins. So the contents that calls leave depend on the order of their commands, unless any
two that set the same thing set it to the same value. -/

namespace EliteEvents

open Text Redis RedisKeys

/-- Dockings of one station, or of one carrier on one day, set the same values. -/
def Agrees (I : Casing) : WriterCall → WriterCall → Prop
  | .stationDocking s x y t, .stationDocking s' x' y' t' =>
    wire (normalizeSystem I s) = wire (normalizeSystem I s') → wire x = wire x' →
      wire y = wire y' ∧ t.toUnixTimeSeconds = t'.toUnixTimeSeconds
  | .fleetCarrierDocking c t, .fleetCarrierDocking c' t' =>
    wire (normalizeCarrier I c) = wire (normalizeCarrier I c') → t.date = t'.date →
      t.toUnixTimeSeconds = t'.toUnixTimeSeconds
  | _, _ => True

theorem wire_date (t : DateTimeOffset) : wire t.date = t.date := wellFormed_ofChars _

section Commuting

variable {I : Casing} {a b : WriterCall} {c d : Cmd}

private theorem zadd_commutes {k k' m m' : Str} {x x' : ℤ} (hk : k = k') (h : m = m' → x = x') :
    (Cmd.zadd k [(m, x)]).Commutes (.zadd k' [(m', x')]) := by
  subst hk
  by_cases hm : m = m'
  · subst hm
    rw [h rfl]
    exact .same _
  · exact .scores k m m' x x' hm

/-- The commands of calls that agree commute, whichever two they are. -/
theorem Sends.commutes (hc : Sends I a c) (hd : Sends I b d) (h : Agrees I a b) : c.Commutes d := by
  by_cases ht : c.target = d.target
  · cases hc with
    | expire a e he ttl => exact .idle rfl
    | expireVisits s deadline => exact .idle rfl
    | countDay cr t =>
      cases hd with
      | countDay cr' t' =>
        rw [Option.some.inj ht]
        exact .same _
      | expire | expireVisits => cases ht
      | _ => cases encode_eq_of_wire_key (Option.some.inj ht)
    | addDay cr t =>
      cases hd with
      | addDay cr' t' =>
        have he := encode_eq_of_wire_key (Option.some.inj ht)
        refine zadd_commutes (Option.some.inj ht) fun hm => h ?_ ?_
        · exact congrArg UpperName.val (Entity.carrierDays.inj he)
        · rwa [wire_date, wire_date] at hm
      | expire | expireVisits => cases ht
      | _ => cases encode_eq_of_wire_key (Option.some.inj ht)
    | indexCarrier cr t =>
      cases hd with
      | indexCarrier cr' t' => exact zadd_commutes rfl fun _ => rfl
      | expire | expireVisits => cases ht
      | _ => cases encode_eq_of_wire_key (Option.some.inj ht)
    | countStation s x y t =>
      cases hd with
      | countStation s' x' y' t' =>
        rw [Option.some.inj ht]
        exact .same _
      | describeStation s' x' y' t' =>
        rw [Option.some.inj ht]
        exact .count _ _ _ _ (by simp only [List.map_cons, List.map_nil]; decide)
      | expire | expireVisits => cases ht
      | _ => cases encode_eq_of_wire_key (Option.some.inj ht)
    | describeStation s x y t =>
      cases hd with
      | countStation s' x' y' t' =>
        rw [Option.some.inj ht]
        exact .symm (.count _ _ _ _ (by simp only [List.map_cons, List.map_nil]; decide))
      | describeStation s' x' y' t' =>
        obtain ⟨hs, hx⟩ := Entity.station.inj (encode_eq_of_wire_key (Option.some.inj ht))
        obtain ⟨hy, hts⟩ := h (congrArg UpperName.val hs) hx
        rw [Option.some.inj ht, hy, hts]
        exact .same _
      | expire | expireVisits => cases ht
      | _ => cases encode_eq_of_wire_key (Option.some.inj ht)
    | addStation s x y t =>
      cases hd with
      | addStation s' x' y' t' =>
        have he := encode_eq_of_wire_key (Option.some.inj ht)
        exact zadd_commutes (Option.some.inj ht) fun hm =>
          (h (congrArg UpperName.val (Entity.systemStations.inj he)) hm).2
      | expire | expireVisits => cases ht
      | _ => cases encode_eq_of_wire_key (Option.some.inj ht)
    | indexSystem s x y t =>
      cases hd with
      | indexSystem s' x' y' t' => exact zadd_commutes rfl fun _ => rfl
      | expire | expireVisits => cases ht
      | _ => cases encode_eq_of_wire_key (Option.some.inj ht)
    | visit s =>
      cases hd with
      | visit s' =>
        by_cases hm : wire (normalizeSystem I s) = wire (normalizeSystem I s')
        · rw [hm]
          exact .same _
        · exact .increments _ _ _ _ _ hm
      | expire | expireVisits => cases ht
      | _ => cases encode_eq_of_wire_key (Option.some.inj ht)
  · exact .apart ht

end Commuting

section Runs

variable {I : Casing} {calls : List IssuedCall} {run run' : List (Time × Cmd)} {σ : Store}

/-- The commands of a run are commands of its calls. -/
theorem Interleaved.sends (h : Interleaved I calls run) {c : Cmd} (hc : c ∈ run.map Prod.snd) :
    ∃ a ∈ calls, Sends I a.call c := by
  obtain ⟨l, hl, hc⟩ := List.mem_flatten.mp (h.order.perm.mem_iff.mp hc)
  obtain ⟨a, ha, rfl⟩ := List.mem_map.mp hl
  exact ⟨a, ha, sends_of_mem_batch hc⟩

theorem Interleaved.sends_of_mem (h : Interleaved I calls run) {p : Time × Cmd} (hp : p ∈ run) :
    ∃ a ∈ calls, Sends I a.call p.2 := h.sends (List.mem_map_of_mem hp)

theorem Interleaved.onlyAdds (h : Interleaved I calls run) {p : Time × Cmd} (hp : p ∈ run) (K : Str) :
    p.2.OnlyAdds p.1 K := by
  obtain ⟨t, c⟩ := p
  obtain ⟨a, -, hs⟩ := h.sends_of_mem hp
  generalize a.call = call at hs
  cases hs with
  | expireVisits s deadline => exact fun _ => h.ahead t _ deadline hp
  | _ => trivial

theorem Interleaved.contents (h : Interleaved I calls run) :
    (applyAll run σ).contents = (run.map Prod.snd).foldl (fun V c => c.act V) σ.contents := by
  refine contents_applyAll (fun p hp => h.onlyAdds hp) fun p hp => ?_
  obtain ⟨a, -, hs⟩ := h.sends_of_mem hp
  exact hs.nonvoid

/-- Where all the calls agree, the order does not matter. -/
theorem contents_eq_of_agrees (hagree : ∀ a ∈ calls, ∀ b ∈ calls, Agrees I a.call b.call)
    (h : Interleaved I calls run) (h' : Interleaved I calls run') :
    (applyAll run σ).contents = (applyAll run' σ).contents := by
  rw [h.contents, h'.contents]
  refine foldl_act_perm (h.order.perm.trans h'.order.perm.symm) (fun c hc d hd => ?_) _
  obtain ⟨a, ha, hc⟩ := h.sends hc
  obtain ⟨b, hb, hd⟩ := h.sends hd
  exact hc.commutes hd (hagree a ha b hb)

end Runs

/-! The last writer wins. -/

section LastWriter

variable {I : Casing} {calls : List IssuedCall} {a : IssuedCall}

/-- Commands all run at the start of time. -/
def atOnce (cs : List Cmd) : List (Time × Cmd) := cs.map fun c => (0, c)

theorem snd_atOnce (cs : List Cmd) : (atOnce cs).map Prod.snd = cs := by
  rw [atOnce, List.map_map]
  exact List.map_id cs

private theorem expireAt_mem_commands {k : Str} {deadline : Time} (h : Cmd.expireAt k deadline ∈ a.commands I) :
    deadline = a.nextExpiration := by
  unfold IssuedCall.commands at h
  cases hc : a.call with
  | systemVisit s =>
    rw [hc] at h
    rcases List.mem_cons.mp h with h | h
    · cases h
    · cases List.mem_singleton.mp h
      rfl
  | _ =>
    rw [hc] at h
    simp [DockingWriter.batch, DockingWriter.recordFleetCarrierDocking, DockingWriter.recordStationDocking,
      Cmd.encode] at h

theorem interleaved_atOnce {cs : List Cmd} (h : Interleaving (calls.map (IssuedCall.commands I)) cs) :
    Interleaved I calls (atOnce cs) := by
  refine ⟨by rwa [snd_atOnce], fun t k deadline hp => ?_⟩
  obtain ⟨c, hc, he⟩ := List.mem_map.mp hp
  obtain ⟨rfl, rfl⟩ := Prod.mk.inj he
  obtain ⟨l, hl, hc⟩ := List.mem_flatten.mp (h.perm.mem_iff.mp hc)
  obtain ⟨b, -, rfl⟩ := List.mem_map.mp hl
  rw [expireAt_mem_commands hc]
  exact b.nextExpiration_pos

/-- Any call's batch may come last. -/
theorem interleaved_last (I : Casing) (ha : a ∈ calls) :
    ∃ cs, Interleaved I calls (atOnce (cs ++ a.commands I)) := by
  obtain ⟨cs, h⟩ := Interleaving.exists_last (List.mem_map_of_mem ha : a.commands I ∈ calls.map _)
  exact ⟨cs, interleaved_atOnce h⟩

/-- What the commands before a point of the run have left is typed, and is what they make of nothing. -/
theorem contents_before {before after : List Cmd} (h : Interleaved I calls (atOnce (before ++ after))) :
    Typed (applyAll (atOnce before) ∅) ∧
      (applyAll (atOnce before) ∅).contents = before.foldl (fun V c => c.act V) (Store.contents ∅) := by
  have hsub : ∀ p ∈ atOnce before, p ∈ atOnce (before ++ after) := fun p hp => by
    rw [atOnce, List.map_append]
    exact List.mem_append_left _ hp
  have hsends : ∀ p ∈ atOnce before, ∃ a ∈ calls, Sends I a.call p.2 := fun p hp => h.sends_of_mem (hsub p hp)
  have hcontents := @contents_applyAll (atOnce before) ∅ (fun p hp => h.onlyAdds (hsub p hp))
    fun p hp => (hsends p hp).elim fun _ hs => hs.2.nonvoid
  rw [snd_atOnce] at hcontents
  exact ⟨typed_applyAll (fun p hp => (hsends p hp).elim fun _ hs => hs.2.schematic) typed_empty, hcontents⟩

theorem contents_last_hset {before after : List Cmd} {fs : List (Str × Str)} (s : UpperName) (x : Str)
    (h : Interleaved I calls
      (atOnce (before ++ .hset (wire (Entity.station s x).key) fs :: after)))
    (hafter : ∀ d ∈ after, d.target ≠ some (wire (Entity.station s x).key)) :
    ∃ fields, (applyAll (atOnce (before ++ .hset (wire (Entity.station s x).key) fs :: after)) ∅).contents
      (wire (Entity.station s x).key) = some (.hash (overlay fs fields)) := by
  obtain ⟨htyped, hcontents⟩ := contents_before h
  obtain ⟨hs, hh, -⟩ := htyped.hash s x
  have hf := fields_of_hash hh
  rw [hcontents] at hf
  refine ⟨fun f => hs.lookup f, ?_⟩
  rw [h.contents, snd_atOnce, foldl_act_last rfl hafter]
  simp only [Cmd.revise, hf]

theorem contents_last_zadd {before after : List Cmd} {es : List (Str × ℤ)} {e : Entity} (he : e.IsSortedSet)
    (h : Interleaved I calls (atOnce (before ++ .zadd (wire e.key) es :: after)))
    (hafter : ∀ d ∈ after, d.target ≠ some (wire e.key)) :
    ∃ scores, (applyAll (atOnce (before ++ .zadd (wire e.key) es :: after)) ∅).contents (wire e.key) =
      some (.zset (overlay es scores)) := by
  obtain ⟨htyped, hcontents⟩ := contents_before h
  obtain ⟨z, hz⟩ := htyped.zset he
  have hs := scores_of_zset hz
  rw [hcontents] at hs
  refine ⟨fun m => z.lookup m, ?_⟩
  rw [h.contents, snd_atOnce, foldl_act_last rfl hafter]
  simp only [Cmd.revise, hs]

theorem station_last {s x y : Str} {t : DateTimeOffset} (ha : a ∈ calls) (hc : a.call = .stationDocking s x y t) :
    ∃ run fields, Interleaved I calls run ∧
      (applyAll run ∅).contents (wire (Entity.station (I.upper s) x).key) = some (.hash (overlay
        [(stationTypeField, wire y), (stationLastSeenField, Decimal.text t.toUnixTimeSeconds)] fields)) := by
  obtain ⟨cs, h⟩ := interleaved_last I ha
  rw [IssuedCall.commands, hc, batch_stationDocking, List.append_cons] at h
  obtain ⟨fields, hlast⟩ := contents_last_hset (I.upper s) x h (by
    simp only [List.forall_mem_cons, Cmd.target]
    refine ⟨(Option.some_ne_none _).symm, fun he => ?_, (Option.some_ne_none _).symm, fun he => ?_,
      fun _ h => absurd h List.not_mem_nil⟩
    · cases encode_eq_of_wire_key (Option.some.inj he)
    · cases encode_eq_of_wire_key (Option.some.inj he))
  exact ⟨_, fields, h, hlast⟩

theorem carrier_last {c : Str} {t : DateTimeOffset} (ha : a ∈ calls) (hc : a.call = .fleetCarrierDocking c t) :
    ∃ run scores, Interleaved I calls run ∧
      (applyAll run ∅).contents (wire (Entity.carrierDays (I.upper c)).key) =
        some (.zset (overlay [(t.date, t.toUnixTimeSeconds)] scores)) := by
  obtain ⟨cs, h⟩ := interleaved_last I ha
  rw [IssuedCall.commands, hc, batch_fleetCarrierDocking, List.append_cons, List.append_cons, wire_date] at h
  obtain ⟨scores, hlast⟩ := contents_last_zadd (show (Entity.carrierDays (I.upper c)).IsSortedSet from trivial) h (by
    simp only [List.forall_mem_cons, Cmd.target]
    refine ⟨(Option.some_ne_none _).symm, fun he => ?_, fun _ h => absurd h List.not_mem_nil⟩
    cases encode_eq_of_wire_key (Option.some.inj he))
  exact ⟨_, scores, h, hlast⟩

end LastWriter

section Order

variable {I : Casing} {calls : List IssuedCall} {a b : IssuedCall}

/-- Where the order does not matter, calls that set the same thing agree: each of them may be last. -/
theorem agrees_of_contents_eq (h : ∀ run run', Interleaved I calls run → Interleaved I calls run' →
      (applyAll run ∅).contents = (applyAll run' ∅).contents) (ha : a ∈ calls) (hb : b ∈ calls) :
    Agrees I a.call b.call := by
  cases hac : a.call with
  | systemVisit s => trivial
  | stationDocking s x y t =>
    cases hbc : b.call with
    | stationDocking s' x' y' t' =>
      intro hs hx
      obtain ⟨run, fields, hrun, hlast⟩ := station_last (I := I) ha hac
      obtain ⟨run', fields', hrun', hlast'⟩ := station_last (I := I) hb hbc
      have hk : wire (Entity.station (I.upper s') x').key = wire (Entity.station (I.upper s) x).key := by
        rw [Entity.key, Entity.key, wire_station, wire_station]
        exact (congrArg₂ station hs hx).symm
      rw [hk, ← h run run' hrun hrun', hlast] at hlast'
      have heq := View.hash.inj (Option.some.inj hlast')
      have htype := congrFun heq stationTypeField
      have hseen := congrFun heq stationLastSeenField
      simp only [overlay, List.foldl_cons, List.foldl_nil] at htype hseen
      rw [Function.update_self, Function.update_self, Option.some.injEq] at hseen
      rw [Function.update_of_ne (by decide), Function.update_self, Function.update_of_ne (by decide),
        Function.update_self, Option.some.injEq] at htype
      exact ⟨htype, Decimal.text_injective hseen⟩
    | _ => trivial
  | fleetCarrierDocking c t =>
    cases hbc : b.call with
    | fleetCarrierDocking c' t' =>
      intro hc hd
      obtain ⟨run, scores, hrun, hlast⟩ := carrier_last (I := I) ha hac
      obtain ⟨run', scores', hrun', hlast'⟩ := carrier_last (I := I) hb hbc
      have hk : wire (Entity.carrierDays (I.upper c')).key = wire (Entity.carrierDays (I.upper c)).key := by
        rw [Entity.key, Entity.key, wire_carrierDays, wire_carrierDays]
        exact (congrArg carrierDays hc).symm
      rw [hk, ← h run run' hrun hrun', hlast, ← hd] at hlast'
      have hscore := congrFun (View.zset.inj (Option.some.inj hlast')) t.date
      simp only [overlay, List.foldl_cons, List.foldl_nil] at hscore
      rw [Function.update_self, Function.update_self, Option.some.injEq] at hscore
      exact hscore
    | _ => trivial

/-- The order of the commands does not matter exactly when all dockings of one station give the same
type and second, and all dockings of one carrier on one day the same second. -/
theorem writer_order_iff (I : Casing) (calls : List IssuedCall) :
    (∀ σ run run', Interleaved I calls run → Interleaved I calls run' →
        (applyAll run σ).contents = (applyAll run' σ).contents) ↔
      ∀ a ∈ calls, ∀ b ∈ calls, Agrees I a.call b.call :=
  ⟨fun h _ ha _ hb => agrees_of_contents_eq (h ∅) ha hb,
    fun h _ _ _ hrun hrun' => contents_eq_of_agrees h hrun hrun'⟩

end Order

/-- Two dockings at one station, a second apart. -/
def jameson (seconds : Fin 2) : IssuedCall where
  call := .stationDocking (lit "Shinrarta Dezhra") (lit "Jameson Memorial") (lit "Orbis")
    ⟨638712864000000000 + seconds * 10000000, 0, by simp only [maxTicks]; omega⟩
  nextExpiration := 1
  nextExpiration_pos := one_pos

/-- The station was last seen at the time of the batch that came last, not at the later time. -/
theorem writer_order_matters :
    ¬ ∀ (I : Casing) (calls : List IssuedCall) (σ : Store) (run run' : List (Time × Cmd)),
      Interleaved I calls run → Interleaved I calls run' →
        (applyAll run σ).contents = (applyAll run' σ).contents := by
  intro h
  have hforth := interleaved_atOnce (Interleaving.flatten ([jameson 0, jameson 1].map (IssuedCall.commands asciiCasing)))
  have hback : Interleaved asciiCasing [jameson 0, jameson 1] _ := interleaved_atOnce ((Interleaving.flatten
    ([jameson 1, jameson 0].map (IssuedCall.commands asciiCasing))).of_perm (List.Perm.swap _ _ []))
  have hseen := hget_congr (h asciiCasing [jameson 0, jameson 1] ∅ _ _ hforth hback)
    (station (lit "SHINRARTA DEZHRA") (lit "Jameson Memorial")) stationLastSeenField
  exact absurd hseen (by decide +kernel)

end EliteEvents

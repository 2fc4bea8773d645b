import EliteEvents.Proofs.Heartbeat

/-! Readiness against reconnect. A consumer that is alone on its server is judged by its own heartbeat, which
trails its messages by less than the throttle and a millisecond. With several consumers on one key a silent
one is seen as long as no other keeps the key fresh. -/

namespace EliteEvents

open Text Redis RedisKeys

namespace HeartbeatWorld

section Alone

/-- One process on its server. -/
def sole (start : DateTimeOffset) (σ : Store) (reconnectAfterSilence : ℕ) : HeartbeatWorld :=
  { initial start σ with consumers := [(initial start σ).fresh reconnectAfterSilence] }

/-- No other process starts, and every heartbeat reaches the server. -/
def Landing (_ : HeartbeatWorld) : HeartbeatAction → Prop
  | .start _ => False
  | .seed _ landed => landed = true
  | .beat _ landed => landed = true
  | _ => True

/-- The last heartbeat is the one the throttle counts from. -/
structure Alone (T : ℕ) (w : HeartbeatWorld) (c : BeatingConsumer) : Prop where
  beating : Beating w
  consumers : w.consumers = [c]
  threshold : c.reconnectAfterSilence = T
  author : ∀ b ∈ w.beats, b.consumer = 0
  landed : c.phase ≠ .starting → ∃ b ∈ w.beats.head?, (b.message : ℤ) = c.state.lastWrittenTicks

variable {T : ℕ} {w w' : HeartbeatWorld} {c c' : BeatingConsumer}

theorem alone_sole (start : DateTimeOffset) (σ : Store) (T : ℕ) :
    Alone T (sole start σ T) ((initial start σ).fresh T) where
  beating := (beating_initial start σ).start T
  consumers := rfl
  threshold := rfl
  author := fun _ h => by cases h
  landed := fun h => absurd rfl h

theorem Alone.index_eq_zero (h : Alone T w c) {i : ℕ} (hi : w.consumers[i]? = some c') : i = 0 ∧ c = c' := by
  rw [h.consumers] at hi
  obtain ⟨hlt, hget⟩ := List.getElem?_eq_some_iff.mp hi
  obtain rfl : i = 0 := by simpa using hlt
  exact ⟨rfl, hget⟩

theorem Alone.consumers_set (h : Alone T w c) (c' : BeatingConsumer) : (w.setConsumer 0 c').consumers = [c'] := by
  rw [setConsumer, h.consumers]
  rfl

theorem Alone.step (h : Alone T w c) {a : HeartbeatAction} (ha : w.Landing a) (hs : w.step a = some w') :
    ∃ c', Alone T w' c' := by
  have hbeating := h.beating.step hs
  rcases step_cases hs with ⟨d, rfl, -, rfl⟩ | ⟨S, rfl, -⟩ | ⟨i, d, force, landed, hd, hr, rfl⟩ |
    ⟨i, d, d', hd, hm, rfl⟩ | ⟨i, -, rfl⟩
  · exact ⟨c, hbeating, h.consumers, h.threshold, h.author, h.landed⟩
  · exact ha.elim
  · obtain ⟨rfl, rfl⟩ := h.index_eq_zero hd
    have hlanded : landed = true := by cases hr <;> exact ha
    rcases record_cases w 0 c force landed with ⟨hforce, -, he⟩ | ⟨-, ⟨hlost, -⟩ | ⟨-, he⟩⟩
    · -- a throttled heartbeat follows one that landed
      have hp : c.phase ≠ .starting := by
        cases hr with
        | seed hp => cases hforce
        | beat hp =>
          rw [hp]
          decide
      rw [he] at hbeating ⊢
      exact ⟨_, hbeating, h.consumers_set _, h.threshold, h.author, fun _ => h.landed hp⟩
    · exact absurd (hlost.symm.trans hlanded) (by decide)
    · rw [he] at hbeating ⊢
      refine ⟨_, hbeating, h.consumers_set _, h.threshold, fun b hb => ?_, fun _ => ⟨_, rfl, rfl⟩⟩
      rcases List.mem_cons.mp hb with rfl | hb
      · rfl
      · exact h.author b hb
  · obtain ⟨rfl, rfl⟩ := h.index_eq_zero hd
    refine ⟨d', hbeating, h.consumers_set d', ?_, h.author, fun _ => ?_⟩
    · cases hm <;> exact h.threshold
    · cases hm with
      | frame hp => exact h.landed (by rw [hp]; decide)
      | idle hp => exact h.landed (by rw [hp]; decide)
  · exact ⟨c, h⟩

theorem Alone.run {start : DateTimeOffset} {σ : Store}
    (hr : Runs.Reaches HeartbeatWorld.step Landing (sole start σ T) w) : ∃ c, Alone T w c := by
  refine hr.invariant (P := fun w => ∃ c, Alone T w c) ⟨_, alone_sole start σ T⟩ fun w a w' h ha hs => ?_
  obtain ⟨c, h⟩ := h
  exact h.step ha hs

/-- The last heartbeat of a waiting consumer is of its last message, or of one the throttle lets pass for it. -/
theorem Alone.trails (h : Alone T w c) (hp : c.phase = .waiting) :
    ∃ b ∈ w.beats.head?, b.message ≤ c.state.lastMessageTicks ∧ c.state.lastMessageTicks < b.message + 50000000 ∧
      b.message ≤ b.written ∧ c.state.lastMessageTicks ≤ w.clock := by
  have hmem : c ∈ w.consumers := by
    rw [h.consumers]
    exact List.mem_singleton_self c
  have hstarted : c.phase ≠ .starting := by
    rw [hp]
    decide
  obtain ⟨hle, hlt⟩ := h.beating.throttled c hmem hstarted
  have hlt := hlt hp
  obtain ⟨b, hb, hmsg⟩ := h.landed hstarted
  refine ⟨b, hb, ?_, ?_, (h.beating.beats b (List.mem_of_mem_head? hb)).1, h.beating.past c hmem⟩
  · omega
  · unfold heartbeatWriteInterval at hlt
    omega

/-- Until an hour after the last message, less the throttle, the heartbeat has not lapsed. -/
theorem le_lapse {b : Beat} {clock : ℕ} (hb : b.message ≤ b.written) (h : clock ≤ b.message + 36000000000) :
    serverTime clock ≤ lapse b := by
  have hdiv : clock / 10000 ≤ (b.written + 36000000000) / 10000 := Nat.div_le_div_right (by omega)
  have hadd : (b.written + 36000000000) / 10000 = b.written / 10000 + 3600000 := by omega
  exact hdiv.trans hadd.le

/-- Ticks are tenths of a microsecond: the throttle is 50000000 of them, a millisecond 10000. -/
theorem heartbeat_trails_by_throttle {start : DateTimeOffset} {σ : Store} {T : ℕ} {w : HeartbeatWorld}
    (hr : Runs.Reaches HeartbeatWorld.step Landing (sole start σ T) w) :
    ∃ c, w.consumers = [c] ∧ c.reconnectAfterSilence = T ∧
      (w.beats.Pairwise fun newer older => newer.force = false → older.message + 50000000 ≤ newer.message) ∧
      (c.phase = .waiting → ∃ h : ℤ,
        0 ≤ c.state.lastMessageTicks - h ∧ c.state.lastMessageTicks - h < 50000000 + 10000 ∧
        (StreamHeartbeat.getLastMessageUtc (serverTime w.clock) w.store = .ok (some h) ∨
          StreamHeartbeat.getLastMessageUtc (serverTime w.clock) w.store = .ok none ∧
            36000000000 < w.silence c + 50000000) ∧
        (w.silence c > T → w.health c = .unhealthy) ∧
        (50010000 < T → T ≤ 36000000000 → w.silence c ≤ T - 50010000 → w.health c = .healthy)) := by
  obtain ⟨c, h⟩ := Alone.run hr
  refine ⟨c, h.consumers, h.threshold, ?_, fun hp => ?_⟩
  · refine h.beating.spaced.imp_of_mem fun hnewer holder hspaced hunforced => ?_
    have hsame := (h.author _ hnewer).trans (h.author _ holder).symm
    have hle := hspaced hsame hunforced
    unfold heartbeatWriteInterval at hle
    omega
  · obtain ⟨b, hb, hle, hlt, hwritten, hpast⟩ := h.trails hp
    have hcut := readBack_le b.message
    have hcut' := lt_readBack_add b.message
    refine ⟨readBack b.message, by omega, by omega, ?_, fun hsilent => ?_, fun hT hT' hsilent => ?_⟩
    · rw [h.beating.read hb]
      split_ifs with hlapse
      · refine .inr ⟨rfl, not_le.mp fun hsilent => not_le.mpr hlapse (le_lapse hwritten ?_)⟩
        unfold silence at hsilent
        omega
      · exact .inl rfl
    · have hown : w.consumers[b.consumer]? = some c := by
        rw [h.author b (List.mem_of_mem_head? hb), h.consumers]
        rfl
      have hnot := h.beating.not_within (List.mem_of_mem_head? hb) hown (h.threshold ▸ hsilent)
      rw [← h.beating.health_eq_healthy hb] at hnot
      cases hhealth : w.health c with
      | healthy => exact absurd hhealth hnot
      | unhealthy => rfl
    · rw [h.beating.health_eq_healthy hb, h.threshold]
      unfold silence at hsilent
      exact ⟨le_lapse hwritten (by omega), by omega⟩

instance (w : HeartbeatWorld) (a : HeartbeatAction) : Decidable (w.Landing a) :=
  match a with
  | .tick _ => inferInstanceAs (Decidable True)
  | .start _ => inferInstanceAs (Decidable False)
  | .seed _ landed => inferInstanceAs (Decidable (landed = true))
  | .frame _ => inferInstanceAs (Decidable True)
  | .beat _ landed => inferInstanceAs (Decidable (landed = true))
  | .idle _ => inferInstanceAs (Decidable True)

/-- Three seconds, a throttled message, four more, one that is written, and two minutes of silence. -/
theorem heartbeat_trails_by_throttle_silent :
    ∃ w, Runs.Reaches HeartbeatWorld.step Landing (sole ⟨638000000000000000, 0, by decide⟩ ∅ 1200000000) w ∧
      w.beats.length = 2 ∧ ∃ c, w.consumers = [c] ∧ w.silence c > 1200000000 ∧ w.health c = .unhealthy := by
  have h : ((Runs.runIf HeartbeatWorld.step Landing
      [.seed 0 true, .tick 30000000, .frame 0, .beat 0 true, .tick 40000000, .frame 0, .beat 0 true, .tick 1210000000]
      (sole ⟨638000000000000000, 0, by decide⟩ ∅ 1200000000)).map fun w =>
        decide (w.beats.length = 2 ∧ ∀ c ∈ w.consumers, c.phase = .waiting ∧ w.silence c > 1200000000)) = some true := by
    decide +kernel
  obtain ⟨w, hw, hd⟩ := Option.map_eq_some_iff.mp h
  obtain ⟨hlen, hc⟩ := of_decide_eq_true hd
  have hr := Runs.reaches_runIf .refl hw
  obtain ⟨c, hone, -, -, hwaiting⟩ := heartbeat_trails_by_throttle hr
  obtain ⟨hphase, hsilent⟩ := hc c (by rw [hone]; exact List.mem_singleton_self c)
  obtain ⟨-, -, -, -, hunhealthy, -⟩ := hwaiting hphase
  exact ⟨w, hr, hlen, c, hone, hsilent, hunhealthy hsilent⟩

end Alone

section Shared

/-- Every consumer that is silent past its threshold at `clock` finds the heartbeat `b`, if it is another's, as old. -/
def Unhidden (w : HeartbeatWorld) (clock : ℕ) (b : Beat) : Prop :=
  ∀ i c, w.consumers[i]? = some c → i ≠ b.consumer → c.reconnectAfterSilence < clock - c.state.lastMessageTicks →
    ¬ Within b c.reconnectAfterSilence clock

/-- Neither the passing of time nor a heartbeat hides the silence of a consumer behind another's message. -/
def Unmasked (w : HeartbeatWorld) : HeartbeatAction → Prop
  | .tick d => ∀ b ∈ w.beats.head?, w.Unhidden (w.clock + d) b
  | .seed j landed => landed = true → ∀ c ∈ w.consumers[j]?,
      w.Unhidden w.clock ⟨j, true, c.state.lastMessageTicks, w.clock⟩
  | .beat j landed => landed = true → ∀ c ∈ w.consumers[j]?,
      heartbeatWriteInterval ≤ (c.state.lastMessageTicks : ℤ) - c.state.lastWrittenTicks →
        w.Unhidden w.clock ⟨j, false, c.state.lastMessageTicks, w.clock⟩
  | _ => True

/-- The health check of every silent consumer fails. -/
def Sees (w : HeartbeatWorld) : Prop :=
  ∀ c ∈ w.consumers, w.silence c > c.reconnectAfterSilence → w.health c = .unhealthy

/-- A server on which no heartbeat was written holds none. -/
def Unwritten (w : HeartbeatWorld) : Prop :=
  w.beats = [] → w.store.lookup (wire eddnHeartbeat) = none

variable {w w' : HeartbeatWorld} {i : ℕ} {c c' : BeatingConsumer} {b : Beat} {clock : ℕ}

theorem Unwritten.step (h : w.Unwritten) {a : HeartbeatAction} (hs : w.step a = some w') : w'.Unwritten := by
  intro hnil
  rcases step_cases hs with ⟨d, -, -, rfl⟩ | ⟨S, -, rfl⟩ | ⟨i, c, force, landed, -, -, rfl⟩ |
    ⟨i, c, c', -, -, rfl⟩ | ⟨i, -, rfl⟩
  · show (w.store.purge _).lookup _ = none
    rw [Store.lookup_purge, h hnil]
    rfl
  · exact h hnil
  · rcases record_cases w i c force landed with ⟨-, -, he⟩ | ⟨-, ⟨-, he⟩ | ⟨-, he⟩⟩
    · rw [he] at hnil ⊢
      exact h hnil
    · rw [he] at hnil ⊢
      exact h hnil
    · rw [he] at hnil
      cases hnil
  · exact h hnil
  · exact h hnil

theorem health_of_unwritten (hl : w.store.lookup (wire eddnHeartbeat) = none) (c : BeatingConsumer) :
    w.health c = .unhealthy := by
  rw [health, StreamHeartbeat.getLastMessageUtc, Store.val, Store.lookup_purge, hl]
  rfl

theorem sees_iff (h : Beating w) (hu : w.Unwritten) :
    w.Sees ↔ ∀ b ∈ w.beats.head?, w.Unhidden w.clock b := by
  constructor
  · intro hsees b hb i c hc _ hsilent hwithin
    have hhealth := hsees c (List.mem_of_getElem? hc) hsilent
    rw [(h.health_eq_healthy hb c).mpr hwithin] at hhealth
    cases hhealth
  · intro hall c hc hsilent
    obtain ⟨i, hi⟩ := List.mem_iff_getElem?.mp hc
    cases hbeats : w.beats.head? with
    | none => exact health_of_unwritten (hu (List.head?_eq_none_iff.mp hbeats)) c
    | some b =>
      have hnot : ¬ Within b c.reconnectAfterSilence w.clock := by
        by_cases hib : i = b.consumer
        · exact h.not_within (List.mem_of_mem_head? hbeats) (hib ▸ hi) hsilent
        · exact hall b hbeats i c hi hib hsilent
      cases hhealth : w.health c with
      | healthy => exact absurd ((h.health_eq_healthy hbeats c).mp hhealth) hnot
      | unhealthy => rfl

theorem Unhidden.start (h : w.Unhidden w.clock b) (T : ℕ) :
    Unhidden { w with consumers := w.consumers ++ [w.fresh T] } w.clock b := by
  intro i c hc hib hsilent
  rcases lt_or_ge i w.consumers.length with hi | hi
  · rw [List.getElem?_append_left hi] at hc
    exact h i c hc hib hsilent
  · rw [List.getElem?_append_right hi] at hc
    obtain rfl : w.fresh T = c := List.mem_singleton.mp (List.mem_of_getElem? hc) |>.symm
    -- a fresh tracker is not silent
    exact absurd hsilent (by simp [fresh])

theorem Unhidden.setConsumer (h : w.Unhidden clock b) (hi : w.consumers[i]? = some c)
    (hT : c'.reconnectAfterSilence = c.reconnectAfterSilence)
    (hlast : c.state.lastMessageTicks ≤ c'.state.lastMessageTicks) : (w.setConsumer i c').Unhidden clock b := by
  intro k d hd hkb hsilent
  by_cases hik : i = k
  · subst hik
    rw [HeartbeatWorld.setConsumer, List.getElem?_set_self (List.getElem?_eq_some_iff.mp hi).1] at hd
    cases hd
    rw [hT] at hsilent ⊢
    exact h i c hi hkb (by omega)
  · rw [HeartbeatWorld.setConsumer, List.getElem?_set_ne hik] at hd
    exact h k d hd hkb hsilent

theorem unhidden_setConsumer_author (hi : i = b.consumer) :
    (w.setConsumer i c').Unhidden clock b ↔ w.Unhidden clock b := by
  have hget : ∀ k, k ≠ b.consumer → (w.setConsumer i c').consumers[k]? = w.consumers[k]? :=
    fun k hk => List.getElem?_set_ne (hi ▸ hk.symm)
  constructor
  · intro h k d hd hk
    exact h k d ((hget k hk).trans hd) hk
  · intro h k d hd hk
    exact h k d ((hget k hk).symm.trans hd) hk

/-- A heartbeat that is recorded hides nobody exactly if it is throttled, is lost, or is as old as they are silent. -/
theorem sees_record_iff (h : Beating w) (hu : w.Unwritten) (hsees : w.Sees) (hi : w.consumers[i]? = some c)
    {force landed : Bool} (h' : Beating (w.record i c force landed)) (hu' : (w.record i c force landed).Unwritten) :
    (w.record i c force landed).Sees ↔ (landed = true →
      (force = true ∨ heartbeatWriteInterval ≤ (c.state.lastMessageTicks : ℤ) - c.state.lastWrittenTicks) →
        w.Unhidden w.clock ⟨i, force, c.state.lastMessageTicks, w.clock⟩) := by
  have hold := (sees_iff h hu).mp hsees
  rw [sees_iff h' hu']
  rcases record_cases w i c force landed with ⟨hforce, hskip, he⟩ | ⟨hdue, ⟨hlanded, he⟩ | ⟨hlanded, he⟩⟩
  · rw [he]
    refine iff_of_true (fun b hb => (hold b hb).setConsumer hi rfl le_rfl) fun _ hdue => ?_
    rcases hdue with hf | hle
    · exact absurd (hforce.symm.trans hf) (by decide)
    · exact absurd hskip (not_lt.mpr hle)
  · rw [he]
    refine iff_of_true (fun b hb => (hold b hb).setConsumer hi rfl le_rfl) fun hl => ?_
    exact absurd (hlanded.symm.trans hl) (by decide)
  · rw [he]
    constructor
    · intro hall _ _
      exact (unhidden_setConsumer_author rfl).mp (hall _ rfl)
    · intro hone b hb
      cases hb
      exact (unhidden_setConsumer_author rfl).mpr (hone hlanded hdue)

theorem sees_step_iff (h : Beating w) (hu : w.Unwritten) (hsees : w.Sees) {a : HeartbeatAction}
    (hs : w.step a = some w') : w'.Sees ↔ w.Unmasked a := by
  have h' := h.step hs
  have hu' := hu.step hs
  have hold := (sees_iff h hu).mp hsees
  rcases step_cases hs with ⟨d, rfl, -, rfl⟩ | ⟨T, rfl, rfl⟩ | ⟨i, c, force, landed, hi, hr, rfl⟩ |
    ⟨i, c, c', hi, hm, rfl⟩ | ⟨i, rfl, rfl⟩
  · exact sees_iff h' hu'
  · rw [sees_iff h' hu']
    exact iff_of_true (fun b hb => (hold b hb).start T) trivial
  · rw [sees_record_iff h hu hsees hi h' hu']
    cases hr with
    | seed hp =>
      constructor
      · intro hone hlanded d hd
        cases hi.symm.trans hd
        exact hone hlanded (.inl rfl)
      · intro hall hlanded _
        exact hall hlanded c hi
    | beat hp =>
      constructor
      · intro hone hlanded d hd hdue
        cases hi.symm.trans hd
        exact hone hlanded (.inr hdue)
      · intro hall hlanded hdue
        exact hall hlanded c hi (hdue.resolve_left (by decide))
  · rw [sees_iff h' hu']
    cases hm with
    | frame hp =>
      refine iff_of_true (fun b hb => (hold b hb).setConsumer hi rfl ?_) trivial
      exact h.past c (List.mem_of_getElem? hi)
    | idle hp => exact iff_of_true (fun b hb => (hold b hb).setConsumer hi rfl le_rfl) trivial
  · exact iff_of_true hsees trivial

/-- As long as no step hides a silent consumer behind another's heartbeat its health check fails, and the first
step that does makes one pass. -/
theorem stalled_consumer_unready {start : DateTimeOffset} {σ : Store} {w : HeartbeatWorld}
    (hσ : σ.lookup (wire eddnHeartbeat) = none)
    (hr : Runs.Reaches HeartbeatWorld.step Unmasked (initial start σ) w) :
    w.Sees ∧ ∀ a w', w.step a = some w' → (w'.Sees ↔ w.Unmasked a) := by
  have hinv : Beating w ∧ w.Unwritten ∧ w.Sees := by
    refine hr.invariant (P := fun w => Beating w ∧ w.Unwritten ∧ w.Sees) ?_ fun w a w' h ha hs => ?_
    · exact ⟨beating_initial start σ, fun _ => hσ, fun _ h => by cases h⟩
    · obtain ⟨hb, hu, hsees⟩ := h
      exact ⟨hb.step hs, hu.step hs, (sees_step_iff hb hu hsees hs).mpr ha⟩
  obtain ⟨hb, hu, hsees⟩ := hinv
  exact ⟨hsees, fun a w' hs => sees_step_iff hb hu hsees hs⟩

instance (b : Beat) (limit clock : ℕ) : Decidable (Within b limit clock) :=
  inferInstanceAs (Decidable (serverTime clock ≤ lapse b ∧ clock - readBack b.message ≤ limit))

instance (w : HeartbeatWorld) (clock : ℕ) (b : Beat) : Decidable (w.Unhidden clock b) :=
  decidable_of_iff (∀ p ∈ w.consumers.zipIdx, p.2 ≠ b.consumer →
      p.1.reconnectAfterSilence < clock - p.1.state.lastMessageTicks → ¬ Within b p.1.reconnectAfterSilence clock)
    ⟨fun h i c hc => h (c, i) (List.mem_zipIdx_iff_getElem?.mpr hc),
      fun h p hp => h p.2 p.1 (List.mem_zipIdx_iff_getElem?.mp hp)⟩

instance (w : HeartbeatWorld) (a : HeartbeatAction) : Decidable (w.Unmasked a) :=
  match a with
  | .tick d => inferInstanceAs (Decidable (∀ b ∈ w.beats.head?, w.Unhidden (w.clock + d) b))
  | .start _ => inferInstanceAs (Decidable True)
  | .seed j landed => inferInstanceAs (Decidable (landed = true → ∀ c ∈ w.consumers[j]?,
      w.Unhidden w.clock ⟨j, true, c.state.lastMessageTicks, w.clock⟩))
  | .frame _ => inferInstanceAs (Decidable True)
  | .beat j landed => inferInstanceAs (Decidable (landed = true → ∀ c ∈ w.consumers[j]?,
      heartbeatWriteInterval ≤ (c.state.lastMessageTicks : ℤ) - c.state.lastWrittenTicks →
        w.Unhidden w.clock ⟨j, false, c.state.lastMessageTicks, w.clock⟩))
  | .idle _ => inferInstanceAs (Decidable True)

/-- Two consumers fall silent together. -/
theorem stalled_consumer_unready_together :
    ∃ w, Runs.Reaches HeartbeatWorld.step Unmasked (initial ⟨638000000000000000, 0, by decide⟩ ∅) w ∧
      (∃ c ∈ w.consumers, w.silence c > c.reconnectAfterSilence) ∧ w.Sees := by
  have h : ((Runs.runIf HeartbeatWorld.step Unmasked
      [.start 1200000000, .start 1200000000, .seed 0 true, .seed 1 true, .tick 60000000, .frame 0, .frame 1,
        .beat 1 true, .beat 0 true, .tick 1210000000] (initial ⟨638000000000000000, 0, by decide⟩ ∅)).map fun w =>
        decide (∃ c ∈ w.consumers, w.silence c > c.reconnectAfterSilence)) = some true := by
    decide +kernel
  obtain ⟨w, hw, hd⟩ := Option.map_eq_some_iff.mp h
  have hr := Runs.reaches_runIf .refl hw
  exact ⟨w, hr, of_decide_eq_true hd, (stalled_consumer_unready rfl hr).1⟩

/-- The second of two consumers receives nothing for two minutes and stays ready, for the first still writes. -/
theorem other_shard_hides_stall :
    ¬ ∀ (start : DateTimeOffset) (w : HeartbeatWorld),
      Runs.Reaches HeartbeatWorld.step (fun _ _ => True) (initial start ∅) w → w.Sees := by
  intro hall
  have h : ((Runs.runIf HeartbeatWorld.step (fun _ _ => True)
      [.start 1200000000, .start 1200000000, .seed 0 true, .seed 1 true, .tick 1210000000, .frame 0, .beat 0 true]
      (initial ⟨638000000000000000, 0, by decide⟩ ∅)).map fun w =>
        decide (∃ c ∈ w.consumers, w.silence c > c.reconnectAfterSilence ∧ w.health c = .healthy)) = some true := by
    decide +kernel
  obtain ⟨w, hw, hd⟩ := Option.map_eq_some_iff.mp h
  obtain ⟨c, hc, hsilent, hhealthy⟩ := of_decide_eq_true hd
  have hunhealthy := hall _ w (Runs.reaches_runIf .refl hw) c hc hsilent
  rw [hhealthy] at hunhealthy
  cases hunhealthy

end Shared

end HeartbeatWorld

end EliteEvents

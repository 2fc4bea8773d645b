import EliteEvents.Lib.RedisLemmas
import EliteEvents.Lib.Runs
import EliteEvents.Proofs.DockingMap
import EliteEvents.Proofs.MessageTimes
import EliteEvents.Spec.Heartbeat

/-! What the shared heartbeat says. Its key holds the message of the last write that reached the server, cut to
milliseconds, until an hour after that write; and the writes of one consumer follow its messages at a distance
of less than the throttle. -/

namespace EliteEvents

open Text Redis RedisKeys

namespace Receiver

theorem processMessage_lastWritten {J : Type} (X : External J) (t : Turn) (s : ReceiverState) (json : Str) :
    (processMessage X t s json).1.lastWrittenTicks = s.lastWrittenTicks := by
  unfold processMessage
  split
  · split_ifs <;> rfl
  · dsimp only
    split_ifs <;> rfl

theorem recordHeartbeat_congr {t : Turn} {force : Bool} {r s : ReceiverState}
    (hlast : r.lastMessageTicks = s.lastMessageTicks) (hwritten : r.lastWrittenTicks = s.lastWrittenTicks) :
    (recordHeartbeat t force r).1.lastMessageTicks = (recordHeartbeat t force s).1.lastMessageTicks ∧
      (recordHeartbeat t force r).1.lastWrittenTicks = (recordHeartbeat t force s).1.lastWrittenTicks ∧
      (recordHeartbeat t force r).2 = (recordHeartbeat t force s).2 := by
  unfold recordHeartbeat
  rw [hlast, hwritten]
  split_ifs
  · exact ⟨hlast, hwritten, rfl⟩
  · dsimp only
    split <;> exact ⟨rfl, rfl, rfl⟩

/-- Of a frame the heartbeat sees its arrival only, whatever becomes of the message. -/
theorem onFrame_heartbeat {J : Type} (X : External J) (shard : MessageShardFilter) (t : Turn) (s : ReceiverState)
    (str : Str) : ∃ handled,
    (onFrame X shard t s str).1.lastMessageTicks =
      (recordHeartbeat t false (recordMessage t s)).1.lastMessageTicks ∧
    (onFrame X shard t s str).1.lastWrittenTicks =
      (recordHeartbeat t false (recordMessage t s)).1.lastWrittenTicks ∧
    (onFrame X shard t s str).2 = handled ++ (recordHeartbeat t false (recordMessage t s)).2 := by
  unfold onFrame
  split_ifs with howns
  · have hprocess := processMessage_health X t (recordHandled (recordMessage t s)) str
    have hwritten := processMessage_lastWritten X t (recordHandled (recordMessage t s)) str
    obtain ⟨h1, h2, h3⟩ := @recordHeartbeat_congr t false _ (recordMessage t s) hprocess.1 hwritten
    exact ⟨(processMessage X t (recordHandled (recordMessage t s)) str).2, h1, h2, congrArg (_ ++ ·) h3⟩
  · exact ⟨[], rfl, rfl, rfl⟩

end Receiver

/-- The throttle of a consumer that has seeded the heartbeat. -/
def BeatingConsumer.Throttled (c : BeatingConsumer) : Prop :=
  c.phase ≠ .starting → c.state.lastWrittenTicks ≤ c.state.lastMessageTicks ∧
    (c.phase = .waiting → (c.state.lastMessageTicks : ℤ) - c.state.lastWrittenTicks < heartbeatWriteInterval)

namespace HeartbeatWorld

/-- When the last heartbeat lapses. -/
def lapse (b : Beat) : Time := serverTime b.written + heartbeatExpiration

/-- The key holds the last heartbeat until it lapses. -/
def Stored (w : HeartbeatWorld) : Prop :=
  ∀ b ∈ w.beats.head?,
    (w.store.lookup (wire eddnHeartbeat) = none ∧ lapse b < serverTime w.clock) ∨
      (w.store.lookup (wire eddnHeartbeat) =
        some ⟨.str (Decimal.text (DateTimeOffset.unixMilliseconds b.message)), some (lapse b)⟩ ∧
        serverTime w.clock ≤ lapse b)

/-- What holds in every run. -/
structure Beating (w : HeartbeatWorld) : Prop where
  clock_le : w.clock ≤ maxTicks
  past : ∀ c ∈ w.consumers, c.state.lastMessageTicks ≤ w.clock
  throttled : ∀ c ∈ w.consumers, c.Throttled
  beats : ∀ b ∈ w.beats, b.message ≤ b.written ∧ b.written ≤ w.clock ∧ ∃ c, w.consumers[b.consumer]? = some c ∧
    c.phase ≠ .starting ∧ (b.message : ℤ) ≤ c.state.lastWrittenTicks
  spaced : w.beats.Pairwise fun newer older => newer.consumer = older.consumer → newer.force = false →
    (older.message : ℤ) + heartbeatWriteInterval ≤ newer.message
  stored : w.Stored

section Steps

variable {w w' : HeartbeatWorld} {i : ℕ} {c c' : BeatingConsumer}

theorem beating_initial (start : DateTimeOffset) (σ : Store) : Beating (initial start σ) where
  clock_le := start.utcTicks_le
  past := fun _ h => by cases h
  throttled := fun _ h => by cases h
  beats := fun _ h => by cases h
  spaced := .nil
  stored := fun _ h => by cases h

theorem serverTime_mono {a b : ℕ} (h : a ≤ b) : serverTime a ≤ serverTime b := Nat.div_le_div_right h

theorem Beating.tick (h : Beating w) {d : ℕ} (hd : w.clock + d ≤ maxTicks) :
    Beating { w with clock := w.clock + d, store := w.store.purge (serverTime (w.clock + d)) } := by
  have hle : w.clock ≤ w.clock + d := Nat.le_add_right _ _
  refine ⟨hd, fun c hc => (h.past c hc).trans hle, h.throttled, fun b hb => ?_, h.spaced, ?_⟩
  · obtain ⟨hm, hw, ha⟩ := h.beats b hb
    exact ⟨hm, hw.trans hle, ha⟩
  · intro b hb
    rcases h.stored b hb with ⟨hl, hlapse⟩ | ⟨hl, -⟩
    · refine .inl ⟨?_, lt_of_lt_of_le hlapse (serverTime_mono hle)⟩
      rw [Store.lookup_purge, hl]
      rfl
    · by_cases hlapse : lapse b < serverTime (w.clock + d)
      · refine .inl ⟨?_, hlapse⟩
        rw [Store.lookup_purge, hl, Option.filter_some, if_neg (by simpa [Entry.lapsed] using hlapse)]
      · refine .inr ⟨?_, not_lt.mp hlapse⟩
        rw [Store.lookup_purge, hl, Option.filter_some, if_pos (by simpa [Entry.lapsed] using hlapse)]

theorem Beating.start (h : Beating w) (T : ℕ) :
    Beating { w with consumers := w.consumers ++ [w.fresh T] } := by
  refine ⟨h.clock_le, fun c hc => ?_, fun c hc => ?_, fun b hb => ?_, h.spaced, h.stored⟩
  · rcases List.mem_append.mp hc with hc | hc
    · exact h.past c hc
    · rw [List.mem_singleton.mp hc]
      exact le_rfl
  · rcases List.mem_append.mp hc with hc | hc
    · exact h.throttled c hc
    · rw [List.mem_singleton.mp hc]
      exact fun hp => absurd rfl hp
  · obtain ⟨hm, hw, c, hc, ha⟩ := h.beats b hb
    refine ⟨hm, hw, c, ?_, ha⟩
    rw [List.getElem?_append_left (List.getElem?_eq_some_iff.mp hc).1]
    exact hc

/-- A consumer moves on, and no heartbeat is written. -/
theorem Beating.setConsumer (h : Beating w) (hi : w.consumers[i]? = some c)
    (hpast : c'.state.lastMessageTicks ≤ w.clock) (hthrottled : c'.Throttled)
    (hwritten : c.phase ≠ .starting → c'.phase ≠ .starting ∧
      c.state.lastWrittenTicks ≤ c'.state.lastWrittenTicks) : Beating (w.setConsumer i c') := by
  refine ⟨h.clock_le, fun d hd => ?_, fun d hd => ?_, fun b hb => ?_, h.spaced, h.stored⟩
  · rcases List.mem_or_eq_of_mem_set hd with hd | rfl
    · exact h.past d hd
    · exact hpast
  · rcases List.mem_or_eq_of_mem_set hd with hd | rfl
    · exact h.throttled d hd
    · exact hthrottled
  · obtain ⟨hm, hw, d, hd, hp, ha⟩ := h.beats b hb
    refine ⟨hm, hw, ?_⟩
    by_cases hbi : i = b.consumer
    · subst hbi
      cases hi.symm.trans hd
      obtain ⟨hp', hle⟩ := hwritten hp
      exact ⟨c', List.getElem?_set_self (List.getElem?_eq_some_iff.mp hi).1, hp', ha.trans hle⟩
    · refine ⟨d, ?_, hp, ha⟩
      rw [HeartbeatWorld.setConsumer, List.getElem?_set_ne hbi]
      exact hd

private theorem lookup_command_apply (ms : ℤ) (now : Time) (σ : Store) :
    ((StreamHeartbeat.command ms).apply now σ).lookup (wire eddnHeartbeat) =
      some ⟨.str (Decimal.text ms), some (now + heartbeatExpiration)⟩ := by
  have happly : (StreamHeartbeat.command ms).apply now σ = AList.insert (wire eddnHeartbeat)
      (Entry.mk (.str (wire (Decimal.text ms))) (some (now + heartbeatExpiration))) σ := rfl
  rw [happly, AList.lookup_insert, Decimal.wire_text]

/-- `RecordAsync` throttles the write, fails to make it, or makes it; in the last two the throttle is set. -/
theorem record_cases (w : HeartbeatWorld) (i : ℕ) (c : BeatingConsumer) (force landed : Bool) :
    (force = false ∧ (c.state.lastMessageTicks : ℤ) - c.state.lastWrittenTicks < heartbeatWriteInterval ∧
      w.record i c force landed = w.setConsumer i { c with phase := .waiting }) ∨
    ((force = true ∨ heartbeatWriteInterval ≤ (c.state.lastMessageTicks : ℤ) - c.state.lastWrittenTicks) ∧
      ((landed = false ∧ w.record i c force landed = w.setConsumer i { c with
        state := { c.state with lastWrittenTicks := c.state.lastMessageTicks }, phase := .waiting }) ∨
      (landed = true ∧ w.record i c force landed =
        { w.setConsumer i { c with
            state := { c.state with lastWrittenTicks := c.state.lastMessageTicks }, phase := .waiting } with
          store := (StreamHeartbeat.command (DateTimeOffset.unixMilliseconds c.state.lastMessageTicks)).apply
            (serverTime w.clock) w.store
          beats := ⟨i, force, c.state.lastMessageTicks, w.clock⟩ :: w.beats }))) := by
  by_cases hskip : !force ∧ (c.state.lastMessageTicks : ℤ) - c.state.lastWrittenTicks < heartbeatWriteInterval
  · refine .inl ⟨by simpa using hskip.1, hskip.2, ?_⟩
    have hrec : Receiver.recordHeartbeat (w.turn landed) force c.state = (c.state, []) := if_pos hskip
    rw [record, hrec]
  · have hdue : force = true ∨
        heartbeatWriteInterval ≤ (c.state.lastMessageTicks : ℤ) - c.state.lastWrittenTicks := by
      rw [not_and_or, not_lt] at hskip
      simpa using hskip
    refine .inr ⟨hdue, ?_⟩
    cases landed with
    | false =>
      have hrec : Receiver.recordHeartbeat (w.turn false) force c.state =
          ({ c.state with lastWrittenTicks := c.state.lastMessageTicks }, []) := if_neg hskip
      exact .inl ⟨rfl, by rw [record, hrec]⟩
    | true =>
      have hrec : Receiver.recordHeartbeat (w.turn true) force c.state =
          ({ c.state with lastWrittenTicks := c.state.lastMessageTicks },
            [.heartbeat (DateTimeOffset.unixMilliseconds c.state.lastMessageTicks)]) := if_neg hskip
      exact .inr ⟨rfl, by rw [record, hrec]⟩

theorem Beating.record (h : Beating w) (hi : w.consumers[i]? = some c) {force landed : Bool}
    (hphase : force = false → c.phase ≠ .starting) : Beating (w.record i c force landed) := by
  have hmem : c ∈ w.consumers := List.mem_of_getElem? hi
  have hpast := h.past c hmem
  have hold : c.phase ≠ .starting → c.state.lastWrittenTicks ≤ c.state.lastMessageTicks :=
    fun hp => (h.throttled c hmem hp).1
  have hset : Beating (w.setConsumer i { c with
      state := { c.state with lastWrittenTicks := c.state.lastMessageTicks }, phase := .waiting }) := by
    refine h.setConsumer hi hpast (fun _ => ⟨le_rfl, fun _ => ?_⟩) fun hp => ⟨by simp, hold hp⟩
    simp only [sub_self]
    decide
  rcases record_cases w i c force landed with ⟨hforce, hskip, he⟩ | ⟨hdue, ⟨-, he⟩ | ⟨-, he⟩⟩
  · rw [he]
    have hp := hphase hforce
    exact h.setConsumer hi hpast (fun _ => ⟨hold hp, fun _ => hskip⟩) fun _ => ⟨by simp, le_rfl⟩
  · rw [he]
    exact hset
  · rw [he]
    refine ⟨hset.clock_le, hset.past, hset.throttled, fun b hb => ?_, ?_, ?_⟩
    · rcases List.mem_cons.mp hb with rfl | hb
      · refine ⟨hpast, le_rfl, _, List.getElem?_set_self (List.getElem?_eq_some_iff.mp hi).1, by simp, le_rfl⟩
      · exact hset.beats b hb
    · refine List.pairwise_cons.mpr ⟨fun b hb hsame hunforced => ?_, h.spaced⟩
      -- an earlier heartbeat of the consumer is no newer than its throttle
      obtain ⟨-, -, d, hd, -, hle⟩ := h.beats b hb
      rw [← hsame] at hd
      cases hi.symm.trans hd
      have hdue := hdue.resolve_left (by rw [show force = false from hunforced]; simp)
      show (b.message : ℤ) + heartbeatWriteInterval ≤ c.state.lastMessageTicks
      omega
    · intro b hb
      cases hb
      refine .inr ⟨?_, Nat.le_add_right _ _⟩
      exact lookup_command_apply _ _ _

/-- A frame that arrives, or a reconnect. -/
inductive Moves (w : HeartbeatWorld) (c : BeatingConsumer) : HeartbeatAction → BeatingConsumer → Prop
  | frame {i : ℕ} (h : c.phase = .waiting) :
      Moves w c (.frame i) { c with state := Receiver.recordMessage (w.turn true) c.state, phase := .handling }
  | idle {i : ℕ} (h : c.phase = .waiting) :
      Moves w c (.idle i) { c with state := { c.state with lastReconnect := w.clock } }

/-- A heartbeat that is due, and whether it is the forced one. -/
inductive Records (c : BeatingConsumer) (i : ℕ) (landed : Bool) : HeartbeatAction → Bool → Prop
  | seed (h : c.phase = .starting) : Records c i landed (.seed i landed) true
  | beat (h : c.phase = .handling) : Records c i landed (.beat i landed) false

theorem step_cases {a : HeartbeatAction} (hs : w.step a = some w') :
    (∃ d, a = .tick d ∧ w.clock + d ≤ maxTicks ∧
      w' = { w with clock := w.clock + d, store := w.store.purge (serverTime (w.clock + d)) }) ∨
    (∃ T, a = .start T ∧ w' = { w with consumers := w.consumers ++ [w.fresh T] }) ∨
    (∃ i c force landed, w.consumers[i]? = some c ∧ Records c i landed a force ∧
      w' = w.record i c force landed) ∨
    (∃ i c c', w.consumers[i]? = some c ∧ Moves w c a c' ∧ w' = w.setConsumer i c') ∨
    (∃ i, a = .idle i ∧ w' = w) := by
  cases a with
  | tick d =>
    obtain ⟨hd, hs⟩ := Option.ite_none_right_eq_some.mp hs
    exact .inl ⟨d, rfl, hd, (Option.some.inj hs).symm⟩
  | start T => exact .inr (.inl ⟨T, rfl, (Option.some.inj hs).symm⟩)
  | seed i landed =>
    obtain ⟨c, hc, hs⟩ := Option.bind_eq_some_iff.mp hs
    obtain ⟨hp, hs⟩ := Option.ite_none_right_eq_some.mp hs
    exact .inr (.inr (.inl ⟨i, c, true, landed, hc, .seed hp, (Option.some.inj hs).symm⟩))
  | frame i =>
    obtain ⟨c, hc, hs⟩ := Option.bind_eq_some_iff.mp hs
    obtain ⟨hp, hs⟩ := Option.ite_none_right_eq_some.mp hs
    exact .inr (.inr (.inr (.inl ⟨i, c, _, hc, .frame hp, (Option.some.inj hs).symm⟩)))
  | beat i landed =>
    obtain ⟨c, hc, hs⟩ := Option.bind_eq_some_iff.mp hs
    obtain ⟨hp, hs⟩ := Option.ite_none_right_eq_some.mp hs
    exact .inr (.inr (.inl ⟨i, c, false, landed, hc, .beat hp, (Option.some.inj hs).symm⟩))
  | idle i =>
    obtain ⟨c, hc, hs⟩ := Option.bind_eq_some_iff.mp hs
    obtain ⟨hp, hs⟩ := Option.ite_none_right_eq_some.mp hs
    split_ifs at hs with hr
    · exact .inr (.inr (.inr (.inl ⟨i, c, _, hc, .idle hp, (Option.some.inj hs).symm⟩)))
    · exact .inr (.inr (.inr (.inr ⟨i, rfl, (Option.some.inj hs).symm⟩)))

theorem Beating.step (h : Beating w) {a : HeartbeatAction} (hs : w.step a = some w') : Beating w' := by
  rcases step_cases hs with ⟨d, -, hd, rfl⟩ | ⟨T, -, rfl⟩ | ⟨i, c, force, landed, hc, hr, rfl⟩ |
    ⟨i, c, c', hc, hm, rfl⟩ | ⟨i, -, rfl⟩
  · exact h.tick hd
  · exact h.start T
  · refine h.record hc fun hforce => ?_
    cases hr with
    | seed hp => cases hforce
    | beat hp =>
      rw [hp]
      decide
  · have hmem := List.mem_of_getElem? hc
    have hpast := h.past c hmem
    cases hm with
    | frame hp =>
      have hthrottled := (h.throttled c hmem (by rw [hp]; decide)).1
      refine h.setConsumer hc le_rfl (fun _ => ⟨?_, fun hw => by cases hw⟩) fun _ => ⟨by simp, le_rfl⟩
      exact hthrottled.trans (by exact_mod_cast hpast)
    | idle hp => exact h.setConsumer hc hpast (h.throttled c hmem) fun hp' => ⟨hp', le_rfl⟩
  · exact h

end Steps

/-- The time a reader gets from the heartbeat of a message. -/
def readBack (message : ℕ) : ℕ := message / 10000 * 10000

theorem readBack_le (message : ℕ) : readBack message ≤ message := Nat.div_mul_le_self _ _

theorem lt_readBack_add (message : ℕ) : message < readBack message + 10000 := by
  unfold readBack
  omega

/-- The heartbeat that `GetLastMessageUtcAsync` finds is the last one written, until it lapses. -/
theorem Beating.read {w : HeartbeatWorld} (h : Beating w) {b : Beat} (hb : b ∈ w.beats.head?) :
    StreamHeartbeat.getLastMessageUtc (serverTime w.clock) w.store =
      if lapse b < serverTime w.clock then .ok none else .ok (some (readBack b.message)) := by
  unfold StreamHeartbeat.getLastMessageUtc
  rcases h.stored b hb with ⟨hl, hlapse⟩ | ⟨hl, hlapse⟩
  · rw [if_pos hlapse, Store.val, Store.lookup_purge, hl]
    rfl
  · have hle : b.message ≤ maxTicks := by
      obtain ⟨hm, hw, -⟩ := h.beats b (List.mem_of_mem_head? hb)
      exact hm.trans (hw.trans h.clock_le)
    have hrange : -62135596800000 ≤ DateTimeOffset.unixMilliseconds b.message ∧
        DateTimeOffset.unixMilliseconds b.message ≤ 253402300799999 := by
      unfold DateTimeOffset.unixMilliseconds DateTimeOffset.unixEpochSeconds
      unfold maxTicks at hle
      omega
    rw [if_neg (not_lt.mpr hlapse), Store.val, Store.lookup_purge, hl, Option.filter_some,
      if_pos (by simpa [Entry.lapsed] using hlapse)]
    have hparse : parseInt 64 (Decimal.text (DateTimeOffset.unixMilliseconds b.message)) =
        .ok (DateTimeOffset.unixMilliseconds b.message) :=
      parseInt_text ⟨by norm_num; omega, by norm_num; omega⟩
    simp only [Option.map_some, hparse]
    rw [fromUnixTimeMilliseconds, if_pos hrange]
    show Except.ok (some _) = Except.ok (some _)
    congr 2
    unfold DateTimeOffset.unixMilliseconds DateTimeOffset.unixEpochSeconds readBack
    omega

/-- The last heartbeat is still there, and is of a message no further back than `limit`. -/
def Within (b : Beat) (limit clock : ℕ) : Prop :=
  serverTime clock ≤ lapse b ∧ clock - readBack b.message ≤ limit

theorem Beating.health_eq_healthy {w : HeartbeatWorld} (h : Beating w) {b : Beat} (hb : b ∈ w.beats.head?)
    (c : BeatingConsumer) : w.health c = .healthy ↔ Within b c.reconnectAfterSilence w.clock := by
  have hle : readBack b.message ≤ w.clock := by
    obtain ⟨hm, hw, -⟩ := h.beats b (List.mem_of_mem_head? hb)
    exact (readBack_le _).trans (hm.trans hw)
  rw [health, h.read hb]
  unfold Within
  split_ifs with hlapse
  · simp [checkHealth, hlapse]
  · simp only [checkHealth]
    split_ifs with hage
    · simp only [false_iff, not_and_or, not_le]
      exact .inr (by omega)
    · simp only [true_iff]
      exact ⟨not_lt.mp hlapse, by omega⟩

/-- A consumer's own heartbeats never hide its silence. -/
theorem Beating.not_within {w : HeartbeatWorld} (h : Beating w) {b : Beat} (hb : b ∈ w.beats)
    {c : BeatingConsumer} (hc : w.consumers[b.consumer]? = some c) {limit clock : ℕ}
    (hlimit : limit < clock - c.state.lastMessageTicks) : ¬ Within b limit clock := by
  obtain ⟨-, -, d, hd, hp, hwritten⟩ := h.beats b hb
  cases hc.symm.trans hd
  have hlast := (h.throttled c (List.mem_of_getElem? hc) hp).1
  have hcut := readBack_le b.message
  rintro ⟨-, hage⟩
  omega

end HeartbeatWorld

end EliteEvents

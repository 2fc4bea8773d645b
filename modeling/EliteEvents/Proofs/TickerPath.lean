import EliteEvents.Proofs.ShardedIngestion
import EliteEvents.Proofs.TickerPage

/-! A ticker row from the relay to the browser: every consumer sees every broadcast frame, and one of them publishes
what it is worth; Redis passes it on at most once, and so does each hub to each of its clients. -/

namespace EliteEvents

open Text

variable {J : Type} {X : External J}

/-- The writer call and the ticker event that a frame asks for. -/
def frameRequest (X : External J) (json : Str) : Option (WriterCall × LiveEvent) :=
  match readMessage X json with
  | .ok (some (.journal m)) =>
    match JournalMessageHandler.request m with
    | .ok request => request
    | .error _ => none
  | _ => none

/-- What becomes of a request on the ticker: the event follows the write. -/
def Turn.told (t : Turn) : Option (WriterCall × LiveEvent) → Option LiveEvent
  | none => none
  | some (call, live) =>
    match t.writer call with
    | .ok () => some live
    | .error _ => none

/-- The ticker event of what the relay sends. -/
def broadcastEvent (X : External J) (bytes : List UInt8) : Option LiveEvent :=
  match Receiver.receive X (some bytes) with
  | .ok (some json) => (frameRequest X json).map Prod.snd
  | _ => none

def Effect.published : Effect → Option LiveEvent
  | .publish e => some e
  | .handle _ | .write _ _ | .heartbeat _ | .logError _ | .logRecovered _ | .reconnect => none

/-- What a consumer puts on the ticker in one turn: the event of a frame that it owns and has written. -/
def Turn.event (X : External J) (shard : MessageShardFilter) (t : Turn) : Option LiveEvent :=
  match Receiver.receive X t.received with
  | .ok (some json) =>
    if shard.owns json then t.told (frameRequest X json) else none
  | _ => none

/-! What a consumer publishes. -/

namespace Receiver

variable {shard : MessageShardFilter} {silence : ℕ} {t : Turn} {ts : List Turn} {s s' : ReceiverState}
  {es : List Effect}

theorem handle_published (X : External J) (t : Turn) (m : JournalMessage) :
    (JournalMessageHandler.handle X t m).1.filterMap Effect.published =
      match JournalMessageHandler.request m with
      | .ok request => (t.told request).toList
      | .error _ => [] := by
  unfold JournalMessageHandler.handle
  rcases JournalMessageHandler.request m with e | (- | ⟨call, live⟩)
  · rfl
  · rfl
  · simp only [Turn.told]
    rcases t.writer call with e | ⟨⟩ <;> rfl

/-- The one handler there is gets the messages that ask for something. -/
theorem runHandlers_published (X : External J) (t : Turn) (m : JournalMessage) :
    (runHandlers m (getMessageHandlers X t m.event)).1.filterMap Effect.published =
      (JournalMessageHandler.handle X t m).1.filterMap Effect.published := by
  have hone : ∀ h : JournalMessage → List Effect × Except Exn Unit, (runHandlers m [h]).1 = (h m).1 := by
    intro h
    unfold runHandlers
    rcases h m with ⟨es, e | ⟨⟩⟩
    · rfl
    · simp [runHandlers]
  cases he : m.event with
  | docked | fsdJump => exact congrArg _ (hone (JournalMessageHandler.handle X t))
  | scan | location | saaSignalsFound | carrierJump | codexEntry =>
    have hr : JournalMessageHandler.request m = .ok none := by
      rw [JournalMessageHandler.request, he]
    rw [handle_published, hr]
    rfl

theorem dispatch_published (X : External J) (t : Turn) (json : Str) :
    (dispatch X t json).1.filterMap Effect.published = (t.told (frameRequest X json)).toList := by
  unfold dispatch frameRequest
  rcases readMessage X json with e | (- | (m | -))
  · rfl
  · rfl
  · simp only [runHandlers_published, handle_published]
    cases JournalMessageHandler.request m <;> rfl
  · rfl

theorem processMessage_published (X : External J) (t : Turn) (s : ReceiverState) (json : Str) :
    (processMessage X t s json).2.filterMap Effect.published = (t.told (frameRequest X json)).toList := by
  rw [← dispatch_published]
  unfold processMessage
  rcases dispatch X t json with ⟨es, e | ⟨⟩⟩
  · dsimp only
    split_ifs <;> simp [Effect.published]
  · dsimp only
    split_ifs <;> simp [Effect.published]

theorem recordHeartbeat_published (t : Turn) (force : Bool) (s : ReceiverState) :
    (recordHeartbeat t force s).2.filterMap Effect.published = [] := by
  unfold recordHeartbeat
  split_ifs
  · rfl
  · dsimp only
    rcases t.heartbeatWrite with e | ⟨⟩ <;> rfl

theorem onFrame_published (X : External J) (shard : MessageShardFilter) (t : Turn) (s : ReceiverState) (json : Str) :
    (onFrame X shard t s json).2.filterMap Effect.published =
      (if shard.owns json then t.told (frameRequest X json) else none).toList := by
  unfold onFrame
  dsimp only
  split_ifs
  · rw [List.filterMap_append, recordHeartbeat_published, List.append_nil, processMessage_published]
  · rw [List.nil_append, recordHeartbeat_published]
    rfl

/-- A turn that completes publishes its event and nothing else. -/
theorem turn_published (h : turn X shard silence t s = .ok (s', es)) :
    es.filterMap Effect.published = (t.event X shard).toList := by
  unfold turn at h
  unfold Turn.event
  split at h
  · cases h
  · rename_i json hr
    obtain rfl : (onFrame X shard t s json).2 = es := congrArg Prod.snd (Except.ok.inj h)
    simp only [hr, onFrame_published]
  · rename_i hr
    simp only [hr]
    split_ifs at h <;> cases h <;> rfl

/-- What a run publishes are the events of its turns, up to the one that an exception ended. -/
theorem loop_published (ts : List Turn) (s : ReceiverState) :
    (loop X shard silence ts s).turns.flatten.filterMap Effect.published <+: ts.filterMap (Turn.event X shard) ∧
      ((loop X shard silence ts s).escaped = none →
        (loop X shard silence ts s).turns.flatten.filterMap Effect.published = ts.filterMap (Turn.event X shard)) := by
  induction ts generalizing s with
  | nil => exact ⟨List.prefix_rfl, fun _ => rfl⟩
  | cons t ts ih =>
    unfold loop
    rcases ht : turn X shard silence t s with e | ⟨s', es⟩
    · exact ⟨List.nil_prefix, nofun⟩
    · obtain ⟨hpre, heq⟩ := ih s'
      have hcons : (t :: ts).filterMap (Turn.event X shard) =
          (t.event X shard).toList ++ ts.filterMap (Turn.event X shard) := by
        rw [List.filterMap_cons]
        cases t.event X shard <;> rfl
      dsimp only
      rw [hcons, List.flatten_cons, List.filterMap_append, turn_published ht]
      exact ⟨(List.prefix_append_right_inj _).mpr hpre, fun he => by rw [heq he]⟩

end Receiver

/-! What the consumers publish together. -/

/-- The event of what the relay sends, for the consumer that owns it. -/
def ownedEvent (X : External J) (shard : MessageShardFilter) (bytes : List UInt8) : Option LiveEvent :=
  match Receiver.receive X (some bytes) with
  | .ok (some json) => if shard.owns json then (frameRequest X json).map Prod.snd else none
  | _ => none

/-- What is told is of a frame that was received, -/
theorem event_eq_none_or (X : External J) (shard : MessageShardFilter) (t : Turn) :
    t.event X shard = none ∨ t.event X shard = t.received.bind (ownedEvent X shard) := by
  unfold Turn.event ownedEvent
  cases t.received with
  | none => exact .inl rfl
  | some bytes =>
    rw [Option.bind_some]
    rcases Receiver.receive X (some bytes) with e | (- | json)
    · exact .inl rfl
    · exact .inl rfl
    · dsimp only
      split_ifs
      · rcases frameRequest X json with - | ⟨call, live⟩
        · exact .inl rfl
        · simp only [Turn.told]
          rcases t.writer call with e | ⟨⟩
          · exact .inl rfl
          · exact .inr rfl
      · exact .inl rfl

/-- and where the writer succeeds, each such frame is told. -/
theorem event_of_written {shard : MessageShardFilter} {t : Turn} (h : ∀ call, t.writer call = .ok ()) :
    t.event X shard = t.received.bind (ownedEvent X shard) := by
  unfold Turn.event ownedEvent
  cases t.received with
  | none => rfl
  | some bytes =>
    rw [Option.bind_some]
    rcases Receiver.receive X (some bytes) with e | (- | json)
    · rfl
    · rfl
    · dsimp only
      split_ifs
      · rcases frameRequest X json with - | ⟨call, live⟩
        · rfl
        · simp only [Turn.told, h]
          rfl
      · rfl

theorem events_sublist (X : External J) (shard : MessageShardFilter) (ts : List Turn) :
    (ts.filterMap (Turn.event X shard)).Sublist ((ts.filterMap Turn.received).filterMap (ownedEvent X shard)) := by
  rw [List.filterMap_filterMap]
  induction ts with
  | nil => exact List.Sublist.refl _
  | cons t ts ih =>
    rw [List.filterMap_cons, List.filterMap_cons]
    rcases event_eq_none_or X shard t with h | h
    · rw [h]
      cases t.received.bind (ownedEvent X shard) with
      | none => exact ih
      | some e => exact ih.cons e
    · rw [h]
      cases t.received.bind (ownedEvent X shard) with
      | none => exact ih
      | some e => exact ih.cons_cons e

/-- A list told piece by piece. -/
theorem sum_filterMap {α β : Type} {n : ℕ} {f : α → Option β} {g : Fin n → α → Option β}
    (h : ∀ a, ∑ k, ((g k a).toList : Multiset β) = (f a).toList) (l : List α) :
    ∑ k, (l.filterMap (g k) : Multiset β) = l.filterMap f := by
  have hcons : ∀ (f : α → Option β) (a : α) (l : List α),
      ((a :: l).filterMap f : Multiset β) = ((f a).toList : Multiset β) + (l.filterMap f : Multiset β) := by
    intro f a l
    rw [List.filterMap_cons]
    cases f a <;> rfl
  induction l with
  | nil => simp
  | cons a l ih => rw [hcons f, ← h a, ← ih, ← Finset.sum_add_distrib, Finset.sum_congr rfl fun k _ => hcons (g k) a l]

theorem sum_ownedEvent {n : ℕ} {filters : Fin n → MessageShardFilter}
    (howner : ∀ json, ∃! k, (filters k).owns json = true) (X : External J) (bytes : List UInt8) :
    ∑ k, ((ownedEvent X (filters k) bytes).toList : Multiset LiveEvent) = (broadcastEvent X bytes).toList := by
  unfold ownedEvent broadcastEvent
  rcases Receiver.receive X (some bytes) with e | (- | json)
  · simp
  · simp
  · obtain ⟨o, ho, huniq⟩ := howner json
    dsimp only at ho ⊢
    rw [Finset.sum_eq_single o, if_pos ho]
    · intro k _ hk
      rw [if_neg fun h => hk (huniq k h)]
      rfl
    · exact fun h => absurd (Finset.mem_univ o) h

/-! From the channel to the browsers. -/

namespace LiveEventHub

def Action.text : Action → Option Str
  | .message m => some m
  | .values _ | .tryWrite _ | .subscribeClient _ | .dispose _ | .tryRead _ => none

theorem published_eq (Y : TickerLibrary) (as : List Action) :
    published Y as = (as.filterMap Action.text).filterMap (frame Y) := by
  rw [published, List.filterMap_filterMap]
  exact List.filterMap_congr fun a _ => by cases a <;> rfl

theorem received_sublist_published {Y : TickerLibrary} {s : State} {as : List Action} (h : run Y .init as = some s)
    (c : Guid) : (s.received c).Sublist (published Y as) :=
  received_after rfl List.not_mem_nil h

end LiveEventHub

open LiveEventHub in
/-- A feed with any number of consumers tells the ticker what one would. However the consumers' loops run on frames of
one broadcast, whatever they miss, whichever writes fail and wherever an exception ends them, together they publish the
event of each broadcast frame at most once; and exactly once if they miss none and their writes succeed. As long as
Redis passes on no more than was published, no browser gets more rows than the broadcast had events. -/
theorem each_frame_told_once (X : External J) (fl : FeedListener) (hN : 1 ≤ fl.spec.consumers) (configHash : String)
    (filters : Fin fl.spec.shards → MessageShardFilter)
    (hf : ∀ k, shardFilter (shardEnv fl k.val configHash) = .ok (filters k)) (silence start : Fin fl.spec.shards → ℕ)
    (seed : Fin fl.spec.shards → Turn) (turns : Fin fl.spec.shards → List Turn) (broadcast : List (List UInt8))
    (hb : ∀ k, ((turns k).filterMap Turn.received).Sublist broadcast)
    (outcome : Fin fl.spec.shards → Receiver.Outcome)
    (ho : ∀ k, outcome k = (Receiver.execute X (filters k) (silence k) (start k) (seed k) (turns k)).2)
    (told : Multiset LiveEvent)
    (ht : told = ∑ k, ((outcome k).turns.flatten.filterMap Effect.published : Multiset LiveEvent)) :
    told ≤ (broadcast.filterMap (broadcastEvent X) : List _) ∧
      ((∀ k, (outcome k).escaped = none ∧ (turns k).filterMap Turn.received = broadcast ∧
          ∀ t ∈ turns k, ∀ call, t.writer call = .ok ()) →
        told = (broadcast.filterMap (broadcastEvent X) : List _)) ∧
      ∀ (Y : TickerLibrary) (as : List LiveEventHub.Action) (s : State), run Y .init as = some s →
        ((as.filterMap LiveEventHub.Action.text : List Str) : Multiset Str) ≤ told.map Y.serializeObject →
        ∀ c, (s.received c : Multiset TickerFrame) ≤
          ((broadcast.filterMap (broadcastEvent X)).filterMap fun e => frame Y (Y.serializeObject e) : List _) := by
  choose filters' hf' hindex hcount using fun k : Fin fl.spec.shards => shardFilter_shardEnv fl hN k.isLt configHash
  obtain rfl : filters' = filters := funext fun k => Except.ok.inj ((hf' k).symm.trans (hf k))
  have howner : ∀ json, ∃! k, (filters' k).owns json = true := by
    intro json
    have h := consumers_eq hN
    have h1 := Int32.le_iff_toInt_le.mp hN
    rw [h, Int32.toInt_one] at h1
    exact Partition.owner_unique (fun k => ⟨hindex k, hcount k⟩) (by omega) json
  have hall := sum_filterMap (sum_ownedEvent howner X) broadcast
  have hloop : ∀ k,
      (outcome k).turns.flatten.filterMap Effect.published <+: (turns k).filterMap (Turn.event X (filters' k)) ∧
      ((outcome k).escaped = none →
        (outcome k).turns.flatten.filterMap Effect.published = (turns k).filterMap (Turn.event X (filters' k))) := by
    intro k
    rw [ho k]
    exact Receiver.loop_published (turns k) _
  have hle : told ≤ (broadcast.filterMap (broadcastEvent X) : List _) := by
    rw [ht, ← hall]
    refine Finset.sum_le_sum fun k _ => Multiset.coe_le.mpr (List.Sublist.subperm ?_)
    exact ((hloop k).1.sublist.trans (events_sublist X (filters' k) (turns k))).trans ((hb k).filterMap _)
  refine ⟨hle, fun hwell => ?_, fun Y as s hrun htexts c => ?_⟩
  · rw [ht, ← hall]
    refine Finset.sum_congr rfl fun k _ => ?_
    obtain ⟨hescaped, hreceived, hwritten⟩ := hwell k
    rw [(hloop k).2 hescaped, ← hreceived, List.filterMap_filterMap]
    exact congrArg _ (List.filterMap_congr fun t htk => event_of_written (hwritten t htk))
  · have htexts' := htexts.trans (Multiset.map_le_map hle)
    have hframes := Multiset.filterMap_le_filterMap (frame Y) htexts'
    have hreceived := Multiset.coe_le.mpr (received_sublist_published hrun c).subperm
    rw [published_eq] at hreceived
    refine hreceived.trans (hframes.trans (le_of_eq ?_))
    rw [Multiset.map_coe, Multiset.filterMap_coe, List.filterMap_map]
    rfl

/-- A relay whose every frame is the jump to Sol. -/
def jumpRelay : External JournalMessage :=
  { jumpExternal with
    uncompressBuffer := fun bytes => .ok (some bytes)
    getString := fun _ => jumpFrame }

def jumpTurn : Turn :=
  { Clocks.turn ⟨639028224000000000, 639028224000000000, 639028224000000000⟩ with received := some [1] }

def jumpOutcome (k : Fin 2) : Receiver.Outcome :=
  (Receiver.execute jumpRelay (eddnFilter k) 1200000000 0 jumpTurn [jumpTurn]).2

/-- Both shards see the jump, and the ticker is told once. -/
theorem each_frame_told_once_jump :
    ∑ k, ((jumpOutcome k).turns.flatten.filterMap Effect.published : Multiset LiveEvent) =
      {LiveEvent.fsdJump (some (lit "Sol")) jumpMessage.gatewayTimestamp} := by
  have hevent : [[1]].filterMap (broadcastEvent jumpRelay) =
      [LiveEvent.fsdJump (some (lit "Sol")) jumpMessage.gatewayTimestamp] := by
    decide +kernel
  have hescaped : ∀ k, (jumpOutcome k).escaped = none := by
    decide +kernel
  obtain ⟨-, h, -⟩ := each_frame_told_once jumpRelay (eddnFeed 1 2) (by decide) "" eddnFilter eddnFilter_env
    (fun _ => 1200000000) (fun _ => 0) (fun _ => jumpTurn) (fun _ => [jumpTurn]) [[1]] (fun _ => List.Sublist.refl _)
    jumpOutcome (fun _ => rfl) _ rfl
  have hwritten : ∀ t ∈ [jumpTurn], ∀ call, t.writer call = .ok () := by
    intro t ht call
    rw [List.mem_singleton.mp ht]
    rfl
  exact (h fun k => ⟨hescaped k, rfl, hwritten⟩).trans (congrArg _ hevent)

end EliteEvents

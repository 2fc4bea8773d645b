import EliteEvents.Proofs.Builders
import EliteEvents.Proofs.TypedStore

/-! Sharded ingestion adds up to what a single consumer would have written. A frame's
commands do not depend on who sends them, every frame has exactly one owner, and what the
commands leave behind depends only on which of them ran, not on the order. -/

namespace EliteEvents

open Text Redis RedisKeys

variable {J : Type}

/-- The writer call of a frame, if it has one. -/
def frameCall (X : External J) (json : Str) : Option WriterCall :=
  match readMessage X json with
  | .ok (some (.journal m)) =>
    match JournalMessageHandler.request m with
    | .ok (some (call, _)) => some call
    | _ => none
  | _ => none

/-- The commands of a frame that count. -/
def frameWork (X : External J) (json : Str) : Multiset Cmd :=
  match frameCall X json with
  | none => 0
  | some call => counted (DockingWriter.batch X.casing 0 call)

theorem counted_batch (I : Casing) (nextExpiration : Time) (call : WriterCall) :
    counted (DockingWriter.batch I nextExpiration call) = counted (DockingWriter.batch I 0 call) := by
  cases call with
  | fleetCarrierDocking c t => rfl
  | stationDocking s x y t => rfl
  | systemVisit s => rfl

/-- What a consumer sends: the commands of a writer call, or a heartbeat. -/
def Sent (I : Casing) (c : Cmd) : Prop :=
  (∃ call, Sends I call c) ∨ ∃ v ttl, c = .set (wire Entity.eddnHeartbeat.key) v ttl

theorem counted_heartbeat {cs : List Cmd}
    (h : ∀ c ∈ cs, ∃ v ttl, c = .set (wire Entity.eddnHeartbeat.key) v ttl) : counted cs = 0 := by
  have hf : cs.filter Cmd.counts = [] := by
    refine List.filter_eq_nil_iff.mpr fun c hc => ?_
    obtain ⟨v, ttl, rfl⟩ := h c hc
    exact Bool.false_ne_true
  rw [counted, hf]
  rfl

theorem recordHeartbeat_commands (I : Casing) (t : Turn) (force : Bool) (s : ReceiverState) :
    ∀ c ∈ (Receiver.recordHeartbeat t force s).2.flatMap (Effect.commands I),
      ∃ v ttl, c = .set (wire Entity.eddnHeartbeat.key) v ttl := by
  intro c hc
  unfold Receiver.recordHeartbeat at hc
  split_ifs at hc with h
  · cases hc
  · split at hc
    · simp only [List.flatMap_cons, List.flatMap_nil, List.append_nil, Effect.commands,
        List.mem_singleton] at hc
      exact ⟨_, _, hc⟩
    · cases hc

/-- With Redis answering, the handlers send the batch of the frame's call and nothing else. -/
theorem dispatch_commands (X : External J) (t : Clocks) (json : Str) :
    (dispatch X t.turn json).1.flatMap (Effect.commands X.casing) =
      match frameCall X json with
      | none => []
      | some call => DockingWriter.batch X.casing (X.nextExpirationUtc t.batchBuilt) call := by
  unfold dispatch frameCall
  cases hr : readMessage X json with
  | error e => rfl
  | ok msg =>
    rcases msg with - | (m | -)
    · rfl
    · cases hq : JournalMessageHandler.request m with
      | error e =>
        cases he : m.event <;>
          simp [getMessageHandlers, JournalMessageHandler.handles, runHandlers, he, hq,
            JournalMessageHandler.handle, Effect.commands]
      | ok p =>
        cases he : m.event <;> rcases p with - | ⟨call, live⟩ <;>
          simp_all [getMessageHandlers, JournalMessageHandler.handles, runHandlers,
            JournalMessageHandler.handle, JournalMessageHandler.request, Effect.commands, Clocks.turn]
    · rfl

theorem processMessage_commands (X : External J) (t : Clocks) (s : ReceiverState) (json : Str) :
    (Receiver.processMessage X t.turn s json).2.flatMap (Effect.commands X.casing) =
      (dispatch X t.turn json).1.flatMap (Effect.commands X.casing) := by
  unfold Receiver.processMessage
  rcases hd : dispatch X t.turn json with ⟨es, e | ⟨⟩⟩
  · simp only
    split_ifs <;> simp [Effect.commands]
  · simp only
    split_ifs <;> simp [Effect.commands]

/-- The commands a consumer owes for a frame: the frame's batch if it owns it, then perhaps a
heartbeat. -/
theorem onFrame_commands (X : External J) (shard : MessageShardFilter) (t : Clocks)
    (s : ReceiverState) (str : Str) :
    (∀ c ∈ (Receiver.onFrame X shard t.turn s str).2.flatMap (Effect.commands X.casing),
      Sent X.casing c) ∧
    counted ((Receiver.onFrame X shard t.turn s str).2.flatMap (Effect.commands X.casing)) =
      if shard.owns str then frameWork X str else 0 := by
  have hb := fun s => recordHeartbeat_commands X.casing t.turn false s
  unfold Receiver.onFrame
  by_cases ho : shard.owns str
  · simp only [ho, if_true, List.flatMap_append]
    rw [counted_append, counted_heartbeat (hb _), add_zero, processMessage_commands,
      dispatch_commands]
    unfold frameWork
    cases hf : frameCall X str with
    | none => exact ⟨fun c hc => .inr (hb _ c (by simpa using hc)), rfl⟩
    | some call =>
      refine ⟨fun c hc => ?_, counted_batch _ _ call⟩
      rcases List.mem_append.mp hc with hc | hc
      · exact .inl ⟨call, sends_of_mem_batch hc⟩
      · exact .inr (hb _ c hc)
  · simp only [ho]
    exact ⟨fun c hc => .inr (hb _ c hc), counted_heartbeat (hb _)⟩

namespace Consumer

/-- What a consumer has yet to add: its pending commands, and the frames it will own. -/
def owed (X : External J) (c : Consumer) : Multiset Cmd :=
  counted c.pending + ((c.inbox.filter c.shard.owns).map (frameWork X)).sum

theorem start_pending (I : Casing) (shard : MessageShardFilter) (start : ℕ) (frames : List Str) :
    ∀ c ∈ (Consumer.start I shard start frames).pending,
      ∃ v ttl, c = .set (wire Entity.eddnHeartbeat.key) v ttl :=
  recordHeartbeat_commands I (Clocks.turn ⟨start, start, start⟩) true ⟨0, 0, start, 0, 0, 0, 0⟩

theorem owed_start (X : External J) (shard : MessageShardFilter) (start : ℕ) (frames : List Str) :
    (Consumer.start X.casing shard start frames).owed X =
      ((frames.filter shard.owns).map (frameWork X)).sum := by
  have hb := counted_heartbeat (start_pending X.casing shard start frames)
  exact (congrArg (· + _) hb).trans (zero_add _)

end Consumer

namespace Ingestion

variable {n : ℕ}

/-- What all consumers together have yet to add. -/
def owed (X : External J) (w : Ingestion n) : Multiset Cmd := ∑ k, (w.consumers k).owed X

/-- Only commands of the writers and heartbeats are on their way. -/
def Pending (I : Casing) (w : Ingestion n) : Prop := ∀ k, ∀ c ∈ (w.consumers k).pending, Sent I c

theorem Pending.update {I : Casing} {w : Ingestion n} (h : w.Pending I) (σ : Store) (k : Fin n)
    {c : Consumer} (hc : ∀ cmd ∈ c.pending, Sent I cmd) :
    Pending I ⟨σ, Function.update w.consumers k c⟩ := by
  intro j cmd (hm : cmd ∈ (Function.update w.consumers k c j).pending)
  by_cases hj : j = k
  · subst hj
    rw [Function.update_self] at hm
    exact hc cmd hm
  · rw [Function.update_of_ne hj] at hm
    exact h j cmd hm

theorem sum_update (X : External J) (cs : Fin n → Consumer) (k : Fin n) (c : Consumer)
    {m : Multiset Cmd} (h : m + c.owed X = (cs k).owed X) :
    m + ∑ j, (Function.update cs k c j).owed X = ∑ j, (cs j).owed X := by
  have hrest : ∀ j ∈ Finset.univ.erase k,
      (Function.update cs k c j).owed X = (cs j).owed X := fun j hj => by
    rw [Function.update_of_ne (Finset.ne_of_mem_erase hj)]
  rw [← Finset.add_sum_erase _ _ (Finset.mem_univ k), ← Finset.add_sum_erase _ (fun j => (cs j).owed X)
    (Finset.mem_univ k), Finset.sum_congr rfl hrest, Function.update_self, ← add_assoc, h]

/-- One step runs at most one command, and owes exactly the rest. -/
theorem step_trace {X : External J} {w w' : Ingestion n} {a : IngestionAction n}
    (h : w.step X a = some w') (hp : w.Pending X.casing) :
    w'.Pending X.casing ∧ ∃ cs : List (Time × Cmd), runAll cs w.store = .ok w'.store ∧
      (∀ p ∈ cs, Sent X.casing p.2 ∧ lapses p.1 p.2 = false) ∧
      counted (cs.map Prod.snd) + w'.owed X = w.owed X := by
  cases a with
  | receive k t =>
    simp only [step] at h
    split at h
    · rename_i str rest hi hpend
      cases h
      obtain ⟨hsent, hwork⟩ := onFrame_commands X (w.consumers k).shard t (w.consumers k).state str
      refine ⟨hp.update _ k hsent, [], rfl, fun p hp => (List.not_mem_nil hp).elim, ?_⟩
      refine sum_update X w.consumers k _ ?_
      rw [Consumer.owed, Consumer.owed, hwork, hi, hpend, List.filter_cons]
      show 0 + _ = (0 + _ : Multiset Cmd)
      split_ifs with ho
      · rw [List.map_cons, List.sum_cons]
      · rw [zero_add]
    · cases h
  | command k now =>
    simp only [step] at h
    split at h
    · cases h
    · rename_i cmd rest hpend
      split_ifs at h with hl
      split at h
      · cases h
      · rename_i σ hr
        cases h
        have hmem : ∀ c ∈ cmd :: rest, Sent X.casing c := fun c hc => hp k c (by rw [hpend]; exact hc)
        refine ⟨hp.update _ k fun c hc => hmem c (List.mem_cons_of_mem cmd hc), [(now, cmd)], ?_,
          fun p hq => ?_, ?_⟩
        · rw [runAll, hr]
          rfl
        · rw [List.mem_singleton.mp hq]
          exact ⟨hmem cmd List.mem_cons_self, Bool.eq_false_iff.mpr hl⟩
        · refine sum_update X w.consumers k _ ?_
          rw [Consumer.owed, Consumer.owed, hpend, counted_cons, add_assoc]
          rfl

/-- A run executes a sequence of commands, and owes exactly the rest. -/
theorem run_trace {X : External J} {acts : List (IngestionAction n)} {w w' : Ingestion n}
    (h : w.run X acts = some w') (hp : w.Pending X.casing) :
    ∃ cs : List (Time × Cmd), runAll cs w.store = .ok w'.store ∧
      (∀ p ∈ cs, Sent X.casing p.2 ∧ lapses p.1 p.2 = false) ∧
      counted (cs.map Prod.snd) + w'.owed X = w.owed X := by
  induction acts generalizing w with
  | nil =>
    cases h
    exact ⟨[], rfl, fun p hp => (List.not_mem_nil hp).elim, zero_add _⟩
  | cons a acts ih =>
    obtain ⟨w₁, hs, hr⟩ := Option.bind_eq_some_iff.mp h
    obtain ⟨hp₁, cs, hcs, hsent, howed⟩ := step_trace hs hp
    obtain ⟨ds, hds, hsent', howed'⟩ := ih hr hp₁
    refine ⟨cs ++ ds, runAll_append hcs hds, fun p hp => ?_, ?_⟩
    · exact (List.mem_append.mp hp).elim (hsent p) (hsent' p)
    · rw [List.map_append, counted_append, add_assoc, howed', howed]

theorem Done.owed_eq_zero {w : Ingestion n} (h : w.Done) (X : External J) : w.owed X = 0 := by
  refine Finset.sum_eq_zero fun k _ => ?_
  rw [Consumer.owed, (h k).1, (h k).2]
  rfl

theorem pending_start (I : Casing) (filters : Fin n → MessageShardFilter) (starts : Fin n → ℕ)
    (frames : List Str) (σ : Store) : (start I filters starts frames σ).Pending I :=
  fun k c hc => .inr (Consumer.start_pending I (filters k) (starts k) frames c hc)

/-- At the start the consumers together owe every frame once. -/
theorem owed_start {filters : Fin n → MessageShardFilter}
    (howner : ∀ str, ∃! k, (filters k).owns str = true) (X : External J) (starts : Fin n → ℕ)
    (frames : List Str) (σ : Store) :
    (start X.casing filters starts frames σ).owed X = (frames.map (frameWork X)).sum := by
  have hk : (start X.casing filters starts frames σ).owed X =
      ∑ k, ((frames.filter (filters k).owns).map (frameWork X)).sum :=
    Finset.sum_congr rfl fun k _ => Consumer.owed_start X (filters k) (starts k) frames
  rw [hk]
  induction frames with
  | nil => simp
  | cons str frames ih =>
    obtain ⟨o, ho, huniq⟩ := howner str
    have hsplit : ∀ k, (((str :: frames).filter (filters k).owns).map (frameWork X)).sum =
        (if k = o then frameWork X str else 0) +
          ((frames.filter (filters k).owns).map (frameWork X)).sum := by
      intro k
      rw [List.filter_cons]
      by_cases hko : k = o
      · subst hko
        rw [if_pos ho, if_pos rfl, List.map_cons, List.sum_cons]
      · have hno : ¬ (filters k).owns str = true := fun h => hko (huniq k h)
        rw [if_neg hno, if_neg hko, zero_add]
    simp only [hsplit, Finset.sum_add_distrib, Finset.sum_ite_eq', Finset.mem_univ, if_true,
      List.map_cons, List.sum_cons]
    rw [ih (Finset.sum_congr rfl fun k _ => Consumer.owed_start X (filters k) (starts k) frames)]

end Ingestion

section Totals

variable {I : Casing} {c : Cmd} {now : Time}

theorem Sent.onlyAdds (h : Sent I c) (hl : lapses now c = false) {e : Entity}
    (he : e.encode ≠ .eddnHeartbeat) : c.OnlyAdds now (wire e.key) := by
  rcases h with ⟨call, hs⟩ | ⟨v, ttl, rfl⟩
  · cases hs with
    | expireVisits s deadline =>
      intro _
      exact Nat.lt_of_not_le (of_decide_eq_false hl)
    | _ => trivial
  · exact fun hk => he (encode_eq_of_wire_key hk).symm

theorem Sent.keepsCount (h : Sent I c) (K : Str) : c.KeepsField K stationCountField := by
  rcases h with ⟨call, hs⟩ | ⟨v, ttl, rfl⟩
  · cases hs with
    | describeStation s x y t =>
      intro _
      simp only [List.map_cons, List.map_nil]
      decide
    | _ => trivial
  · trivial

/-- The visit counts are only ever incremented. -/
theorem Sent.ne_zadd_visits (h : Sent I c) (es : List (Str × ℤ)) :
    c ≠ .zadd (wire Entity.systemVisits.key) es := by
  rintro rfl
  rcases h with ⟨call, hs⟩ | ⟨v, ttl, hc⟩
  · generalize hk : wire Entity.systemVisits.key = K at hs
    cases hs with
    | addDay cr t => cases encode_eq_of_wire_key hk
    | indexCarrier cr t => cases encode_eq_of_wire_key hk
    | addStation s x y t => cases encode_eq_of_wire_key hk
    | indexSystem s x y t => cases encode_eq_of_wire_key hk
  · cases hc

/-- Two stores hold the same numbers: the counts of every station and of every carrier's day,
the visit scores, and the members of every sorted set. -/
structure SameTotals (σ τ : Store) : Prop where
  stations : ∀ s x, σ.hcount (wire (Entity.station s x).key) stationCountField =
    τ.hcount (wire (Entity.station s x).key) stationCountField
  carriers : ∀ cr d, σ.counter (wire (Entity.carrierDaily cr d).key) =
    τ.counter (wire (Entity.carrierDaily cr d).key)
  visits : ∀ m, σ.zscore (wire Entity.systemVisits.key) m = τ.zscore (wire Entity.systemVisits.key) m
  members : ∀ e : Entity, e.IsSortedSet →
    ∀ m, m ∈ σ.zmembers (wire e.key) ↔ m ∈ τ.zmembers (wire e.key)

theorem sameTotals_of_counted {cs ds : List (Time × Cmd)} {σ₀ σ τ : Store}
    (hcs : ∀ p ∈ cs, Sent I p.2 ∧ lapses p.1 p.2 = false)
    (hds : ∀ p ∈ ds, Sent I p.2 ∧ lapses p.1 p.2 = false)
    (hσ : runAll cs σ₀ = .ok σ) (hτ : runAll ds σ₀ = .ok τ)
    (hc : counted (cs.map Prod.snd) = counted (ds.map Prod.snd)) : SameTotals σ τ := by
  have hadd : ∀ {l : List (Time × Cmd)}, (∀ p ∈ l, Sent I p.2 ∧ lapses p.1 p.2 = false) →
      ∀ {e : Entity}, e.encode ≠ .eddnHeartbeat → ∀ p ∈ l, p.2.OnlyAdds p.1 (wire e.key) :=
    fun h _ he p hp => (h p hp).1.onlyAdds (h p hp).2 he
  have hmem : ∀ e : Entity, e.IsSortedSet → ∀ m,
      (σ.zscore (wire e.key) m).isSome ↔ (τ.zscore (wire e.key) m).isSome := by
    intro e he m
    have hne : e.encode ≠ .eddnHeartbeat := by
      cases e with
      | eddnHeartbeat => exact he.elim
      | _ => exact fun h => by cases h
    rw [isMember_runAll hσ (hadd hcs hne), isMember_runAll hτ (hadd hds hne), hc]
  refine ⟨fun s x => ?_, fun cr d => ?_, fun m => ?_, fun e he m => ?_⟩
  · have hne : (Entity.station s x).encode ≠ .eddnHeartbeat := fun h => by cases h
    rw [hcount_runAll hσ (hadd hcs hne) fun p hp => (hcs p hp).1.keepsCount _,
      hcount_runAll hτ (hadd hds hne) fun p hp => (hds p hp).1.keepsCount _, hc]
  · have hne : (Entity.carrierDaily cr d).encode ≠ .eddnHeartbeat := fun h => by cases h
    rw [counter_runAll hσ (hadd hcs hne), counter_runAll hτ (hadd hds hne), hc]
  · have hne : Entity.systemVisits.encode ≠ .eddnHeartbeat := fun h => by cases h
    have hscore : (σ.zscore (wire Entity.systemVisits.key) m).getD 0 =
        (τ.zscore (wire Entity.systemVisits.key) m).getD 0 := by
      rw [score_runAll hσ (hadd hcs hne) fun p hp es => (hcs p hp).1.ne_zadd_visits es,
        score_runAll hτ (hadd hds hne) fun p hp es => (hds p hp).1.ne_zadd_visits es, hc]
    have hsome := hmem .systemVisits trivial m
    cases h1 : σ.zscore (wire Entity.systemVisits.key) m with
    | none =>
      cases h2 : τ.zscore (wire Entity.systemVisits.key) m with
      | none => rfl
      | some b => simp [h1, h2] at hsome
    | some a =>
      cases h2 : τ.zscore (wire Entity.systemVisits.key) m with
      | none => simp [h1, h2] at hsome
      | some b =>
        rw [h1, h2] at hscore
        exact congrArg some hscore
  · rw [Store.mem_zmembers, Store.mem_zmembers]
    exact hmem e he m

end Totals

/-- The filter of a consumer that is alone. -/
theorem single_partition {single : MessageShardFilter} (h : MessageShardFilter.create 0 1 = .ok single) :
    Partition 1 fun _ => single := by
  cases h
  intro k
  rw [Fin.fin_one_eq_zero k]
  exact ⟨rfl, rfl⟩

/-- Sharded ingestion refines ingestion by one consumer. For any feed with at least one consumer,
the shards the operator configures come up and own every frame exactly once; and however their
turns and commands interleave, the totals they leave are those of a single consumer that was sent
the same frames on the same store. -/
theorem sharded_ingestion_refines (X : External J) (fl : FeedListener) (hN : 1 ≤ fl.spec.consumers)
    (configHash : String) :
    ∃ filters : Fin fl.spec.shards → MessageShardFilter,
      (∀ k, shardFilter (shardEnv fl k.val configHash) = .ok (filters k)) ∧
      (∀ str, ∃! k, (filters k).owns str = true) ∧
      ∀ single, MessageShardFilter.create 0 1 = .ok single →
      ∀ (frames : List Str) (σ : Store) (starts : Fin fl.spec.shards → ℕ) (start₁ : Fin 1 → ℕ)
        (acts : List (IngestionAction fl.spec.shards)) (acts₁ : List (IngestionAction 1))
        (w : Ingestion fl.spec.shards) (w₁ : Ingestion 1),
        (Ingestion.start X.casing filters starts frames σ).run X acts = some w → w.Done →
        (Ingestion.start X.casing (fun _ => single) start₁ frames σ).run X acts₁ = some w₁ →
        w₁.Done → SameTotals w.store w₁.store := by
  choose filters hf hindex hcount using
    fun k : Fin fl.spec.shards => shardFilter_shardEnv fl hN k.isLt configHash
  have hpos : 0 < fl.spec.shards := by
    have h := consumers_eq hN
    have h1 := Int32.le_iff_toInt_le.mp hN
    rw [h, Int32.toInt_one] at h1
    omega
  have howner : ∀ str, ∃! k, (filters k).owns str = true := fun str =>
    Partition.owner_unique (fun k => ⟨hindex k, hcount k⟩) hpos str
  refine ⟨filters, hf, howner, ?_⟩
  intro single hs frames σ starts start₁ acts acts₁ w w₁ hw hdone hw₁ hdone₁
  have howner₁ : ∀ str, ∃! k : Fin 1, single.owns str = true := fun str =>
    (single_partition hs).owner_unique one_pos str
  have hp := Ingestion.pending_start X.casing filters starts frames σ
  have hp₁ := Ingestion.pending_start X.casing (fun _ => single) start₁ frames σ
  obtain ⟨cs, hcs, hsent, howed⟩ := Ingestion.run_trace hw hp
  obtain ⟨ds, hds, hsent₁, howed₁⟩ := Ingestion.run_trace hw₁ hp₁
  refine sameTotals_of_counted hsent hsent₁ hcs hds ?_
  -- each run has added what it owed at the start, which is every frame once
  rw [hdone.owed_eq_zero, add_zero, Ingestion.owed_start howner] at howed
  rw [hdone₁.owed_eq_zero, add_zero, Ingestion.owed_start howner₁] at howed₁
  rw [howed, howed₁]

section Jump

/-- A jump to Sol as it is broadcast on 1 January 2026, and the message it is read as. -/
def jumpFrame : Str :=
  lit ("\x7b\"$schemaRef\":\"https://eddn.edcd.io/schemas/journal/1\",\"header\":" ++
    "\x7b\"gatewayTimestamp\":\"2026-01-01T00:00:00Z\"\x7d,\"message\":" ++
    "\x7b\"event\":\"FSDJump\",\"StarSystem\":\"Sol\"\x7d\x7d")

def jumpMessage : JournalMessage where
  gatewayTimestamp := ⟨639028224000000000, 0, by decide⟩
  event := .fsdJump
  starSystem := some (lit "Sol")
  additionalProperties := []

/-- The libraries on that frame, that morning. -/
def jumpExternal : External JournalMessage where
  casing := asciiCasing
  uncompressBuffer := fun _ => .error .zlib
  getString := fun _ => []
  parse := fun json => if json = jumpFrame then .ok jumpMessage else .error .json
  schemaRef := fun _ => .ok (some MessageFactory.journalSchema)
  toJournal := fun m => .ok (some m)
  toApproachSettlement := fun _ => .error .conversion
  nextExpirationUtc := fun _ => 1767252600000

def jumpStart (n : ℕ) (filters : Fin n → MessageShardFilter) : Ingestion n :=
  Ingestion.start jumpExternal.casing filters (fun _ => 639028224000000000) [jumpFrame] ∅

def jumpReceive {n : ℕ} (k : Fin n) : IngestionAction n :=
  .receive k ⟨639028224000000000, 639028224000000000, 639028224000000000⟩

def jumpCommand {n : ℕ} (k : Fin n) : IngestionAction n := .command k 1767225600000

/-- Shard 0 owns the frame: a heartbeat of each consumer, then the two commands of the visit. -/
def jumpActs : List (IngestionAction 2) :=
  [jumpCommand 0, jumpReceive 0, jumpCommand 0, jumpCommand 1, jumpReceive 1, jumpCommand 0]

/-- Two consumers on a broadcast. After a heartbeat of each they both receive every frame, and the second or the first,
whichever owns it, has so many commands executed. -/
def eddnActs (frames : List (Bool × ℕ)) : List (IngestionAction 2) :=
  [jumpCommand 0, jumpCommand 1] ++ frames.flatMap fun f =>
    [jumpReceive 0, jumpReceive 1] ++ List.replicate f.2 (jumpCommand (if f.1 then 1 else 0))

def jumpActsAlone : List (IngestionAction 1) :=
  [jumpCommand 0, jumpReceive 0, jumpCommand 0, jumpCommand 0]

def eddnFilter (k : Fin 2) : MessageShardFilter :=
  match k with
  | 0 => ⟨0, 2, onlyShard.index_nonneg, by decide⟩
  | 1 => ⟨1, 2, by decide, by decide⟩

theorem eddnFilter_env : ∀ k : Fin 2, shardFilter (shardEnv (eddnFeed 1 2) k.val "") = .ok (eddnFilter k) := by
  intro k
  fin_cases k <;> rfl

def aloneFilter (_ : Fin 1) : MessageShardFilter := onlyShard

private theorem jumpActs_complete :
    ∃ w, (jumpStart 2 eddnFilter).run jumpExternal jumpActs = some w ∧ w.Done ∧
      w.store.zscore (wire Entity.systemVisits.key) (lit "SOL") = some 1 := by
  have h : ((jumpStart 2 eddnFilter).run jumpExternal jumpActs).any (fun w => decide
      (w.Done ∧ w.store.zscore (wire Entity.systemVisits.key) (lit "SOL") = some 1)) = true := by
    decide +kernel
  obtain ⟨w, hw, hp⟩ := (Option.any_eq_true _ _).mp h
  exact ⟨w, hw, of_decide_eq_true hp⟩

private theorem jumpActsAlone_complete :
    ∃ w, (jumpStart 1 aloneFilter).run jumpExternal jumpActsAlone = some w ∧ w.Done := by
  have h : ((jumpStart 1 aloneFilter).run jumpExternal jumpActsAlone).any
      (fun w => decide w.Done) = true := by decide +kernel
  obtain ⟨w, hw, hp⟩ := (Option.any_eq_true _ _).mp h
  exact ⟨w, hw, of_decide_eq_true hp⟩

/-- Two consumers of the sample feed count a jump to Sol once. -/
theorem sharded_ingestion_refines_eddn :
    ∃ (w : Ingestion 2) (w₁ : Ingestion 1), (jumpStart 2 eddnFilter).run jumpExternal jumpActs = some w ∧
      SameTotals w.store w₁.store ∧
      w.store.zscore (wire Entity.systemVisits.key) (lit "SOL") = some 1 := by
  obtain ⟨filters, hf, -, h⟩ := sharded_ingestion_refines jumpExternal (eddnFeed 1 2) (by decide) ""
  obtain rfl : filters = eddnFilter := funext fun k => Except.ok.inj ((hf k).symm.trans (eddnFilter_env k))
  obtain ⟨w, hw, hdone, hsol⟩ := jumpActs_complete
  obtain ⟨w₁, hw₁, hdone₁⟩ := jumpActsAlone_complete
  exact ⟨w, w₁, hw, h (aloneFilter 0) rfl _ ∅ _ _ jumpActs jumpActsAlone w w₁ hw hdone hw₁ hdone₁, hsol⟩

end Jump

end EliteEvents

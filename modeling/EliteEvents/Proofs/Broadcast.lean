import EliteEvents.Lib.RedisFrame
import EliteEvents.Proofs.ShardedIngestion

/-! What the consumers of a feed have sent once they have processed a broadcast: commands of its frames and
heartbeats and nothing else, and for each frame everything that its one owner sends. -/

namespace EliteEvents

open Text Redis RedisKeys

variable {J : Type} {n : ℕ}

/-- A command that a frame of the broadcast leads to, with an absolute deadline at `t` or later; or a heartbeat. -/
def Told (X : External J) (frames : List Str) (t : Time) (c : Cmd) : Prop :=
  (∃ json ∈ frames, ∃ call, frameCall X json = some call ∧ ∃ nextExpiration, t ≤ nextExpiration ∧
    c ∈ DockingWriter.batch X.casing nextExpiration call) ∨
  ∃ v ttl, c = .set (wire Entity.eddnHeartbeat.key) v ttl

/-- No deadline that comes of the action is before `t`. -/
def IngestionAction.Lasts (X : External J) (t : Time) : IngestionAction n → Prop
  | .receive _ c => t ≤ X.nextExpirationUtc c.batchBuilt
  | .command _ now => t ≤ now + dataExpiration

instance (X : External J) (t : Time) : DecidablePred (IngestionAction.Lasts (n := n) X t)
  | .receive _ c => inferInstanceAs (Decidable (t ≤ X.nextExpirationUtc c.batchBuilt))
  | .command _ now => inferInstanceAs (Decidable (t ≤ now + dataExpiration))

theorem Told.sent {X : External J} {frames : List Str} {t : Time} {c : Cmd} (h : Told X frames t c) :
    Sent X.casing c := by
  rcases h with ⟨json, -, call, -, next, -, hc⟩ | hb
  · exact .inl ⟨call, sends_of_mem_batch hc⟩
  · exact .inr hb

/-- What a consumer sends for a frame: the batch of its call if it owns it, then perhaps a heartbeat. -/
theorem onFrame_batch (X : External J) (shard : MessageShardFilter) (t : Clocks) (s : ReceiverState) (json : Str) :
    ∃ beat : List Cmd, (∀ c ∈ beat, ∃ v ttl, c = .set (wire Entity.eddnHeartbeat.key) v ttl) ∧
      (Receiver.onFrame X shard t.turn s json).2.flatMap (Effect.commands X.casing) =
        (if shard.owns json then
          match frameCall X json with
          | none => []
          | some call => DockingWriter.batch X.casing (X.nextExpirationUtc t.batchBuilt) call
        else []) ++ beat := by
  unfold Receiver.onFrame
  by_cases ho : shard.owns json
  · simp only [ho, if_true, List.flatMap_append]
    rw [processMessage_commands, dispatch_commands]
    exact ⟨_, recordHeartbeat_commands X.casing t.turn false _, rfl⟩
  · simp only [ho, Bool.false_eq_true, if_false, List.nil_append]
    exact ⟨_, recordHeartbeat_commands X.casing t.turn false _, rfl⟩

/-- A consumer when `done` has been executed: what is on its way is told by the broadcast, and of each frame that it
owns it has yet to receive it, or whatever its batch holds at any time of day was executed or is on its way. -/
structure Consumer.Traced (X : External J) (shard : MessageShardFilter) (frames : List Str) (t : Time)
    (done : List Cmd) (c : Consumer) : Prop where
  shard_eq : c.shard = shard
  pending : ∀ cmd ∈ c.pending, Told X frames t cmd
  inbox : c.inbox ⊆ frames
  sent : ∀ json ∈ frames, shard.owns json = true → json ∈ c.inbox ∨
    ∀ call, frameCall X json = some call → ∀ cmd, (∀ next, cmd ∈ DockingWriter.batch X.casing next call) →
      cmd ∈ c.pending ∨ cmd ∈ done

namespace Consumer.Traced

variable {X : External J} {shard : MessageShardFilter} {frames : List Str} {t : Time} {done done' : List Cmd}
  {c : Consumer}

theorem start (X : External J) (shard : MessageShardFilter) (start : ℕ) (frames : List Str) (t : Time) :
    Traced X shard frames t [] (Consumer.start X.casing shard start frames) where
  shard_eq := rfl
  pending cmd hc := .inr (Consumer.start_pending X.casing shard start frames cmd hc)
  inbox := List.Subset.refl _
  sent _ hjson _ := .inl hjson

theorem mono (h : c.Traced X shard frames t done) (hsub : done ⊆ done') : c.Traced X shard frames t done' where
  shard_eq := h.shard_eq
  pending := h.pending
  inbox := h.inbox
  sent json hjson ho := (h.sent json hjson ho).imp_right fun hs call hcall cmd hc =>
    (hs call hcall cmd hc).imp_right (@hsub cmd)

/-- The consumer takes its next frame. -/
theorem receive (h : c.Traced X shard frames t done) {clocks : Clocks} {json : Str} {rest : List Str}
    (hinbox : c.inbox = json :: rest) (hpending : c.pending = []) (hlast : t ≤ X.nextExpirationUtc clocks.batchBuilt)
    (s : ReceiverState) :
    Traced X shard frames t done
      { c with
        state := s
        inbox := rest
        pending := (Receiver.onFrame X c.shard clocks.turn c.state json).2.flatMap (Effect.commands X.casing) } := by
  obtain ⟨beat, hbeat, hcmds⟩ := onFrame_batch X c.shard clocks c.state json
  have hjson : json ∈ frames := h.inbox (by rw [hinbox]; exact List.mem_cons_self)
  rw [hcmds, h.shard_eq]
  refine ⟨rfl, fun cmd hc => ?_, fun a ha => h.inbox (by rw [hinbox]; exact List.mem_cons_of_mem json ha),
    fun json' hframe ho => ?_⟩
  · rcases List.mem_append.mp hc with hc | hc
    · split_ifs at hc
      · split at hc
        · cases hc
        · rename_i call hcall
          exact .inl ⟨json, hjson, call, hcall, _, hlast, hc⟩
      · cases hc
    · exact .inr (hbeat cmd hc)
  · rcases h.sent json' hframe ho with hin | hsent
    · rw [hinbox] at hin
      rcases List.mem_cons.mp hin with rfl | hin
      · refine .inr fun call hcall cmd hc => .inl ?_
        rw [if_pos ho, hcall]
        exact List.mem_append_left _ (hc _)
      · exact .inl hin
    · refine .inr fun call hcall cmd hc => (hsent call hcall cmd hc).imp_left fun hp => ?_
      rw [hpending] at hp
      cases hp

/-- The consumer's next command is executed. -/
theorem command (h : c.Traced X shard frames t done) {cmd : Cmd} {rest : List Cmd} (hpending : c.pending = cmd :: rest) :
    Traced X shard frames t (done ++ [cmd]) { c with pending := rest } where
  shard_eq := h.shard_eq
  pending cmd' hc := h.pending cmd' (by rw [hpending]; exact List.mem_cons_of_mem cmd hc)
  inbox := h.inbox
  sent json hjson ho := by
    refine (h.sent json hjson ho).imp_right fun hs call hcall cmd' hc => ?_
    rcases hs call hcall cmd' hc with hp | hp
    · rw [hpending] at hp
      rcases List.mem_cons.mp hp with rfl | hp
      · exact .inr (List.mem_append_right _ (List.mem_singleton.mpr rfl))
      · exact .inl hp
    · exact .inr (List.mem_append_left _ hp)

end Consumer.Traced

namespace Ingestion

/-- The state after a run that has executed `cs`: they made the store what it is, and the broadcast tells them. -/
structure Traced (X : External J) (filters : Fin n → MessageShardFilter) (frames : List Str) (t : Time) (σ₀ : Store)
    (w : Ingestion n) (cs : List (Time × Cmd)) : Prop where
  runs : runAll cs σ₀ = .ok w.store
  told : ∀ p ∈ cs, Told X frames t p.2 ∧ lapses p.1 p.2 = false ∧ t ≤ p.1 + dataExpiration
  consumers : ∀ k, (w.consumers k).Traced X (filters k) frames t (cs.map Prod.snd)

variable {X : External J} {filters : Fin n → MessageShardFilter} {frames : List Str} {t : Time} {σ₀ : Store}
  {w w' : Ingestion n} {cs : List (Time × Cmd)}

/-- One step executes at most one command. -/
theorem Traced.step {a : IngestionAction n} (h : Traced X filters frames t σ₀ w cs) (hlast : a.Lasts X t)
    (hs : w.step X a = some w') : ∃ ds, Traced X filters frames t σ₀ w' (cs ++ ds) := by
  cases a with
  | receive k clocks =>
    simp only [Ingestion.step] at hs
    split at hs
    · rename_i json rest hinbox hpending
      cases hs
      refine ⟨[], ?_⟩
      rw [List.append_nil]
      refine ⟨h.runs, h.told, (Function.forall_update_iff w.consumers fun j c =>
        c.Traced X (filters j) frames t (cs.map Prod.snd)).mpr ⟨?_, fun j _ => h.consumers j⟩⟩
      exact (h.consumers k).receive hinbox hpending hlast _
    · cases hs
  | command k now =>
    simp only [Ingestion.step] at hs
    split at hs
    · cases hs
    · rename_i cmd rest hpending
      split_ifs at hs with hl
      split at hs
      · cases hs
      · rename_i σ hr
        cases hs
        have hrun : runAll [(now, cmd)] w.store = .ok σ := by
          rw [runAll, hr]
          rfl
        have hcmd : Told X frames t cmd := (h.consumers k).pending cmd (by rw [hpending]; exact List.mem_cons_self)
        refine ⟨[(now, cmd)], runAll_append h.runs hrun, fun p hp => ?_, ?_⟩
        · rcases List.mem_append.mp hp with hp | hp
          · exact h.told p hp
          · rw [List.mem_singleton.mp hp]
            exact ⟨hcmd, Bool.eq_false_iff.mpr hl, hlast⟩
        · rw [List.map_append]
          exact (Function.forall_update_iff w.consumers fun j c =>
            c.Traced X (filters j) frames t (cs.map Prod.snd ++ [cmd])).mpr
              ⟨(h.consumers k).command hpending, fun j _ => (h.consumers j).mono (List.subset_append_left _ _)⟩

theorem Traced.run {acts : List (IngestionAction n)} (h : Traced X filters frames t σ₀ w cs)
    (hlast : ∀ a ∈ acts, a.Lasts X t) (hs : w.run X acts = some w') :
    ∃ ds, Traced X filters frames t σ₀ w' (cs ++ ds) := by
  induction acts generalizing w cs with
  | nil =>
    cases hs
    exact ⟨[], by rwa [List.append_nil]⟩
  | cons a acts ih =>
    obtain ⟨w₁, hstep, hrun⟩ := Option.bind_eq_some_iff.mp hs
    obtain ⟨ds, h₁⟩ := h.step (hlast a List.mem_cons_self) hstep
    obtain ⟨es, h₂⟩ := ih h₁ (fun b hb => hlast b (List.mem_cons_of_mem a hb)) hrun
    exact ⟨ds ++ es, by rwa [← List.append_assoc]⟩

/-- When all is done, whatever a frame's batch holds at any time of day was executed. -/
theorem Traced.executed (h : Traced X filters frames t σ₀ w cs) (hdone : w.Done)
    (howner : ∀ str, ∃! k, (filters k).owns str = true) {json : Str} (hjson : json ∈ frames) {call : WriterCall}
    (hcall : frameCall X json = some call) {c : Cmd} (hc : ∀ next, c ∈ DockingWriter.batch X.casing next call) :
    c ∈ cs.map Prod.snd := by
  obtain ⟨k, ho, -⟩ := howner json
  rcases (h.consumers k).sent json hjson ho with hin | hsent
  · rw [(hdone k).1] at hin
    cases hin
  · refine (hsent call hcall c hc).resolve_left fun hp => ?_
    rw [(hdone k).2] at hp
    cases hp

end Ingestion

end EliteEvents

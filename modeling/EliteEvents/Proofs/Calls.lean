import EliteEvents.Proofs.Labels

/-! Which calls a reconcile makes, function by function. What is assumed of the answers is left
open: a relation `T` between calls and answers, true of all the answers so far. -/

namespace EliteEvents

open Prog

section Rules

variable {P : Call → Prop} {T : (c : Call) → Answer c → Prop} {α : Type} {p : Reconciler α} {Q : α → Prop}

theorem obeys_attempt {c : Call} (hc : P c) : ObeysOk P T (attempt c) (T c) := obeysOk_perform hc

theorem obeys_request {c : Call} (hc : P c) : ObeysOk P T (request c) fun r => T c (.ok r) := by
  refine (obeys_attempt hc).bind fun r hr => ?_
  cases r with
  | error e => exact obeysOk_throw _
  | ok a => exact obeysOk_pure hr

theorem obeys_wrapping (h : ObeysOk P T p Q) (context : String) : ObeysOk P T (wrapping context p) Q :=
  h.tryCatch fun _ => obeysOk_throw _

theorem obeys_event (h : ∀ e, P (.event e)) (fl : FeedListener) (warning : Bool)
    (reason action note : String) : ObeysOk P T (eventf fl warning reason action note) fun _ => True :=
  (obeys_attempt (h _)).bind fun _ _ => obeysOk_pure trivial

theorem obeys_delete {κ : Kind} {name : String} {foreground : Bool} (h : P (.delete κ name foreground)) :
    ObeysOk P T (deleteIfExists κ name foreground) fun _ => True := by
  refine (obeys_attempt h).bind fun r _ => ?_
  cases r with
  | error e =>
    dsimp only
    split_ifs
    · exact obeysOk_pure trivial
    · exact obeysOk_throw _
  | ok a => exact obeysOk_pure trivial

/-- A child is read, and written as the mutate function leaves it. -/
theorem obeys_createOrUpdate {κ : Kind} {name : String} {mutate : Obj κ → Except Err (Obj κ)}
    (hget : P (.get κ name))
    (hcreate : ∀ o, mutate (Obj.blank κ) = .ok o → P (.create κ name o))
    (hupdate : ∀ old o : Obj κ, T (.get κ name) (.ok old) → mutate old = .ok o → P (.update κ name o)) :
    ObeysOk P T (createOrUpdate κ name mutate) fun _ => True := by
  refine (obeys_attempt hget).bind fun r hr => ?_
  cases r with
  | error e =>
    dsimp only
    split_ifs
    · cases hm : mutate (Obj.blank κ) with
      | error e => exact obeysOk_throw e
      | ok o => exact (obeys_request (hcreate o hm)).bind fun _ _ => obeysOk_pure trivial
    · exact obeysOk_throw _
  | ok old =>
    change Obj κ at old
    dsimp only
    cases hm : mutate old with
    | error e => exact obeysOk_throw e
    | ok o =>
      show ObeysOk P T (if o = old then _ else _) _
      split_ifs
      · exact obeysOk_pure trivial
      · exact (obeys_request (hupdate old o hr hm)).bind fun _ _ => obeysOk_pure trivial

end Rules

/-! A feed that is not being deleted. -/

/-- The children of a feed, and what brings each up to date. -/
inductive Child (fl : FeedListener) : (κ : Kind) → String → (Obj κ → Except Err (Obj κ)) → Prop
  | configMap : Child fl .configMap (configMapName fl.name) (mutateConfigMap fl)
  | service : Child fl .service (serviceName fl.name) (mutateService fl)
  | shard (k : ℕ) (configHash : String) (h : k < fl.spec.shards) :
    Child fl .deployment (shardDeploymentName fl.name k) (mutateDeployment fl k configHash)
  | cronJob : Child fl .cronJob (maintenanceCronJobName fl.name) (mutateCronJob fl)

/-- The calls made for the children and the status of a feed. -/
inductive ReconcileCall (T : (c : Call) → Answer c → Prop) (fl : FeedListener) : Call → Prop
  | get {κ : Kind} {name : String} {mutate : Obj κ → Except Err (Obj κ)} (h : Child fl κ name mutate) :
    ReconcileCall T fl (.get κ name)
  | create {κ : Kind} {name : String} {mutate : Obj κ → Except Err (Obj κ)} {o : Obj κ}
    (h : Child fl κ name mutate) (ho : mutate (Obj.blank κ) = .ok o) : ReconcileCall T fl (.create κ name o)
  | update {κ : Kind} {name : String} {mutate : Obj κ → Except Err (Obj κ)} {old o : Obj κ}
    (h : Child fl κ name mutate) (hold : T (.get κ name) (.ok old)) (ho : mutate old = .ok o) :
    ReconcileCall T fl (.update κ name o)
  | listShards : ReconcileCall T fl (.list .deployment (selectorLabels fl.name))
  | prune {deployments : List (String × Obj .deployment)} {name : String} {d : Obj .deployment}
    (hlist : T (.list .deployment (selectorLabels fl.name)) (.ok deployments))
    (hmem : (name, d) ∈ deployments) : ReconcileCall T fl (.delete .deployment name false)
  | dropCronJob : ReconcileCall T fl (.delete .cronJob (maintenanceCronJobName fl.name) false)
  | listPods : ReconcileCall T fl (.listPods (selectorLabels fl.name))
  | event (e : Event) : ReconcileCall T fl (.event e)
  | probe (podIP : String) : ReconcileCall T fl (.probe podIP)
  | now : ReconcileCall T fl .now
  | status (status : FeedListenerStatus) : ReconcileCall T fl (.updateStatus { fl with status := status })

section Reconcile

variable {T : (c : Call) → Answer c → Prop} {fl : FeedListener} (sha256 : List UInt8 → List UInt8)

theorem child_calls {κ : Kind} {name : String} {mutate : Obj κ → Except Err (Obj κ)}
    (h : Child fl κ name mutate) :
    ObeysOk (ReconcileCall T fl) T (createOrUpdate κ name mutate) fun _ => True :=
  obeys_createOrUpdate (.get h) (fun _ ho => .create h ho) fun _ _ hold ho => .update h hold ho

theorem updateShards_calls (configHash : String) {shards : List ℕ} (h : ∀ k ∈ shards, k < fl.spec.shards) :
    ObeysOk (ReconcileCall T fl) T (updateShards fl configHash shards) fun _ => True := by
  induction shards with
  | nil => exact obeysOk_pure trivial
  | cons k shards ih =>
    refine (obeys_wrapping (child_calls (.shard k configHash (h k List.mem_cons_self))) _).bind fun _ _ => ?_
    exact ih fun j hj => h j (List.mem_cons_of_mem k hj)

theorem pruneAll_calls {deployments : List (String × Obj .deployment)}
    (h : ∀ p ∈ deployments, ReconcileCall T fl (.delete .deployment p.1 false)) :
    ObeysOk (ReconcileCall T fl) T (pruneAll fl deployments) fun _ => True := by
  induction deployments with
  | nil => exact obeysOk_pure trivial
  | cons p deployments ih =>
    have hrest := ih fun q hq => h q (List.mem_cons_of_mem p hq)
    unfold pruneAll
    split
    · exact hrest
    · split_ifs
      · exact hrest
      · refine (obeys_wrapping (obeys_delete (h p List.mem_cons_self)) _).bind fun _ _ => ?_
        exact (obeys_event .event ..).bind fun _ _ => hrest

theorem reconcileShards_calls (configHash : String) :
    ObeysOk (ReconcileCall T fl) T (reconcileShards fl configHash) fun _ => True := by
  refine (updateShards_calls configHash fun k hk => List.mem_range.mp hk).bind fun _ _ => ?_
  refine (obeys_wrapping (obeys_request .listShards) _).bind fun deployments hlist => ?_
  exact pruneAll_calls fun p hp => .prune hlist hp

theorem reconcileMaintenance_calls :
    ObeysOk (ReconcileCall T fl) T (reconcileMaintenance fl) fun _ => True := by
  unfold reconcileMaintenance
  split_ifs
  · exact obeys_wrapping (child_calls .cronJob) _
  · exact obeys_wrapping (obeys_delete .dropCronJob) _

theorem tallyPods_calls (t : PodTally) (pods : List Pod) :
    ObeysOk (ReconcileCall T fl) T (tallyPods fl t pods) fun _ => True := by
  induction pods generalizing t with
  | nil => exact obeysOk_pure trivial
  | cons pod pods ih =>
    unfold tallyPods
    split_ifs
    · exact ih t
    · refine (obeys_attempt (.probe _)).bind fun r _ => ?_
      cases r with
      | error e => exact ih _
      | ok status =>
        dsimp only
        split
        · exact ih _
        · exact (obeys_attempt .now).bind fun _ _ => ih _

/-- The feed with another status. -/
def Restated (fl fl' : FeedListener) : Prop := fl' = { fl with status := fl'.status }

theorem Restated.same {fl' : FeedListener} (h : Restated fl fl') :
    fl'.resourceVersion = fl.resourceVersion ∧ fl'.deletionTimestamp = fl.deletionTimestamp ∧
      fl'.finalizers = fl.finalizers ∧ fl'.spec = fl.spec := by
  rw [h]
  exact ⟨rfl, rfl, rfl, rfl⟩

theorem observeIndexMaintenance_calls {fl' : FeedListener} (h : Restated fl fl') :
    ObeysOk (ReconcileCall T fl) T (observeIndexMaintenance fl') (Restated fl) := by
  have hname : fl'.name = fl.name := by rw [h]
  unfold observeIndexMaintenance
  split_ifs
  · refine (obeys_attempt ?_).bind fun r _ => ?_
    · rw [hname]
      exact .get .cronJob
    · cases r with
      | error e => exact obeysOk_pure h
      | ok c =>
        refine obeysOk_pure ?_
        rw [h]
        rfl
  · refine obeysOk_pure ?_
    rw [h]
    rfl

theorem reconcileStatus_calls : ObeysOk (ReconcileCall T fl) T (reconcileStatus fl) fun _ => True := by
  refine (obeys_wrapping (obeys_request .listPods) _).bind fun pods _ => ?_
  refine (tallyPods_calls _ pods).bind fun t _ => ?_
  refine (@observeIndexMaintenance_calls T fl (tallied fl t) rfl).bind fun fl' h => ?_
  have hcall : ReconcileCall T fl (.updateStatus (derived fl' t)) := by
    have hd : derived fl' t = { fl with status := (derived fl' t).status } := by
      rw [h]
      rfl
    rw [hd]
    exact .status _
  exact (obeys_wrapping (obeys_request hcall) _).bind fun _ _ => obeysOk_pure trivial

theorem failed_calls {α : Type} {Q : α → Prop} (reason : String) (e : Err) :
    ObeysOk (ReconcileCall T fl) T (failed fl reason e : Reconciler α) Q := by
  refine (obeys_event .event ..).bind fun _ _ => ?_
  have hcall : ReconcileCall T fl (.updateStatus (markDegraded fl reason e)) :=
    .status (markDegraded fl reason e).status
  exact (obeys_attempt hcall).bind fun _ _ => obeysOk_throw e

theorem reconcileChildren_calls :
    ObeysOk (ReconcileCall T fl) T (reconcileChildren sha256 fl) fun _ => True := by
  have hconfigMap : ObeysOk (ReconcileCall T fl) T (reconcileConfigMap sha256 fl) fun _ => True :=
    (child_calls .configMap).bind fun _ _ => obeysOk_pure trivial
  refine (hconfigMap.tryCatch (failed_calls _)).bind fun configHash _ => ?_
  refine (ObeysOk.tryCatch (child_calls .service) (failed_calls _)).bind fun _ _ => ?_
  refine ((reconcileShards_calls configHash).tryCatch (failed_calls _)).bind fun _ _ => ?_
  exact (reconcileMaintenance_calls.tryCatch (failed_calls _)).bind fun _ _ => reconcileStatus_calls

theorem registerFinalizer_calls {P : Call → Prop}
    (h : P (.updateFeed { fl with finalizers := fl.finalizers ++ [feedListenerFinalizer] })) :
    ObeysOk P T (registerFinalizer fl) fun fl' => fl' = fl ∨
      T (.updateFeed { fl with finalizers := fl.finalizers ++ [feedListenerFinalizer] }) (.ok fl') := by
  unfold registerFinalizer
  split_ifs
  · exact obeysOk_pure (.inl rfl)
  · exact obeys_wrapping ((obeys_request h).weaken (fun _ h => h) fun _ hr => .inr hr) _

end Reconcile

/-! A feed that is being deleted. -/

/-- The drain Job as the teardown creates it. -/
def drainJob (fl : FeedListener) : Job :=
  { buildDrainJob fl with
    metadata := { newMetadata (drainLabels fl.name) with owner := some ⟨fl.name, fl.uid⟩ } }

/-- The calls that stop the writers of a feed. -/
inductive StopCall (T : (c : Call) → Answer c → Prop) (feed : String) : Call → Prop
  | dropCronJob : StopCall T feed (.delete .cronJob (maintenanceCronJobName feed) false)
  | listShards : StopCall T feed (.list .deployment (selectorLabels feed))
  | stopShard {deployments : List (String × Obj .deployment)} {name : String} {d : Obj .deployment}
    (hlist : T (.list .deployment (selectorLabels feed)) (.ok deployments))
    (hmem : (name, d) ∈ deployments) : StopCall T feed (.delete .deployment name false)
  | listJobs : StopCall T feed (.list .job (maintenanceLabels feed))
  | stopJob {jobs : List (String × Obj .job)} {name : String} {j : Obj .job}
    (hlist : T (.list .job (maintenanceLabels feed)) (.ok jobs))
    (hmem : (name, j) ∈ jobs) : StopCall T feed (.delete .job name true)
  | listShardPods : StopCall T feed (.listPods (selectorLabels feed))
  | listJobPods : StopCall T feed (.listPods (maintenanceLabels feed))

/-- The calls of a teardown. -/
inductive FinalizeCall (T : (c : Call) → Answer c → Prop) (feed : String) : Call → Prop
  | stop {c : Call} (h : StopCall T feed c) : FinalizeCall T feed c
  | getDrain : FinalizeCall T feed (.get .job (drainJobName feed))
  | createDrain (fl : FeedListener) (h : fl.name = feed) :
    FinalizeCall T feed (.create .job (drainJobName feed) (drainJob fl))
  | event (e : Event) : FinalizeCall T feed (.event e)
  | terminating (fl : FeedListener) (h : fl.name = feed) : FinalizeCall T feed (.updateStatus fl)
  | release (fl : FeedListener) (h : fl.name = feed) : FinalizeCall T feed (.updateFeed fl)

section Finalize

variable {T : (c : Call) → Answer c → Prop} {fl : FeedListener}

theorem stopAll_calls {P : Call → Prop} {κ : Kind} {what : String} {foreground : Bool}
    {os : List (String × Obj κ)} (h : ∀ p ∈ os, P (.delete κ p.1 foreground)) :
    ObeysOk P T (stopAll κ what foreground os) fun _ => True := by
  induction os with
  | nil => exact obeysOk_pure trivial
  | cons p os ih =>
    have hrest := ih fun q hq => h q (List.mem_cons_of_mem p hq)
    unfold stopAll
    split_ifs
    · exact hrest
    · exact (obeys_wrapping (obeys_delete (h p List.mem_cons_self)) _).bind fun _ _ => hrest

theorem podsGone_calls {P : Call → Prop} {selectors : List Labels}
    (h : ∀ sel ∈ selectors, P (.listPods sel)) : ObeysOk P T (podsGone selectors) fun _ => True := by
  induction selectors with
  | nil => exact obeysOk_pure trivial
  | cons labels selectors ih =>
    refine (obeys_wrapping (obeys_request (h labels List.mem_cons_self)) _).bind fun pods _ => ?_
    split_ifs
    · exact ih fun sel hsel => h sel (List.mem_cons_of_mem labels hsel)
    · exact obeysOk_pure trivial

theorem stopWriters_calls : ObeysOk (StopCall T fl.name) T (stopWriters fl) fun _ => True := by
  refine (obeys_wrapping (obeys_delete .dropCronJob) _).bind fun _ _ => ?_
  refine (obeys_wrapping (obeys_request .listShards) _).bind fun deployments hshards => ?_
  refine (stopAll_calls fun p hp => .stopShard hshards hp).bind fun _ _ => ?_
  refine (obeys_wrapping (obeys_request .listJobs) _).bind fun jobs hjobs => ?_
  refine (stopAll_calls fun p hp => .stopJob hjobs hp).bind fun _ _ => podsGone_calls fun sel hsel => ?_
  rcases List.mem_cons.mp hsel with rfl | hsel
  · exact .listShardPods
  · rw [List.mem_singleton.mp hsel]
    exact .listJobPods

theorem ensureDrainJob_calls :
    ObeysOk (FinalizeCall T fl.name) T (ensureDrainJob fl) fun _ => True := by
  have hevent : ∀ job, ObeysOk (FinalizeCall T fl.name) T (announceDrain fl job) fun _ => True :=
    fun job => (obeys_event .event ..).bind fun _ _ => obeysOk_pure trivial
  have hcreate : ObeysOk (FinalizeCall T fl.name) T (createDrainJob fl (drainJob fl)) fun _ => True := by
    refine (obeys_attempt (.createDrain fl rfl)).bind fun r _ => ?_
    cases r with
    | error e =>
      dsimp only
      split_ifs
      · exact hevent _
      · exact obeysOk_throw _
    | ok job => exact hevent job
  refine (obeys_attempt .getDrain).bind fun r _ => ?_
  cases r with
  | ok job => exact obeysOk_pure trivial
  | error e =>
    dsimp only
    split_ifs
    · exact hcreate
    · exact obeysOk_throw _

theorem releaseFinalizer_calls :
    ObeysOk (FinalizeCall T fl.name) T (releaseFinalizer fl) fun _ => True := by
  have hcall : FinalizeCall T fl.name
      (.updateFeed { fl with finalizers := fl.finalizers.filter (· ≠ feedListenerFinalizer) }) :=
    .release _ rfl
  refine (obeys_attempt hcall).bind fun r _ => ?_
  cases r with
  | error e =>
    dsimp only
    split_ifs
    · exact obeysOk_pure trivial
    · exact obeysOk_throw _
  | ok fl' => exact obeysOk_pure trivial

theorem finishDrain_calls (job : Job) :
    ObeysOk (FinalizeCall T fl.name) T (finishDrain fl job) fun _ => True := by
  unfold finishDrain
  split_ifs
  · exact (obeys_event .event ..).bind fun _ _ => releaseFinalizer_calls
  · exact (obeys_event .event ..).bind fun _ _ => releaseFinalizer_calls
  · exact obeysOk_pure trivial

/-- The server answers with the feed it was asked for. -/
def Faithful (T : (c : Call) → Answer c → Prop) (feed : String) : Prop :=
  ∀ fl fl' : FeedListener, fl.name = feed → T (.updateStatus fl) (.ok fl') → fl'.name = feed

theorem markTerminating_calls (hT : Faithful T fl.name) :
    ObeysOk (FinalizeCall T fl.name) T (markTerminating fl) fun fl' => fl'.name = fl.name := by
  unfold markTerminating
  split_ifs
  · exact obeysOk_pure rfl
  · let marked := { fl with status := { fl.status with phase := .terminating } }
    refine ObeysOk.bind (obeys_attempt (.terminating marked rfl)) fun r hr => ?_
    cases r with
    | error e => exact obeysOk_pure rfl
    | ok fl' => exact obeysOk_pure (hT marked fl' rfl hr)

theorem finalize_calls (hT : Faithful T fl.name) :
    ObeysOk (FinalizeCall T fl.name) T (finalize fl) fun _ => True := by
  unfold finalize
  split
  · exact obeysOk_pure trivial
  · refine (markTerminating_calls hT).bind fun fl' hname => ?_
    rw [← hname]
    split_ifs
    · exact (obeys_event .event ..).bind fun _ _ => releaseFinalizer_calls
    · refine ObeysOk.bind (stopWriters_calls.weaken (fun _ h => .stop h) fun _ h => h) fun stopped _ => ?_
      split_ifs
      · exact ensureDrainJob_calls.bind fun job _ => finishDrain_calls job
      · exact obeysOk_pure trivial

end Finalize

end EliteEvents

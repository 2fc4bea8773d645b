import EliteEvents.Proofs.Discipline
import EliteEvents.Proofs.Served

/-! A reconcile that returns no error leaves the children its spec asks for, whatever the earlier
ones left behind. Pruning goes by labels, so it finds every shard there ever was. -/

namespace EliteEvents

open Prog

section Rules

variable (feed : String)

/-- A call on a labelled namespace, with nobody else at work. -/
def AloneExec (c : Call) (s : Cluster) (r : Answer c) (s' : Cluster) : Prop :=
  (∃ f, s.answer f c = (r, s')) ∧ Labelled feed s ∧ Labelled feed s' ∧ Lawful feed c ∧ Truthful feed c r

def AloneEnv (s s' : Cluster) : Prop := False ∧ Labelled feed s ∧ Labelled feed s'

/-- The program takes a cluster with `F` to one with `G`, if it returns without an error. -/
def Alone {α : Type} (F : Cluster → Prop) (p : Reconciler α) (G : α → Cluster → Prop) : Prop :=
  Triple (AloneExec feed) (AloneEnv feed) (fun _ => True) F p G

variable {feed} {α β : Type} {F P : Cluster → Prop} {p : Reconciler α} {G Q : α → Cluster → Prop}

theorem stable_alone (A : Cluster → Prop) : Stable (AloneEnv feed) (fun _ => True) A :=
  fun _ _ _ _ h => h.1.elim

theorem alone_pure {a : α} (h : ∀ s, F s → G a s) : Alone feed F (pure a) G :=
  triple_pure (fun _ _ _ _ => trivial) (stable_alone F) a fun s _ => h s

theorem alone_throw (e : Err) : Alone feed F (throw e : Reconciler α) G := triple_throw e

theorem Alone.bind {f : α → Reconciler β} {H : β → Cluster → Prop} (h : Alone feed F p G)
    (hf : ∀ a, Alone feed (G a) (f a) H) : Alone feed F (p >>= f) H := Triple.bind h hf

theorem Alone.conseq (h : Alone feed F p G) (hF : ∀ s, P s → F s) (hG : ∀ a s, G a s → Q a s) :
    Alone feed P p Q := Triple.conseq h (fun s _ => hF s) fun a s _ => hG a s

theorem Alone.tryCatch {handler : Err → Reconciler α} (h : Alone feed F p G)
    (hc : ∀ e, Alone feed (fun _ => True) (handler e) G) : Alone feed F (tryCatch p handler) G :=
  Triple.tryCatch h hc

theorem Alone.wrapping (h : Alone feed F p G) (context : String) :
    Alone feed F (wrapping context p) G := h.tryCatch fun _ => alone_throw _

theorem alone_attempt {c : Call} {G : Answer c → Cluster → Prop}
    (h : ∀ s r s' f, F s → s.answer f c = (r, s') → Labelled feed s → Labelled feed s' →
      Truthful feed c r → G r s') : Alone feed F (attempt c) G :=
  triple_perform (fun _ _ _ _ => trivial) (stable_alone F) (fun _ => stable_alone _)
    fun s r s' _ hF ⟨⟨f, ha⟩, hl, hl', _, ht⟩ => ⟨trivial, h s r s' f hF ha hl hl' ht⟩

theorem alone_request {c : Call} {G : c.Result → Cluster → Prop}
    (h : ∀ s a s' f, F s → s.answer f c = (.ok a, s') → Labelled feed s → Labelled feed s' →
      Truthful feed c (.ok a) → G a s') : Alone feed F (request c) G := by
  refine (alone_attempt (G := fun r s => ∀ a, r = .ok a → G a s) ?_).bind fun r => ?_
  · rintro s r s' f hF ha hl hl' ht a rfl
    exact h s a s' f hF ha hl hl' ht
  · cases r with
    | error e => exact alone_throw _
    | ok a => exact alone_pure fun s hs => hs a rfl

/-- A program that only reads, or fails: nothing is claimed of a result it does not have. -/
theorem alone_event (fl : FeedListener) (warning : Bool) (reason action note : String) :
    Alone feed F (eventf fl warning reason action note) fun _ => F := by
  refine (alone_attempt (G := fun _ => F) ?_).bind fun _ => alone_pure fun _ h => h
  intro s r s' f hF ha _ _ _
  rw [event_effect ha]
  exact hF

theorem alone_failed (fl : FeedListener) (reason : String) (e : Err) :
    Alone feed (fun _ => True) (failed fl reason e : Reconciler α) G :=
  (alone_event fl true reason "Reconcile" e.message).bind fun _ =>
    (alone_attempt (G := fun _ _ => True) fun _ _ _ _ _ _ _ _ _ => trivial).bind fun _ => alone_throw e

/-- Deleted: whatever the object was, and nothing else. -/
theorem alone_delete {κ : Kind} {name : String} {G : Cluster → Prop}
    (hdrop : ∀ s, F s → Labelled feed (s.drop κ name) → G (s.drop κ name))
    (hnone : ∀ s, F s → Labelled feed s → (s.objs κ).lookup name = none → G s) :
    Alone feed F (deleteIfExists κ name false) fun _ => G := by
  refine (alone_attempt (G := fun r s => (∃ e : ApiError, r = .error e ∧ e.reason ≠ .notFound) ∨ G s)
    ?_).bind fun r => ?_
  · intro s r s' f hF ha hl hl' _
    cases r with
    | error e =>
      by_cases he : e.reason = .notFound
      · obtain ⟨hn, rfl⟩ := delete_notFound ha (by rw [ApiError.Definite, he]; decide)
        exact .inr (hnone s' hF hl hn)
      · exact .inl ⟨e, rfl, he⟩
    | ok u =>
      obtain ⟨-, rfl⟩ := (delete_ok ha).resolve_right fun h => absurd h.1 Bool.false_ne_true
      exact .inr (hdrop s hF hl')
  · cases r with
    | error e =>
      dsimp only
      split_ifs with he
      · refine alone_pure fun s hs => hs.resolve_left ?_
        rintro ⟨e', ⟨⟩, hne⟩
        exact hne he
      · exact alone_throw _
    | ok u => exact alone_pure fun s hs => hs.resolve_left fun ⟨e, h, _⟩ => by cases h

/-- The object is stored as the mutate function leaves it, up to the server's own metadata; no
other object changes. -/
theorem alone_createOrUpdate {κ : Kind} {name : String} {mutate : Obj κ → Except Err (Obj κ)}
    {G : Cluster → Prop}
    (h : ∀ s s' old o m, F s → mutate old = .ok o → m.labels = o.metadata.labels →
      (s'.objs κ).lookup name = some (o.withMetadata m) →
      (∀ κ' name', κ' ≠ κ ∨ name' ≠ name → (s'.objs κ').lookup name' = (s.objs κ').lookup name') →
      G s') :
    Alone feed F (createOrUpdate κ name mutate) fun _ => G := by
  have hset : ∀ s old o uid deleting, F s → mutate old = .ok o →
      G (s.set κ name (o.withMetadata (s.stamp o.metadata uid deleting))) :=
    fun s old o uid deleting hF hm =>
      h s _ old o (s.stamp o.metadata uid deleting) hF hm rfl (s.lookup_set_self κ name _)
        fun κ' name' hne => s.lookup_set_ne hne _
  refine (alone_attempt (c := .get κ name) (G := fun r s => F s ∧ ∀ old : Obj κ, r = .ok old →
    (s.objs κ).lookup name = some old) ?_).bind fun r => ?_
  · intro s r s' f hF ha _ _ _
    have he := get_effect ha
    subst he
    exact ⟨hF, fun old hr => (get_ok (hr ▸ ha)).1⟩
  · cases r with
    | error e =>
      dsimp only
      split_ifs
      · cases hm : mutate (Obj.blank κ) with
        | error e => exact alone_throw e
        | ok o =>
          refine (alone_request (G := fun _ => G) ?_).bind fun _ => alone_pure fun _ h => h
          intro s o' s' f hF ha _ _ _
          rw [create_stored ha]
          exact hset s _ o _ _ hF.1 hm
      · exact alone_throw _
    | ok old =>
      change Obj κ at old
      dsimp only
      cases hm : mutate old with
      | error e => exact alone_throw e
      | ok o =>
        show Alone feed _ (if o = old then _ else _) _
        split_ifs with ho
        · -- nothing to write: what is stored is what is wanted
          refine alone_pure fun s hs => h s s old o o.metadata hs.1 hm rfl ?_ fun _ _ _ => rfl
          rw [withMetadata_metadata, ho]
          exact hs.2 old rfl
        · refine (alone_request (G := fun _ => G) ?_).bind fun _ => alone_pure fun _ h => h
          intro s o' s' f hF ha _ _ _
          obtain ⟨uid, deleting, rfl⟩ := update_stored ha
          exact hset s old o uid deleting hF.1 hm

/-- Left alone in a labelled namespace, a lawful program does what is claimed of it. -/
theorem Alone.wp_of_lawful (h : Alone feed F p G)
    (hp : Obedient feed (Lawful feed) p fun _ => True) {s : Cluster} (hl : Labelled feed s) (hF : F s) :
    Prog.wp (α := Except Err α) (fun c s r s' => ∃ f, s.answer f c = (r, s')) (fun _ _ => False)
      (fun s => Labelled feed s ∧ True) p
      (fun r s => (∀ a, r = .ok a → True) ∧ ∀ a, r = .ok a → G a s) s :=
  wp_of_obeys (I := Labelled feed) (P := Lawful feed) (T := Truthful feed)
    (fun _ _ _ _ hi hc ⟨_, ha⟩ => hi.answer hc ha) (fun _ _ _ h => h.elim) hp hl (h s trivial hF)

end Rules

/-! The children a spec asks for. -/

section Children

variable (sha256 : List UInt8 → List UInt8) (fl : FeedListener) (s : Cluster)

def ConfigWritten : Prop :=
  ∃ cm : ConfigMap, (s.objs .configMap).lookup (configMapName fl.name) = some cm ∧
    cm.data = buildConfigData fl.spec ∧
    -- the consumers rebuild on their own if and only if no schedule does it for them
    cm.data.lookup periodicKey = some (formatBool (decide ((maintenanceSchedule fl.spec).1 = "")))

/-- The Deployment of a shard, as far as the partition and the rollout depend on it. -/
def ShardWritten (k : ℕ) : Prop :=
  ∃ d : Deployment, (s.objs .deployment).lookup (shardDeploymentName fl.name k) = some d ∧
    (selectorLabels fl.name).matches d.metadata.labels = true ∧
    d.metadata.labels.lookup shardLabel = some (itoa k) ∧
    d.replicas = 1 ∧ d.strategy = .recreate ∧
    d.template.spec.container.env.lookup shardIndexEnvVar = some (itoa k) ∧
    d.template.annotations.lookup configHashAnnotation =
      some (hashConfigData sha256 (buildConfigData fl.spec))

/-- No labelled Deployment beyond the shards of the spec. -/
def NoStrays : Prop :=
  ∀ name d, (s.objs .deployment).lookup name = some d →
    (selectorLabels fl.name).matches d.metadata.labels = true →
    ∃ k : ℕ, (k : ℤ) < fl.spec.consumers.toInt ∧ name = shardDeploymentName fl.name k

/-- The CronJob is there if there is a schedule, and has it. -/
def RebuildScheduled : Prop :=
  match (s.objs .cronJob).lookup (maintenanceCronJobName fl.name) with
  | none => (maintenanceSchedule fl.spec).1 = ""
  | some (c : CronJob) => (maintenanceSchedule fl.spec).1 ≠ "" ∧ c.schedule = (maintenanceSchedule fl.spec).1

structure Converged : Prop where
  config : ConfigWritten fl s
  shards : ∀ k : ℕ, (k : ℤ) < fl.spec.consumers.toInt → ShardWritten sha256 fl s k
  noStrays : NoStrays fl s
  rebuild : RebuildScheduled fl s

end Children

section Reconcile

variable {sha256 : List UInt8 → List UInt8} {fl : FeedListener}

theorem scheduled_eq (spec : FeedListenerSpec) :
    (maintenanceSchedule spec).2 = !decide ((maintenanceSchedule spec).1 = "") := by
  unfold maintenanceSchedule
  split
  · rfl
  · simp only [bne, beq_eq_decide]

theorem lookup_periodic (spec : FeedListenerSpec) :
    (buildConfigData spec).lookup periodicKey =
      some (formatBool (decide ((maintenanceSchedule spec).1 = ""))) := by
  have h : (buildConfigData spec).lookup periodicKey =
      some (formatBool !(maintenanceSchedule spec).2) := rfl
  rw [h, scheduled_eq, Bool.not_not]

/-- The shard a labelled Deployment is for is read back from its labels. -/
theorem IsShard.isOwnedShard {name : String} {d : Deployment} (h : IsShard fl.name name d) :
    ∃ k : ℕ, name = shardDeploymentName fl.name k ∧
      ∃ shard, isOwnedShard fl.name d = some shard ∧ shard.toInt = k := by
  obtain ⟨-, k, -, -, hk, hname, hl, -⟩ := h
  have hr : -2 ^ 31 ≤ (k : ℤ) ∧ (k : ℤ) < 2 ^ 31 := ⟨by omega, by omega⟩
  have ha : atoi (trimSpace (itoa k).toList) = some (k : ℤ) := by
    rw [trimSpace_itoa, atoi, Decimal.parse_render, Option.filter_some, if_pos]
    simp only [Bool.and_eq_true, decide_eq_true_eq]
    omega
  refine ⟨k, hname, Int32.ofInt k, ?_, toInt_ofInt hr⟩
  have hlab : (shardLabels fl.name k).lookup instanceLabel = some fl.name ∧
      (shardLabels fl.name k).lookup nameLabel = some "feed-listener" := ⟨rfl, rfl⟩
  have hshard : (shardLabels fl.name k).lookup shardLabel = some (itoa k) := rfl
  simp only [EliteEvents.isOwnedShard, hl, if_pos hlab, hshard, ha, Option.map_some]

/-- Facts about one object survive writes to others. -/
theorem ConfigWritten.frame {s s' : Cluster} (h : ConfigWritten fl s)
    (hs : (s'.objs .configMap).lookup (configMapName fl.name) =
      (s.objs .configMap).lookup (configMapName fl.name)) : ConfigWritten fl s' := by
  unfold ConfigWritten
  rwa [hs]

theorem ShardWritten.frame {s s' : Cluster} {k : ℕ} (h : ShardWritten sha256 fl s k)
    (hs : (s'.objs .deployment).lookup (shardDeploymentName fl.name k) =
      (s.objs .deployment).lookup (shardDeploymentName fl.name k)) : ShardWritten sha256 fl s' k := by
  unfold ShardWritten
  rwa [hs]

theorem reconcileConfigMap_alone {F : Cluster → Prop} :
    Alone fl.name F (reconcileConfigMap sha256 fl) fun configHash s => ConfigWritten fl s ∧
      configHash = hashConfigData sha256 (buildConfigData fl.spec) := by
  refine (alone_createOrUpdate (G := ConfigWritten fl) ?_).bind fun _ => alone_pure fun s h => ⟨h, rfl⟩
  intro s s' old o m _ hm _ hl _
  refine ⟨_, hl, ?_⟩
  have hdata : (o.withMetadata m : ConfigMap).data = buildConfigData fl.spec := by
    rw [owned_ok hm]
    rfl
  exact ⟨hdata, hdata ▸ lookup_periodic fl.spec⟩

theorem reconcileService_alone :
    Alone fl.name (ConfigWritten fl) (reconcileService fl) fun _ => ConfigWritten fl :=
  alone_createOrUpdate fun _ _ _ _ _ h _ _ _ hne => h.frame (hne _ _ (.inl Kind.noConfusion))

theorem ShardWritten.of_mutate {s : Cluster} {k : ℕ} {old : Deployment} {o : Obj .deployment}
    {m : ObjectMeta}
    (hm : mutateDeployment fl k (hashConfigData sha256 (buildConfigData fl.spec)) old = .ok o)
    (hlab : m.labels = o.metadata.labels)
    (hl : (s.objs .deployment).lookup (shardDeploymentName fl.name k) = some (o.withMetadata m)) :
    ShardWritten sha256 fl s k := by
  have hlabels : m.labels = shardLabels fl.name k := by
    rw [hlab, mutateDeployment_ok hm]
    rfl
  refine ⟨_, hl, ?_, ?_, ?_⟩
  · show (selectorLabels fl.name).matches m.labels = true
    rw [hlabels]
    exact selector_shard fl.name k
  · show m.labels.lookup shardLabel = _
    rw [hlabels]
    rfl
  · rw [mutateDeployment_ok hm]
    exact ⟨rfl, rfl, rfl, rfl⟩

/-- The shards of the list are written, and those before them stay. -/
theorem updateShards_alone (shards done : List ℕ) :
    Alone fl.name (fun s => ConfigWritten fl s ∧ ∀ k ∈ done, ShardWritten sha256 fl s k)
      (updateShards fl (hashConfigData sha256 (buildConfigData fl.spec)) shards)
      fun _ s => ConfigWritten fl s ∧ ∀ k ∈ shards ++ done, ShardWritten sha256 fl s k := by
  induction shards generalizing done with
  | nil => exact alone_pure fun s h => h
  | cons k shards ih =>
    have hnext := (ih (k :: done)).conseq (P := fun s => ConfigWritten fl s ∧
        ∀ j ∈ k :: done, ShardWritten sha256 fl s j) (fun s h => h)
      (Q := fun _ s => ConfigWritten fl s ∧ ∀ j ∈ k :: shards ++ done, ShardWritten sha256 fl s j)
      fun _ s h => ⟨h.1, fun j hj => h.2 j (by
        simp only [List.cons_append, List.mem_cons, List.mem_append] at hj ⊢
        tauto)⟩
    refine (Alone.wrapping (alone_createOrUpdate ?_) _).bind fun _ => hnext
    rintro s s' old o m ⟨hc, hdone⟩ hm hlab hl hne
    refine ⟨hc.frame (hne _ _ (.inl Kind.noConfusion)), fun j hj => ?_⟩
    by_cases hjk : j = k
    · subst hjk
      exact .of_mutate hm hlab hl
    · refine (hdone j ((List.mem_cons.mp hj).resolve_left hjk)).frame (hne _ _ (.inr fun h => ?_))
      exact hjk (shardDeploymentName_injective fl.name h)

/-- Every Deployment is a shard of the spec or still in the list. -/
def StraysIn (fl : FeedListener) (rest : List (String × Obj .deployment)) (s : Cluster) : Prop :=
  ∀ name d, (s.objs .deployment).lookup name = some d →
    (∃ k : ℕ, (k : ℤ) < fl.spec.consumers.toInt ∧ name = shardDeploymentName fl.name k) ∨
      ∃ d', (name, d') ∈ rest

/-- The children that are in place before the stray shards are looked for. -/
def PartitionWritten (sha256 : List UInt8 → List UInt8) (fl : FeedListener) (s : Cluster) : Prop :=
  ConfigWritten fl s ∧ ∀ k : ℕ, (k : ℤ) < fl.spec.consumers.toInt → ShardWritten sha256 fl s k

/-- Deleting a shard beyond the spec's leaves the others. -/
theorem PartitionWritten.drop {s : Cluster} (h : PartitionWritten sha256 fl s) {k : ℕ}
    (hk : ¬ (k : ℤ) < fl.spec.consumers.toInt) :
    PartitionWritten sha256 fl (s.drop .deployment (shardDeploymentName fl.name k)) := by
  refine ⟨h.1.frame (s.lookup_drop_ne (.inl Kind.noConfusion)), fun j hj => (h.2 j hj).frame ?_⟩
  refine s.lookup_drop_ne (.inr fun he => hk ?_)
  rwa [← shardDeploymentName_injective fl.name he]

theorem StraysIn.tail {s : Cluster} {name : String} {d : Obj .deployment}
    {rest : List (String × Obj .deployment)} (h : StraysIn fl ((name, d) :: rest) s)
    (hs : ∀ d, (s.objs .deployment).lookup name = some d →
      ∃ k : ℕ, (k : ℤ) < fl.spec.consumers.toInt ∧ name = shardDeploymentName fl.name k) :
    StraysIn fl rest s := by
  intro name' d' hl
  rcases h name' d' hl with hk | ⟨d'', hm⟩
  · exact .inl hk
  · rcases List.mem_cons.mp hm with he | hm
    · cases he
      exact .inl (hs d' hl)
    · exact .inr ⟨d'', hm⟩

theorem pruneAll_alone (rest : List (String × Obj .deployment))
    (hrest : ∀ name d, (name, d) ∈ rest → IsShard fl.name name d) :
    Alone fl.name (fun s => PartitionWritten sha256 fl s ∧ StraysIn fl rest s) (pruneAll fl rest)
      fun _ s => PartitionWritten sha256 fl s ∧ StraysIn fl [] s := by
  induction rest with
  | nil => exact alone_pure fun s h => h
  | cons p rest ih =>
    obtain ⟨name, d⟩ := p
    have ih := ih fun name d h => hrest name d (List.mem_cons_of_mem _ h)
    obtain ⟨k, rfl, shard, hshard, hk⟩ := (hrest name d List.mem_cons_self).isOwnedShard
    unfold pruneAll
    rw [hshard]
    dsimp only
    split_ifs with hlt
    · rw [Int32.lt_iff_toInt_lt, hk] at hlt
      exact ih.conseq (fun s h => ⟨h.1, h.2.tail fun _ _ => ⟨k, hlt, rfl⟩⟩) fun _ _ h => h
    · rw [Int32.lt_iff_toInt_lt, hk] at hlt
      refine (Alone.wrapping (alone_delete (G := fun s => PartitionWritten sha256 fl s ∧ StraysIn fl rest s)
        ?_ ?_) _).bind fun _ => (alone_event _ _ _ _ _).bind fun _ => ih
      · rintro s ⟨hp, hs⟩ -
        have hs' : StraysIn fl ((shardDeploymentName fl.name k, d) :: rest)
            (s.drop .deployment (shardDeploymentName fl.name k)) :=
          fun name' d' hl => hs name' d' (s.of_lookup_drop hl)
        refine ⟨hp.drop hlt, hs'.tail fun d' hl => ?_⟩
        rw [s.lookup_drop_self] at hl
        cases hl
      · rintro s ⟨hp, hs⟩ - hn
        refine ⟨hp, hs.tail fun d' hl => ?_⟩
        rw [hn] at hl
        cases hl

/-- Every labelled Deployment is listed, so none that is too many stays. -/
theorem pruneStaleShards_alone :
    Alone fl.name (PartitionWritten sha256 fl) (pruneStaleShards fl)
      fun _ s => PartitionWritten sha256 fl s ∧ StraysIn fl [] s := by
  refine (Alone.wrapping (alone_request (c := .list .deployment (selectorLabels fl.name))
    (G := fun (ds : List (String × Obj .deployment)) s => (PartitionWritten sha256 fl s ∧
      StraysIn fl ds s) ∧ ∀ name d, (name, d) ∈ ds → IsShard fl.name name d) ?_) _).bind fun ds => ?_
  · intro s ds s' f hF ha hl _ _
    have he := list_effect ha
    subst he
    obtain rfl := list_ok ha
    refine ⟨⟨hF, fun name d hd => .inr ⟨d, Cluster.mem_matching.mpr ⟨hd, ?_⟩⟩⟩, fun name d hm => ?_⟩
    · obtain ⟨-, k, -, -, -, -, hlab, -⟩ : IsShard fl.name name d := hl.objs .deployment name d hd
      exact hlab ▸ selector_shard fl.name k
    · exact hl.objs .deployment name d (Cluster.mem_matching.mp hm).1
  · change List (String × Obj .deployment) at ds
    by_cases hds : ∀ name d, (name, d) ∈ ds → IsShard fl.name name d
    · exact (pruneAll_alone ds hds).conseq (fun s h => h.1) fun _ _ h => h
    · exact fun s _ h => absurd h.2 hds

theorem reconcileShards_alone :
    Alone fl.name (ConfigWritten fl)
      (reconcileShards fl (hashConfigData sha256 (buildConfigData fl.spec)))
      fun _ s => PartitionWritten sha256 fl s ∧ StraysIn fl [] s := by
  refine ((updateShards_alone _ []).conseq (fun s h => ⟨h, fun _ hk => (List.not_mem_nil hk).elim⟩)
    (Q := fun _ => PartitionWritten sha256 fl) fun _ s h => ⟨h.1, fun k hk => h.2 k ?_⟩).bind
    fun _ => pruneStaleShards_alone
  rw [List.append_nil, List.mem_range, Int32.toNatClampNeg]
  omega

/-- The partition does not depend on the CronJob. -/
theorem partition_frame {s s' : Cluster} (h : PartitionWritten sha256 fl s ∧ StraysIn fl [] s)
    (hne : ∀ κ name, κ ≠ .cronJob → (s'.objs κ).lookup name = (s.objs κ).lookup name) :
    PartitionWritten sha256 fl s' ∧ StraysIn fl [] s' := by
  obtain ⟨⟨hc, hk⟩, hs⟩ := h
  refine ⟨⟨hc.frame (hne _ _ Kind.noConfusion), fun k hlt => (hk k hlt).frame (hne _ _ Kind.noConfusion)⟩,
    fun name d hl => hs name d ?_⟩
  rwa [hne _ _ Kind.noConfusion] at hl

theorem converged_of {s : Cluster} (h : PartitionWritten sha256 fl s ∧ StraysIn fl [] s)
    (hr : RebuildScheduled fl s) : Converged sha256 fl s where
  config := h.1.1
  shards := h.1.2
  noStrays := fun name d hl _ => (h.2 name d hl).resolve_right fun ⟨_, hm⟩ => List.not_mem_nil hm
  rebuild := hr

theorem reconcileMaintenance_alone :
    Alone fl.name (fun s => PartitionWritten sha256 fl s ∧ StraysIn fl [] s) (reconcileMaintenance fl)
      fun _ => Converged sha256 fl := by
  unfold reconcileMaintenance
  have hiff := scheduled_eq fl.spec
  split_ifs with hsched
  · rw [hsched] at hiff
    refine Alone.wrapping (alone_createOrUpdate ?_) _
    intro s s' old o m hF hm _ hl hne
    refine converged_of (partition_frame hF fun κ name hκ => hne κ name (.inl hκ)) ?_
    unfold RebuildScheduled
    rw [hl]
    refine ⟨fun h => ?_, ?_⟩
    · rw [h] at hiff
      cases hiff
    · rw [mutateCronJob_ok hm]
      rfl
  · rw [Bool.eq_false_iff.mpr hsched] at hiff
    have hnone : (maintenanceSchedule fl.spec).1 = "" := by
      by_contra h
      rw [decide_eq_false h] at hiff
      cases hiff
    have hgone : ∀ s : Cluster, (s.objs .cronJob).lookup (maintenanceCronJobName fl.name) = none →
        RebuildScheduled fl s := by
      intro s hn
      unfold RebuildScheduled
      rw [hn]
      exact hnone
    refine Alone.wrapping (alone_delete ?_ ?_) _
    · intro s hF _
      exact converged_of (partition_frame hF fun κ name hκ => s.lookup_drop_ne (.inl hκ))
        (hgone _ (s.lookup_drop_self ..))
    · intro s hF _ hn
      exact converged_of hF (hgone s hn)

theorem Converged.frame {s s' : Cluster} (h : Converged sha256 fl s) (hs : s'.objs = s.objs) :
    Converged sha256 fl s' := by
  obtain ⟨hc, hk, hn, hr⟩ := h
  refine ⟨hc.frame (by rw [hs]), fun k hlt => (hk k hlt).frame (by rw [hs]), ?_, ?_⟩
  · unfold NoStrays
    rwa [hs]
  · unfold RebuildScheduled
    rwa [hs]

/-- A call that writes no child. -/
theorem alone_aside {feed : String} {c : Call}
    (h : ∀ (s : Cluster) (r : Answer c) (s' : Cluster) (f : Fate), s.answer f c = (r, s') →
      s'.objs = s.objs) :
    Alone feed (Converged sha256 fl) (attempt c) fun _ => Converged sha256 fl :=
  alone_attempt fun s r s' f hF ha _ _ _ => hF.frame (h s r s' f ha)

theorem alone_request_aside {feed : String} {c : Call}
    (h : ∀ (s : Cluster) (r : Answer c) (s' : Cluster) (f : Fate), s.answer f c = (r, s') →
      s'.objs = s.objs) :
    Alone feed (Converged sha256 fl) (request c) fun _ => Converged sha256 fl :=
  alone_request fun s a s' f hF ha _ _ _ => hF.frame (h s (.ok a) s' f ha)

theorem tallyPods_alone {feed : String} {fl' : FeedListener} (t : PodTally) (pods : List Pod) :
    Alone feed (Converged sha256 fl) (tallyPods fl' t pods) fun _ => Converged sha256 fl := by
  induction pods generalizing t with
  | nil => exact alone_pure fun _ h => h
  | cons pod pods ih =>
    unfold tallyPods
    split_ifs
    · exact ih t
    · refine (alone_aside fun s r s' f ha => by rw [probe_effect ha]).bind fun r => ?_
      cases r with
      | error e => exact ih _
      | ok status =>
        dsimp only
        split
        · exact ih _
        · exact (alone_aside fun s r s' f ha => by rw [now_effect ha]).bind fun _ => ih _

theorem observeIndexMaintenance_alone {feed : String} {fl' : FeedListener} :
    Alone feed (Converged sha256 fl) (observeIndexMaintenance fl') fun _ => Converged sha256 fl := by
  unfold observeIndexMaintenance
  split_ifs
  · refine (alone_aside fun s r s' f ha => by rw [get_effect ha]).bind fun r => ?_
    cases r with
    | error e => exact alone_pure fun _ h => h
    | ok c => exact alone_pure fun _ h => h
  · exact alone_pure fun _ h => h

/-- Nothing after the children writes to them. -/
theorem reconcileStatus_alone :
    Alone fl.name (Converged sha256 fl) (reconcileStatus fl) fun _ => Converged sha256 fl := by
  refine (Alone.wrapping (alone_request_aside fun s r s' f ha => ?_) _).bind fun pods => ?_
  · rw [listPods_effect ha]
  refine (tallyPods_alone _ pods).bind fun t => ?_
  refine observeIndexMaintenance_alone.bind fun fl' => ?_
  refine (Alone.wrapping (alone_request_aside fun s r s' f ha => ?_) _).bind
    fun _ => alone_pure fun _ h => h
  rcases updateStatus_effect ha with rfl | ⟨cur, -, -, rfl⟩ <;> rfl

theorem reconcileChildren_alone {F : Cluster → Prop} :
    Alone fl.name F (reconcileChildren sha256 fl) fun _ => Converged sha256 fl := by
  refine (reconcileConfigMap_alone.tryCatch fun e => alone_failed fl _ e).bind fun configHash => ?_
  by_cases hh : configHash = hashConfigData sha256 (buildConfigData fl.spec)
  · subst hh
    refine Alone.bind (G := fun _ => ConfigWritten fl) ?_ fun _ => ?_
    · exact (reconcileService_alone.conseq (fun _ h => h.1) fun _ _ h => h).tryCatch
        fun e => alone_failed fl _ e
    refine (reconcileShards_alone.tryCatch fun e => alone_failed fl _ e).bind fun _ => ?_
    refine (reconcileMaintenance_alone.tryCatch fun e => alone_failed fl _ e).bind fun _ => ?_
    exact reconcileStatus_alone
  · exact fun s _ h => absurd h.2 hh

/-- The children depend on the name and the spec alone. -/
theorem Converged.congr {s : Cluster} {fl' : FeedListener} (h : Converged sha256 fl' s)
    (hn : fl'.name = fl.name) (hs : fl'.spec = fl.spec) : Converged sha256 fl s := by
  obtain ⟨hc, hk, hno, hr⟩ := h
  unfold ConfigWritten ShardWritten NoStrays RebuildScheduled at *
  rw [hn, hs] at hc hk hno hr
  exact ⟨hc, hk, hno, hr⟩

theorem registerFinalizer_alone {F : Cluster → Prop} :
    Alone fl.name F (registerFinalizer fl) fun fl' _ => fl'.name = fl.name ∧ fl'.spec = fl.spec := by
  unfold registerFinalizer
  split_ifs
  · exact alone_pure fun _ _ => ⟨rfl, rfl⟩
  · refine Alone.wrapping (alone_request fun s fl' s' f hF ha hl _ ht => ⟨ht, ?_⟩) _
    obtain ⟨cur, -, -, rfl⟩ := updateFeed_ok ha
    rfl

/-- Of a feed that is stored and not being deleted. -/
theorem reconcile_alone :
    Alone fl.name (fun s => s.feeds.lookup fl.name = some fl ∧ fl.deletionTimestamp = false)
      (reconcile sha256 fl.name) fun _ => Converged sha256 fl := by
  refine (alone_attempt (c := .getFeed fl.name) (G := fun r _ => fl.deletionTimestamp = false ∧
    match r with
    | .error e => e.reason ≠ .notFound
    | .ok (fl' : FeedListener) => fl' = fl) ?_).bind fun r => ?_
  · rintro s r s' f ⟨hfl, hd⟩ ha _ _ _
    refine ⟨hd, ?_⟩
    cases r with
    | error e =>
      intro he
      have hn := getFeed_notFound ha (by rw [ApiError.Definite, he]; decide)
      rw [hfl] at hn
      cases hn
    | ok fl' =>
      have hl := getFeed_ok ha
      rw [hfl] at hl
      exact (Option.some.inj hl).symm
  · cases r with
    | error e =>
      dsimp only
      split_ifs with he
      · exact fun s _ h => absurd he h.2
      · exact alone_throw _
    | ok fl' =>
      change FeedListener at fl'
      dsimp only
      by_cases hf : fl.deletionTimestamp = false ∧ fl' = fl
      · obtain ⟨hd, rfl⟩ := hf
        rw [if_neg (Bool.eq_false_iff.mp hd)]
        refine registerFinalizer_alone.bind fun fl₁ => ?_
        by_cases h₁ : fl₁.name = fl'.name ∧ fl₁.spec = fl'.spec
        · have hchildren : Alone fl₁.name (fun _ => True) (reconcileChildren sha256 fl₁)
              fun _ => Converged sha256 fl₁ := reconcileChildren_alone
          rw [h₁.1] at hchildren
          exact hchildren.conseq (fun _ _ => trivial) fun _ s h => h.congr h₁.1 h₁.2
        · exact fun s _ h => absurd h h₁
      · exact fun s _ h => absurd h hf

end Reconcile

/-- A worker that is left alone keeps what its program guarantees. -/
theorem run_calls {sha256 : List UInt8 → List UInt8} {feed : String} {inv : Cluster → Prop}
    {env : Cluster → Cluster → Prop} {Q : Except Err Requeue → Cluster → Prop} {fates : List Fate}
    {w w' : World} (hi : inv w.cluster)
    (h : w.worker.wp (fun c s r s' => ∃ f, s.answer f c = (r, s')) env inv Q w.cluster)
    (hrun : w.run sha256 feed (fates.map .call) = some w') {a : Except Err Requeue}
    (ha : w'.worker = .pure a) : Q a w'.cluster := by
  induction fates generalizing w with
  | nil =>
    cases hrun
    rw [ha] at h
    exact h _ .refl hi
  | cons f fates ih =>
    obtain ⟨w₁, hs, hrun⟩ := Option.bind_eq_some_iff.mp hrun
    rcases step_cases hs with ⟨he, -⟩ | ⟨f', c, k, r, s, he, hc, hans, rfl⟩ | ⟨he, -⟩ | ⟨e, s, he, -⟩
    · cases he
    · rw [hc] at h
      obtain ⟨hi', hk⟩ := h _ .refl hi r s ⟨f', hans⟩
      exact ih hi' hk hrun
    · cases he
    · cases he

/-- A reconcile of a feed that is stored and not being deleted returned no error, and left this world. -/
def Reconciled (sha256 : List UInt8 → List UInt8) (feed : String) (fl : FeedListener) (w₁ : World) : Prop :=
  ∃ (w₀ : World) (fates : List Fate) (requeue : Requeue), World.initial.Reaches sha256 feed (fun _ _ => True) w₀ ∧
    w₀.cluster.feeds.lookup feed = some fl ∧ fl.deletionTimestamp = false ∧
    w₀.run sha256 feed (.reconcile :: fates.map .call) = some w₁ ∧ w₁.worker = .pure (.ok requeue)

theorem Reconciled.converged {sha256 : List UInt8 → List UInt8} {feed : String} {fl : FeedListener} {w₁ : World}
    (h : Reconciled sha256 feed fl w₁) : fl.name = feed ∧ Converged sha256 fl w₁.cluster := by
  obtain ⟨w₀, fates, requeue, h₀, hfl, hd, hrun, hok⟩ := h
  have hl := ((sound_initial feed).reaches h₀).1
  obtain rfl : fl.name = feed := hl.feeds feed fl hfl
  obtain ⟨w, hs, hrun⟩ := Option.bind_eq_some_iff.mp hrun
  obtain rfl : w = ⟨w₀.cluster, w₀.log, reconcile sha256 fl.name⟩ := by
    rcases step_cases hs with ⟨-, -, h⟩ | ⟨f, c, k, r, s, he, -⟩ | ⟨he, -⟩ | ⟨e, s, he, -⟩
    · exact h
    · cases he
    · cases he
    · cases he
  have hwp := Alone.wp_of_lawful reconcile_alone (reconcile_lawful sha256 fl.name) hl ⟨hfl, hd⟩
  exact ⟨rfl, (run_calls (w := ⟨_, w₀.log, _⟩) ⟨hl, trivial⟩ hwp hrun hok).2 requeue rfl⟩

/-- Whatever happened before, a reconcile of a feed that is not being deleted leaves exactly the
children of the current spec, if it returns no error. -/
theorem reconcile_converges (sha256 : List UInt8 → List UInt8) (feed : String) {w₀ w₁ : World}
    {fl : FeedListener} {fates : List Fate} {requeue : Requeue}
    (h₀ : World.initial.Reaches sha256 feed (fun _ _ => True) w₀)
    (hfl : w₀.cluster.feeds.lookup feed = some fl) (hd : fl.deletionTimestamp = false)
    (hrun : w₀.run sha256 feed (.reconcile :: fates.map .call) = some w₁)
    (hok : w₁.worker = .pure (.ok requeue)) :
    Converged sha256 fl w₁.cluster :=
  (Reconciled.converged ⟨w₀, fates, requeue, h₀, hfl, hd, hrun, hok⟩).2

section Eddn

/-- What the worker's last reconcile returned, if it is done and did not fail. -/
def World.returned (w : World) : Option Requeue :=
  match w.worker with
  | .pure (.ok requeue) => some requeue
  | _ => none

theorem returned_spec {w : World} {requeue : Requeue} (h : w.returned = some requeue) :
    w.worker = .pure (.ok requeue) := by
  unfold World.returned at h
  split at h
  · cases h
    assumption
  · cases h

/-- The sample feed, scaled down to one consumer after a reconcile at two was cut short. -/
def scaledDown : List Action :=
  [.cluster (.createFeed (eddnSpec 2)), .reconcile] ++ served 10 ++
    [.crash, .cluster (.editSpec (eddnSpec 1))]

theorem reconcile_converges_eddn :
    ∃ w₀ w₁ fl, World.initial.run eddnDigest "eddn" scaledDown = some w₀ ∧
      w₀.cluster.feeds.lookup "eddn" = some fl ∧ fl.spec = eddnSpec 1 ∧
      (w₀.cluster.objs .deployment).keys = ["eddn-1", "eddn-0"] ∧
      w₀.run eddnDigest "eddn" (.reconcile :: served 14) = some w₁ ∧
      Converged eddnDigest fl w₁.cluster := by
  have h : ((World.initial.run eddnDigest "eddn" scaledDown).bind fun w₀ =>
      (w₀.cluster.feeds.lookup "eddn").bind fun fl =>
        (w₀.run eddnDigest "eddn" (.reconcile :: served 14)).map fun w₁ => decide
          (fl.spec = eddnSpec 1 ∧ (w₀.cluster.objs .deployment).keys = ["eddn-1", "eddn-0"] ∧
            fl.deletionTimestamp = false ∧ w₁.returned = some (some statusPollInterval))) =
      some true := by
    decide +kernel
  obtain ⟨w₀, h₀, h⟩ := Option.bind_eq_some_iff.mp h
  obtain ⟨fl, hfl, h⟩ := Option.bind_eq_some_iff.mp h
  obtain ⟨w₁, h₁, h⟩ := Option.map_eq_some_iff.mp h
  obtain ⟨hspec, hkeys, hd, hret⟩ := of_decide_eq_true h
  refine ⟨w₀, w₁, fl, h₀, hfl, hspec, hkeys, h₁, ?_⟩
  rw [served, ← List.map_replicate] at h₁
  exact reconcile_converges eddnDigest "eddn" (reaches_run .refl (fun _ _ _ => trivial) h₀) hfl hd h₁
    (returned_spec hret)

end Eddn

end EliteEvents

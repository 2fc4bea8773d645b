import EliteEvents.Proofs.Builders
import EliteEvents.Spec.Operator

/-! Everything in the namespace is what the operator wrote, or was started from it: shard
Deployments under their own names and labels, the one CronJob, maintenance Jobs, the drain Job, and
the pods of these. The calls of a reconcile keep this on their own, whatever they are answered. -/

namespace EliteEvents

namespace Cluster

variable (s : Cluster)

@[simp] theorem objs_set (κ : Kind) (name : String) (o : Obj κ) :
    (s.set κ name o).objs = Function.update s.objs κ ((s.objs κ).insert name o) := rfl

@[simp] theorem objs_drop (κ : Kind) (name : String) :
    (s.drop κ name).objs = Function.update s.objs κ ((s.objs κ).erase name) := rfl

@[simp] theorem feeds_setFeed (fl : FeedListener) :
    (s.setFeed fl).feeds = s.feeds.insert fl.name fl := rfl

@[simp] theorem feeds_dropFeed (name : String) : (s.dropFeed name).feeds = s.feeds.erase name := rfl

theorem lookup_set_self (κ : Kind) (name : String) (o : Obj κ) :
    ((s.set κ name o).objs κ).lookup name = some o := by
  rw [objs_set, Function.update_self, AList.lookup_insert]

theorem lookup_set_ne {κ κ' : Kind} {name name' : String} (h : κ' ≠ κ ∨ name' ≠ name) (o : Obj κ) :
    ((s.set κ name o).objs κ').lookup name' = (s.objs κ').lookup name' := by
  by_cases hκ : κ' = κ
  · subst hκ
    rw [objs_set, Function.update_self, AList.lookup_insert_ne (h.resolve_left (· rfl))]
  · rw [objs_set, Function.update_of_ne hκ]

theorem lookup_drop_self (κ : Kind) (name : String) :
    ((s.drop κ name).objs κ).lookup name = none := by
  rw [objs_drop, Function.update_self, AList.lookup_erase]

theorem lookup_drop_ne {κ κ' : Kind} {name name' : String} (h : κ' ≠ κ ∨ name' ≠ name) :
    ((s.drop κ name).objs κ').lookup name' = (s.objs κ').lookup name' := by
  by_cases hκ : κ' = κ
  · subst hκ
    rw [objs_drop, Function.update_self, AList.lookup_erase_ne (h.resolve_left (· rfl))]
  · rw [objs_drop, Function.update_of_ne hκ]

theorem of_lookup_drop {κ κ' : Kind} {name name' : String} {o : Obj κ'}
    (h : ((s.drop κ name).objs κ').lookup name' = some o) : (s.objs κ').lookup name' = some o := by
  by_cases hκ : κ' ≠ κ ∨ name' ≠ name
  · rwa [lookup_drop_ne s hκ] at h
  · obtain ⟨rfl, rfl⟩ := not_or.mp hκ |>.imp not_not.mp not_not.mp
    rw [lookup_drop_self] at h
    cases h

variable {s}

/-- What holds of every object still does if it holds of a new one. -/
theorem forall_set {P : (κ : Kind) → String → Obj κ → Prop}
    (h : ∀ κ name o, (s.objs κ).lookup name = some o → P κ name o) {κ : Kind} {name : String}
    {o : Obj κ} (ho : P κ name o) :
    ∀ κ' name' o', ((s.set κ name o).objs κ').lookup name' = some o' → P κ' name' o' := by
  intro κ' name' o' hl
  by_cases hκ : κ' ≠ κ ∨ name' ≠ name
  · rw [lookup_set_ne s hκ] at hl
    exact h κ' name' o' hl
  · obtain ⟨rfl, rfl⟩ := not_or.mp hκ |>.imp not_not.mp not_not.mp
    rw [lookup_set_self] at hl
    cases hl
    exact ho

theorem mem_matching {κ : Kind} {sel : Labels} {name : String} {o : Obj κ} :
    (name, o) ∈ s.matching κ sel ↔
      (s.objs κ).lookup name = some o ∧ sel.matches o.metadata.labels = true := by
  rw [matching, List.mem_map]
  constructor
  · rintro ⟨⟨name', o'⟩, hm, he⟩
    cases he
    obtain ⟨hm, hs⟩ := List.mem_filter.mp hm
    exact ⟨AList.mem_lookup_iff.mpr hm, hs⟩
  · rintro ⟨hl, hs⟩
    exact ⟨⟨name, o⟩, List.mem_filter.mpr ⟨AList.mem_lookup_iff.mp hl, hs⟩, rfl⟩

theorem matchingPods_eq_nil {sel : Labels} :
    s.matchingPods sel = [] ↔ ∀ id p, s.pods.lookup id = some p → sel.matches p.labels = false := by
  rw [matchingPods, List.map_eq_nil_iff, List.filter_eq_nil_iff]
  constructor
  · intro h id p hl
    exact Bool.eq_false_iff.mpr (h ⟨id, p⟩ (AList.mem_lookup_iff.mp hl))
  · rintro h ⟨id, p⟩ hm
    rw [h id p (AList.mem_lookup_iff.mpr hm)]
    exact Bool.false_ne_true

end Cluster

theorem metadata_withMetadata {κ : Kind} (o : Obj κ) (m : ObjectMeta) :
    (o.withMetadata m).metadata = m := by
  cases κ <;> rfl

/-- A Deployment the operator wrote for a shard. -/
def IsShard (feed name : String) (d : Deployment) : Prop :=
  ∃ (fl : FeedListener) (k : ℕ) (configHash : String), fl.name = feed ∧ k < 2 ^ 31 ∧
    name = shardDeploymentName feed k ∧ d.metadata.labels = shardLabels feed k ∧
    d.selector = some (shardSelectorLabels feed k) ∧ d.strategy = .recreate ∧
    d.template = (buildShardDeployment fl k configHash).template

def IsRebuild (feed name : String) (c : CronJob) : Prop :=
  name = maintenanceCronJobName feed ∧
    ∃ fl : FeedListener, fl.name = feed ∧ c.jobTemplate = (buildMaintenanceCronJob fl).jobTemplate

/-- The drain Job, or a Job of the CronJob. -/
def IsOneShot (feed name : String) (j : Job) : Prop :=
  (name = drainJobName feed ∧ j.metadata.labels = drainLabels feed ∧
      j.template.labels = drainLabels feed) ∨
    (name ≠ drainJobName feed ∧ j.metadata.labels = maintenanceLabels feed ∧
      j.template.labels = maintenanceLabels feed)

def Expected (feed : String) : (κ : Kind) → String → Obj κ → Prop
  | .configMap, _, _ | .service, _, _ => True
  | .deployment, name, d => IsShard feed name d
  | .cronJob, name, c => IsRebuild feed name c
  | .job, name, j => IsOneShot feed name j

theorem Expected.withMetadata {feed : String} {κ : Kind} {name : String} {o : Obj κ} {m : ObjectMeta}
    (h : Expected feed κ name o) (hm : m.labels = o.metadata.labels) :
    Expected feed κ name (o.withMetadata m) := by
  cases κ with
  | configMap => trivial
  | service => trivial
  | deployment =>
    obtain ⟨fl, k, ch, hn, hk, hname, hl, hrest⟩ := h
    exact ⟨fl, k, ch, hn, hk, hname, hm.trans hl, hrest⟩
  | cronJob => exact h
  | job => exact h.imp (fun h => ⟨h.1, hm.trans h.2.1, h.2.2⟩) fun h => ⟨h.1, hm.trans h.2.1, h.2.2⟩

/-- A pod of a shard, of a rebuild, or of the drain. -/
def IsPod (feed : String) (p : Pod) : Prop :=
  (∃ k, p.labels = shardLabels feed k ∧ p.env.lookup shardIndexEnvVar = some (itoa k)) ∨
    p.labels = maintenanceLabels feed ∨ p.labels = drainLabels feed

structure Labelled (feed : String) (s : Cluster) : Prop where
  feeds : ∀ name fl, s.feeds.lookup name = some fl → fl.name = name
  objs : ∀ κ name o, (s.objs κ).lookup name = some o → Expected feed κ name o
  pods : ∀ id p, s.pods.lookup id = some p → IsPod feed p
  /-- a shard has one pod at a time -/
  recreated : ∀ id id' p p' k, s.pods.lookup id = some p → s.pods.lookup id' = some p' →
    p.labels = shardLabels feed k → p'.labels = shardLabels feed k → id = id'

theorem labelled_initial (feed : String) : Labelled feed World.initial.cluster where
  feeds := fun _ _ h => by cases h
  objs := fun _ _ _ h => by cases h
  pods := fun _ _ h => by cases h
  recreated := fun _ _ _ _ _ h => by cases h

section Labelled

variable {feed : String} {s : Cluster}

theorem Labelled.setFeed (h : Labelled feed s) (fl : FeedListener) : Labelled feed (s.setFeed fl) where
  feeds := by
    intro name fl' hl
    by_cases hn : name = fl.name
    · subst hn
      rw [Cluster.feeds_setFeed, AList.lookup_insert] at hl
      cases hl
      rfl
    · rw [Cluster.feeds_setFeed, AList.lookup_insert_ne hn] at hl
      exact h.feeds name fl' hl
  objs := h.objs
  pods := h.pods
  recreated := h.recreated

theorem Labelled.dropFeed (h : Labelled feed s) (name : String) : Labelled feed (s.dropFeed name) where
  feeds := by
    intro name' fl' hl
    by_cases hn : name' = name
    · subst hn
      rw [Cluster.feeds_dropFeed, AList.lookup_erase] at hl
      cases hl
    · rw [Cluster.feeds_dropFeed, AList.lookup_erase_ne hn] at hl
      exact h.feeds name' fl' hl
  objs := h.objs
  pods := h.pods
  recreated := h.recreated

theorem Labelled.set (h : Labelled feed s) {κ : Kind} {name : String} {o : Obj κ}
    (ho : Expected feed κ name o) : Labelled feed (s.set κ name o) :=
  ⟨h.feeds, Cluster.forall_set h.objs ho, h.pods, h.recreated⟩

theorem Labelled.drop (h : Labelled feed s) (κ : Kind) (name : String) : Labelled feed (s.drop κ name) :=
  ⟨h.feeds, fun κ' name' o hl => h.objs κ' name' o (s.of_lookup_drop hl), h.pods, h.recreated⟩

theorem Labelled.setPods (h : Labelled feed s) {pods : AList fun _ : ℕ => Pod} (r : ℕ)
    (hp : ∀ id p, pods.lookup id = some p → IsPod feed p)
    (hr : ∀ id id' p p' k, pods.lookup id = some p → pods.lookup id' = some p' →
      p.labels = shardLabels feed k → p'.labels = shardLabels feed k → id = id') :
    Labelled feed { s with pods := pods, revision := r } :=
  ⟨h.feeds, h.objs, hp, hr⟩

theorem startPod_eq {s' : Cluster} {t : PodTemplate} (h : s.startPod t = some s') :
    ∃ data, s.configData t.spec.container.envFrom = some data ∧
      s' = { s with
        pods := s.pods.insert (s.revision + 1)
          ⟨t.labels, true, none, "", containerEnv t.spec.container data⟩
        revision := s.revision + 1 } := by
  unfold Cluster.startPod at h
  obtain ⟨data, hd, h⟩ := Option.bind_eq_some_iff.mp h
  cases h
  exact ⟨data, hd, rfl⟩

/-- A new pod; a shard's pod only where the shard has none. -/
theorem Labelled.startPod (h : Labelled feed s) {s' : Cluster} {t : PodTemplate}
    (hs : s.startPod t = some s')
    (ht : ∀ data, IsPod feed ⟨t.labels, true, none, "", containerEnv t.spec.container data⟩)
    (hnone : ∀ k, t.labels = shardLabels feed k → ∀ id p, s.pods.lookup id = some p →
      p.labels ≠ shardLabels feed k) : Labelled feed s' := by
  obtain ⟨data, -, rfl⟩ := startPod_eq hs
  refine h.setPods _ (fun id p hl => ?_) fun id id' p p' k hl hl' hk hk' => ?_
  · by_cases hid : id = s.revision + 1
    · subst hid
      rw [AList.lookup_insert] at hl
      cases hl
      exact ht data
    · rw [AList.lookup_insert_ne hid] at hl
      exact h.pods id p hl
  · by_cases hid : id = s.revision + 1
    · by_cases hid' : id' = s.revision + 1
      · rw [hid, hid']
      · subst hid
        rw [AList.lookup_insert] at hl
        rw [AList.lookup_insert_ne hid'] at hl'
        cases hl
        exact absurd hk' (hnone k hk id' p' hl')
    · rw [AList.lookup_insert_ne hid] at hl
      by_cases hid' : id' = s.revision + 1
      · subst hid'
        rw [AList.lookup_insert] at hl'
        cases hl'
        exact absurd hk (hnone k hk' id p hl)
      · rw [AList.lookup_insert_ne hid'] at hl'
        exact h.recreated id id' p p' k hl hl' hk hk'

theorem Labelled.podStatus (h : Labelled feed s) {id : ℕ} {p : Pod} (q : Pod)
    (hp : s.pods.lookup id = some p)
    (hl : q.labels = p.labels) (he : q.env = p.env) (r : ℕ) :
    Labelled feed { s with pods := s.pods.insert id q, revision := r } := by
  -- every pod now was one before, with the same labels and environment
  have hold : ∀ id' p', (s.pods.insert id q).lookup id' = some p' →
      ∃ p₀, s.pods.lookup id' = some p₀ ∧ p'.labels = p₀.labels ∧ p'.env = p₀.env := by
    intro id' p' hl'
    by_cases hid : id' = id
    · subst hid
      rw [AList.lookup_insert] at hl'
      cases hl'
      exact ⟨p, hp, hl, he⟩
    · rw [AList.lookup_insert_ne hid] at hl'
      exact ⟨p', hl', rfl, rfl⟩
  refine h.setPods _ (fun id' p' hl' => ?_) fun id₁ id₂ p₁ p₂ k h₁ h₂ hk₁ hk₂ => ?_
  · obtain ⟨p₀, h₀, hlab, henv⟩ := hold id' p' hl'
    have hpod := h.pods id' p₀ h₀
    unfold IsPod at hpod ⊢
    rwa [hlab, henv]
  · obtain ⟨q₁, hq₁, hl₁, -⟩ := hold id₁ p₁ h₁
    obtain ⟨q₂, hq₂, hl₂, -⟩ := hold id₂ p₂ h₂
    exact h.recreated id₁ id₂ q₁ q₂ k hq₁ hq₂ (hl₁ ▸ hk₁) (hl₂ ▸ hk₂)

theorem Labelled.podGone (h : Labelled feed s) (id r : ℕ) :
    Labelled feed { s with pods := s.pods.erase id, revision := r } := by
  have hold : ∀ id' p', (s.pods.erase id).lookup id' = some p' → s.pods.lookup id' = some p' := by
    intro id' p' hl
    by_cases hid : id' = id
    · subst hid
      rw [AList.lookup_erase] at hl
      cases hl
    · rwa [AList.lookup_erase_ne hid] at hl
  exact h.setPods _ (fun id' p' hl => h.pods id' p' (hold id' p' hl))
    fun id₁ id₂ p₁ p₂ k h₁ h₂ => h.recreated id₁ id₂ p₁ p₂ k (hold _ _ h₁) (hold _ _ h₂)

/-- The pod of a shard Deployment carries the shard's labels and index. -/
theorem IsShard.isPod {name : String} {d : Deployment} (h : IsShard feed name d) (data : Labels) :
    IsPod feed ⟨d.template.labels, true, none, "", containerEnv d.template.spec.container data⟩ := by
  obtain ⟨fl, k, ch, rfl, -, -, -, -, -, ht⟩ := h
  rw [ht]
  exact .inl ⟨k, rfl, rfl⟩

theorem IsOneShot.labels_ne {name : String} {j : Job} (h : IsOneShot feed name j) (k : ℕ) :
    j.template.labels ≠ shardLabels feed k := by
  intro hl
  have hm := selector_shard feed k
  rcases h with ⟨-, -, ht⟩ | ⟨-, -, ht⟩
  · rw [← hl, ht, selector_drain] at hm
    cases hm
  · rw [← hl, ht, selector_maintenance] at hm
    cases hm

/-- Names the CronJob gives to its Jobs are never the drain Job's. -/
theorem spawned_name_ne (feed suffix : String) :
    maintenanceCronJobName feed ++ ("-" ++ suffix) ≠ drainJobName feed := by
  intro h
  have hl := congrArg String.toList h
  simp only [maintenanceCronJobName, drainJobName, String.toList_append, List.append_assoc] at hl
  have hd := List.append_cancel_left hl
  revert hd
  show ¬ ('-' :: 'r' :: _ = '-' :: 'd' :: _)
  intro hd
  cases hd

end Labelled

/-- What each action does, and when it can happen. -/
inductive Moves (feed : String) (s : Cluster) : ClusterAction → Cluster → Prop
  | createFeed (fl : FeedListener) (hn : s.feeds.lookup feed = none) (hname : fl.name = feed)
      (hd : fl.deletionTimestamp = false) :
      Moves feed s (.createFeed fl.spec) (s.setFeed fl)
  | editSpec (spec : FeedListenerSpec) (fl : FeedListener) (hl : s.feeds.lookup feed = some fl) :
      Moves feed s (.editSpec spec) (s.setFeed (s.mergeFeed fl { fl with spec := spec }))
  | removeFeed (fl : FeedListener) (hl : s.feeds.lookup feed = some fl)
      (hd : fl.deletionTimestamp = false) (hf : fl.finalizers = []) :
      Moves feed s .deleteFeed (s.dropFeed feed)
  | deleteFeed (fl : FeedListener) (hl : s.feeds.lookup feed = some fl)
      (hd : fl.deletionTimestamp = false) (fl' : FeedListener) (hname : fl'.name = fl.name)
      (huid : fl'.uid = fl.uid) (hd' : fl'.deletionTimestamp = true) :
      Moves feed s .deleteFeed (s.setFeed fl')
  | startShardPod (name : String) (d : Deployment) (hl : (s.objs .deployment).lookup name = some d)
      (hm : d.mayStart s = true) (s' : Cluster) (hs : s.startPod d.template = some s') :
      Moves feed s (.startShardPod name) s'
  | spawnJob (name suffix : String) (c : CronJob) (hl : (s.objs .cronJob).lookup name = some c)
      (hn : (s.objs .job).lookup (name ++ ("-" ++ suffix)) = none) :
      Moves feed s (.spawnJob name suffix) (s.set .job (name ++ ("-" ++ suffix)) (c.spawned s))
  | startJobPod (name : String) (j : Job) (hl : (s.objs .job).lookup name = some j)
      (hd : j.metadata.deletionTimestamp = false) (s' : Cluster)
      (hs : s.startPod j.template = some s') : Moves feed s (.startJobPod name) s'
  | podStatus (id : ℕ) (p : Pod) (running : Bool) (readyCondition : Option Bool) (podIP : String)
      (hl : s.pods.lookup id = some p) :
      Moves feed s (.podStatus id running readyCondition podIP)
        { s with pods := s.pods.insert id ⟨p.labels, running, readyCondition, podIP, p.env⟩
                 revision := s.revision + 1 }
  | podGone (id : ℕ) :
      Moves feed s (.podGone id) { s with pods := s.pods.erase id, revision := s.revision + 1 }
  | jobStatus (name : String) (status : JobStatus) (j j' : Job)
      (hl : (s.objs .job).lookup name = some j)
      (hj : j' = { j with metadata := { j.metadata with resourceVersion := s.revision + 1 }
                          status := status }) :
      Moves feed s (.jobStatus name status) (s.set .job name j')
  | cronStatus (name : String) (t : Option ℤ) (c c' : CronJob)
      (hl : (s.objs .cronJob).lookup name = some c)
      (hc : c' = { c with metadata := { c.metadata with resourceVersion := s.revision + 1 }
                          lastSuccessfulTime := t }) :
      Moves feed s (.cronStatus name t) (s.set .cronJob name c')
  | mark (κ : Kind) (name : String) (o : Obj κ) (hl : (s.objs κ).lookup name = some o) :
      Moves feed s (.mark κ name)
        (s.set κ name (o.withMetadata (s.stamp o.metadata o.metadata.uid true)))
  | gone (κ : Kind) (name : String) : Moves feed s (.gone κ name) (s.drop κ name)

theorem moves_of_apply {feed : String} {a : ClusterAction} {s s' : Cluster}
    (h : a.apply feed s = some s') : Moves feed s a s' := by
  cases a with
  | createFeed spec =>
    simp only [ClusterAction.apply] at h
    split at h
    · cases h
    · split_ifs at h
      cases h
      exact .createFeed ⟨feed, _, _, _, _, _, spec, _⟩ ‹_› rfl rfl
  | editSpec spec =>
    obtain ⟨fl, hl, h⟩ := Option.bind_eq_some_iff.mp h
    split_ifs at h
    cases h
    exact .editSpec spec fl hl
  | deleteFeed =>
    obtain ⟨fl, hl, h⟩ := Option.bind_eq_some_iff.mp h
    split_ifs at h with hd hf
    · cases h
      exact .removeFeed fl hl (Bool.eq_false_iff.mpr hd) hf
    · cases h
      exact .deleteFeed fl hl (Bool.eq_false_iff.mpr hd) _ rfl rfl rfl
  | startShardPod name =>
    obtain ⟨d, hl, h⟩ := Option.bind_eq_some_iff.mp h
    split_ifs at h with hm
    exact .startShardPod name d hl hm s' h
  | spawnJob name suffix =>
    obtain ⟨c, hl, h⟩ := Option.bind_eq_some_iff.mp h
    split_ifs at h
    simp only at h
    split at h
    · cases h
    · cases h
      exact .spawnJob name suffix c hl ‹_›
  | startJobPod name =>
    obtain ⟨j, hl, h⟩ := Option.bind_eq_some_iff.mp h
    split_ifs at h with hd
    exact .startJobPod name j hl (Bool.eq_false_iff.mpr hd) s' h
  | podStatus id running readyCondition podIP =>
    obtain ⟨p, hl, h⟩ := Option.bind_eq_some_iff.mp h
    cases h
    exact .podStatus id p running readyCondition podIP hl
  | podGone id =>
    cases h
    exact .podGone id
  | jobStatus name status =>
    obtain ⟨j, hl, h⟩ := Option.bind_eq_some_iff.mp h
    cases h
    exact .jobStatus name status j _ hl rfl
  | cronStatus name t =>
    obtain ⟨c, hl, h⟩ := Option.bind_eq_some_iff.mp h
    cases h
    exact .cronStatus name t c _ hl rfl
  | mark κ name =>
    obtain ⟨o, hl, h⟩ := Option.bind_eq_some_iff.mp h
    cases h
    exact .mark κ name o hl
  | gone κ name =>
    cases h
    exact .gone κ name

theorem mayStart_spec {d : Deployment} {s : Cluster} (h : d.mayStart s = true) :
    d.metadata.deletionTimestamp = false ∧
      (d.strategy = .recreate → ∀ id p, s.pods.lookup id = some p →
        (d.selector.getD []).matches p.labels = false) := by
  simp only [Deployment.mayStart, Bool.and_eq_true, Bool.or_eq_true, Bool.not_eq_true',
    beq_iff_eq] at h
  refine ⟨h.1.1, fun hs => ?_⟩
  rcases h.2 with hr | he
  · rw [hs] at hr
    cases hr
  · exact Cluster.matchingPods_eq_nil.mp (List.isEmpty_iff.mp he)

/-- Nothing the users and the cluster do puts anything else into the namespace. -/
theorem Labelled.apply {feed : String} {a : ClusterAction} {s s' : Cluster} (h : Labelled feed s)
    (ha : a.apply feed s = some s') : Labelled feed s' := by
  cases moves_of_apply ha with
  | createFeed fl hn hname hd => exact h.setFeed fl
  | editSpec spec fl hl => exact h.setFeed _
  | removeFeed fl hl hd hf => exact h.dropFeed feed
  | deleteFeed fl hl hd fl' hname huid hd' => exact h.setFeed fl'
  | startShardPod name d hl hm _ hs =>
    have hd : IsShard feed name d := h.objs .deployment name d hl
    refine h.startPod hs hd.isPod fun k hk id p hp hk' => ?_
    obtain ⟨fl, k', ch, rfl, -, -, -, hsel, hstrat, ht⟩ := hd
    have hno := (mayStart_spec hm).2 hstrat id p hp
    have hlab : p.labels = shardLabels fl.name k' := by
      rw [hk', ← hk, ht]
      rfl
    rw [hsel, Option.getD_some, hlab, shardSelector_shard] at hno
    cases hno
  | spawnJob name suffix c hl hn =>
    obtain ⟨rfl, fl, rfl, hc⟩ : IsRebuild feed name c := h.objs .cronJob name c hl
    refine h.set (.inr ⟨spawned_name_ne fl.name suffix, ?_, ?_⟩)
    · show c.jobTemplate.labels = _
      rw [hc]
      rfl
    · show c.jobTemplate.template.labels = _
      rw [hc]
      rfl
  | startJobPod name j hl hd _ hs =>
    have hj : IsOneShot feed name j := h.objs .job name j hl
    refine h.startPod hs (fun data => .inr ?_) fun k hk => absurd hk (hj.labels_ne k)
    exact hj.elim (fun h => .inr h.2.2) fun h => .inl h.2.2
  | podStatus id p running readyCondition podIP hl => 
    exact h.podStatus ⟨p.labels, running, readyCondition, podIP, p.env⟩ hl rfl rfl _
  | podGone id => exact h.podGone id _
  | jobStatus name status j j' hl hj =>
    have ho : IsOneShot feed name j := h.objs .job name j hl
    subst hj
    exact h.set (κ := .job) ho
  | cronStatus name t c c' hl hc =>
    have ho : IsRebuild feed name c := h.objs .cronJob name c hl
    subst hc
    exact h.set (κ := .cronJob) ho
  | mark κ name o hl => exact h.set ((h.objs κ name o hl).withMetadata rfl)
  | gone κ name => exact h.drop κ name

/-! The calls of a reconcile. -/

/-- What a call may write. -/
def Lawful (feed : String) : Call → Prop
  | .create κ name o | .update κ name o => Expected feed κ name o
  | .updateFeed fl | .updateStatus fl => fl.name = feed
  | _ => True

/-- What an answer can be relied on for. -/
def Truthful (feed : String) : (c : Call) → Answer c → Prop
  | .getFeed name, .ok fl => FeedListener.name fl = name
  | .updateFeed _, .ok fl | .updateStatus _, .ok fl => FeedListener.name fl = feed
  | .get κ name, .ok o => Expected feed κ name o
  | _, _ => True

section Answers

variable {feed : String} {s s' : Cluster} {f : Fate} {c : Call} {r : Answer c}

/-- A call takes effect as served, or not at all. -/
theorem answer_effect (h : s.answer f c = (r, s')) : s' = s ∨ s' = (s.serve c).2 := by
  have hs := (congrArg Prod.snd h).symm
  rcases f with ⟨- | ⟨message, - | -⟩, stream, clock⟩ <;> cases c <;>
    first | exact .inl hs | exact .inr hs

/-- What a pod and the clock say is not the server's. -/
def Call.Outside : Call → Prop
  | .probe _ | .now => True
  | _ => False

/-- An answer that is no failure is the server's. -/
theorem answer_ok {a : c.Result} (h : s.answer f c = (.ok a, s')) (hc : ¬ c.Outside) :
    s.serve c = (.ok a, s') := by
  rcases f with ⟨- | ⟨message, - | -⟩, stream, clock⟩ <;> cases c <;>
    first | exact h | exact absurd trivial hc | cases h

theorem answer_error {e : ApiError} (h : s.answer f c = (.error e, s')) (he : e.reason ≠ .other) :
    s.serve c = (.error e, s') := by
  by_cases hc : c.Outside
  · cases c with
    | probe ip =>
      cases hs : f.stream with
      | error message =>
        simp only [Cluster.answer, hs, Except.mapError, Prod.mk.injEq, Except.error.injEq] at h
        exact absurd (congrArg ApiError.reason h.1).symm he
      | ok st =>
        simp only [Cluster.answer, hs, Except.mapError, Prod.mk.injEq, reduceCtorEq, false_and] at h
    | now => cases h
    | _ => exact hc.elim
  · rcases f with ⟨- | ⟨message, - | -⟩, stream, clock⟩ <;> cases c <;>
      first | exact h | exact absurd trivial hc | (cases h; exact absurd rfl he)

theorem serve_pods (s : Cluster) (c : Call) : (s.serve c).2.pods = s.pods := by
  cases c with
  | updateFeed fl =>
    simp only [Cluster.serve]
    split
    · rfl
    · split_ifs <;> rfl
  | updateStatus fl =>
    simp only [Cluster.serve]
    split
    · rfl
    · split_ifs <;> rfl
  | update κ name o =>
    simp only [Cluster.serve]
    split
    · rfl
    · split_ifs <;> rfl
  | delete κ name foreground =>
    simp only [Cluster.serve]
    split
    · rfl
    · split_ifs <;> rfl
  | getFeed name => simp only [Cluster.serve]; split <;> rfl
  | get κ name => simp only [Cluster.serve]; split <;> rfl
  | create κ name o => simp only [Cluster.serve]; split <;> rfl
  | _ => rfl

theorem serve_revision (s : Cluster) (c : Call) : s.revision ≤ (s.serve c).2.revision := by
  cases c with
  | updateFeed fl =>
    simp only [Cluster.serve]
    split
    · exact le_rfl
    · split_ifs
      · exact Nat.le_succ _
      · exact Nat.le_succ _
      · exact le_rfl
  | updateStatus fl =>
    simp only [Cluster.serve]
    split
    · exact le_rfl
    · split_ifs
      · exact Nat.le_succ _
      · exact le_rfl
  | update κ name o =>
    simp only [Cluster.serve]
    split
    · exact le_rfl
    · split_ifs
      · exact Nat.le_succ _
      · exact le_rfl
  | delete κ name foreground =>
    simp only [Cluster.serve]
    split
    · exact le_rfl
    · split_ifs
      · exact Nat.le_succ _
      · exact Nat.le_succ _
  | getFeed name => simp only [Cluster.serve]; split <;> exact le_rfl
  | get κ name => simp only [Cluster.serve]; split <;> exact le_rfl
  | create κ name o =>
    simp only [Cluster.serve]
    split
    · exact le_rfl
    · exact Nat.le_succ _
  | _ => exact le_rfl

def Call.WritesFeed : Call → Prop
  | .updateFeed _ | .updateStatus _ => True
  | _ => False

theorem serve_feeds (s : Cluster) {c : Call} (h : ¬ c.WritesFeed) : (s.serve c).2.feeds = s.feeds := by
  cases c with
  | updateFeed fl | updateStatus fl => exact absurd trivial h
  | update κ name o =>
    simp only [Cluster.serve]
    split
    · rfl
    · split_ifs <;> rfl
  | delete κ name foreground =>
    simp only [Cluster.serve]
    split
    · rfl
    · split_ifs <;> rfl
  | getFeed name => simp only [Cluster.serve]; split <;> rfl
  | get κ name => simp only [Cluster.serve]; split <;> rfl
  | create κ name o => simp only [Cluster.serve]; split <;> rfl
  | _ => rfl

theorem Labelled.serve (h : Labelled feed s) (hc : Lawful feed c) :
    Labelled feed (s.serve c).2 ∧ Truthful feed c (s.serve c).1 := by
  cases c with
  | getFeed name =>
    simp only [Cluster.serve]
    split
    · exact ⟨h, trivial⟩
    · exact ⟨h, h.feeds name _ ‹_›⟩
  | updateFeed fl =>
    simp only [Cluster.serve]
    split
    · exact ⟨h, trivial⟩
    · rename_i cur hl
      have hname : cur.name = feed := (h.feeds fl.name cur hl).trans hc
      split_ifs
      · exact ⟨h.dropFeed fl.name, hname⟩
      · exact ⟨h.setFeed _, hname⟩
      · exact ⟨h, trivial⟩
  | updateStatus fl =>
    simp only [Cluster.serve]
    split
    · exact ⟨h, trivial⟩
    · rename_i cur hl
      have hname : cur.name = feed := (h.feeds fl.name cur hl).trans hc
      split_ifs
      · exact ⟨h.setFeed _, hname⟩
      · exact ⟨h, trivial⟩
  | get κ name =>
    simp only [Cluster.serve]
    split
    · exact ⟨h, trivial⟩
    · exact ⟨h, h.objs κ name _ ‹_›⟩
  | create κ name o =>
    simp only [Cluster.serve]
    split
    · exact ⟨h, trivial⟩
    · exact ⟨h.set (Expected.withMetadata hc rfl), trivial⟩
  | update κ name o =>
    simp only [Cluster.serve]
    split
    · exact ⟨h, trivial⟩
    · split_ifs
      · exact ⟨h.set (Expected.withMetadata hc rfl), trivial⟩
      · exact ⟨h, trivial⟩
  | delete κ name foreground =>
    simp only [Cluster.serve]
    split
    · exact ⟨h, trivial⟩
    · rename_i o hl
      split_ifs
      · exact ⟨h.set ((h.objs κ name o hl).withMetadata rfl), trivial⟩
      · exact ⟨h.drop κ name, trivial⟩
  | list κ sel => exact ⟨h, trivial⟩
  | listPods sel => exact ⟨h, trivial⟩
  | event e => exact ⟨h, trivial⟩
  | probe ip => exact ⟨h, trivial⟩
  | now => exact ⟨h, trivial⟩

theorem truthful_error {e : ApiError} : Truthful feed c (.error e) := by
  cases c <;> trivial

/-- A lawful call keeps the namespace labelled, and is answered truthfully. -/
theorem Labelled.answer (h : Labelled feed s) (hc : Lawful feed c) (ha : s.answer f c = (r, s')) :
    Labelled feed s' ∧ Truthful feed c r := by
  have hs := h.serve hc
  refine ⟨?_, ?_⟩
  · rcases answer_effect ha with rfl | rfl
    · exact h
    · exact hs.1
  · cases r with
    | error e => exact truthful_error
    | ok a =>
      by_cases ho : c.Outside
      · cases c with
        | probe ip => trivial
        | now => trivial
        | _ => exact ho.elim
      · have ht := hs.2
        rw [answer_ok ha ho] at ht
        exact ht

end Answers

end EliteEvents

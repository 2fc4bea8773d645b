import EliteEvents.Proofs.Discipline

/-! The partition while it changes. Pods of one shard count never share a message, since each shard
has one pod at a time. Pods of different counts may: while a feed is rescaled, the pods that still
run with the old count and those that have started with the new one overlap. -/

namespace EliteEvents

open Text

/-- What a running pod takes as its own; a pod whose shard does not come up takes nothing. -/
def Pod.owns (p : Pod) (message : Str) : Bool :=
  match shardFilter p.env with
  | .ok f => f.owns message
  | .error _ => false

theorem owns_spec {p : Pod} {message : Str} (h : p.owns message = true) :
    ∃ f, shardFilter p.env = .ok f ∧ f.owns message = true := by
  unfold Pod.owns at h
  split at h
  · exact ⟨_, ‹_›, h⟩
  · cases h

/-- No message belongs to two consumer pods of the feed. -/
def Cluster.Partitioned (feed : String) (s : Cluster) : Prop :=
  ∀ id id' p p' message, s.pods.lookup id = some p → s.pods.lookup id' = some p' →
    (selectorLabels feed).matches p.labels = true → (selectorLabels feed).matches p'.labels = true →
    p.owns message = true → p'.owns message = true → id = id'

/-- The environment the pod of a Deployment would start with now. -/
def Cluster.nextEnv (s : Cluster) (d : Deployment) : Option Labels :=
  (s.configData d.template.spec.container.envFrom).map (containerEnv d.template.spec.container)

/-- The pod of the Deployment would meet no running consumer pod of a different shard count whose
index agrees with its own modulo the gcd of the two counts. -/
def Cluster.ClearOf (feed : String) (s : Cluster) (d : Deployment) : Prop :=
  ∀ env f, s.nextEnv d = some env → shardFilter env = .ok f →
    ∀ id p g, s.pods.lookup id = some p → (selectorLabels feed).matches p.labels = true →
      shardFilter p.env = .ok g → f.count ≠ g.count →
      ¬ f.index ≡ g.index [MOD Nat.gcd f.count g.count]

/-- Consumer pods start only clear of the pods of other shard counts. -/
def StartsClear (feed : String) (w : World) : Action → Prop
  | .cluster (.startShardPod name) =>
    ∀ d, (w.cluster.objs .deployment).lookup name = some d → w.cluster.ClearOf feed d
  | _ => True

section Filters

theorem bindInt_ok {env : Labels} {key : String} {n : ℤ} {initial v : Int32}
    (h : EddnOptions.bindInt env key initial = .ok v) (hk : env.lookup key = some (itoa n)) :
    v.toInt = n := by
  unfold EddnOptions.bindInt at h
  rw [hk] at h
  simp only [trimSpace_itoa, Decimal.parse_render] at h
  by_cases hr : -2 ^ 31 ≤ n ∧ n < 2 ^ 31
  · rw [if_pos hr] at h
    rw [← Except.ok.inj h, toInt_ofInt hr]
  · rw [if_neg hr] at h
    cases h

theorem create_ok {shardIndex shardCount : Int32} {f : MessageShardFilter}
    (h : MessageShardFilter.create shardIndex shardCount = .ok f) : f.shardIndex = shardIndex := by
  unfold MessageShardFilter.create at h
  split_ifs at h
  rw [← Except.ok.inj h]

/-- A consumer that comes up has the index its environment says. -/
theorem index_of_env {env : Labels} {f : MessageShardFilter} {k : ℕ} (hf : shardFilter env = .ok f)
    (hk : env.lookup shardIndexEnvVar = some (itoa k)) : f.index = k := by
  unfold shardFilter EddnOptions.ofEnv at hf
  cases hi : EddnOptions.bindInt env shardIndexEnvVar 0 with
  | error e =>
    rw [hi] at hf
    cases hf
  | ok i =>
    cases hc : EddnOptions.bindInt env shardCountKey 1 with
    | error e =>
      rw [hi, hc] at hf
      cases hf
    | ok n =>
      rw [hi, hc] at hf
      have hcreate : MessageShardFilter.create i n = .ok f := by
        cases hm : MessageShardFilter.create i n with
        | error e =>
          simp only [bind, Except.bind, pure, Except.pure, hm] at hf
          cases hf
        | ok g =>
          simp only [bind, Except.bind, pure, Except.pure, hm] at hf
          exact congrArg Except.ok (Except.ok.inj hf)
      rw [MessageShardFilter.index, create_ok hcreate, Int32.toNatClampNeg, bindInt_ok hi hk,
        Int.toNat_natCast]

/-- A pod with the labels of a consumer is the pod of a shard. -/
theorem IsPod.shard {feed : String} {p : Pod} (h : IsPod feed p)
    (hm : (selectorLabels feed).matches p.labels = true) :
    ∃ k, p.labels = shardLabels feed k ∧ p.env.lookup shardIndexEnvVar = some (itoa k) := by
  rcases h with h | h | h
  · exact h
  · rw [h, selector_maintenance] at hm
    cases hm
  · rw [h, selector_drain] at hm
    cases hm

end Filters

section Steps

variable {feed : String} {s s' : Cluster}

/-- Pods that are still there, with their labels and environments, share as little as before. -/
theorem Cluster.Partitioned.of_kept (h : s.Partitioned feed)
    (hk : ∀ id p', s'.pods.lookup id = some p' →
      ∃ p, s.pods.lookup id = some p ∧ p.labels = p'.labels ∧ p.env = p'.env) :
    s'.Partitioned feed := by
  intro id id' p p' message hp hp' hm hm' ho ho'
  obtain ⟨q, hq, hl, he⟩ := hk id p hp
  obtain ⟨q', hq', hl', he'⟩ := hk id' p' hp'
  rw [← hl] at hm
  rw [← hl'] at hm'
  unfold Pod.owns at ho ho'
  rw [← he] at ho
  rw [← he'] at ho'
  exact h id id' q q' message hq hq' hm hm' ho ho'

/-- One pod more, clear of the others: no message has gained a second owner. -/
theorem Cluster.Partitioned.startShardPod (h : s.Partitioned feed) (hl : Labelled feed s)
    (hl' : Labelled feed s') {name : String} {d : Deployment}
    (hd : (s.objs .deployment).lookup name = some d) (hs : s.startPod d.template = some s')
    (hclear : s.ClearOf feed d) : s'.Partitioned feed := by
  obtain ⟨data, hdata, hs'⟩ := startPod_eq hs
  have hpods := congrArg Cluster.pods hs'
  obtain ⟨fl, k, ch, rfl, -, -, -, -, -, ht⟩ : IsShard feed name d := hl.objs .deployment name d hd
  -- the new pod against one that was there
  have hnew : ∀ id p p' message, id ≠ s.revision + 1 → s.pods.lookup id = some p →
      s'.pods.lookup (s.revision + 1) = some p' →
      (selectorLabels fl.name).matches p.labels = true →
      p.owns message = true → p'.owns message = true → False := by
    intro id p p' message hid hp hp' hm ho ho'
    have hp₁ : s'.pods.lookup id = some p := by rw [hpods, AList.lookup_insert_ne hid]; exact hp
    rw [hpods, AList.lookup_insert] at hp'
    cases hp'
    obtain ⟨g, hg, hog⟩ := owns_spec ho
    obtain ⟨f, hf, hof⟩ := owns_spec ho'
    by_cases hc : f.count = g.count
    · -- one count: the two pods are of one shard
      obtain ⟨j, hj, hje⟩ := (hl.pods id p hp).shard hm
      have hfk : f.index = k := index_of_env hf (by rw [ht]; rfl)
      have hkj : k = j := by
        rw [← hfk, MessageShardFilter.index_eq_of_owns hc hof hog, index_of_env hg hje]
      have hnewl : s'.pods.lookup (s.revision + 1) = some ⟨d.template.labels, true, none, "",
          containerEnv d.template.spec.container data⟩ := by rw [hpods, AList.lookup_insert]
      exact hid (hl'.recreated id _ p _ j hp₁ hnewl hj (by rw [ht, ← hkj]; rfl))
    · refine hclear _ f ?_ hf id p g hp hm hg hc (MessageShardFilter.index_modEq_of_owns hof hog)
      rw [Cluster.nextEnv, hdata]
      rfl
  intro id id' p p' message hp hp' hm hm' ho ho'
  by_cases hid : id = s.revision + 1
  · by_cases hid' : id' = s.revision + 1
    · rw [hid, hid']
    · have hp₀ : s.pods.lookup id' = some p' := by rwa [hpods, AList.lookup_insert_ne hid'] at hp'
      exact (hnew id' p' p message hid' hp₀ (hid ▸ hp) hm' ho' ho).elim
  · have hp₀ : s.pods.lookup id = some p := by rwa [hpods, AList.lookup_insert_ne hid] at hp
    by_cases hid' : id' = s.revision + 1
    · exact (hnew id p p' message hid hp₀ (hid' ▸ hp') hm ho ho').elim
    · have hp₀' : s.pods.lookup id' = some p' := by rwa [hpods, AList.lookup_insert_ne hid'] at hp'
      exact h id id' p p' message hp₀ hp₀' hm hm' ho ho'

/-- What the users and the cluster do keeps the partition, as long as pods start clear. -/
theorem Cluster.Partitioned.apply (h : s.Partitioned feed) (hl : Labelled feed s)
    {a : ClusterAction} (ha : a.apply feed s = some s')
    (hclear : ∀ name d, a = .startShardPod name → (s.objs .deployment).lookup name = some d →
      s.ClearOf feed d) : s'.Partitioned feed := by
  have hl' := hl.apply ha
  cases moves_of_apply ha with
  | startShardPod name d hd hm _ hs =>
    exact h.startShardPod hl hl' hd hs (hclear name d rfl hd)
  | startJobPod name j hj hd _ hs =>
    -- a pod of a Job is no consumer
    obtain ⟨data, -, hs'⟩ := startPod_eq hs
    have hpods := congrArg Cluster.pods hs'
    have hno : (selectorLabels feed).matches j.template.labels = false := by
      rcases (hl.objs .job name j hj : IsOneShot feed name j) with ⟨-, -, ht⟩ | ⟨-, -, ht⟩
      · rw [ht, selector_drain]
      · rw [ht, selector_maintenance]
    have hold : ∀ id p, s'.pods.lookup id = some p → (selectorLabels feed).matches p.labels = true →
        s.pods.lookup id = some p := by
      intro id p hp hm
      by_cases hid : id = s.revision + 1
      · subst hid
        rw [hpods, AList.lookup_insert] at hp
        cases hp
        rw [hno] at hm
        cases hm
      · rwa [hpods, AList.lookup_insert_ne hid] at hp
    exact fun id id' p p' message hp hp' hm hm' =>
      h id id' p p' message (hold id p hp hm) (hold id' p' hp' hm') hm hm'
  | podStatus id p running readyCondition podIP hp =>
    refine h.of_kept fun id' p' hp' => ?_
    by_cases hid : id' = id
    · subst hid
      rw [AList.lookup_insert] at hp'
      cases hp'
      exact ⟨p, hp, rfl, rfl⟩
    · rw [AList.lookup_insert_ne hid] at hp'
      exact ⟨p', hp', rfl, rfl⟩
  | podGone id =>
    refine h.of_kept fun id' p' hp' => ?_
    by_cases hid : id' = id
    · subst hid
      rw [AList.lookup_erase] at hp'
      cases hp'
    · rw [AList.lookup_erase_ne hid] at hp'
      exact ⟨p', hp', rfl, rfl⟩
  | createFeed fl hn hname hd => exact h
  | editSpec spec fl hf => exact h
  | removeFeed fl hf hd hfin => exact h
  | deleteFeed fl hf hd fl' hname huid hd' => exact h
  | spawnJob name suffix c hc hn => exact h
  | jobStatus name status j j' hj he => exact h
  | cronStatus name t c c' hc he => exact h
  | mark κ name o ho => exact h
  | gone κ name => exact h

end Steps

/-- In every run in which consumer pods start only clear of the pods of other shard counts, no two
consumer pods of the feed ever own the same message. -/
theorem consumers_partitioned (sha256 : List UInt8 → List UInt8) (feed : String) {w : World}
    (h : World.initial.Reaches sha256 feed (StartsClear feed) w) : w.cluster.Partitioned feed := by
  induction h with
  | refl =>
    intro id id' p p' message hp
    cases hp
  | @step w₁ w₂ a hr hok hs ih =>
    have hl := ((sound_initial feed).reaches hr).1
    rcases step_cases hs with ⟨-, -, rfl⟩ | ⟨f, c, k, r, s, -, -, ha, rfl⟩ | ⟨-, rfl⟩ |
      ⟨e, s, rfl, he, rfl⟩
    · exact ih
    · have hpods : s.pods = w₁.cluster.pods := by
        rcases answer_effect ha with rfl | rfl
        · rfl
        · exact serve_pods _ c
      exact ih.of_kept fun id p hp => ⟨p, by rwa [← hpods], rfl, rfl⟩
    · exact ih
    · refine ih.apply hl he fun name d hname hd => ?_
      subst hname
      exact hok d hd

section Eddn

/-- A consumer with that environment would have that shard count, if it came up. -/
def countIs (n : ℕ) (env : Labels) : Bool :=
  match shardFilter env with
  | .ok f => decide (f.count = n)
  | .error _ => true

theorem countIs_spec {n : ℕ} {env : Labels} (h : countIs n env = true) {f : MessageShardFilter}
    (hf : shardFilter env = .ok f) : f.count = n := by
  rw [countIs, hf] at h
  exact of_decide_eq_true h

/-- Among pods of one count there is nothing to be clear of. -/
theorem clearOf_of_count {feed : String} {s : Cluster} {d : Deployment} (n : ℕ)
    (hnew : (s.nextEnv d).all (countIs n) = true)
    (hold : (s.pods.entries.all fun e => countIs n e.2.env) = true) : s.ClearOf feed d := by
  intro env f henv hf id p g hp _ hg hne
  rw [henv] at hnew
  have hp' := List.all_eq_true.mp hold _ (AList.mem_lookup_iff.mp hp)
  exact absurd ((countIs_spec hnew hf).trans (countIs_spec hp' hg).symm) hne

/-- The sample feed at two consumers, reconciled. -/
def eddnTwo : List Action := [.cluster (.createFeed (eddnSpec 2)), .reconcile] ++ served 10

private theorem eddnTwo_run :
    ∃ w₁ w₂ w₃, World.initial.run eddnDigest "eddn" eddnTwo = some w₁ ∧
      w₁.step eddnDigest "eddn" (.cluster (.startShardPod "eddn-0")) = some w₂ ∧
      w₂.step eddnDigest "eddn" (.cluster (.startShardPod "eddn-1")) = some w₃ ∧
      (((w₁.cluster.objs .deployment).lookup "eddn-0").all fun d =>
        (w₁.cluster.nextEnv d).all (countIs 2)) = true ∧
      (w₁.cluster.pods.entries.all fun e => countIs 2 e.2.env) = true ∧
      (((w₂.cluster.objs .deployment).lookup "eddn-1").all fun d =>
        (w₂.cluster.nextEnv d).all (countIs 2)) = true ∧
      (w₂.cluster.pods.entries.all fun e => countIs 2 e.2.env) = true ∧
      w₃.cluster.pods.keys.length = 2 := by
  have h : ((World.initial.run eddnDigest "eddn" eddnTwo).bind fun w₁ =>
      (w₁.step eddnDigest "eddn" (.cluster (.startShardPod "eddn-0"))).bind fun w₂ =>
        (w₂.step eddnDigest "eddn" (.cluster (.startShardPod "eddn-1"))).map fun w₃ => decide
          ((((w₁.cluster.objs .deployment).lookup "eddn-0").all fun d =>
            (w₁.cluster.nextEnv d).all (countIs 2)) = true ∧
          (w₁.cluster.pods.entries.all fun e => countIs 2 e.2.env) = true ∧
          (((w₂.cluster.objs .deployment).lookup "eddn-1").all fun d =>
            (w₂.cluster.nextEnv d).all (countIs 2)) = true ∧
          (w₂.cluster.pods.entries.all fun e => countIs 2 e.2.env) = true ∧
          w₃.cluster.pods.keys.length = 2)) = some true := by
    decide +kernel
  obtain ⟨w₁, h₁, h⟩ := Option.bind_eq_some_iff.mp h
  obtain ⟨w₂, h₂, h⟩ := Option.bind_eq_some_iff.mp h
  obtain ⟨w₃, h₃, h⟩ := Option.map_eq_some_iff.mp h
  exact ⟨w₁, w₂, w₃, h₁, h₂, h₃, of_decide_eq_true h⟩

/-- The two pods of the sample feed at two consumers, started one after the other. -/
theorem consumers_partitioned_eddn :
    ∃ w, World.initial.run eddnDigest "eddn" (eddnTwo ++
        [.cluster (.startShardPod "eddn-0"), .cluster (.startShardPod "eddn-1")]) = some w ∧
      w.cluster.pods.keys.length = 2 ∧ w.cluster.Partitioned "eddn" := by
  obtain ⟨w₁, w₂, w₃, h₁, h₂, h₃, hd₁, hp₁, hd₂, hp₂, hlen⟩ := eddnTwo_run
  refine ⟨w₃, ?_, hlen, consumers_partitioned eddnDigest "eddn" ?_⟩
  · rw [run_append, h₁, Option.bind_some, World.run, h₂, Option.bind_some, World.run, h₃]
    rfl
  · have hquiet : ∀ a ∈ eddnTwo, ∀ w, StartsClear "eddn" w a := by
      intro a ha w
      rcases List.mem_append.mp ha with ha | ha
      · rcases List.mem_cons.mp ha with rfl | ha
        · trivial
        · rw [List.mem_singleton.mp ha]
          trivial
      · rw [List.eq_of_mem_replicate ha]
        trivial
    have hfirst : StartsClear "eddn" w₁ (.cluster (.startShardPod "eddn-0")) := by
      intro d hd
      rw [hd] at hd₁
      exact clearOf_of_count 2 hd₁ hp₁
    have hsecond : StartsClear "eddn" w₂ (.cluster (.startShardPod "eddn-1")) := by
      intro d hd
      rw [hd] at hd₂
      exact clearOf_of_count 2 hd₂ hp₂
    exact .step _ (.step _ (reaches_run .refl hquiet h₁) hfirst h₂) hsecond h₃

/-- A rescale from one consumer to two: the pod of shard 0 still runs with the old count when
the new Deployment starts the pod of shard 1. -/
def scaleUp : List Action :=
  [.cluster (.createFeed (eddnSpec 1)), .reconcile] ++ served 14 ++
    [.cluster (.startShardPod "eddn-0"), .cluster (.editSpec (eddnSpec 2)), .reconcile] ++ served 8 ++
    [.cluster (.startShardPod "eddn-1")]

theorem scale_up_overlaps :
    ∃ w p p', World.initial.run eddnDigest "eddn" scaleUp = some w ∧
      w.cluster.pods.lookup 8 = some p ∧ w.cluster.pods.lookup 13 = some p' ∧
      (selectorLabels "eddn").matches p.labels = true ∧
      (selectorLabels "eddn").matches p'.labels = true ∧
      p.owns (lit "a") = true ∧ p'.owns (lit "a") = true := by
  have h : ((World.initial.run eddnDigest "eddn" scaleUp).bind fun w =>
      (w.cluster.pods.lookup 8).bind fun p => (w.cluster.pods.lookup 13).map fun p' =>
        decide ((selectorLabels "eddn").matches p.labels = true ∧
          (selectorLabels "eddn").matches p'.labels = true ∧
          p.owns (lit "a") = true ∧ p'.owns (lit "a") = true)) = some true := by
    decide +kernel
  obtain ⟨w, hw, h⟩ := Option.bind_eq_some_iff.mp h
  obtain ⟨p, hp, h⟩ := Option.bind_eq_some_iff.mp h
  obtain ⟨p', hp', h⟩ := Option.map_eq_some_iff.mp h
  exact ⟨w, p, p', hw, hp, hp', of_decide_eq_true h⟩

end Eddn

end EliteEvents

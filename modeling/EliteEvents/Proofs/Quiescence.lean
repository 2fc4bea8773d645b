import EliteEvents.Proofs.Served

/-! When nothing is left that writes the indexes of a feed, and nothing that could start a writer.
Only the operator creates Deployments, CronJobs and the drain Job, so what its teardown has found
gone or marked stays so while it goes on. -/

namespace EliteEvents

variable {feed : String} {s s' : Cluster}

/-! Where things come from: objects, pods and the feed after an action of the cluster or a call of
the worker, in terms of those before. -/

/-- The same object, perhaps marked for deletion since. -/
def Continues {κ : Kind} (o o' : Obj κ) : Prop :=
  o.metadata.uid = o'.metadata.uid ∧
    (o.metadata.deletionTimestamp = true → o'.metadata.deletionTimestamp = true)

theorem Continues.refl {κ : Kind} (o : Obj κ) : Continues o o := ⟨rfl, id⟩

theorem lookup_set_cases {κ κ' : Kind} {name name' : String} {o : Obj κ} {o' : Obj κ'}
    (h : ((s.set κ name o).objs κ').lookup name' = some o') :
    (s.objs κ').lookup name' = some o' ∨ ∃ hκ : κ' = κ, name' = name ∧ hκ ▸ o' = o := by
  by_cases hne : κ' ≠ κ ∨ name' ≠ name
  · rw [s.lookup_set_ne hne] at h
    exact .inl h
  · obtain ⟨rfl, rfl⟩ := not_or.mp hne |>.imp not_not.mp not_not.mp
    rw [s.lookup_set_self] at h
    exact .inr ⟨rfl, rfl, (Option.some.inj h).symm⟩

/-- An object written over one it continues. -/
theorem continues_of_set {κ κ' : Kind} {name name' : String} {o new : Obj κ} {o' : Obj κ'}
    (hl : (s.objs κ).lookup name = some o)
    (h : ((s.set κ name new).objs κ').lookup name' = some o') (hc : Continues o new) :
    ∃ o₀, (s.objs κ').lookup name' = some o₀ ∧ Continues o₀ o' := by
  rcases lookup_set_cases h with h | ⟨rfl, rfl, rfl⟩
  · exact ⟨o', h, .refl o'⟩
  · exact ⟨o, hl, hc⟩

/-- Only a CronJob gives rise to a new object, and that is a Job which is not the drain Job. -/
theorem apply_objs (hl : Labelled feed s) {a : ClusterAction} (ha : a.apply feed s = some s')
    {κ : Kind} {name : String} {o' : Obj κ} (ho : (s'.objs κ).lookup name = some o') :
    (∃ o, (s.objs κ).lookup name = some o ∧ Continues o o') ∨
      κ = .job ∧ name ≠ drainJobName feed ∧ ∃ cron c, (s.objs .cronJob).lookup cron = some c := by
  cases moves_of_apply ha with
  | spawnJob cron suffix c hc hn =>
    rcases lookup_set_cases ho with ho | ⟨rfl, rfl, -⟩
    · exact .inl ⟨o', ho, .refl o'⟩
    · obtain ⟨rfl, -⟩ : IsRebuild feed cron c := hl.objs .cronJob cron c hc
      exact .inr ⟨rfl, spawned_name_ne feed suffix, _, c, hc⟩
  | jobStatus job status j j' hj he =>
    subst he
    exact .inl (continues_of_set hj ho ⟨rfl, id⟩)
  | cronStatus cron t c c' hc he =>
    subst he
    exact .inl (continues_of_set hc ho ⟨rfl, id⟩)
  | mark κ' name' o hm =>
    refine .inl (continues_of_set hm ho ⟨?_, fun _ => ?_⟩)
    · rw [metadata_withMetadata]
      rfl
    · rw [metadata_withMetadata]
      rfl
  | gone κ' name' => exact .inl ⟨o', s.of_lookup_drop ho, .refl o'⟩
  | startShardPod d hd hm hst _ hs =>
    obtain ⟨data, -, rfl⟩ := startPod_eq hs
    exact .inl ⟨o', ho, .refl o'⟩
  | startJobPod job j hj hd _ hs =>
    obtain ⟨data, -, rfl⟩ := startPod_eq hs
    exact .inl ⟨o', ho, .refl o'⟩
  | createFeed fl hn hname hd => exact .inl ⟨o', ho, .refl o'⟩
  | editSpec spec fl hf => exact .inl ⟨o', ho, .refl o'⟩
  | removeFeed fl hf hd hfin => exact .inl ⟨o', ho, .refl o'⟩
  | deleteFeed fl hf hd fl' hname huid hd' => exact .inl ⟨o', ho, .refl o'⟩
  | podStatus id p running readyCondition podIP hp => exact .inl ⟨o', ho, .refl o'⟩
  | podGone id => exact .inl ⟨o', ho, .refl o'⟩

/-- A new pod comes from a Deployment or a Job that is not marked for deletion. -/
theorem apply_pods (hl : Labelled feed s) {a : ClusterAction} (ha : a.apply feed s = some s')
    {id : ℕ} {p' : Pod} (hp : s'.pods.lookup id = some p') :
    (∃ p, s.pods.lookup id = some p ∧ p.labels = p'.labels) ∨
      (∃ name d, (s.objs .deployment).lookup name = some d ∧ d.metadata.deletionTimestamp = false) ∨
      (∃ name j, (s.objs .job).lookup name = some j ∧ j.metadata.deletionTimestamp = false ∧
        name ≠ drainJobName feed) ∨
      p'.labels = drainLabels feed := by
  cases moves_of_apply ha with
  | startShardPod name d hd hm _ hs => exact .inr (.inl ⟨name, d, hd, (mayStart_spec hm).1⟩)
  | startJobPod name j hj hd _ hs =>
    obtain ⟨data, -, rfl⟩ := startPod_eq hs
    by_cases hid : id = s.revision + 1
    · subst hid
      rw [AList.lookup_insert] at hp
      cases hp
      rcases (hl.objs .job name j hj : IsOneShot feed name j) with ⟨-, -, ht⟩ | ⟨hne, -, -⟩
      · exact .inr (.inr (.inr ht))
      · exact .inr (.inr (.inl ⟨name, j, hj, hd, hne⟩))
    · rw [AList.lookup_insert_ne hid] at hp
      exact .inl ⟨p', hp, rfl⟩
  | podStatus id' p running readyCondition podIP hp₀ =>
    by_cases hid : id = id'
    · subst hid
      rw [AList.lookup_insert] at hp
      cases hp
      exact .inl ⟨p, hp₀, rfl⟩
    · rw [AList.lookup_insert_ne hid] at hp
      exact .inl ⟨p', hp, rfl⟩
  | podGone id' =>
    by_cases hid : id = id'
    · subst hid
      rw [AList.lookup_erase] at hp
      cases hp
    · rw [AList.lookup_erase_ne hid] at hp
      exact .inl ⟨p', hp, rfl⟩
  | createFeed fl hn hname hd => exact .inl ⟨p', hp, rfl⟩
  | editSpec spec fl hf => exact .inl ⟨p', hp, rfl⟩
  | removeFeed fl hf hd hfin => exact .inl ⟨p', hp, rfl⟩
  | deleteFeed fl hf hd fl' hname huid hd' => exact .inl ⟨p', hp, rfl⟩
  | spawnJob name suffix c hc hn => exact .inl ⟨p', hp, rfl⟩
  | jobStatus name status j j' hj he => exact .inl ⟨p', hp, rfl⟩
  | cronStatus name t c c' hc he => exact .inl ⟨p', hp, rfl⟩
  | mark κ name o ho => exact .inl ⟨p', hp, rfl⟩
  | gone κ name => exact .inl ⟨p', hp, rfl⟩

/-- A call gives rise to a new object only by creating it. -/
theorem serve_objs {c : Call} {κ : Kind} {name : String} {o' : Obj κ}
    (ho : ((s.serve c).2.objs κ).lookup name = some o') :
    (∃ o, (s.objs κ).lookup name = some o ∧ Continues o o') ∨
      ∃ o, c = .create κ name o ∧ (s.objs κ).lookup name = none ∧ o'.metadata.uid = s.revision + 1 := by
  have hsame : (s.serve c).2.objs = s.objs → ∃ o, (s.objs κ).lookup name = some o ∧ Continues o o' :=
    fun h => ⟨o', by rw [← h]; exact ho, .refl o'⟩
  cases c with
  | create κ₀ name₀ o₀ =>
    simp only [Cluster.serve] at ho
    split at ho
    · exact .inl ⟨o', ho, .refl o'⟩
    · rename_i hn
      rcases lookup_set_cases ho with ho | ⟨rfl, rfl, rfl⟩
      · exact .inl ⟨o', ho, .refl o'⟩
      · refine .inr ⟨o₀, rfl, hn, ?_⟩
        rw [metadata_withMetadata]
        rfl
  | update κ₀ name₀ o₀ =>
    simp only [Cluster.serve] at ho
    split at ho
    · exact .inl ⟨o', ho, .refl o'⟩
    · rename_i cur hcur
      split_ifs at ho
      · refine .inl (continues_of_set hcur ho ?_)
        rw [Continues, metadata_withMetadata]
        exact ⟨rfl, id⟩
      · exact .inl ⟨o', ho, .refl o'⟩
  | delete κ₀ name₀ foreground =>
    simp only [Cluster.serve] at ho
    split at ho
    · exact .inl ⟨o', ho, .refl o'⟩
    · rename_i o hcur
      split_ifs at ho
      · refine .inl (continues_of_set hcur ho ?_)
        rw [Continues, metadata_withMetadata]
        exact ⟨rfl, fun _ => rfl⟩
      · exact .inl ⟨o', s.of_lookup_drop ho, .refl o'⟩
  | updateFeed fl =>
    refine .inl (hsame ?_)
    simp only [Cluster.serve]
    split
    · rfl
    · split_ifs <;> rfl
  | updateStatus fl =>
    refine .inl (hsame ?_)
    simp only [Cluster.serve]
    split
    · rfl
    · split_ifs <;> rfl
  | getFeed name => exact .inl (hsame (by simp only [Cluster.serve]; split <;> rfl))
  | get κ name => exact .inl (hsame (by simp only [Cluster.serve]; split <;> rfl))
  | list κ sel => exact .inl (hsame rfl)
  | listPods sel => exact .inl (hsame rfl)
  | event e => exact .inl (hsame rfl)
  | probe ip => exact .inl (hsame rfl)
  | now => exact .inl (hsame rfl)

/-! The feed itself. -/

theorem lookup_setFeed_cases {fl fl' : FeedListener}
    (h : (s.setFeed fl).feeds.lookup feed = some fl') :
    s.feeds.lookup feed = some fl' ∨ feed = fl.name ∧ fl' = fl := by
  rw [Cluster.feeds_setFeed] at h
  by_cases hn : feed = fl.name
  · subst hn
    rw [AList.lookup_insert] at h
    exact .inr ⟨rfl, (Option.some.inj h).symm⟩
  · rw [AList.lookup_insert_ne hn] at h
    exact .inl h

theorem of_lookup_dropFeed {name : String} {fl : FeedListener}
    (h : (s.dropFeed name).feeds.lookup feed = some fl) : s.feeds.lookup feed = some fl := by
  rw [Cluster.feeds_dropFeed] at h
  by_cases hn : feed = name
  · subst hn
    rw [AList.lookup_erase] at h
    cases h
  · rwa [AList.lookup_erase_ne hn] at h

/-- The worker never brings a feed about, and never changes whether it is being deleted. -/
theorem serve_feed (hl : Labelled feed s) {c : Call} {fl' : FeedListener}
    (h : (s.serve c).2.feeds.lookup feed = some fl') :
    ∃ fl, s.feeds.lookup feed = some fl ∧ fl.uid = fl'.uid ∧
      fl.deletionTimestamp = fl'.deletionTimestamp := by
  have hsame : (s.serve c).2.feeds = s.feeds → ∃ fl, s.feeds.lookup feed = some fl ∧
      fl.uid = fl'.uid ∧ fl.deletionTimestamp = fl'.deletionTimestamp :=
    fun he => ⟨fl', by rw [← he]; exact h, rfl, rfl⟩
  cases c with
  | updateFeed fl =>
    simp only [Cluster.serve] at h
    split at h
    · exact ⟨fl', h, rfl, rfl⟩
    · rename_i cur hcur
      have hname := hl.feeds fl.name cur hcur
      split_ifs at h
      · exact ⟨fl', of_lookup_dropFeed h, rfl, rfl⟩
      · rcases lookup_setFeed_cases h with h | ⟨hn, rfl⟩
        · exact ⟨fl', h, rfl, rfl⟩
        · refine ⟨cur, ?_, rfl, rfl⟩
          rw [hn]
          exact hname ▸ hcur
      · exact ⟨fl', h, rfl, rfl⟩
  | updateStatus fl =>
    simp only [Cluster.serve] at h
    split at h
    · exact ⟨fl', h, rfl, rfl⟩
    · rename_i cur hcur
      have hname := hl.feeds fl.name cur hcur
      split_ifs at h
      · rcases lookup_setFeed_cases h with h | ⟨hn, rfl⟩
        · exact ⟨fl', h, rfl, rfl⟩
        · refine ⟨cur, ?_, rfl, rfl⟩
          rw [hn]
          exact hname ▸ hcur
      · exact ⟨fl', h, rfl, rfl⟩
  | getFeed name => exact hsame (by simp only [Cluster.serve]; split <;> rfl)
  | get κ name => exact hsame (by simp only [Cluster.serve]; split <;> rfl)
  | create κ name o => exact hsame (by simp only [Cluster.serve]; split <;> rfl)
  | update κ name o =>
    refine hsame ?_
    simp only [Cluster.serve]
    split
    · rfl
    · split_ifs <;> rfl
  | delete κ name foreground =>
    refine hsame ?_
    simp only [Cluster.serve]
    split
    · rfl
    · split_ifs <;> rfl
  | list κ sel => exact hsame rfl
  | listPods sel => exact hsame rfl
  | event e => exact hsame rfl
  | probe ip => exact hsame rfl
  | now => exact hsame rfl

/-- Users create feeds and ask for their deletion; nothing else changes whether a feed is being
deleted. -/
theorem apply_feed {a : ClusterAction} (ha : a.apply feed s = some s') {fl' : FeedListener}
    (h : s'.feeds.lookup feed = some fl') :
    (∃ spec, a = .createFeed spec ∧ fl'.deletionTimestamp = false) ∨
      ∃ fl, s.feeds.lookup feed = some fl ∧ fl.uid = fl'.uid ∧
        (fl.deletionTimestamp = fl'.deletionTimestamp ∨
          a = .deleteFeed ∧ fl'.deletionTimestamp = true) := by
  cases moves_of_apply ha with
  | createFeed fl hn hname hd =>
    rcases lookup_setFeed_cases h with h | ⟨-, rfl⟩
    · rw [hn] at h
      cases h
    · exact .inl ⟨fl'.spec, rfl, hd⟩
  | editSpec spec fl hf =>
    rcases lookup_setFeed_cases h with h | ⟨-, rfl⟩
    · exact .inr ⟨fl', h, rfl, .inl rfl⟩
    · exact .inr ⟨fl, hf, rfl, .inl rfl⟩
  | removeFeed fl hf hd hfin => exact .inr ⟨fl', of_lookup_dropFeed h, rfl, .inl rfl⟩
  | deleteFeed fl hf hd fl₁ hname huid hd' =>
    rcases lookup_setFeed_cases h with h | ⟨-, rfl⟩
    · exact .inr ⟨fl', h, rfl, .inl rfl⟩
    · exact .inr ⟨fl, hf, huid.symm, .inr ⟨rfl, hd'⟩⟩
  | startShardPod name d hd hm _ hs =>
    obtain ⟨data, -, rfl⟩ := startPod_eq hs
    exact .inr ⟨fl', h, rfl, .inl rfl⟩
  | startJobPod name j hj hd _ hs =>
    obtain ⟨data, -, rfl⟩ := startPod_eq hs
    exact .inr ⟨fl', h, rfl, .inl rfl⟩
  | spawnJob name suffix c hc hn => exact .inr ⟨fl', h, rfl, .inl rfl⟩
  | podStatus id p running readyCondition podIP hp => exact .inr ⟨fl', h, rfl, .inl rfl⟩
  | podGone id => exact .inr ⟨fl', h, rfl, .inl rfl⟩
  | jobStatus name status j j' hj he => exact .inr ⟨fl', h, rfl, .inl rfl⟩
  | cronStatus name t c c' hc he => exact .inr ⟨fl', h, rfl, .inl rfl⟩
  | mark κ name o ho => exact .inr ⟨fl', h, rfl, .inl rfl⟩
  | gone κ name => exact .inr ⟨fl', h, rfl, .inl rfl⟩

/-- The deletion of that incarnation of the feed is under way. -/
def Doomed (feed : String) (uid : ℕ) (s : Cluster) : Prop :=
  ∃ fl, s.feeds.lookup feed = some fl ∧ fl.uid = uid ∧ fl.deletionTimestamp = true

/-- It can be neither asked for again nor called off. -/
theorem Doomed.apply {uid : ℕ} (h : Doomed feed uid s) (hl : Labelled feed s) {a : ClusterAction}
    (ha : a.apply feed s = some s') :
    Doomed feed uid s' ∧ a ≠ .deleteFeed ∧ ∀ spec, a ≠ .createFeed spec := by
  have hdoomed := h
  obtain ⟨fl, hf, hu, hd⟩ := h
  cases moves_of_apply ha with
  | createFeed fl' hn hname hd' =>
    rw [hn] at hf
    cases hf
  | editSpec spec fl' hf' =>
    rw [hf] at hf'
    cases hf'
    have hname : (s.mergeFeed fl { fl with spec := spec }).name = feed := hl.feeds feed fl hf
    refine ⟨⟨s.mergeFeed fl { fl with spec := spec }, ?_, hu, hd⟩, ClusterAction.noConfusion,
      fun _ => ClusterAction.noConfusion⟩
    rw [Cluster.feeds_setFeed, hname, AList.lookup_insert]
  | removeFeed fl' hf' hd' hfin =>
    rw [hf] at hf'
    cases hf'
    rw [hd] at hd'
    cases hd'
  | deleteFeed fl' hf' hd' fl₁ hname huid hd₁ =>
    rw [hf] at hf'
    cases hf'
    rw [hd] at hd'
    cases hd'
  | startShardPod name d hd hm _ hs =>
    obtain ⟨data, -, rfl⟩ := startPod_eq hs
    exact ⟨hdoomed, ClusterAction.noConfusion, fun _ => ClusterAction.noConfusion⟩
  | startJobPod name j hj hd _ hs =>
    obtain ⟨data, -, rfl⟩ := startPod_eq hs
    exact ⟨hdoomed, ClusterAction.noConfusion, fun _ => ClusterAction.noConfusion⟩
  | _ => exact ⟨hdoomed, ClusterAction.noConfusion, fun _ => ClusterAction.noConfusion⟩

/-! Settling down. -/

/-- Nothing has appeared since, but for the drain Job and its pods, and what owners that were
still there have started. -/
structure Settles (feed : String) (s s' : Cluster) : Prop where
  objs : ∀ κ name o', (s'.objs κ).lookup name = some o' →
    (∃ o, (s.objs κ).lookup name = some o ∧ Continues o o') ∨
      κ = .job ∧ (name = drainJobName feed ∨ ∃ cron c, (s.objs .cronJob).lookup cron = some c)
  pods : ∀ id p', s'.pods.lookup id = some p' →
    (∃ p, s.pods.lookup id = some p ∧ p.labels = p'.labels) ∨
      (∃ name d, (s.objs .deployment).lookup name = some d ∧ d.metadata.deletionTimestamp = false) ∨
      (∃ name j, (s.objs .job).lookup name = some j ∧ j.metadata.deletionTimestamp = false ∧
        name ≠ drainJobName feed) ∨
      p'.labels = drainLabels feed

theorem settles_apply (hl : Labelled feed s) {a : ClusterAction} (ha : a.apply feed s = some s') :
    Settles feed s s' where
  objs := fun _ _ _ ho => (apply_objs hl ha ho).imp_right fun ⟨hκ, _, hc⟩ => ⟨hκ, .inr hc⟩
  pods := fun _ _ hp => apply_pods hl ha hp

/-- A call that creates nothing, unless it is the drain Job. -/
def Gentle (feed : String) (c : Call) : Prop :=
  ∀ κ name o, c = .create κ name o → κ = .job ∧ name = drainJobName feed

theorem settles_answer {c : Call} {r : Answer c} {f : Fate} (hc : Gentle feed c)
    (ha : s.answer f c = (r, s')) : Settles feed s s' := by
  rcases answer_effect ha with rfl | rfl
  · exact ⟨fun _ _ o' ho => .inl ⟨o', ho, .refl o'⟩, fun _ p' hp => .inl ⟨p', hp, rfl⟩⟩
  · refine ⟨fun κ name o' ho => ?_, fun _ p' hp => ?_⟩
    · rcases serve_objs ho with ho | ⟨o, he, -⟩
      · exact .inl ho
      · exact .inr ⟨(hc κ name o he).1, .inl (hc κ name o he).2⟩
    · rw [serve_pods] at hp
      exact .inl ⟨p', hp, rfl⟩

/-- What is still to be deleted: objects of the kind that are not marked are in the list, where
they were not marked either. -/
def Remaining (κ : Kind) (exempt : String → Prop) (rest : List (String × Obj κ)) (s : Cluster) : Prop :=
  ∀ name o, (s.objs κ).lookup name = some o → exempt name ∨ o.metadata.deletionTimestamp = true ∨
    ∃ o', (name, o') ∈ rest ∧ o'.metadata.deletionTimestamp = false

def CronStopped (s : Cluster) : Prop := ∀ name, (s.objs .cronJob).lookup name = none

def ShardsStopped (rest : List (String × Obj .deployment)) (s : Cluster) : Prop :=
  CronStopped s ∧ Remaining .deployment (fun _ => False) rest s

def JobsStopped (feed : String) (rest : List (String × Obj .job)) (s : Cluster) : Prop :=
  ShardsStopped [] s ∧ Remaining .job (· = drainJobName feed) rest s

def PodsGone (feed : String) (selectors : List Labels) (s : Cluster) : Prop :=
  JobsStopped feed [] s ∧ ∀ sel ∈ selectors, s.matchingPods sel = []

/-- No consumer and no rebuild of the feed runs, and there is nothing to start one: no CronJob, and
no Deployment or Job that is not marked for deletion, the drain Job aside. -/
def Quiet (feed : String) (s : Cluster) : Prop :=
  PodsGone feed [selectorLabels feed, maintenanceLabels feed] s

section Settles

theorem CronStopped.settles (h : CronStopped s) (hs : Settles feed s s') : CronStopped s' := by
  intro name
  cases ho : (s'.objs .cronJob).lookup name with
  | none => rfl
  | some c =>
    rcases hs.objs .cronJob name c ho with ⟨c₀, hc₀, -⟩ | ⟨hκ, -⟩
    · rw [h name] at hc₀
      cases hc₀
    · cases hκ

/-- Without a CronJob no object appears but the drain Job. -/
theorem Remaining.settles {κ : Kind} {exempt : String → Prop} {rest : List (String × Obj κ)}
    (h : Remaining κ exempt rest s) (hcron : CronStopped s) (hs : Settles feed s s')
    (hdrain : κ = .job → exempt (drainJobName feed)) : Remaining κ exempt rest s' := by
  intro name o' ho
  rcases hs.objs κ name o' ho with ⟨o, hl, -, hd⟩ | ⟨hκ, rfl | ⟨cron, c, hc⟩⟩
  · exact (h name o hl).imp_right (Or.imp_left hd)
  · exact .inl (hdrain hκ)
  · rw [hcron cron] at hc
    cases hc

theorem ShardsStopped.settles {rest : List (String × Obj .deployment)} (h : ShardsStopped rest s)
    (hs : Settles feed s s') : ShardsStopped rest s' :=
  ⟨h.1.settles hs, h.2.settles h.1 hs Kind.noConfusion⟩

theorem JobsStopped.settles {rest : List (String × Obj .job)} (h : JobsStopped feed rest s)
    (hs : Settles feed s s') : JobsStopped feed rest s' :=
  ⟨h.1.settles hs, h.2.settles h.1.1 hs fun _ => rfl⟩

theorem Remaining.marked {κ : Kind} {exempt : String → Prop} (h : Remaining κ exempt [] s)
    {name : String} {o : Obj κ} (ho : (s.objs κ).lookup name = some o) :
    exempt name ∨ o.metadata.deletionTimestamp = true :=
  (h name o ho).imp_right fun h => h.resolve_right fun ⟨_, hm, _⟩ => List.not_mem_nil hm

/-- With their owners gone or marked, no pods appear but those of the drain Job. -/
theorem PodsGone.settles {selectors : List Labels} (h : PodsGone feed selectors s)
    (hs : Settles feed s s') (hdrain : ∀ sel ∈ selectors, sel.matches (drainLabels feed) = false) :
    PodsGone feed selectors s' := by
  obtain ⟨hj, hp⟩ := h
  refine ⟨hj.settles hs, fun sel hsel => Cluster.matchingPods_eq_nil.mpr fun i p' hl => ?_⟩
  rcases hs.pods i p' hl with ⟨p, hl₀, hlab⟩ | ⟨name, d, hd, hm⟩ | ⟨name, j, hj', hm, hne⟩ | hlab
  · rw [← hlab]
    exact Cluster.matchingPods_eq_nil.mp (hp sel hsel) i p hl₀
  · have := (hj.1.2.marked hd).resolve_left id
    rw [show d.metadata.deletionTimestamp = true from this] at hm
    cases hm
  · have := (hj.2.marked hj').resolve_left hne
    rw [show j.metadata.deletionTimestamp = true from this] at hm
    cases hm
  · rw [hlab]
    exact hdrain sel hsel

theorem Quiet.settles (h : Quiet feed s) (hs : Settles feed s s') : Quiet feed s' := by
  refine PodsGone.settles h hs fun sel hsel => ?_
  rcases List.mem_cons.mp hsel with rfl | hsel
  · exact selector_drain feed
  · rw [List.mem_singleton.mp hsel]
    exact maintenance_drain feed

end Settles

end EliteEvents

import EliteEvents.Spec.Namespace
import EliteEvents.Proofs.Served
import EliteEvents.Proofs.Discipline

/-! Feeds in one namespace keep to themselves. The names of a feed's children are its own name with
a suffix, and one feed's name may be the name of another's child without the suffix; still no two
feeds share a name of one kind. What is chosen by labels is chosen by the instance label. So no step
made for one feed touches, or even counts, what belongs to another. -/

namespace EliteEvents

open Prog

/-! Names. -/

/-- The names of the objects built for a feed. -/
def Named (feed : String) : Kind → String → Prop
  | .configMap, name => name = configMapName feed
  | .service, name => name = serviceName feed
  | .deployment, name => ∃ k : ℕ, name = shardDeploymentName feed k
  | .cronJob, name => name = maintenanceCronJobName feed
  | .job, name => name = drainJobName feed ∨ ∃ suffix : String, suffix.toList.all Char.isDigit = true ∧
      name = maintenanceCronJobName feed ++ ("-" ++ suffix)

section Names

variable {A B : String}

theorem append_suffix_inj {suffix : String} (h : A ++ suffix = B ++ suffix) : A = B := by
  have hl := congrArg String.toList h
  rw [String.toList_append, String.toList_append] at hl
  exact String.toList_inj.mp (List.append_cancel_right hl)

private theorem dash_not_mem {cs : List Char} (h : cs.all Char.isDigit = true) : '-' ∉ cs := by
  intro hmem
  cases List.all_eq_true.mp h '-' hmem

private theorem itoa_digits (k : ℕ) : (itoa k).toList.all Char.isDigit = true := by
  rw [toList_itoa, List.all_eq_true]
  exact fun c hc => Nat.isDigit_of_mem_toDigits (b := 10) (n := k) (by decide) (by decide) hc

/-- A name that ends in a number after a dash is told apart by what stands before. -/
private theorem numbered_inj {c d : String} (hc : c.toList.all Char.isDigit = true)
    (hd : d.toList.all Char.isDigit = true) (h : A ++ ("-" ++ c) = B ++ ("-" ++ d)) : A = B := by
  have hl := congrArg String.toList h
  simp only [String.toList_append] at hl
  exact String.toList_inj.mp (Text.append_separator_inj (dash_not_mem hc) (dash_not_mem hd) hl).1

theorem drain_ne_spawned {suffix : String} (h : suffix.toList.all Char.isDigit = true) :
    drainJobName A ≠ maintenanceCronJobName B ++ ("-" ++ suffix) := by
  intro he
  have hl := congrArg String.toList he
  have hdrain : (drainJobName A).toList = A.toList ++ '-' :: "drain".toList := by
    rw [drainJobName, String.toList_append]
    rfl
  rw [hdrain, String.toList_append, String.toList_append] at hl
  have hd := (Text.append_separator_inj (by decide) (dash_not_mem h) hl).2
  rw [← hd] at h
  cases h

/-- An object of one kind is built for one feed at most. -/
theorem named_unique {κ : Kind} {name : String} (hA : Named A κ name) (hB : Named B κ name) : A = B := by
  cases κ with
  | configMap => exact append_suffix_inj (hA.symm.trans hB)
  | service => exact hA.symm.trans hB
  | deployment =>
    obtain ⟨j, rfl⟩ := hA
    obtain ⟨k, hk⟩ := hB
    rw [shardDeploymentName, shardDeploymentName, String.append_assoc, String.append_assoc] at hk
    exact numbered_inj (itoa_digits j) (itoa_digits k) hk
  | cronJob => exact append_suffix_inj (hA.symm.trans hB)
  | job =>
    rcases hA with rfl | ⟨c, hc, rfl⟩
    · rcases hB with hB | ⟨d, hd, hB⟩
      · exact append_suffix_inj hB
      · exact absurd hB (drain_ne_spawned hd)
    · rcases hB with hB | ⟨d, hd, hB⟩
      · exact absurd hB.symm (drain_ne_spawned hc)
      · exact append_suffix_inj (numbered_inj hc hd hB)

end Names

/-! Labels. -/

/-- The feed an object or a pod says it belongs to. -/
def tag (labels : Labels) : Option String := labels.lookup instanceLabel

/-- What a selection by the instance label finds has that label. -/
theorem tag_of_matches {feed : String} {sel labels : Labels} (hsel : (instanceLabel, feed) ∈ sel)
    (h : sel.matches labels = true) : tag labels = some feed :=
  matches_iff.mp h _ hsel

theorem instance_mem (feed : String) :
    (instanceLabel, feed) ∈ selectorLabels feed ∧ (instanceLabel, feed) ∈ maintenanceLabels feed :=
  ⟨List.mem_cons_of_mem _ List.mem_cons_self, List.mem_cons_of_mem _ List.mem_cons_self⟩

/-- What is started from the object carries the label too. -/
def Stamps (feed : String) : (κ : Kind) → Obj κ → Prop
  | .configMap, _ | .service, _ => True
  | .deployment, d => tag d.template.labels = some feed
  | .cronJob, c => tag c.jobTemplate.labels = some feed ∧ tag c.jobTemplate.template.labels = some feed
  | .job, j => tag j.template.labels = some feed

/-- An object as it is built for a feed. -/
def Belongs (feed : String) (κ : Kind) (name : String) (o : Obj κ) : Prop :=
  Named feed κ name ∧ tag o.metadata.labels = some feed ∧ Stamps feed κ o

theorem Belongs.withMetadata {feed : String} {κ : Kind} {name : String} {o : Obj κ} {m : ObjectMeta}
    (h : Belongs feed κ name o) (hm : m.labels = o.metadata.labels) :
    Belongs feed κ name (o.withMetadata m) := by
  obtain ⟨hn, ht, hs⟩ := h
  refine ⟨hn, ?_, ?_⟩
  · rw [metadata_withMetadata, hm]
    exact ht
  · cases κ <;> exact hs

/-- Everything in the namespace was built for some feed. -/
structure Tagged (s : Cluster) : Prop where
  feeds : ∀ name fl, s.feeds.lookup name = some fl → fl.name = name
  objs : ∀ κ name o, (s.objs κ).lookup name = some o → ∃ feed, Belongs feed κ name o
  pods : ∀ id p, s.pods.lookup id = some p → id ≤ s.revision

theorem tagged_initial : Tagged World.initial.cluster where
  feeds := fun _ _ h => by cases h
  objs := fun _ _ _ h => by cases h
  pods := fun _ _ h => by cases h

/-- The objects, the pods and the resource of a feed are exactly as they were. -/
structure Unchanged (feed : String) (s s' : Cluster) : Prop where
  feeds : s'.feeds.lookup feed = s.feeds.lookup feed
  objs : ∀ κ name, Named feed κ name → (s'.objs κ).lookup name = (s.objs κ).lookup name
  pods : ∀ id p, tag p.labels = some feed → (s'.pods.lookup id = some p ↔ s.pods.lookup id = some p)

section Cluster

variable {A B : String} {s s' s'' : Cluster}

theorem Unchanged.refl (feed : String) (s : Cluster) : Unchanged feed s s :=
  ⟨rfl, fun _ _ _ => rfl, fun _ _ _ => Iff.rfl⟩

theorem Unchanged.trans (h : Unchanged B s s') (h' : Unchanged B s' s'') : Unchanged B s s'' :=
  ⟨h'.feeds.trans h.feeds, fun κ name hn => (h'.objs κ name hn).trans (h.objs κ name hn),
    fun id p hp => (h'.pods id p hp).trans (h.pods id p hp)⟩

theorem unchanged_setFeed (hne : B ≠ A) {fl : FeedListener} (h : fl.name = A) :
    Unchanged B s (s.setFeed fl) := by
  refine ⟨?_, fun _ _ _ => rfl, fun _ _ _ => Iff.rfl⟩
  rw [Cluster.feeds_setFeed, h, AList.lookup_insert_ne hne]

theorem unchanged_dropFeed (hne : B ≠ A) : Unchanged B s (s.dropFeed A) := by
  refine ⟨?_, fun _ _ _ => rfl, fun _ _ _ => Iff.rfl⟩
  rw [Cluster.feeds_dropFeed, AList.lookup_erase_ne hne]

private theorem apart {κ κ' : Kind} {name name' : String} (hne : B ≠ A) (h : Named A κ name)
    (h' : Named B κ' name') : κ' ≠ κ ∨ name' ≠ name := by
  by_cases hκ : κ' = κ
  · subst hκ
    right
    rintro rfl
    exact hne (named_unique h' h)
  · exact .inl hκ

theorem unchanged_set (hne : B ≠ A) {κ : Kind} {name : String} (h : Named A κ name) (o : Obj κ) :
    Unchanged B s (s.set κ name o) :=
  ⟨rfl, fun _ _ h' => s.lookup_set_ne (apart hne h h') o, fun _ _ _ => Iff.rfl⟩

theorem unchanged_drop (hne : B ≠ A) {κ : Kind} {name : String} (h : Named A κ name) :
    Unchanged B s (s.drop κ name) :=
  ⟨rfl, fun _ _ h' => s.lookup_drop_ne (apart hne h h'), fun _ _ _ => Iff.rfl⟩

theorem Tagged.setFeed (h : Tagged s) (fl : FeedListener) : Tagged (s.setFeed fl) := by
  refine ⟨fun name fl' hl => ?_, h.objs, fun id p hp => (h.pods id p hp).trans (Nat.le_succ _)⟩
  rw [Cluster.feeds_setFeed] at hl
  by_cases he : name = fl.name
  · rw [he, AList.lookup_insert] at hl
    cases hl
    exact he.symm
  · rw [AList.lookup_insert_ne he] at hl
    exact h.feeds name fl' hl

theorem Tagged.dropFeed (h : Tagged s) (name : String) : Tagged (s.dropFeed name) := by
  refine ⟨fun name' fl' hl => ?_, h.objs, fun id p hp => (h.pods id p hp).trans (Nat.le_succ _)⟩
  rw [Cluster.feeds_dropFeed] at hl
  by_cases he : name' = name
  · rw [he, AList.lookup_erase] at hl
    cases hl
  · rw [AList.lookup_erase_ne he] at hl
    exact h.feeds name' fl' hl

theorem Tagged.set (h : Tagged s) {κ : Kind} {name : String} {o : Obj κ} (ho : Belongs A κ name o) :
    Tagged (s.set κ name o) :=
  ⟨h.feeds, Cluster.forall_set (P := fun κ name o => ∃ feed, Belongs feed κ name o) h.objs ⟨A, ho⟩,
    fun id p hp => (h.pods id p hp).trans (Nat.le_succ _)⟩

theorem Tagged.drop (h : Tagged s) (κ : Kind) (name : String) : Tagged (s.drop κ name) :=
  ⟨h.feeds, fun κ' name' o hl => h.objs κ' name' o (s.of_lookup_drop hl),
    fun id p hp => (h.pods id p hp).trans (Nat.le_succ _)⟩

/-- Under a feed's name there is only what belongs to it. -/
theorem Tagged.belongs (h : Tagged s) {κ : Kind} {name : String} {o : Obj κ} (hn : Named A κ name)
    (hl : (s.objs κ).lookup name = some o) : Belongs A κ name o := by
  obtain ⟨feed, hb⟩ := h.objs κ name o hl
  obtain rfl := named_unique hn hb.1
  exact hb

/-- A selection by the instance label finds only what belongs to the feed. -/
theorem Tagged.selected (h : Tagged s) {κ : Kind} {sel : Labels} (hsel : (instanceLabel, A) ∈ sel)
    {name : String} {o : Obj κ} (hm : (name, o) ∈ s.matching κ sel) : Belongs A κ name o := by
  obtain ⟨hl, hmatch⟩ := Cluster.mem_matching.mp hm
  obtain ⟨feed, hb⟩ := h.objs κ name o hl
  have htag := tag_of_matches hsel hmatch
  rw [hb.2.1] at htag
  cases htag
  exact hb

theorem Tagged.setPods (h : Tagged s) {pods : AList fun _ : ℕ => Pod}
    (hp : ∀ id p, pods.lookup id = some p → id ≤ s.revision + 1) :
    Tagged { s with pods := pods, revision := s.revision + 1 } := ⟨h.feeds, h.objs, hp⟩

/-- A pod of the feed comes, changes or goes: the others' pods are as they were. -/
theorem unchanged_setPods (hne : B ≠ A) {pods : AList fun _ : ℕ => Pod} (id : ℕ)
    (hnew : ∀ p, pods.lookup id = some p → tag p.labels = some A)
    (hold : ∀ p, s.pods.lookup id = some p → tag p.labels = some A)
    (hrest : ∀ id', id' ≠ id → pods.lookup id' = s.pods.lookup id') :
    Unchanged B s { s with pods := pods, revision := s.revision + 1 } := by
  refine ⟨rfl, fun _ _ _ => rfl, fun id' p hp => ?_⟩
  by_cases hid : id' = id
  · subst hid
    have hBA : tag p.labels ≠ some A := by
      rw [hp]
      exact fun h => hne (Option.some.inj h)
    exact ⟨fun h => absurd (hnew p h) hBA, fun h => absurd (hold p h) hBA⟩
  · show pods.lookup id' = some p ↔ _
    rw [hrest id' hid]

/-- A new pod, under a number that was never used. -/
theorem startPod_isolated (h : Tagged s) {t : PodTemplate} (hs : s.startPod t = some s') :
    Tagged s' ∧ ∀ A, tag t.labels = some A → ∀ B ≠ A, Unchanged B s s' := by
  obtain ⟨data, -, rfl⟩ := startPod_eq hs
  refine ⟨h.setPods fun id p hp => ?_, fun A htag B hne => unchanged_setPods hne (s.revision + 1) ?_ ?_ ?_⟩
  · by_cases hid : id = s.revision + 1
    · exact hid.le
    · rw [AList.lookup_insert_ne hid] at hp
      exact (h.pods id p hp).trans (Nat.le_succ _)
  · intro p hp
    rw [AList.lookup_insert] at hp
    cases hp
    exact htag
  · intro p hp
    exact absurd (h.pods _ p hp) (Nat.not_succ_le_self _)
  · exact fun id' hid => AList.lookup_insert_ne hid

end Cluster

/-- An action of the cluster on what belongs to a feed. -/
def ClusterAction.Targets (feed : String) (s : Cluster) : ClusterAction → Prop
  | .createFeed _ | .editSpec _ | .deleteFeed => True
  | .startShardPod name => Named feed .deployment name
  | .spawnJob name _ | .cronStatus name _ => Named feed .cronJob name
  | .startJobPod name | .jobStatus name _ => Named feed .job name
  | .podStatus id _ _ _ | .podGone id => ∀ p, s.pods.lookup id = some p → tag p.labels = some feed
  | .mark κ name | .gone κ name => Named feed κ name

section Actions

variable {A B : String} {s s' : Cluster}

/-- A Job that a CronJob starts belongs to the same feed. -/
theorem Belongs.spawned {feed name suffix : String} {c : CronJob} (h : Belongs feed .cronJob name c)
    (hs : suffix.toList.all Char.isDigit = true) (s : Cluster) :
    Belongs feed .job (name ++ ("-" ++ suffix)) (c.spawned s) := by
  obtain ⟨rfl, -, hlabels, htemplate⟩ := h
  exact ⟨.inr ⟨suffix, hs, rfl⟩, hlabels, htemplate⟩

/-- The namespace stays tagged, and an action on one feed's objects leaves the others' alone. -/
theorem apply_isolated {a : ClusterAction} (h : Tagged s) (hsched : a.scheduled = true)
    (ha : a.apply A s = some s') : Tagged s' ∧ (a.Targets A s → ∀ B ≠ A, Unchanged B s s') := by
  cases moves_of_apply ha with
  | createFeed fl hn hname hd => exact ⟨h.setFeed fl, fun _ B hne => unchanged_setFeed hne hname⟩
  | editSpec spec fl hl =>
    exact ⟨h.setFeed _, fun _ B hne => unchanged_setFeed hne (h.feeds A fl hl)⟩
  | removeFeed fl hl hd hf => exact ⟨h.dropFeed A, fun _ B hne => unchanged_dropFeed hne⟩
  | deleteFeed fl hl hd fl' hname huid hd' =>
    exact ⟨h.setFeed fl', fun _ B hne => unchanged_setFeed hne (hname.trans (h.feeds A fl hl))⟩
  | startShardPod name d hl hm _ hs =>
    refine ⟨(startPod_isolated h hs).1, fun ht B hne => ?_⟩
    have hb : Belongs A .deployment name d := h.belongs ht hl
    exact (startPod_isolated h hs).2 A hb.2.2 B hne
  | startJobPod name j hl hd _ hs =>
    refine ⟨(startPod_isolated h hs).1, fun ht B hne => ?_⟩
    have hb : Belongs A .job name j := h.belongs ht hl
    exact (startPod_isolated h hs).2 A hb.2.2 B hne
  | spawnJob name suffix c hl hn =>
    obtain ⟨feed, hb⟩ := h.objs .cronJob name c hl
    refine ⟨h.set (hb.spawned hsched s), fun ht B hne => ?_⟩
    have hb : Belongs A .cronJob name c := h.belongs ht hl
    exact unchanged_set hne (hb.spawned hsched s).1 _
  | podStatus id p running readyCondition podIP hl =>
    refine ⟨h.setPods fun id' q hq => ?_, fun ht B hne => unchanged_setPods hne id (fun q hq => ?_) ht fun id' hid =>
      AList.lookup_insert_ne hid⟩
    · by_cases hid : id' = id
      · exact hid ▸ (h.pods id p hl).trans (Nat.le_succ _)
      · rw [AList.lookup_insert_ne hid] at hq
        exact (h.pods id' q hq).trans (Nat.le_succ _)
    · rw [AList.lookup_insert] at hq
      cases hq
      exact ht p hl
  | podGone id =>
    refine ⟨h.setPods fun id' q hq => ?_, fun ht B hne => unchanged_setPods hne id (fun q hq => ?_) ht fun id' hid =>
      AList.lookup_erase_ne hid⟩
    · by_cases hid : id' = id
      · rw [hid, AList.lookup_erase] at hq
        cases hq
      · rw [AList.lookup_erase_ne hid] at hq
        exact (h.pods id' q hq).trans (Nat.le_succ _)
    · rw [AList.lookup_erase] at hq
      cases hq
  | jobStatus name status j j' hl hj =>
    obtain ⟨feed, hb⟩ := h.objs .job name j hl
    subst hj
    refine ⟨h.set ⟨hb.1, hb.2.1, hb.2.2⟩, fun ht B hne => ?_⟩
    have hn : Named A .job name := ht
    exact unchanged_set hne hn _
  | cronStatus name t c c' hl hc =>
    obtain ⟨feed, hb⟩ := h.objs .cronJob name c hl
    subst hc
    refine ⟨h.set ⟨hb.1, hb.2.1, hb.2.2⟩, fun ht B hne => ?_⟩
    have hn : Named A .cronJob name := ht
    exact unchanged_set hne hn _
  | mark κ name o hl =>
    obtain ⟨feed, hb⟩ := h.objs κ name o hl
    exact ⟨h.set (hb.withMetadata rfl), fun ht B hne => unchanged_set hne ht _⟩
  | gone κ name => exact ⟨h.drop κ name, fun ht B hne => unchanged_drop hne ht⟩

end Actions

/-! The calls of a reconcile. -/

/-- A call that keeps to what belongs to the feed. -/
def Within (feed : String) : Call → Prop
  | .getFeed name => name = feed
  | .updateFeed fl | .updateStatus fl => fl.name = feed
  | .get κ name | .delete κ name _ => Named feed κ name
  | .create κ name o | .update κ name o => Belongs feed κ name o
  | .list _ sel | .listPods sel => (instanceLabel, feed) ∈ sel
  | .event _ | .probe _ | .now => True

def AllNamed (feed : String) (κ : Kind) (os : List (String × Obj κ)) : Prop :=
  ∀ name o, (name, o) ∈ os → Named feed κ name

/-- What the answers to such calls bring. -/
def Heard (feed : String) : (c : Call) → Answer c → Prop
  | .getFeed _, .ok fl | .updateFeed _, .ok fl | .updateStatus _, .ok fl => FeedListener.name fl = feed
  | .list κ _, .ok os => AllNamed feed κ os
  | _, _ => True

section Calls

variable {fl : FeedListener}

/-- A child as it is written, whatever was there before. -/
theorem Child.belongs {κ : Kind} {name : String} {mutate : Obj κ → Except Err (Obj κ)}
    (h : Child fl κ name mutate) {old o : Obj κ} (ho : mutate old = .ok o) : Belongs fl.name κ name o := by
  cases h with
  | configMap | service =>
    rw [owned_ok ho]
    exact ⟨rfl, rfl, trivial⟩
  | shard k configHash hk =>
    rw [owned_ok ho]
    exact ⟨⟨k, rfl⟩, rfl, rfl⟩
  | cronJob =>
    rw [owned_ok ho]
    exact ⟨rfl, rfl, rfl, rfl⟩

theorem Child.named {κ : Kind} {name : String} {mutate : Obj κ → Except Err (Obj κ)}
    (h : Child fl κ name mutate) : Named fl.name κ name := by
  cases h with
  | shard k configHash hk => exact ⟨k, rfl⟩
  | _ => rfl

theorem within_of_reconcileCall {c : Call} (h : ReconcileCall (Heard fl.name) fl c) : Within fl.name c := by
  cases h with
  | get h => exact h.named
  | create h ho | update h _ ho => exact h.belongs ho
  | listShards | listPods => exact (instance_mem fl.name).1
  | prune hlist hmem => exact hlist _ _ hmem
  | dropCronJob | status => rfl
  | _ => trivial

theorem heard_error {feed : String} {c : Call} {e : ApiError} : Heard feed c (.error e) := by
  cases c <;> trivial

theorem within_of_finalizeCall {feed : String} {c : Call} (h : FinalizeCall (Heard feed) feed c) :
    Within feed c := by
  cases h with
  | stop h =>
    cases h with
    | dropCronJob => rfl
    | listShards | listShardPods => exact (instance_mem feed).1
    | listJobs | listJobPods => exact (instance_mem feed).2
    | stopShard hlist hmem | stopJob hlist hmem => exact hlist _ _ hmem
  | getDrain => exact .inl rfl
  | createDrain fl hname =>
    subst hname
    exact ⟨.inl rfl, rfl, rfl⟩
  | terminating fl hname | release fl hname => exact hname
  | event e => trivial

/-- Every call of a reconcile keeps to its own feed. -/
theorem reconcile_within (sha256 : List UInt8 → List UInt8) (feed : String) :
    ObeysOk (Within feed) (Heard feed) (reconcile sha256 feed) fun _ => True := by
  refine ObeysOk.bind (obeys_attempt rfl) fun r hr => ?_
  cases r with
  | error e =>
    dsimp only
    split_ifs
    · exact obeysOk_pure trivial
    · exact obeysOk_throw _
  | ok fl =>
    change FeedListener at fl
    obtain rfl : fl.name = feed := hr
    dsimp only
    split_ifs
    · exact (finalize_calls fun _ _ _ h => h).weaken (fun _ => within_of_finalizeCall) fun _ h => h
    · refine ObeysOk.bind (registerFinalizer_calls rfl) fun fl' h => ?_
      have hname : fl'.name = fl.name := by
        rcases h with rfl | h
        · rfl
        · exact h
      rw [← hname]
      exact (reconcileChildren_calls sha256).weaken (fun _ => within_of_reconcileCall) fun _ h => h

end Calls

section Answers

variable {A B : String} {s s' : Cluster} {c : Call}

/-- A call within a feed keeps the namespace tagged and brings only what is the feed's. -/
theorem Tagged.serve (h : Tagged s) (hc : Within A c) :
    Tagged (s.serve c).2 ∧ Heard A c (s.serve c).1 ∧ ∀ B ≠ A, Unchanged B s (s.serve c).2 := by
  have hrefl : ∀ B ≠ A, Unchanged B s s := fun B _ => Unchanged.refl B s
  cases c with
  | getFeed name =>
    simp only [Cluster.serve]
    split
    · exact ⟨h, trivial, hrefl⟩
    · rename_i fl hl
      exact ⟨h, (h.feeds name fl hl).trans hc, hrefl⟩
  | updateFeed fl =>
    simp only [Cluster.serve]
    split
    · exact ⟨h, trivial, hrefl⟩
    · rename_i cur hl
      have hname : cur.name = A := (h.feeds fl.name cur hl).trans hc
      split_ifs
      · exact ⟨h.dropFeed fl.name, hname, fun B hne => unchanged_dropFeed (hne.trans_eq (Eq.symm hc))⟩
      · exact ⟨h.setFeed _, hname, fun B hne => unchanged_setFeed hne hname⟩
      · exact ⟨h, trivial, hrefl⟩
  | updateStatus fl =>
    simp only [Cluster.serve]
    split
    · exact ⟨h, trivial, hrefl⟩
    · rename_i cur hl
      have hname : cur.name = A := (h.feeds fl.name cur hl).trans hc
      split_ifs
      · exact ⟨h.setFeed _, hname, fun B hne => unchanged_setFeed hne hname⟩
      · exact ⟨h, trivial, hrefl⟩
  | get κ name =>
    simp only [Cluster.serve]
    split <;> exact ⟨h, trivial, hrefl⟩
  | create κ name o =>
    simp only [Cluster.serve]
    split
    · exact ⟨h, trivial, hrefl⟩
    · exact ⟨h.set (Belongs.withMetadata hc rfl), trivial, fun B hne => unchanged_set hne hc.1 _⟩
  | update κ name o =>
    simp only [Cluster.serve]
    split
    · exact ⟨h, trivial, hrefl⟩
    · split_ifs
      · exact ⟨h.set (Belongs.withMetadata hc rfl), trivial, fun B hne => unchanged_set hne hc.1 _⟩
      · exact ⟨h, trivial, hrefl⟩
  | delete κ name foreground =>
    simp only [Cluster.serve]
    split
    · exact ⟨h, trivial, hrefl⟩
    · rename_i o hl
      split_ifs
      · exact ⟨h.set ((h.belongs hc hl).withMetadata rfl), trivial, fun B hne => unchanged_set hne hc _⟩
      · exact ⟨h.drop κ name, trivial, fun B hne => unchanged_drop hne hc⟩
  | list κ sel => exact ⟨h, fun name o hm => (h.selected hc hm).1, hrefl⟩
  | listPods sel => exact ⟨h, trivial, hrefl⟩
  | event e => exact ⟨h, trivial, hrefl⟩
  | probe ip => exact ⟨h, trivial, hrefl⟩
  | now => exact ⟨h, trivial, hrefl⟩

theorem Tagged.answer {f : Fate} {r : Answer c} (h : Tagged s) (hc : Within A c)
    (ha : s.answer f c = (r, s')) : Tagged s' ∧ Heard A c r ∧ ∀ B ≠ A, Unchanged B s s' := by
  obtain ⟨htag, hheard, hsame⟩ := h.serve hc
  refine ⟨?_, ?_, ?_⟩
  · rcases answer_effect ha with rfl | rfl
    · exact h
    · exact htag
  · cases r with
    | error e => exact heard_error
    | ok a =>
      by_cases ho : c.Outside
      · cases c with
        | probe ip => trivial
        | now => trivial
        | _ => exact ho.elim
      · rw [answer_ok ha ho] at hheard
        exact hheard
  · rcases answer_effect ha with rfl | rfl
    · exact fun B _ => Unchanged.refl B s'
    · exact hsame

end Answers

/-! Runs. -/

/-- A step made for a feed: by its worker, by its users, or by the cluster on what belongs to it. -/
def ActsFor (feed : String) (n : Namespace) : NamespaceAction → Prop
  | .reconcile feed' | .call feed' _ => feed' = feed
  | .crash => True
  | .cluster feed' a => feed' = feed ∧ a.Targets feed n.cluster

/-- Everything belongs to a feed, and every worker keeps to its own. -/
structure Apart (n : Namespace) : Prop where
  tagged : Tagged n.cluster
  workers : ∀ feed, (n.workers feed).Obeys (Within feed) (Heard feed) fun _ => True

theorem apart_initial : Apart Namespace.initial := ⟨tagged_initial, fun _ => trivial⟩

section Runs

variable {sha256 : List UInt8 → List UInt8} {A B : String} {n n' : Namespace}

private theorem workers_update (h : Apart n) {p : Prog Call Answer (Except Err Requeue)}
    (hp : p.Obeys (Within A) (Heard A) fun _ => True) (feed : String) :
    (Function.update n.workers A p feed).Obeys (Within feed) (Heard feed) fun _ => True := by
  by_cases hf : feed = A
  · subst hf
    rw [Function.update_self]
    exact hp
  · rw [Function.update_of_ne hf]
    exact h.workers feed

/-- One step: whatever it is, the namespace stays in order; made for one feed, it leaves the others'
objects alone. -/
theorem Apart.step {a : NamespaceAction} (h : Apart n) (hs : n.step sha256 a = some n') :
    Apart n' ∧ ∀ A, ActsFor A n a → ∀ B ≠ A, Unchanged B n.cluster n'.cluster := by
  cases a with
  | reconcile feed =>
    simp only [Namespace.step] at hs
    split at hs
    · cases hs
      have hp := Obeys.weaken (reconcile_within sha256 feed) (fun _ h => h) fun _ _ => trivial
      exact ⟨⟨h.tagged, workers_update h hp⟩, fun _ _ B _ => Unchanged.refl B _⟩
    · cases hs
  | call feed f =>
    simp only [Namespace.step] at hs
    split at hs
    · cases hs
    · rename_i c k hw
      cases hs
      have hobeys := h.workers feed
      rw [hw] at hobeys
      obtain ⟨htag, hheard, hsame⟩ := h.tagged.answer hobeys.1 (@Prod.mk.eta _ _ (n.cluster.answer f c)).symm
      refine ⟨⟨htag, workers_update h (hobeys.2 _ hheard)⟩, fun A hact B hne => hsame B ?_⟩
      rw [show feed = A from hact]
      exact hne
  | crash =>
    cases hs
    exact ⟨⟨h.tagged, fun _ => trivial⟩, fun _ _ B _ => Unchanged.refl B _⟩
  | cluster feed a =>
    simp only [Namespace.step] at hs
    split_ifs at hs with hsched
    obtain ⟨s, ha, rfl⟩ := Option.map_eq_some_iff.mp hs
    have hiso := apply_isolated h.tagged hsched ha
    refine ⟨⟨hiso.1, h.workers⟩, fun A hact B hne => ?_⟩
    obtain ⟨rfl, ht⟩ := hact
    exact hiso.2 ht B hne

theorem Apart.reaches {ok : Namespace → NamespaceAction → Prop} (h : Apart n)
    (hr : n.Reaches sha256 ok n') : Apart n' := by
  induction hr with
  | refl => exact h
  | step a _ _ hs ih => exact (ih.step hs).1

/-- A whole run of one feed's steps leaves the others' objects alone. -/
theorem Apart.unchanged (h : Apart n) (hne : B ≠ A) (hr : n.Reaches sha256 (ActsFor A) n') :
    Unchanged B n.cluster n'.cluster := by
  induction hr with
  | refl => exact Unchanged.refl B _
  | step a hr hok hs ih => exact ih.trans (((h.reaches hr).step hs).2 A hok B hne)

end Runs

/-- The labels of the objects and of the pods built for a feed. -/
inductive BuiltLabels (feed : String) : Labels → Prop
  | object : BuiltLabels feed (objectLabels feed)
  | shard (k : ℕ) : BuiltLabels feed (shardLabels feed k)
  | maintenance : BuiltLabels feed (maintenanceLabels feed)
  | drain : BuiltLabels feed (drainLabels feed)

/-- The selections a reconcile makes. -/
inductive Selects (feed : String) : Labels → Prop
  | shards : Selects feed (selectorLabels feed)
  | maintenance : Selects feed (maintenanceLabels feed)

section Selections

variable {A B : String} {sel labels : Labels}

theorem Selects.instance_mem (h : Selects A sel) : (instanceLabel, A) ∈ sel := by
  cases h with
  | shards => exact (EliteEvents.instance_mem A).1
  | maintenance => exact (EliteEvents.instance_mem A).2

theorem BuiltLabels.tag_eq (h : BuiltLabels B labels) : tag labels = some B := by
  cases h <;> rfl

/-- A selection for one feed passes over what carries another's label. -/
theorem Selects.not_matches (h : Selects A sel) (hne : A ≠ B) (hl : tag labels = some B) :
    sel.matches labels = false := by
  by_contra hm
  have htag := tag_of_matches h.instance_mem (Bool.not_eq_false _ ▸ hm)
  rw [hl] at htag
  cases htag
  exact hne rfl

end Selections

/-- Feeds of different names are isolated: their objects never have one name and kind; neither's
selections match what is built for the other; and in whatever state the namespace is, the calls one's
reconcile makes keep to what is its own, and a run of its steps leaves the other's resource, objects and
pods exactly as they were. -/
theorem feeds_isolated (sha256 : List UInt8 → List UInt8) {A B : String} (hne : A ≠ B) :
    (∀ κ name, Named A κ name → ¬ Named B κ name) ∧
    (∀ sel labels, Selects A sel → BuiltLabels B labels → sel.matches labels = false) ∧
    ∀ n, Namespace.initial.Reaches sha256 (fun _ _ => True) n →
      (∀ c k, n.workers A = .call c k → Within A c) ∧
      (∀ sel, Selects A sel →
        (∀ κ name o, (name, o) ∈ n.cluster.matching κ sel → Belongs A κ name o) ∧
        ∀ p ∈ n.cluster.matchingPods sel, tag p.labels = some A) ∧
      (∀ κ name o, Named B κ name → (n.cluster.objs κ).lookup name = some o → Belongs B κ name o) ∧
      ∀ n', n.Reaches sha256 (ActsFor A) n' → Unchanged B n.cluster n'.cluster := by
  refine ⟨fun κ name hA hB => hne (named_unique hA hB),
    fun sel labels hsel hl => hsel.not_matches hne hl.tag_eq, fun n hn => ?_⟩
  have hn := apart_initial.reaches hn
  refine ⟨fun c k hw => ?_, fun sel hsel => ⟨fun κ name o hm => hn.tagged.selected hsel.instance_mem hm,
    fun p hp => ?_⟩, fun κ name o hB hl => hn.tagged.belongs hB hl, fun n' hr => hn.unchanged hne.symm hr⟩
  · have hobeys := hn.workers A
    rw [hw] at hobeys
    exact hobeys.1
  · refine tag_of_matches hsel.instance_mem ?_
    obtain ⟨e, he, rfl⟩ := List.mem_map.mp hp
    exact (List.mem_filter.mp he).2

section Prefix

def Namespace.run (sha256 : List UInt8 → List UInt8) : List NamespaceAction → Namespace → Option Namespace
  | [], n => some n
  | a :: as, n => (n.step sha256 a).bind (run sha256 as)

theorem Namespace.reaches_run {sha256 : List UInt8 → List UInt8} {ok : Namespace → NamespaceAction → Prop}
    {acts : List NamespaceAction} {n₀ n n' : Namespace} (h : n₀.Reaches sha256 ok n)
    (hok : ∀ a ∈ acts, ∀ n, ok n a) (hr : n.run sha256 acts = some n') : n₀.Reaches sha256 ok n' := by
  induction acts generalizing n with
  | nil =>
    cases hr
    exact h
  | cons a acts ih =>
    obtain ⟨n₁, hs, hr⟩ := Option.bind_eq_some_iff.mp hr
    exact ih (.step a h (hok a List.mem_cons_self n) hs) (fun b hb => hok b (List.mem_cons_of_mem a hb)) hr

/-- A feed is created, and its worker makes the first calls of a reconcile, all of them served. -/
def brought (feed : String) (consumers : Int32) (calls : ℕ) : List NamespaceAction :=
  [.cluster feed (.createFeed (eddnSpec consumers)), .reconcile feed] ++
    List.replicate calls (.call feed ⟨none, .error "", 0⟩)

theorem brought_actsFor (feed : String) (consumers : Int32) (calls : ℕ) :
    ∀ a ∈ brought feed consumers calls, ∀ n, ActsFor feed n a := by
  intro a ha n
  rcases List.mem_append.mp ha with ha | ha
  · rcases List.mem_cons.mp ha with rfl | ha
    · exact ⟨rfl, trivial⟩
    · rw [List.mem_singleton.mp ha]
      rfl
  · rw [List.eq_of_mem_replicate ha]
    rfl

/-- Feed `x` comes up with a shard called `x-1` beside the feed `x-1`, which stays as it is. -/
theorem feeds_isolated_prefix :
    ∃ n n', Namespace.initial.run eddnDigest (brought "x-1" 1 10) = some n ∧
      n.run eddnDigest (brought "x" 2 10) = some n' ∧
      ((n.cluster.objs .deployment).lookup "x-1-0").isSome = true ∧
      ((n'.cluster.objs .deployment).lookup "x-1").isSome = true ∧
      Unchanged "x-1" n.cluster n'.cluster := by
  have h : ((Namespace.initial.run eddnDigest (brought "x-1" 1 10)).bind fun n =>
      (n.run eddnDigest (brought "x" 2 10)).map fun n' =>
        ((n.cluster.objs .deployment).lookup "x-1-0").isSome &&
          ((n'.cluster.objs .deployment).lookup "x-1").isSome) = some true := by
    decide +kernel
  obtain ⟨n, hn, h⟩ := Option.bind_eq_some_iff.mp h
  obtain ⟨n', hn', h⟩ := Option.map_eq_some_iff.mp h
  obtain ⟨hold, hnew⟩ := Bool.and_eq_true_iff.mp h
  have hreach := Namespace.reaches_run .refl (fun _ _ _ => trivial) hn
  have hrun := Namespace.reaches_run .refl (brought_actsFor "x" 2 10) hn'
  obtain ⟨-, -, hiso⟩ := feeds_isolated eddnDigest (show "x" ≠ "x-1" by decide)
  exact ⟨n, n', hn, hn', hold, hnew, (hiso n hreach).2.2.2 n' hrun⟩

end Prefix

end EliteEvents

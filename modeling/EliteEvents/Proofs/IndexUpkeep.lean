import EliteEvents.Proofs.Served
import EliteEvents.Proofs.Discipline

/-! Who rebuilds the indexes on a schedule: the consumers' own timer, unless the ConfigMap
switches it off, or the CronJob. A reconcile that hands the schedule to the CronJob writes the
ConfigMap first; if it stops in between, nobody is left to do it. -/

namespace EliteEvents

/-- `IndexMaintenance__Periodic = false` -/
def saysOff (cm : Obj .configMap) : Bool :=
  decide ((ConfigMap.data cm).lookup periodicKey = some "false")

/-- The ConfigMap tells the consumers to leave the schedule to the CronJob. -/
def timerOff (feed : String) (s : Cluster) : Bool :=
  ((s.objs .configMap).lookup (configMapName feed)).any saysOff

def cronThere (feed : String) (s : Cluster) : Bool :=
  ((s.objs .cronJob).lookup (maintenanceCronJobName feed)).isSome

/-- Nobody rebuilds the indexes. -/
def Orphaned (feed : String) (s : Cluster) : Prop := timerOff feed s = true ∧ cronThere feed s = false

/-- The write that switches the consumers' timer off. -/
def SwitchesOff (feed : String) : Call → Prop
  | .create .configMap name cm | .update .configMap name cm =>
    name = configMapName feed ∧ saysOff cm = true
  | _ => False

/-- The answers that end a reconcile. An object that is not there is no failure of `Get` and
`Delete`, and events are sent on a best-effort basis. -/
def Call.Fails : (c : Call) → Answer c → Prop
  | .get _ _, .error e | .delete _ _ _, .error e => e.reason ≠ .notFound
  | .event _, _ => False
  | _, .error _ => True
  | _, .ok _ => False

/-- While there is no CronJob, and the timer is off or is just being switched off, a call does
not fail. -/
def HandsOver (feed : String) (s : Cluster) (c : Call) (r : Answer c) : Prop :=
  cronThere feed s = false → (timerOff feed s = true ∨ SwitchesOff feed c) → ¬ c.Fails r

/-- Spec edits and reconciles, along with everything in the cluster that leaves the feed and its
CronJob in place. -/
def InScope (feed : String) : Action → Prop
  | .cluster a => a ≠ .deleteFeed ∧ a ≠ .gone .cronJob (maintenanceCronJobName feed)
  | .reconcile | .call _ | .crash => True

/-- No step breaks off a hand-over of the schedule. -/
def Uninterrupted (feed : String) (w : World) : Action → Prop
  | .call f =>
    match w.worker with
    | .pure _ => True
    | .call c _ => HandsOver feed w.cluster c (w.cluster.answer f c).1
  | .crash => ¬ Orphaned feed w.cluster
  | .reconcile | .cluster _ => True

/-! What the objects of the feed look like while nobody deletes it. -/

structure Tended (feed : String) (s : Cluster) : Prop where
  feeds : ∀ name fl, s.feeds.lookup name = some fl → fl.name = feed ∧ fl.deletionTimestamp = false
  owners : ∀ κ name (o : Obj κ), (s.objs κ).lookup name = some o →
    ∀ r, o.metadata.owner = some r → r.name = feed

section Cluster

variable {feed : String} {s s' : Cluster}

theorem tended_initial : Tended feed World.initial.cluster :=
  ⟨fun _ _ h => (by cases h), fun _ _ _ h => (by cases h)⟩

theorem Tended.of_eq (h : Tended feed s) (hf : s'.feeds = s.feeds) (ho : s'.objs = s.objs) :
    Tended feed s' :=
  ⟨by rw [hf]; exact h.feeds, by rw [ho]; exact h.owners⟩

theorem Tended.setFeed (h : Tended feed s) {fl : FeedListener} (hn : fl.name = feed)
    (hd : fl.deletionTimestamp = false) : Tended feed (s.setFeed fl) := by
  refine ⟨fun name fl' hl => ?_, h.owners⟩
  rw [Cluster.feeds_setFeed] at hl
  by_cases he : name = fl.name
  · rw [he, AList.lookup_insert] at hl
    cases hl
    exact ⟨hn, hd⟩
  · rw [AList.lookup_insert_ne he] at hl
    exact h.feeds name fl' hl

theorem Tended.set (h : Tended feed s) {κ : Kind} {name : String} {o : Obj κ}
    (ho : ∀ r, o.metadata.owner = some r → r.name = feed) : Tended feed (s.set κ name o) :=
  ⟨h.feeds, Cluster.forall_set h.owners ho⟩

theorem Tended.drop (h : Tended feed s) (κ : Kind) (name : String) : Tended feed (s.drop κ name) :=
  ⟨h.feeds, fun κ' name' o hl => h.owners κ' name' o (Cluster.of_lookup_drop s hl)⟩

/-- A write to an object that is neither the ConfigMap nor the CronJob of the feed. -/
theorem upkeep_set_ne {κ : Kind} {name : String} (o : Obj κ)
    (hcm : κ = .configMap → name ≠ configMapName feed)
    (hcj : κ = .cronJob → name ≠ maintenanceCronJobName feed) :
    timerOff feed (s.set κ name o) = timerOff feed s ∧
      cronThere feed (s.set κ name o) = cronThere feed s := by
  have h1 : Kind.configMap ≠ κ ∨ configMapName feed ≠ name := by
    by_cases hκ : κ = .configMap
    · exact .inr (hcm hκ).symm
    · exact .inl (Ne.symm hκ)
  have h2 : Kind.cronJob ≠ κ ∨ maintenanceCronJobName feed ≠ name := by
    by_cases hκ : κ = .cronJob
    · exact .inr (hcj hκ).symm
    · exact .inl (Ne.symm hκ)
  unfold timerOff cronThere
  rw [Cluster.lookup_set_ne s h1, Cluster.lookup_set_ne s h2]
  exact ⟨rfl, rfl⟩

theorem upkeep_set_configMap (cm : Obj .configMap) :
    timerOff feed (s.set .configMap (configMapName feed) cm) = saysOff cm ∧
      cronThere feed (s.set .configMap (configMapName feed) cm) = cronThere feed s := by
  unfold timerOff cronThere
  rw [Cluster.lookup_set_self, Cluster.lookup_set_ne s (.inl Kind.noConfusion)]
  exact ⟨rfl, rfl⟩

theorem upkeep_set_cronJob (c : Obj .cronJob) :
    timerOff feed (s.set .cronJob (maintenanceCronJobName feed) c) = timerOff feed s ∧
      cronThere feed (s.set .cronJob (maintenanceCronJobName feed) c) = true := by
  unfold timerOff cronThere
  rw [Cluster.lookup_set_self, Cluster.lookup_set_ne s (.inl Kind.noConfusion)]
  exact ⟨rfl, rfl⟩

theorem timerOff_of_lookup {cm : Obj .configMap}
    (h : (s.objs .configMap).lookup (configMapName feed) = some cm) : timerOff feed s = saysOff cm := by
  rw [timerOff, h, Option.any_some]

theorem cronThere_of_lookup {c : Obj .cronJob}
    (h : (s.objs .cronJob).lookup (maintenanceCronJobName feed) = some c) : cronThere feed s = true := by
  rw [cronThere, h]
  rfl

/-- An object written over itself with other metadata. -/
theorem upkeep_withMetadata {κ : Kind} {name : String} {o : Obj κ} (m : ObjectMeta)
    (hl : (s.objs κ).lookup name = some o) :
    timerOff feed (s.set κ name (o.withMetadata m)) = timerOff feed s ∧
      cronThere feed (s.set κ name (o.withMetadata m)) = cronThere feed s := by
  cases κ with
  | configMap =>
    by_cases hn : name = configMapName feed
    · subst hn
      obtain ⟨ho, hc⟩ := upkeep_set_configMap (s := s) (o.withMetadata m)
      exact ⟨ho.trans (timerOff_of_lookup hl).symm, hc⟩
    · exact upkeep_set_ne _ (fun _ => hn) Kind.noConfusion
  | cronJob =>
    by_cases hn : name = maintenanceCronJobName feed
    · subst hn
      obtain ⟨ho, hc⟩ := upkeep_set_cronJob (s := s) (o.withMetadata m)
      exact ⟨ho, hc.trans (cronThere_of_lookup hl).symm⟩
    · exact upkeep_set_ne _ Kind.noConfusion fun _ => hn
  | service | deployment | job => exact upkeep_set_ne _ Kind.noConfusion Kind.noConfusion

theorem upkeep_drop {κ : Kind} {name : String} (hcj : κ = .cronJob → name ≠ maintenanceCronJobName feed) :
    (timerOff feed (s.drop κ name) = timerOff feed s ∨ timerOff feed (s.drop κ name) = false) ∧
      cronThere feed (s.drop κ name) = cronThere feed s := by
  refine ⟨?_, ?_⟩
  · by_cases hκ : κ = .configMap ∧ name = configMapName feed
    · obtain ⟨rfl, rfl⟩ := hκ
      right
      rw [timerOff, Cluster.lookup_drop_self]
      rfl
    · left
      have h1 : Kind.configMap ≠ κ ∨ configMapName feed ≠ name := by
        rw [not_and_or] at hκ
        exact hκ.imp Ne.symm Ne.symm
      rw [timerOff, Cluster.lookup_drop_ne s h1, timerOff]
  · have h2 : Kind.cronJob ≠ κ ∨ maintenanceCronJobName feed ≠ name := by
      by_cases hκ : κ = .cronJob
      · exact .inr (hcj hκ).symm
      · exact .inl (Ne.symm hκ)
    rw [cronThere, Cluster.lookup_drop_ne s h2, cronThere]

/-- What others do keeps the CronJob, and at most removes the ConfigMap. -/
theorem Tended.apply {a : ClusterAction} (h : Tended feed s) (hscope : InScope feed (.cluster a))
    (ha : a.apply feed s = some s') : Tended feed s' ∧
      (timerOff feed s' = timerOff feed s ∨ timerOff feed s' = false) ∧
      cronThere feed s' = cronThere feed s := by
  have hobjs : ∀ {s'' : Cluster}, s''.objs = s.objs →
      (timerOff feed s'' = timerOff feed s ∨ timerOff feed s'' = false) ∧
        cronThere feed s'' = cronThere feed s := by
    intro s'' ho
    rw [timerOff, cronThere, ho]
    exact ⟨.inl rfl, rfl⟩
  cases moves_of_apply ha with
  | createFeed fl hn hname hd => exact ⟨h.setFeed hname hd, hobjs rfl⟩
  | editSpec spec fl hl =>
    obtain ⟨hname, hd⟩ := h.feeds _ fl hl
    exact ⟨h.setFeed hname hd, hobjs rfl⟩
  | removeFeed fl | deleteFeed fl => exact absurd rfl hscope.1
  | startShardPod name d hl hm _ hs =>
    obtain ⟨data, -, rfl⟩ := startPod_eq hs
    exact ⟨h.of_eq rfl rfl, hobjs rfl⟩
  | startJobPod name j hl hd _ hs =>
    obtain ⟨data, -, rfl⟩ := startPod_eq hs
    exact ⟨h.of_eq rfl rfl, hobjs rfl⟩
  | podStatus id p running readyCondition podIP hl => exact ⟨h.of_eq rfl rfl, hobjs rfl⟩
  | podGone id => exact ⟨h.of_eq rfl rfl, hobjs rfl⟩
  | spawnJob name suffix c hl hn =>
    obtain ⟨ho, hc⟩ := @upkeep_set_ne feed s .job (name ++ ("-" ++ suffix)) (c.spawned s)
      Kind.noConfusion Kind.noConfusion
    exact ⟨h.set (fun r hr => by cases hr), .inl ho, hc⟩
  | jobStatus name status j j' hl hj =>
    obtain ⟨ho, hc⟩ := @upkeep_set_ne feed s .job name j' Kind.noConfusion Kind.noConfusion
    subst hj
    exact ⟨h.set (h.owners .job name j hl), .inl ho, hc⟩
  | cronStatus name t c c' hl hc =>
    have howner := h.owners .cronJob name c hl
    subst hc
    by_cases hn : name = maintenanceCronJobName feed
    · subst hn
      obtain ⟨ho, hc⟩ := @upkeep_set_cronJob feed s (⟨{ c.metadata with
        resourceVersion := s.revision + 1 }, c.schedule, c.concurrencyPolicy, c.startingDeadlineSeconds,
        c.successfulJobsHistoryLimit, c.failedJobsHistoryLimit, c.jobTemplate, t⟩ : CronJob)
      exact ⟨h.set howner, .inl ho, hc.trans (cronThere_of_lookup hl).symm⟩
    · obtain ⟨ho, hc⟩ := @upkeep_set_ne feed s .cronJob name _ Kind.noConfusion fun _ => hn
      exact ⟨h.set howner, .inl ho, hc⟩
  | mark κ name o hl =>
    obtain ⟨ho, hc⟩ := @upkeep_withMetadata feed s κ name o (s.stamp o.metadata o.metadata.uid true) hl
    refine ⟨h.set ?_, .inl ho, hc⟩
    rw [metadata_withMetadata]
    exact h.owners κ name o hl
  | gone κ name =>
    refine ⟨h.drop κ name, upkeep_drop ?_⟩
    rintro rfl rfl
    exact hscope.2 rfl

end Cluster

/-! Facts about the hand-over, and what the programs of a reconcile make of them. -/

/-- Someone rebuilds the indexes. -/
def Cared (off cron : Bool) : Prop := ¬ (off = true ∧ cron = false)

/-- Facts that the loss of the ConfigMap does not break. -/
def Steady (F : Bool → Bool → Prop) : Prop := ∀ off cron, F off cron → F false cron

theorem steady_cared : Steady Cared := fun _ _ _ h => by cases h.1

section Rules

open Prog Relation

variable {feed : String} {α β : Type}

def UpkeepExec (feed : String) (c : Call) (s : Cluster) (r : Answer c) (s' : Cluster) : Prop :=
  ∃ f, s.answer f c = (r, s') ∧ HandsOver feed s c r

def UpkeepEnv (feed : String) (s s' : Cluster) : Prop :=
  ∃ a : ClusterAction, InScope feed (.cluster a) ∧ a.apply feed s = some s'

def Holds (feed : String) (F : Bool → Bool → Prop) (s : Cluster) : Prop :=
  F (timerOff feed s) (cronThere feed s)

/-- What a program promises if it succeeds, and that someone cares for the indexes if it fails. -/
def Concludes (feed : String) (G : α → Bool → Bool → Prop) : Except Err α → Cluster → Prop
  | .ok a, s => Holds feed (G a) s
  | .error _, s => Holds feed Cared s

def Upkeep (feed : String) (F : Bool → Bool → Prop) (p : Reconciler α) (G : α → Bool → Bool → Prop) :
    Prop :=
  ∀ s, Tended feed s → Holds feed F s →
    Prog.wp (UpkeepExec feed) (UpkeepEnv feed) (Tended feed) (α := Except Err α) p (Concludes feed G) s

variable {F F' : Bool → Bool → Prop} {p : Reconciler α} {G G' : α → Bool → Bool → Prop}

theorem tended_env {s s' : Cluster} (hs : Tended feed s) (he : UpkeepEnv feed s s') : Tended feed s' := by
  obtain ⟨a, hscope, ha⟩ := he
  exact (hs.apply hscope ha).1

theorem Steady.star (hF : Steady F) {s s' : Cluster} (hs : Tended feed s) (h : Holds feed F s)
    (he : ReflTransGen (UpkeepEnv feed) s s') : Holds feed F s' := by
  have hstable : Prog.Stable (UpkeepEnv feed) (Tended feed) (Holds feed F) := by
    rintro s s' hs h ⟨a, hscope, ha⟩
    obtain ⟨-, hoff, hcron⟩ := hs.apply hscope ha
    unfold Holds at h ⊢
    rw [hcron]
    rcases hoff with hoff | hoff
    · rwa [hoff]
    · rw [hoff]
      exact hF _ _ h
  exact hstable.star (fun _ _ => tended_env) hs h he

theorem upkeep_pure (hF : Steady F) {a : α} (h : ∀ off cron, F off cron → G a off cron) :
    Upkeep feed F (pure a) G :=
  fun _ hs hF' _ he _ => h _ _ (hF.star hs hF' he)

theorem upkeep_throw (hF : Steady F) (e : Err) (h : ∀ off cron, F off cron → Cared off cron) :
    Upkeep feed F (throw e : Reconciler α) G :=
  fun _ hs hF' _ he _ => h _ _ (hF.star hs hF' he)

theorem Upkeep.bind {f : α → Reconciler β} {H : β → Bool → Bool → Prop} (h : Upkeep feed F p G)
    (hf : ∀ a, Upkeep feed (G a) (f a) H) : Upkeep feed F (p >>= f) H := by
  intro s hs hF
  refine wp_bind (wp_mono ?_ (h s hs hF))
  rintro (e | a) s₁ hs₁ hG
  · exact fun s₂ he _ => steady_cared.star hs₁ hG he
  · exact hf a s₁ hs₁ hG

theorem Upkeep.conseq (h : Upkeep feed F p G) (hF : ∀ off cron, F' off cron → F off cron)
    (hG : ∀ a off cron, G a off cron → G' a off cron) : Upkeep feed F' p G' := by
  intro s hs hF'
  refine wp_mono ?_ (h s hs (hF _ _ hF'))
  rintro (e | a) s₁ _ hG₁
  · exact hG₁
  · exact hG a _ _ hG₁

/-- What is known of a result is a fact about no state. -/
theorem Upkeep.known {P : Prop} (h : P → Upkeep feed F p G) :
    Upkeep feed (fun off cron => F off cron ∧ P) p G :=
  fun s hs hF => h hF.2 s hs hF.1

/-- An error handler that leaves the hand-over alone and ends in an error. -/
theorem Upkeep.tryCatch {handler : Err → Reconciler α} (hG : ∀ a, Steady (G a)) (h : Upkeep feed F p G)
    (hc : ∀ e, Upkeep feed Cared (handler e) G) : Upkeep feed F (tryCatch p handler) G := by
  intro s hs hF
  refine wp_bind (wp_mono ?_ (h s hs hF))
  rintro (e | a) s₁ hs₁ hG₁
  · exact hc e s₁ hs₁ hG₁
  · exact fun s₂ he _ => (hG a).star hs₁ hG₁ he

theorem Upkeep.wrapping (hG : ∀ a, Steady (G a)) (h : Upkeep feed F p G) (context : String) :
    Upkeep feed F (wrapping context p) G :=
  h.tryCatch hG fun _ => upkeep_throw steady_cared _ fun _ _ h => h

theorem upkeep_attempt {c : Call} {G : Answer c → Bool → Bool → Prop} (hF : Steady F)
    (hG : ∀ r, Steady (G r))
    (h : ∀ s r s', Tended feed s → Holds feed F s → UpkeepExec feed c s r s' →
      Tended feed s' ∧ Holds feed (G r) s') : Upkeep feed F (attempt c) G := by
  intro s hs hF' s₁ he hs₁ r s₂ hexec
  obtain ⟨hs₂, hG₂⟩ := h s₁ r s₂ hs₁ (hF.star hs hF' he) hexec
  exact ⟨hs₂, fun s₃ he₃ _ => (hG r).star hs₂ hG₂ he₃⟩

/-- Calls that touch neither the ConfigMap nor the CronJob, with what is known of the answer. -/
def Aside (feed : String) (c : Call) (A : Answer c → Prop) : Prop :=
  ∀ s f r s', Tended feed s → s.answer f c = (r, s') →
    Tended feed s' ∧ timerOff feed s' = timerOff feed s ∧ cronThere feed s' = cronThere feed s ∧ A r

/-- The facts after a call: if it failed, someone cares for the indexes. -/
def After (F : Bool → Bool → Prop) (c : Call) (r : Answer c) (off cron : Bool) : Prop :=
  F off cron ∧ (c.Fails r → Cared off cron)

theorem steady_after (hF : Steady F) (c : Call) (r : Answer c) : Steady (After F c r) :=
  fun _ _ h => ⟨hF _ _ h.1, fun hf => steady_cared _ _ (h.2 hf)⟩

theorem upkeep_aside {c : Call} {A : Answer c → Prop} {f : Answer c → Reconciler β}
    {H : β → Bool → Bool → Prop} (hF : Steady F) (hc : Aside feed c A)
    (h : ∀ r, A r → Upkeep feed (After F c r) (f r) H) : Upkeep feed F (attempt c >>= f) H := by
  have hattempt : Upkeep feed F (attempt c) fun r off cron => After F c r off cron ∧ A r := by
    refine upkeep_attempt hF (fun r off cron h => ⟨steady_after hF c r _ _ h.1, h.2⟩) ?_
    rintro s r s' hs hF' ⟨f, ha, hover⟩
    obtain ⟨hs', hoff, hcron, hA⟩ := hc s f r s' hs ha
    refine ⟨hs', ?_⟩
    unfold Holds at hF' ⊢
    rw [hoff, hcron]
    exact ⟨⟨hF', fun hf ⟨h1, h2⟩ => hover h2 (.inl h1) hf⟩, hA⟩
  exact hattempt.bind fun r => Upkeep.known (h r)

theorem upkeep_request_aside {c : Call} {A : Answer c → Prop} (hF : Steady F) (hc : Aside feed c A)
    (hfails : ∀ e, c.Fails (.error e)) :
    Upkeep feed F (request c) fun a off cron => F off cron ∧ A (.ok a) := by
  refine upkeep_aside hF hc fun r hr => ?_
  cases r with
  | error e => exact upkeep_throw (steady_after hF c _) _ fun _ _ h => h.2 (hfails e)
  | ok a => exact upkeep_pure (steady_after hF c _) fun _ _ h => ⟨h.1, hr⟩

end Rules

end EliteEvents

import EliteEvents.Proofs.IndexUpkeep

/-! The hand-over of the schedule, step by step through a reconcile: the ConfigMap may switch the
consumers' timer off only if the CronJob follows, and the CronJob goes only when the timer is on
again. Along every run in which nothing breaks off a hand-over, someone rebuilds the indexes
whenever the worker is idle. -/

namespace EliteEvents

open Prog

section Calls

variable {feed : String} {s s' : Cluster} {f : Fate}

/-- The owner is the feed, if there is one. -/
def OwnedBy (feed : String) {κ : Kind} (o : Obj κ) : Prop :=
  ∀ r, o.metadata.owner = some r → r.name = feed

theorem ownedBy_blank (κ : Kind) : OwnedBy feed (Obj.blank κ) := by
  intro r hr
  cases κ <;> cases hr

theorem OwnedBy.stamp {κ : Kind} {o : Obj κ} (h : OwnedBy feed o) (s : Cluster) (uid : ℕ)
    (deleting : Bool) : OwnedBy feed (o.withMetadata (s.stamp o.metadata uid deleting)) := by
  unfold OwnedBy
  rw [metadata_withMetadata]
  exact h

/-- No object of the namespace belongs to another feed, so the owner can be set. -/
theorem owned_of_ownedBy {κ : Kind} {fl : FeedListener} {o : Obj κ} (h : OwnedBy fl.name o) :
    ∃ o', owned κ fl o = .ok o' ∧ OwnedBy fl.name o' := by
  have hok : ∃ o', owned κ fl o = .ok o' := by
    unfold owned setControllerReference
    split
    · exact ⟨_, rfl⟩
    · rename_i r hr
      rw [if_pos (h r hr)]
      exact ⟨_, rfl⟩
  obtain ⟨o', ho⟩ := hok
  refine ⟨o', ho, fun r hr => ?_⟩
  rw [owned_ok ho, metadata_withMetadata] at hr
  cases hr
  rfl

theorem aside_of_unchanged {c : Call} {A : Answer c → Prop}
    (hs : ∀ (s : Cluster) (f : Fate) r s', s.answer f c = (r, s') → s' = s)
    (hA : ∀ (s : Cluster) (f : Fate) r, Tended feed s → s.answer f c = (r, s) → A r) : Aside feed c A := by
  intro s f r s' htended ha
  obtain rfl := hs s f r s' ha
  exact ⟨htended, rfl, rfl, hA s' f r htended ha⟩

theorem aside_getFeed (name : String) :
    Aside feed (.getFeed name) fun r => ∀ fl, r = .ok fl →
      FeedListener.name fl = feed ∧ FeedListener.deletionTimestamp fl = false := by
  refine aside_of_unchanged (fun _ _ _ _ => getFeed_effect) ?_
  rintro s f r hs ha fl rfl
  exact hs.feeds name fl (getFeed_ok ha)

theorem aside_get (κ : Kind) (name : String) :
    Aside feed (.get κ name) fun r => ∀ o : Obj κ, r = .ok o → OwnedBy feed o := by
  refine aside_of_unchanged (fun _ _ _ _ => get_effect) ?_
  rintro s f r hs ha o rfl
  exact hs.owners κ name o (get_ok ha).1

theorem aside_list (κ : Kind) (sel : Labels) : Aside feed (.list κ sel) fun _ => True :=
  aside_of_unchanged (fun _ _ _ _ => list_effect) fun _ _ _ _ _ => trivial

theorem aside_listPods (sel : Labels) : Aside feed (.listPods sel) fun _ => True :=
  aside_of_unchanged (fun _ _ _ _ => listPods_effect) fun _ _ _ _ _ => trivial

theorem aside_event (e : Event) : Aside feed (.event e) fun _ => True :=
  aside_of_unchanged (fun _ _ _ _ => event_effect) fun _ _ _ _ _ => trivial

theorem aside_probe (podIP : String) : Aside feed (.probe podIP) fun _ => True :=
  aside_of_unchanged (fun _ _ _ _ => probe_effect) fun _ _ _ _ _ => trivial

theorem aside_now : Aside feed .now fun _ => True :=
  aside_of_unchanged (fun _ _ _ _ => now_effect) fun _ _ _ _ _ => trivial

theorem aside_updateStatus (fl : FeedListener) : Aside feed (.updateStatus fl) fun _ => True := by
  intro s f r s' hs ha
  rcases updateStatus_effect ha with rfl | ⟨cur, hl, -, rfl⟩
  · exact ⟨hs, rfl, rfl, trivial⟩
  · obtain ⟨hname, hd⟩ := hs.feeds _ cur hl
    exact ⟨hs.setFeed hname hd, rfl, rfl, trivial⟩

/-- A feed that is not being deleted does not go with its last finalizer. -/
theorem aside_updateFeed (fl : FeedListener) :
    Aside feed (.updateFeed fl) fun r => ∀ fl', r = .ok fl' → FeedListener.name fl' = feed := by
  intro s f r s' hs ha
  have hname : ∀ fl', r = .ok fl' → FeedListener.name fl' = feed := by
    rintro fl' rfl
    obtain ⟨cur, hl, -, rfl⟩ := updateFeed_ok ha
    exact (hs.feeds _ cur hl).1
  rcases updateFeed_effect ha with rfl | ⟨cur, hl, -, rfl | ⟨hdel, -, -⟩⟩
  · exact ⟨hs, rfl, rfl, hname⟩
  · obtain ⟨hn, hd⟩ := hs.feeds _ cur hl
    exact ⟨hs.setFeed hn hd, rfl, rfl, hname⟩
  · rw [(hs.feeds _ cur hl).2] at hdel
    cases hdel

/-- The kinds that have nothing to do with the schedule. -/
def Kind.Silent (κ : Kind) : Prop := κ ≠ .configMap ∧ κ ≠ .cronJob

theorem aside_set {κ : Kind} (hκ : κ.Silent) {name : String} {o : Obj κ} (ho : OwnedBy feed o)
    (hs : Tended feed s) : Tended feed (s.set κ name o) ∧ timerOff feed (s.set κ name o) = timerOff feed s ∧
      cronThere feed (s.set κ name o) = cronThere feed s := by
  obtain ⟨hoff, hcron⟩ := @upkeep_set_ne feed s κ name o
    (fun h => absurd h hκ.1) fun h => absurd h hκ.2
  exact ⟨hs.set ho, hoff, hcron⟩

theorem aside_create {κ : Kind} (hκ : κ.Silent) {name : String} {o : Obj κ} (ho : OwnedBy feed o) :
    Aside feed (.create κ name o) fun _ => True := by
  intro s f r s' hs ha
  rcases create_effect ha with rfl | ⟨-, rfl⟩
  · exact ⟨hs, rfl, rfl, trivial⟩
  · obtain ⟨ht, hoff, hcron⟩ := @aside_set feed s κ hκ name _ (ho.stamp s (s.revision + 1) false) hs
    exact ⟨ht, hoff, hcron, trivial⟩

theorem aside_update {κ : Kind} (hκ : κ.Silent) {name : String} {o : Obj κ} (ho : OwnedBy feed o) :
    Aside feed (.update κ name o) fun _ => True := by
  intro s f r s' hs ha
  rcases update_effect ha with rfl | ⟨uid, deleting, rfl⟩
  · exact ⟨hs, rfl, rfl, trivial⟩
  · obtain ⟨ht, hoff, hcron⟩ := @aside_set feed s κ hκ name _ (ho.stamp s uid deleting) hs
    exact ⟨ht, hoff, hcron, trivial⟩

theorem aside_delete_deployment (name : String) :
    Aside feed (.delete .deployment name false) fun _ => True := by
  intro s f r s' hs ha
  rcases delete_effect ha with rfl | ⟨-, rfl⟩ | ⟨h, -⟩
  · exact ⟨hs, rfl, rfl, trivial⟩
  · refine ⟨hs.drop .deployment name, ?_, ?_, trivial⟩
    · rw [timerOff, Cluster.lookup_drop_ne s (.inl Kind.noConfusion), timerOff]
    · rw [cronThere, Cluster.lookup_drop_ne s (.inl Kind.noConfusion), cronThere]
  · cases h

end Calls

section Programs

variable {feed : String} {F : Bool → Bool → Prop} {fl : FeedListener}

theorem upkeep_event (hF : Steady F) (fl : FeedListener) (warning : Bool)
    (reason action note : String) : Upkeep feed F (eventf fl warning reason action note) fun _ => F :=
  upkeep_aside hF (aside_event _) fun r _ => upkeep_pure (steady_after hF _ r) fun _ _ h => h.1

theorem upkeep_delete_deployment (hF : Steady F) (name : String) :
    Upkeep feed F (deleteIfExists .deployment name false) fun _ => F := by
  refine upkeep_aside hF (aside_delete_deployment name) fun r _ => ?_
  have hsteady := steady_after hF (.delete .deployment name false) r
  cases r with
  | error e =>
    dsimp only
    split_ifs with he
    · exact upkeep_pure hsteady fun _ _ h => h.1
    · exact upkeep_throw hsteady _ fun _ _ h => h.2 he
  | ok u => exact upkeep_pure hsteady fun _ _ h => h.1

/-- How a child is brought up to date, with what is known of the one that was read. -/
theorem upkeep_createOrUpdate {κ : Kind} {name : String} {mutate : Obj κ → Except Err (Obj κ)}
    {G : Bool → Bool → Prop} (K : Obj κ → Bool → Bool → Prop) (hF : Steady F) (hK : ∀ o, Steady (K o))
    (hm : ∀ old, OwnedBy feed old → ∃ o, mutate old = .ok o ∧ OwnedBy feed o)
    (hread : ∀ s o, (s.objs κ).lookup name = some o → Holds feed F s → Holds feed (K o) s)
    (hsame : ∀ old off cron, mutate old = .ok old → K old off cron → G off cron)
    (hcreate : ∀ o, OwnedBy feed o → mutate (Obj.blank κ) = .ok o →
      Upkeep feed F (request (.create κ name o)) fun _ => G)
    (hupdate : ∀ old o, OwnedBy feed o → mutate old = .ok o →
      Upkeep feed (K old) (request (.update κ name o)) fun _ => G) (hG : Steady G) :
    Upkeep feed F (createOrUpdate κ name mutate) fun _ => G := by
  have hget : Upkeep feed F (attempt (.get κ name)) fun r off cron =>
      After F (.get κ name) r off cron ∧ ∀ o : Obj κ, r = .ok o → K o off cron ∧ OwnedBy feed o := by
    refine upkeep_attempt hF ?_ ?_
    · exact fun r off cron h => ⟨steady_after hF _ r _ _ h.1, fun o ho =>
        ⟨hK o _ _ (h.2 o ho).1, (h.2 o ho).2⟩⟩
    · rintro s r s' hs hF' ⟨f, ha, hover⟩
      obtain rfl := get_effect ha
      refine ⟨hs, ⟨hF', fun hf ⟨h1, h2⟩ => hover h2 (.inl h1) hf⟩, ?_⟩
      rintro o rfl
      have hl := (get_ok ha).1
      exact ⟨hread s' o hl hF', hs.owners κ name o hl⟩
  refine hget.bind fun r => ?_
  cases r with
  | error e =>
    refine Upkeep.conseq (F := After F (.get κ name) (.error e)) ?_ (fun _ _ h => h.1) fun _ _ _ h => h
    dsimp only
    split_ifs with he
    · obtain ⟨o, ho, howner⟩ := hm (Obj.blank κ) (ownedBy_blank κ)
      rw [ho]
      refine ((hcreate o howner ho).conseq (fun _ _ h => h.1) fun _ _ _ h => h).bind fun _ => ?_
      exact upkeep_pure hG fun _ _ h => h
    · exact upkeep_throw (steady_after hF _ _) _ fun _ _ h => h.2 he
  | ok old =>
    change Obj κ at old
    refine Upkeep.conseq (F := fun off cron => K old off cron ∧ OwnedBy feed old) ?_
      (fun _ _ h => h.2 old rfl) fun _ _ _ h => h
    refine Upkeep.known fun howner => ?_
    obtain ⟨o, ho, howner'⟩ := hm old howner
    dsimp only
    rw [ho]
    show Upkeep feed (K old) (if o = old then _ else _) _
    split_ifs with heq
    · subst heq
      exact upkeep_pure (hK o) fun _ _ h => hsame o _ _ ho h
    · exact (hupdate old o howner' ho).bind fun _ => upkeep_pure hG fun _ _ h => h

/-- A child that has nothing to do with the schedule. -/
theorem upkeep_child (hF : Steady F) {κ : Kind} (hκ : κ.Silent) {name : String}
    {mutate : Obj κ → Except Err (Obj κ)}
    (hm : ∀ old, OwnedBy feed old → ∃ o, mutate old = .ok o ∧ OwnedBy feed o) :
    Upkeep feed F (createOrUpdate κ name mutate) fun _ => F := by
  refine upkeep_createOrUpdate (fun _ => F) hF (fun _ => hF) hm (fun _ _ _ h => h) (fun _ _ _ _ h => h)
    ?_ ?_ hF
  · intro o ho _
    exact (upkeep_request_aside hF (aside_create hκ ho) fun _ => trivial).conseq (fun _ _ h => h)
      fun _ _ _ h => h.1
  · intro old o ho _
    exact (upkeep_request_aside hF (aside_update hκ ho) fun _ => trivial).conseq (fun _ _ h => h)
      fun _ _ _ h => h.1

/-- A write that is answered stores the object; one that fails may have done so. -/
theorem create_stores {κ : Kind} {name : String} {o : Obj κ} {s s' : Cluster} {f : Fate}
    {r : Answer (.create κ name o)} (h : s.answer f (.create κ name o) = (r, s')) :
    (s' = s ∧ ∃ e, r = .error e) ∨
      ∃ uid deleting, s' = s.set κ name (o.withMetadata (s.stamp o.metadata uid deleting)) := by
  cases r with
  | error e =>
    rcases create_effect h with rfl | ⟨-, rfl⟩
    · exact .inl ⟨rfl, e, rfl⟩
    · exact .inr ⟨_, _, rfl⟩
  | ok o' => exact .inr ⟨_, _, create_stored h⟩

theorem update_stores {κ : Kind} {name : String} {o : Obj κ} {s s' : Cluster} {f : Fate}
    {r : Answer (.update κ name o)} (h : s.answer f (.update κ name o) = (r, s')) :
    (s' = s ∧ ∃ e, r = .error e) ∨
      ∃ uid deleting, s' = s.set κ name (o.withMetadata (s.stamp o.metadata uid deleting)) := by
  cases r with
  | error e =>
    rcases update_effect h with rfl | ⟨uid, deleting, rfl⟩
    · exact .inl ⟨rfl, e, rfl⟩
    · exact .inr ⟨_, _, rfl⟩
  | ok o' => exact .inr (update_stored h)

/-- The ConfigMap of a spec leaves the schedule to a CronJob if the spec has one. -/
theorem saysOff_mutateConfigMap {cm o : Obj .configMap} (h : mutateConfigMap fl cm = .ok o) :
    saysOff o = (maintenanceSchedule fl.spec).2 := by
  have hdata : ConfigMap.data o = buildConfigData fl.spec := by
    rw [owned_ok h]
    rfl
  have hlookup : (buildConfigData fl.spec).lookup periodicKey =
      some (formatBool !(maintenanceSchedule fl.spec).2) := rfl
  rw [saysOff, hdata, hlookup]
  cases (maintenanceSchedule fl.spec).2 <;> decide

/-- The timer is on, unless the spec has a schedule. -/
def TimerFits (fl : FeedListener) (off _cron : Bool) : Prop :=
  (maintenanceSchedule fl.spec).2 = true ∨ off = false

theorem steady_timerFits (fl : FeedListener) : Steady (TimerFits fl) := fun _ _ _ => .inr rfl

/-- A write of the ConfigMap: if it switches the timer off and fails, a CronJob was there. -/
theorem upkeep_write_configMap {c : Call} {b : Bool} (hfails : ∀ e, c.Fails (.error e))
    (hoff : b = true → SwitchesOff fl.name c)
    (heffect : ∀ (s : Cluster) (f : Fate) r s', s.answer f c = (r, s') →
      (s' = s ∧ ∃ e, r = .error e) ∨
      ∃ cm, s' = s.set .configMap (configMapName fl.name) cm ∧ OwnedBy fl.name cm ∧ saysOff cm = b)
    (hb : b = (maintenanceSchedule fl.spec).2) :
    Upkeep fl.name Cared (request c) fun _ => TimerFits fl := by
  have hattempt : Upkeep fl.name Cared (attempt c) fun r off cron =>
      (∀ e, r = .error e → Cared off cron) ∧ ∀ a, r = .ok a → TimerFits fl off cron := by
    refine upkeep_attempt steady_cared ?_ ?_
    · exact fun r off cron h => ⟨fun e he => steady_cared _ _ (h.1 e he), fun _ _ => .inr rfl⟩
    · rintro s r s' hs hcared ⟨f, ha, hover⟩
      rcases heffect s f r s' ha with ⟨rfl, e, rfl⟩ | ⟨cm, rfl, howner, hcm⟩
      · exact ⟨hs, fun _ _ => hcared, fun a h => by cases h⟩
      · obtain ⟨ht, hc⟩ := @upkeep_set_configMap fl.name s cm
        refine ⟨hs.set howner, ?_⟩
        unfold Holds
        rw [ht, hc, hcm]
        refine ⟨?_, ?_⟩
        · rintro e rfl ⟨hb', hcron⟩
          exact hover hcron (.inr (hoff hb')) (hfails e)
        · intro a _
          cases b with
          | true => exact .inl hb.symm
          | false => exact .inr rfl
  refine hattempt.bind fun r => ?_
  cases r with
  | error e =>
    refine Upkeep.conseq (F := Cared) ?_ (fun _ _ h => h.1 e rfl) fun _ _ _ h => h
    exact upkeep_throw steady_cared _ fun _ _ h => h
  | ok a =>
    refine Upkeep.conseq (F := TimerFits fl) ?_ (fun _ _ h => h.2 a rfl) fun _ _ _ h => h
    exact upkeep_pure (steady_timerFits fl) fun _ _ h => h

theorem upkeep_reconcileConfigMap (sha256 : List UInt8 → List UInt8) (fl : FeedListener) :
    Upkeep fl.name Cared (reconcileConfigMap sha256 fl) fun _ => TimerFits fl := by
  have hcm : Upkeep fl.name Cared
      (createOrUpdate .configMap (configMapName fl.name) (mutateConfigMap fl)) fun _ => TimerFits fl := by
    refine upkeep_createOrUpdate (fun o off cron => Cared off cron ∧ (off = saysOff o ∨ off = false))
      steady_cared (fun o off cron h => ⟨steady_cared _ _ h.1, .inr rfl⟩)
      (fun old hold => owned_of_ownedBy hold) ?_ ?_ ?_ ?_ (steady_timerFits fl)
    · exact fun s o hl h => ⟨h, .inl (timerOff_of_lookup hl)⟩
    · rintro old off cron hsame ⟨-, hoff⟩
      rw [saysOff_mutateConfigMap hsame] at hoff
      cases hsched : (maintenanceSchedule fl.spec).2 with
      | true => exact .inl hsched
      | false => exact .inr (hoff.elim (fun h => h.trans hsched) id)
    · intro o ho hm
      refine upkeep_write_configMap (fun _ => trivial) (fun h => ⟨rfl, h⟩) ?_ (saysOff_mutateConfigMap hm)
      intro s f r s' ha
      refine (create_stores ha).imp id ?_
      rintro ⟨uid, deleting, rfl⟩
      exact ⟨_, rfl, ho.stamp s uid deleting, rfl⟩
    · intro old o ho hm
      refine Upkeep.conseq (F := Cared) ?_ (fun _ _ h => h.1) fun _ _ _ h => h
      refine upkeep_write_configMap (fun _ => trivial) (fun h => ⟨rfl, h⟩) ?_ (saysOff_mutateConfigMap hm)
      intro s f r s' ha
      refine (update_stores ha).imp id ?_
      rintro ⟨uid, deleting, rfl⟩
      exact ⟨_, rfl, ho.stamp s uid deleting, rfl⟩
  exact hcm.bind fun _ => upkeep_pure (steady_timerFits fl) fun _ _ h => h

theorem upkeep_reconcileService (hF : Steady F) :
    Upkeep fl.name F (reconcileService fl) fun _ => F :=
  upkeep_child hF ⟨Kind.noConfusion, Kind.noConfusion⟩ fun _ hold => owned_of_ownedBy hold

theorem upkeep_updateShards (hF : Steady F) (configHash : String) (shards : List ℕ) :
    Upkeep fl.name F (updateShards fl configHash shards) fun _ => F := by
  induction shards with
  | nil => exact upkeep_pure hF fun _ _ h => h
  | cons k shards ih =>
    have hshard : Upkeep fl.name F (createOrUpdate .deployment (shardDeploymentName fl.name k)
        (mutateDeployment fl k configHash)) fun _ => F :=
      upkeep_child hF ⟨Kind.noConfusion, Kind.noConfusion⟩ fun _ hold => owned_of_ownedBy hold
    exact (hshard.wrapping (fun _ => hF) _).bind fun _ => ih

theorem upkeep_pruneAll (hF : Steady F) (deployments : List (String × Obj .deployment)) :
    Upkeep fl.name F (pruneAll fl deployments) fun _ => F := by
  induction deployments with
  | nil => exact upkeep_pure hF fun _ _ h => h
  | cons p deployments ih =>
    unfold pruneAll
    split
    · exact ih
    · split_ifs
      · exact ih
      · refine ((upkeep_delete_deployment hF _).wrapping (fun _ => hF) _).bind fun _ => ?_
        exact (upkeep_event hF _ _ _ _ _).bind fun _ => ih

theorem upkeep_reconcileShards (hF : Steady F) (configHash : String) :
    Upkeep fl.name F (reconcileShards fl configHash) fun _ => F := by
  refine (upkeep_updateShards hF configHash _).bind fun _ => ?_
  have hlist := upkeep_request_aside hF (@aside_list fl.name .deployment (selectorLabels fl.name))
    fun _ => trivial
  refine (Upkeep.wrapping (fun _ _ _ h => ⟨hF _ _ h.1, trivial⟩) hlist _).bind fun deployments => ?_
  exact (upkeep_pruneAll hF deployments).conseq (fun _ _ h => h.1) fun _ _ _ h => h

/-- The CronJob is there, or the timer is on. -/
theorem upkeep_write_cronJob {c : Call} (hF : Steady F) (hfails : ∀ e, c.Fails (.error e))
    (heffect : ∀ (s : Cluster) (f : Fate) r s', s.answer f c = (r, s') →
      (s' = s ∧ ∃ e, r = .error e) ∨
      ∃ o, s' = s.set .cronJob (maintenanceCronJobName feed) o ∧ OwnedBy feed o) :
    Upkeep feed F (request c) fun _ => Cared := by
  have hattempt : Upkeep feed F (attempt c) fun _ => Cared := by
    refine upkeep_attempt hF (fun _ => steady_cared) ?_
    rintro s r s' hs - ⟨f, ha, hover⟩
    rcases heffect s f r s' ha with ⟨rfl, e, rfl⟩ | ⟨o, rfl, howner⟩
    · exact ⟨hs, fun ⟨hoff, hcron⟩ => hover hcron (.inl hoff) (hfails e)⟩
    · refine ⟨hs.set howner, fun ⟨_, hcron⟩ => ?_⟩
      rw [(upkeep_set_cronJob o).2] at hcron
      cases hcron
  refine hattempt.bind fun r => ?_
  cases r with
  | error e => exact upkeep_throw steady_cared _ fun _ _ h => h
  | ok a => exact upkeep_pure steady_cared fun _ _ h => h

theorem upkeep_createCronJob (fl : FeedListener) :
    Upkeep fl.name (fun _ _ => True)
      (createOrUpdate .cronJob (maintenanceCronJobName fl.name) (mutateCronJob fl)) fun _ => Cared := by
  refine upkeep_createOrUpdate (fun _ _ cron => cron = true) (fun _ _ _ => trivial)
    (fun _ _ _ h => h) (fun old hold => owned_of_ownedBy hold) ?_ ?_ ?_ ?_ steady_cared
  · exact fun s o hl _ => cronThere_of_lookup hl
  · rintro old off cron - rfl ⟨-, h⟩
    cases h
  · intro o ho _
    refine upkeep_write_cronJob (fun _ _ _ => trivial) (fun _ => trivial) ?_
    intro s f r s' ha
    refine (create_stores ha).imp id ?_
    rintro ⟨uid, deleting, rfl⟩
    exact ⟨_, rfl, ho.stamp s uid deleting⟩
  · intro old o ho _
    refine upkeep_write_cronJob (fun _ _ h => h) (fun _ => trivial) ?_
    intro s f r s' ha
    refine (update_stores ha).imp id ?_
    rintro ⟨uid, deleting, rfl⟩
    exact ⟨_, rfl, ho.stamp s uid deleting⟩

/-- The CronJob goes only while the timer is on. -/
theorem upkeep_deleteCronJob :
    Upkeep feed (fun off _ => off = false)
      (deleteIfExists .cronJob (maintenanceCronJobName feed) false) fun _ => Cared := by
  have hsteady : Steady fun off _ : Bool => off = false := fun _ _ _ => rfl
  have hcared : ∀ off cron : Bool, off = false → Cared off cron := by
    rintro off cron rfl ⟨h, -⟩
    cases h
  have hattempt : Upkeep feed (fun off _ => off = false)
      (attempt (.delete .cronJob (maintenanceCronJobName feed) false)) fun _ off _ => off = false := by
    refine upkeep_attempt hsteady (fun _ => hsteady) ?_
    rintro s r s' hs hoff ⟨f, ha, -⟩
    rcases delete_effect ha with rfl | ⟨-, rfl⟩ | ⟨h, -⟩
    · exact ⟨hs, hoff⟩
    · refine ⟨hs.drop .cronJob _, ?_⟩
      unfold Holds at hoff ⊢
      rw [timerOff, Cluster.lookup_drop_ne s (.inl Kind.noConfusion)]
      exact hoff
    · cases h
  refine hattempt.bind fun r => ?_
  cases r with
  | error e =>
    dsimp only
    split_ifs
    · exact upkeep_pure hsteady hcared
    · exact upkeep_throw hsteady _ hcared
  | ok u => exact upkeep_pure hsteady hcared

theorem upkeep_reconcileMaintenance (fl : FeedListener) :
    Upkeep fl.name (TimerFits fl) (reconcileMaintenance fl) fun _ => Cared := by
  unfold reconcileMaintenance
  split_ifs with hsched
  · exact ((upkeep_createCronJob fl).wrapping (fun _ => steady_cared) _).conseq (fun _ _ _ => trivial)
      fun _ _ _ h => h
  · exact (upkeep_deleteCronJob.wrapping (fun _ => steady_cared) _).conseq
      (fun _ _ h => h.resolve_left hsched) fun _ _ _ h => h

theorem upkeep_tallyPods (hF : Steady F) (t : PodTally) (pods : List Pod) :
    Upkeep feed F (tallyPods fl t pods) fun _ => F := by
  have hafter : ∀ {c : Call} {r : Answer c} {p : Reconciler PodTally}, Upkeep feed F p (fun _ => F) →
      Upkeep feed (After F c r) p fun _ => F :=
    fun h => h.conseq (fun _ _ h => h.1) fun _ _ _ h => h
  induction pods generalizing t with
  | nil => exact upkeep_pure hF fun _ _ h => h
  | cons pod pods ih =>
    unfold tallyPods
    split_ifs
    · exact ih t
    · refine upkeep_aside hF (aside_probe _) fun r _ => hafter ?_
      cases r with
      | error e => exact ih _
      | ok status =>
        dsimp only
        split
        · exact ih _
        · exact upkeep_aside hF aside_now fun _ _ => hafter (ih _)

theorem upkeep_observeIndexMaintenance (hF : Steady F) :
    Upkeep feed F (observeIndexMaintenance fl) fun _ => F := by
  unfold observeIndexMaintenance
  split_ifs
  · refine upkeep_aside hF (aside_get _ _) fun r _ => ?_
    have hsteady := steady_after hF _ r
    cases r with
    | error e => exact upkeep_pure hsteady fun _ _ h => h.1
    | ok c => exact upkeep_pure hsteady fun _ _ h => h.1
  · exact upkeep_pure hF fun _ _ h => h

theorem upkeep_reconcileStatus (fl : FeedListener) :
    Upkeep feed Cared (reconcileStatus fl) fun _ => Cared := by
  have hwrap : ∀ {c : Call} {context : String}, Aside feed c (fun _ => True) → (∀ e, c.Fails (.error e)) →
      Upkeep feed Cared (wrapping context (request c)) fun _ => Cared := fun hc hfails =>
    ((upkeep_request_aside steady_cared hc hfails).conseq (fun _ _ h => h) fun _ _ _ h => h.1).wrapping
      (fun _ => steady_cared) _
  refine (hwrap (aside_listPods _) fun _ => trivial).bind fun pods => ?_
  refine (upkeep_tallyPods steady_cared _ pods).bind fun t => ?_
  refine (upkeep_observeIndexMaintenance steady_cared).bind fun fl' => ?_
  exact (hwrap (aside_updateStatus _) fun _ => trivial).bind fun _ => upkeep_pure steady_cared fun _ _ h => h

theorem upkeep_failed {α : Type} {G : α → Bool → Bool → Prop} (reason : String) (e : Err) :
    Upkeep feed Cared (failed fl reason e : Reconciler α) G := by
  refine (upkeep_event steady_cared _ _ _ _ _).bind fun _ => ?_
  exact upkeep_aside steady_cared (aside_updateStatus _) fun r _ =>
    upkeep_throw (steady_after steady_cared _ r) e fun _ _ h => h.1

theorem upkeep_reconcileChildren (sha256 : List UInt8 → List UInt8) (fl : FeedListener) :
    Upkeep fl.name Cared (reconcileChildren sha256 fl) fun _ => Cared := by
  have hfits := steady_timerFits fl
  refine ((upkeep_reconcileConfigMap sha256 fl).tryCatch (fun _ => hfits) (upkeep_failed _)).bind
    fun configHash => ?_
  refine ((upkeep_reconcileService hfits).tryCatch (fun _ => hfits) (upkeep_failed _)).bind fun _ => ?_
  refine ((upkeep_reconcileShards hfits configHash).tryCatch (fun _ => hfits) (upkeep_failed _)).bind
    fun _ => ?_
  refine ((upkeep_reconcileMaintenance fl).tryCatch (fun _ => steady_cared) (upkeep_failed _)).bind
    fun _ => ?_
  exact upkeep_reconcileStatus fl

theorem upkeep_registerFinalizer (fl : FeedListener) (h : fl.name = feed) :
    Upkeep feed Cared (registerFinalizer fl) fun fl' off cron => Cared off cron ∧ fl'.name = feed := by
  unfold registerFinalizer
  split_ifs
  · exact upkeep_pure steady_cared fun _ _ hc => ⟨hc, h⟩
  · refine Upkeep.wrapping (fun _ _ _ h => ⟨steady_cared _ _ h.1, h.2⟩) ?_ _
    exact (upkeep_request_aside steady_cared (aside_updateFeed _) fun _ => trivial).conseq
      (fun _ _ h => h) fun fl' _ _ h => ⟨h.1, h.2 fl' rfl⟩

/-- A reconcile ends with someone caring for the indexes, whatever it ends in. -/
theorem upkeep_reconcile (sha256 : List UInt8 → List UInt8) (feed : String) :
    Upkeep feed Cared (reconcile sha256 feed) fun _ => Cared := by
  refine upkeep_aside steady_cared (aside_getFeed feed) fun r hr => ?_
  have hsteady := steady_after steady_cared _ r
  cases r with
  | error e =>
    dsimp only
    split_ifs
    · exact upkeep_pure hsteady fun _ _ h => h.1
    · exact upkeep_throw hsteady _ fun _ _ h => h.1
  | ok fl =>
    change FeedListener at fl
    obtain ⟨hname, hd⟩ := hr fl rfl
    dsimp only
    rw [hd, if_neg Bool.false_ne_true]
    refine ((upkeep_registerFinalizer fl hname).conseq (fun _ _ h => h.1) fun _ _ _ h => h).bind
      fun fl' => ?_
    refine Upkeep.known ?_
    rintro rfl
    exact upkeep_reconcileChildren sha256 fl'

end Programs

/-! Whole runs. -/

section Runs

open Relation

variable {sha256 : List UInt8 → List UInt8} {feed : String} {w w' : World}

/-- The rest of the worker's program leaves someone caring for the indexes. -/
def Upkept (feed : String) (w : World) : Prop :=
  Tended feed w.cluster ∧
    w.worker.wp (UpkeepExec feed) (UpkeepEnv feed) (Tended feed) (Concludes feed fun _ => Cared) w.cluster

/-- An idle worker leaves nothing to be done. -/
theorem upkept_idle {s : Cluster} (log : List LogEntry) (r : Except Err Requeue) (hs : Tended feed s)
    (h : Holds feed Cared s) : Upkept feed ⟨s, log, .pure r⟩ := by
  refine ⟨hs, fun s₁ he _ => ?_⟩
  have hcared := steady_cared.star hs h he
  cases r with
  | error e => exact hcared
  | ok a => exact hcared

theorem Upkept.cared (h : Upkept feed w) {r : Except Err Requeue} (hw : w.worker = .pure r) :
    Holds feed Cared w.cluster := by
  obtain ⟨hs, hwp⟩ := h
  rw [hw] at hwp
  have hres := hwp w.cluster .refl hs
  cases r with
  | error e => exact hres
  | ok a => exact hres

theorem Upkept.step {a : Action} (h : Upkept feed w) (hscope : InScope feed a)
    (hok : Uninterrupted feed w a) (hstep : w.step sha256 feed a = some w') : Upkept feed w' := by
  rcases step_cases hstep with ⟨rfl, ⟨r, hr⟩, rfl⟩ | ⟨f, c, k, r, s, rfl, hc, ha, rfl⟩ | ⟨rfl, rfl⟩ |
    ⟨e, s, rfl, he, rfl⟩
  · exact ⟨h.1, upkeep_reconcile sha256 feed w.cluster h.1 (h.cared hr)⟩
  · obtain ⟨hs, hwp⟩ := h
    unfold Uninterrupted at hok
    rw [hc] at hwp
    simp only [hc, ha] at hok
    exact hwp w.cluster .refl hs r s ⟨f, ha, hok⟩
  · exact upkept_idle w.log _ h.1 hok
  · have henv : UpkeepEnv feed w.cluster s := ⟨e, hscope, he⟩
    exact ⟨tended_env h.1 henv, wp_env h.2 (.single henv)⟩

theorem Upkept.reaches
    (hw : World.initial.Reaches sha256 feed (fun w a => InScope feed a ∧ Uninterrupted feed w a) w) :
    Upkept feed w := by
  have hcared : Holds feed Cared World.initial.cluster := fun ⟨h, _⟩ => by cases h
  induction hw with
  | refl => exact upkept_idle [] _ tended_initial hcared
  | step a _ hok hstep ih => exact ih.step hok.1 hok.2 hstep

/-- Index upkeep has an owner whenever the worker is idle, if no call fails and the operator does
not die between the write that switches the consumers' timer off and the creation of the CronJob. -/
theorem index_upkeep_owned
    (hw : World.initial.Reaches sha256 feed (fun w a => InScope feed a ∧ Uninterrupted feed w a) w)
    (hidle : ∃ r, w.worker = .pure r) : ¬ Orphaned feed w.cluster := by
  obtain ⟨r, hr⟩ := hidle
  exact (Upkept.reaches hw).cared hr

end Runs

section Eddn

/-- Answers that do not end a reconcile. -/
def Call.passes : (c : Call) → Answer c → Bool
  | .get _ _, .error e | .delete _ _ _, .error e => decide (e.reason = .notFound)
  | .event _, _ => true
  | _, .error _ => false
  | _, .ok _ => true

theorem not_fails_of_passes {c : Call} {r : Answer c} (h : c.passes r = true) : ¬ c.Fails r := by
  cases c <;> cases r <;> first | exact fun hf => hf (of_decide_eq_true h) | exact fun hf => hf | cases h

/-- Users create and edit the feed, and the worker works. -/
def plain : Action → Bool
  | .cluster (.createFeed _) | .cluster (.editSpec _) | .reconcile | .call _ => true
  | _ => false

theorem inScope_of_plain {feed : String} {a : Action} (h : plain a = true) : InScope feed a := by
  cases a with
  | reconcile | call f => trivial
  | crash => cases h
  | cluster e =>
    cases e with
    | createFeed spec | editSpec spec => exact ⟨nofun, nofun⟩
    | _ => cases h

/-- Such steps, clear of every failure. -/
def smooth (w : World) (a : Action) : Bool :=
  plain a && match a, w.worker with
    | .call f, .call c _ => c.passes (w.cluster.answer f c).1
    | _, _ => true

theorem uninterrupted_of_smooth {feed : String} (w : World) (a : Action) (h : smooth w a = true) :
    InScope feed a ∧ Uninterrupted feed w a := by
  unfold smooth at h
  obtain ⟨hplain, hpass⟩ := Bool.and_eq_true_iff.mp h
  refine ⟨inScope_of_plain hplain, ?_⟩
  unfold Uninterrupted
  cases a with
  | reconcile | cluster e => trivial
  | crash => cases hplain
  | call f =>
    cases hw : w.worker with
    | pure r => trivial
    | call c k =>
      rw [hw] at hpass
      exact fun _ _ => not_fails_of_passes hpass

instance (feed : String) (s : Cluster) : Decidable (Orphaned feed s) := inferInstanceAs (Decidable (_ ∧ _))

def World.idle (w : World) : Bool :=
  match w.worker with
  | .pure _ => true
  | .call _ _ => false

theorem idle_spec {w : World} (h : w.idle = true) : ∃ r, w.worker = .pure r := by
  unfold World.idle at h
  split at h
  · exact ⟨_, ‹_›⟩
  · cases h

/-- The sample feed, from its creation to the end of the first reconcile: the timer is off, and
the CronJob is there. -/
theorem index_upkeep_owned_eddn :
    ∃ w, World.initial.runIf eddnDigest "eddn" smooth
        ([.cluster (.createFeed (eddnSpec 1)), .reconcile] ++ served 14) = some w ∧
      timerOff "eddn" w.cluster = true ∧ ¬ Orphaned "eddn" w.cluster := by
  have h : ((World.initial.runIf eddnDigest "eddn" smooth
      ([.cluster (.createFeed (eddnSpec 1)), .reconcile] ++ served 14)).map fun w =>
        w.idle && timerOff "eddn" w.cluster) = some true := by
    decide +kernel
  obtain ⟨w, hw, h⟩ := Option.map_eq_some_iff.mp h
  obtain ⟨hidle, hoff⟩ := Bool.and_eq_true_iff.mp h
  exact ⟨w, hw, hoff, index_upkeep_owned (reaches_runIf uninterrupted_of_smooth .refl hw) (idle_spec hidle)⟩

/-- The API server rejects the CronJob, say for its schedule: the reconcile stops, with the timer
switched off and no CronJob there. -/
theorem index_upkeep_orphaned :
    ¬ ∀ w, World.initial.Reaches eddnDigest "eddn" (fun _ a => InScope "eddn" a) w →
      (∃ r, w.worker = .pure r) → ¬ Orphaned "eddn" w.cluster := by
  have h : ((World.initial.runIf eddnDigest "eddn" (fun _ => plain)
      ([.cluster (.createFeed (eddnSpec 1)), .reconcile] ++ served 10 ++
        [.call ⟨some ("CronJob.batch \"eddn-rebuild\" is invalid", false), .error "", 0⟩] ++ served 2)).map
      fun w => w.idle && decide (Orphaned "eddn" w.cluster)) = some true := by
    decide +kernel
  obtain ⟨w, hw, h⟩ := Option.map_eq_some_iff.mp h
  obtain ⟨hidle, horphaned⟩ := Bool.and_eq_true_iff.mp h
  intro hclaim
  exact hclaim w (reaches_runIf (fun _ _ => inScope_of_plain) .refl hw) (idle_spec hidle)
    (of_decide_eq_true horphaned)

end Eddn

end EliteEvents

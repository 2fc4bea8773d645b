import EliteEvents.Proofs.Calls

/-! The calls of a reconcile, whatever the answers: each writes only what belongs in the
namespace, and only the teardown touches the drain Job or gives up the finalizer. So the namespace
stays labelled along every run. -/

namespace EliteEvents

/-- Every call satisfies `P`, and the result satisfies `Q` if it is no error. -/
def Obedient {α : Type} (feed : String) (P : Call → Prop) (p : Reconciler α) (Q : α → Prop) : Prop :=
  Prog.Obeys P (Truthful feed) (α := Except Err α) p fun r => ∀ a, r = .ok a → Q a

/-- Calls that neither create a Job nor give up the finalizer. -/
def Peaceful : Call → Prop
  | .create κ _ _ => κ ≠ .job
  | .updateFeed fl => feedListenerFinalizer ∈ fl.finalizers
  | _ => True

/-- The calls of a reconcile of a feed that is not being deleted. -/
def Orderly (feed : String) (c : Call) : Prop := Lawful feed c ∧ Peaceful c

theorem owned_ok {κ : Kind} {fl : FeedListener} {o o' : Obj κ} (h : owned κ fl o = .ok o') :
    o' = o.withMetadata { o.metadata with owner := some ⟨fl.name, fl.uid⟩ } := by
  unfold owned setControllerReference at h
  split at h
  · cases h
    rfl
  · split_ifs at h
    · cases h
      rfl
    · cases h

theorem mutateDeployment_ok {fl : FeedListener} {k : ℕ} {configHash : String} {d : Deployment}
    {o : Obj .deployment} (h : mutateDeployment fl k configHash d = .ok o) :
    o = ({ buildShardDeployment fl k configHash with
            metadata := { relabel d.metadata (shardLabels fl.name k) with
                          owner := some ⟨fl.name, fl.uid⟩ }
            selector := if d.selector = none then some (shardSelectorLabels fl.name k) else d.selector } :
          Deployment) := owned_ok h

theorem mutateCronJob_ok {fl : FeedListener} {c : CronJob} {o : Obj .cronJob}
    (h : mutateCronJob fl c = .ok o) :
    o = ({ buildMaintenanceCronJob fl with
            metadata := { relabel c.metadata (maintenanceLabels fl.name) with
                          owner := some ⟨fl.name, fl.uid⟩ }
            lastSuccessfulTime := c.lastSuccessfulTime } : CronJob) := owned_ok h

/-- What a mutated Deployment looks like, from scratch or from the shard's own. -/
theorem mutateDeployment_isShard {fl : FeedListener} {k : ℕ} (hk : k < 2 ^ 31) {configHash : String}
    {d : Deployment} {o : Obj .deployment} (h : mutateDeployment fl k configHash d = .ok o)
    (hd : d.selector = none ∨ IsShard fl.name (shardDeploymentName fl.name k) d) :
    IsShard fl.name (shardDeploymentName fl.name k) o := by
  rw [mutateDeployment_ok h]
  refine ⟨fl, k, configHash, rfl, hk, rfl, rfl, ?_, rfl, rfl⟩
  rcases hd with hd | ⟨-, k', -, -, -, hname, -, hs, -, -⟩
  · rw [if_pos hd]
  · have hkk := shardDeploymentName_injective fl.name hname
    subst hkk
    rw [hs, if_neg (Option.some_ne_none _)]

theorem mutateCronJob_isRebuild {fl : FeedListener} {c : CronJob} {o : Obj .cronJob}
    (h : mutateCronJob fl c = .ok o) : IsRebuild fl.name (maintenanceCronJobName fl.name) o := by
  refine ⟨rfl, fl, rfl, ?_⟩
  rw [mutateCronJob_ok h]

/-- A child is written as expected, from scratch or over one that was. -/
theorem Child.expected {fl : FeedListener} {κ : Kind} {name : String} {mutate : Obj κ → Except Err (Obj κ)}
    (h : Child fl κ name mutate) {old o : Obj κ} (ho : mutate old = .ok o)
    (hold : old = Obj.blank κ ∨ Expected fl.name κ name old) : Expected fl.name κ name o := by
  cases h with
  | configMap | service => trivial
  | shard k configHash hk =>
    refine mutateDeployment_isShard (hk.trans (shards_lt fl.spec)) ho (hold.imp ?_ id)
    rintro rfl
    rfl
  | cronJob => exact mutateCronJob_isRebuild ho

theorem Child.ne_job {fl : FeedListener} {κ : Kind} {name : String} {mutate : Obj κ → Except Err (Obj κ)}
    (h : Child fl κ name mutate) : κ ≠ .job := by
  cases h <;> exact Kind.noConfusion

theorem orderly_of_reconcileCall {fl : FeedListener} {c : Call}
    (h : ReconcileCall (Truthful fl.name) fl c) : Orderly fl.name c := by
  cases h with
  | create h ho => exact ⟨h.expected ho (.inl rfl), h.ne_job⟩
  | update h hold ho => exact ⟨h.expected ho (.inr hold), trivial⟩
  | status st => exact ⟨rfl, trivial⟩
  | _ => exact ⟨trivial, trivial⟩

theorem reconcileChildren_orderly (sha256 : List UInt8 → List UInt8) {fl : FeedListener} :
    Obedient fl.name (Orderly fl.name) (reconcileChildren sha256 fl) fun _ => True :=
  (reconcileChildren_calls sha256).weaken (fun _ => orderly_of_reconcileCall) fun _ h => h

theorem registerFinalizer_orderly {fl : FeedListener} :
    Obedient fl.name (Orderly fl.name) (registerFinalizer fl) fun fl' => fl'.name = fl.name := by
  refine (registerFinalizer_calls ⟨rfl, List.mem_append_right _ List.mem_cons_self⟩).weaken
    (fun _ h => h) fun fl' h => ?_
  rcases h with rfl | h
  · rfl
  · exact h

theorem drainJob_isOneShot (fl : FeedListener) : IsOneShot fl.name (drainJobName fl.name) (drainJob fl) :=
  .inl ⟨rfl, rfl, rfl⟩

theorem lawful_of_finalizeCall {T : (c : Call) → Answer c → Prop} {feed : String} {c : Call}
    (h : FinalizeCall T feed c) : Lawful feed c := by
  cases h with
  | stop h => cases h <;> trivial
  | createDrain fl hname =>
    subst hname
    exact drainJob_isOneShot fl
  | terminating fl hname | release fl hname => exact hname
  | getDrain | event e => trivial

/-- Every call of a reconcile is lawful. -/
theorem reconcile_lawful (sha256 : List UInt8 → List UInt8) (feed : String) :
    Obedient feed (Lawful feed) (reconcile sha256 feed) fun _ => True := by
  have horderly : ∀ c, Orderly feed c → Lawful feed c := fun c h => h.1
  refine Prog.ObeysOk.bind (obeys_attempt trivial) fun r hr => ?_
  cases r with
  | error e =>
    dsimp only
    split_ifs
    · exact Prog.obeysOk_pure trivial
    · exact Prog.obeysOk_throw _
  | ok fl =>
    change FeedListener at fl
    obtain rfl : fl.name = feed := hr
    dsimp only
    split_ifs
    · exact (finalize_calls fun _ _ _ h => h).weaken (fun _ => lawful_of_finalizeCall) fun _ h => h
    · refine Prog.ObeysOk.bind (Prog.ObeysOk.weaken registerFinalizer_orderly horderly fun _ h => h)
        fun fl' hname => ?_
      rw [← hname] at horderly ⊢
      exact Prog.ObeysOk.weaken (reconcileChildren_orderly sha256) horderly fun _ h => h

/-! Whole runs. -/

section Runs

variable {sha256 : List UInt8 → List UInt8} {feed : String} {w w' : World}

/-- The namespace is labelled, and the rest of the worker's program is lawful. -/
def Sound (feed : String) (w : World) : Prop :=
  Labelled feed w.cluster ∧ w.worker.Obeys (Lawful feed) (Truthful feed) fun _ => True

theorem sound_initial (feed : String) : Sound feed World.initial := ⟨labelled_initial feed, trivial⟩

/-- What a step of the world can be. -/
theorem step_cases {a : Action} (h : w.step sha256 feed a = some w') :
    (a = .reconcile ∧ (∃ r, w.worker = .pure r) ∧
      w' = ⟨w.cluster, w.log, reconcile sha256 feed⟩) ∨
    (∃ f c k r s, a = .call f ∧ w.worker = .call c k ∧ w.cluster.answer f c = (r, s) ∧
      w' = ⟨s, ⟨c, r, w.cluster⟩ :: w.log, k r⟩) ∨
    (a = .crash ∧ w' = ⟨w.cluster, w.log, .pure (.ok none)⟩) ∨
    (∃ e s, a = .cluster e ∧ e.apply feed w.cluster = some s ∧ w' = ⟨s, w.log, w.worker⟩) := by
  cases a with
  | reconcile =>
    simp only [World.step] at h
    split at h
    · cases h
      exact .inl ⟨rfl, ⟨_, ‹_›⟩, rfl⟩
    · cases h
  | call f =>
    simp only [World.step] at h
    split at h
    · cases h
    · cases h
      exact .inr (.inl ⟨f, _, _, _, _, rfl, ‹_›, rfl, rfl⟩)
  | crash =>
    cases h
    exact .inr (.inr (.inl ⟨rfl, rfl⟩))
  | cluster e =>
    obtain ⟨s, hs, rfl⟩ := Option.map_eq_some_iff.mp h
    exact .inr (.inr (.inr ⟨e, s, rfl, hs, rfl⟩))

theorem Sound.step {a : Action} (h : Sound feed w) (hs : w.step sha256 feed a = some w') :
    Sound feed w' := by
  obtain ⟨hl, hw⟩ := h
  rcases step_cases hs with ⟨-, -, rfl⟩ | ⟨f, c, k, r, s, -, hc, ha, rfl⟩ | ⟨-, rfl⟩ |
    ⟨e, s, -, he, rfl⟩
  · exact ⟨hl, Prog.Obeys.weaken (reconcile_lawful sha256 feed) (fun _ h => h) fun _ _ => trivial⟩
  · rw [hc] at hw
    obtain ⟨hl', hr⟩ := hl.answer hw.1 ha
    exact ⟨hl', hw.2 r hr⟩
  · exact ⟨hl, trivial⟩
  · exact ⟨hl.apply he, hw⟩

theorem Sound.reaches {ok : World → Action → Prop} (h : Sound feed w)
    (hr : w.Reaches sha256 feed ok w') : Sound feed w' := by
  induction hr with
  | refl => exact h
  | step a _ _ hs ih => exact ih.step hs

/-- A scripted run, if the condition asks nothing of its actions. -/
theorem reaches_run {ok : World → Action → Prop} {acts : List Action} {w₀ : World}
    (h : w₀.Reaches sha256 feed ok w) (hok : ∀ a ∈ acts, ∀ w, ok w a)
    (hr : w.run sha256 feed acts = some w') : w₀.Reaches sha256 feed ok w' := by
  induction acts generalizing w with
  | nil =>
    cases hr
    exact h
  | cons a acts ih =>
    obtain ⟨w₁, hs, hr⟩ := Option.bind_eq_some_iff.mp hr
    exact ih (.step a h (hok a List.mem_cons_self w) hs) (fun b hb => hok b (List.mem_cons_of_mem a hb)) hr

/-- A scripted run whose actions are checked one by one. -/
def World.runIf (sha256 : List UInt8 → List UInt8) (feed : String) (ok : World → Action → Bool) :
    List Action → World → Option World
  | [], w => some w
  | a :: as, w => if ok w a then (w.step sha256 feed a).bind (runIf sha256 feed ok as) else none

theorem reaches_runIf {P : World → Action → Prop} {ok : World → Action → Bool}
    (hok : ∀ w a, ok w a = true → P w a) {acts : List Action} {w₀ : World}
    (h : w₀.Reaches sha256 feed P w) (hr : w.runIf sha256 feed ok acts = some w') :
    w₀.Reaches sha256 feed P w' := by
  induction acts generalizing w with
  | nil =>
    cases hr
    exact h
  | cons a acts ih =>
    unfold World.runIf at hr
    split_ifs at hr with ha
    obtain ⟨w₁, hs, hr⟩ := Option.bind_eq_some_iff.mp hr
    exact ih (.step a h (hok w a ha) hs) hr

theorem run_append {acts acts' : List Action} :
    w.run sha256 feed (acts ++ acts') = (w.run sha256 feed acts).bind (World.run sha256 feed acts') := by
  induction acts generalizing w with
  | nil => rfl
  | cons a acts ih =>
    rw [List.cons_append, World.run, World.run, Option.bind_assoc]
    exact Option.bind_congr fun _ _ => ih

end Runs

end EliteEvents

import EliteEvents.Proofs.Discipline
import EliteEvents.Proofs.Quiescence

/-! What a run keeps to while feeds are deleted, whatever the users and the cluster do meanwhile:
once the drain Job exists, nothing is left that writes, and a finalizer is given up only over the
outcome of that Job. The teardown knows the cluster only from what it has listed, call by call, so
this is an invariant of the run together with a condition on the rest of the worker's program. -/

namespace EliteEvents

open Prog

/-- How far the deletion of the feed has come: not asked for (or only with a drain Job already
there), writers being stopped, drain Job created. The number is the length of the log when the
deletion was asked for. -/
inductive Deletion
  | idle
  | stopping (since : ℕ)
  | draining (since : ℕ)
  deriving DecidableEq

def Deletion.since : Deletion → Option ℕ
  | .idle => none
  | .stopping n | .draining n => some n

/-- A run so far. The phase is nobody's knowledge; it is there to state the invariant. -/
structure Watch where
  cluster : Cluster
  log : List LogEntry
  phase : Deletion

section Defs

variable (feed : String)

def drainOf (s : Cluster) : Option Job := (s.objs .job).lookup (drainJobName feed)

def Deletion.called (s' : Cluster) : Deletion → Deletion
  | .stopping n => if (drainOf feed s').isNone then .stopping n else .draining n
  | phase => phase

def Watch.moved (g : Watch) : ClusterAction → Deletion
  | .createFeed _ => .idle
  | .deleteFeed => if (drainOf feed g.cluster).isNone then .stopping g.log.length else .idle
  | _ => g.phase

/-- After a call of the worker. -/
def Watch.call (g : Watch) (c : Call) (r : Answer c) (s' : Cluster) : Watch :=
  ⟨s', ⟨c, r, g.cluster⟩ :: g.log, g.phase.called feed s'⟩

/-- After an action of the cluster. -/
def Watch.move (g : Watch) (a : ClusterAction) (s' : Cluster) : Watch := ⟨s', g.log, g.moved feed a⟩

/-- The worker gives up the finalizer of the feed it has read. -/
def Releases (c : Call) (fl : FeedListener) : Prop :=
  c = .updateFeed fl ∧ feedListenerFinalizer ∉ fl.finalizers

/-- The worker has read the drain Job. -/
def drainRead (job : Job) (before : Cluster) : LogEntry := ⟨.get .job (drainJobName feed), .ok job, before⟩

/-- Every release since then, but for those that leave the indexes in place, follows the reading
of a drain Job that had succeeded or failed. -/
def ReleasedAfter (n : ℕ) (log : List LogEntry) : Prop :=
  ∀ e past fl, e :: past <:+ log → n ≤ past.length → Releases e.call fl →
    fl.spec.retainIndexesOnDelete = false →
    ∃ job before rest, drainRead feed job before :: rest <:+ past ∧ n ≤ rest.length ∧
      drainOf feed before = some job ∧ (0 < job.status.succeeded ∨ jobFailed job = true)

/-- The Job was created while that incarnation was being deleted, its writers stopped. -/
def CreatedFor (uid jobUid : ℕ) (log : List LogEntry) : Prop :=
  ∃ e ∈ log, (∃ o, e.call = .create .job (drainJobName feed) o) ∧ drainOf feed e.before = none ∧
    jobUid = e.before.revision + 1 ∧ Doomed feed uid e.before ∧ Quiet feed e.before

/-- A release that is announced as drained looked at a Job created for that incarnation. -/
def DrainedAfterPurge (log : List LogEntry) : Prop :=
  ∀ e v past fl, e :: v :: past <:+ log → Releases e.call fl →
    (∃ event, v.call = .event event ∧ event.reason = "Drained") →
    ∃ job before rest, past = drainRead feed job before :: rest ∧ 0 < job.status.succeeded ∧
      CreatedFor feed fl.uid job.metadata.uid rest

/-- The invariant. In strict runs a deletion is asked for only where no drain Job exists. -/
structure Secure (strict : Prop) (g : Watch) : Prop where
  doomed : g.phase ≠ .idle → ∀ fl, g.cluster.feeds.lookup feed = some fl → fl.deletionTimestamp = true
  undrained : ∀ n, g.phase = .stopping n → drainOf feed g.cluster = none
  quiet : ∀ n, g.phase = .draining n → Quiet feed g.cluster
  created : g.phase ≠ .idle → ∀ job fl, drainOf feed g.cluster = some job →
    g.cluster.feeds.lookup feed = some fl → CreatedFor feed fl.uid job.metadata.uid g.log
  since : ∀ n, g.phase.since = some n → n ≤ g.log.length
  released : ∀ n, g.phase.since = some n → ReleasedAfter feed n g.log
  armed : strict → ∀ fl, g.cluster.feeds.lookup feed = some fl → fl.deletionTimestamp = true →
    g.phase ≠ .idle
  drained : strict → DrainedAfterPurge feed g.log

end Defs

section Moves

variable {feed : String} {strict : Prop} {g : Watch} {s' : Cluster}

theorem moved_cases (feed : String) (g : Watch) (a : ClusterAction) :
    (∃ spec, a = .createFeed spec ∧ g.moved feed a = .idle) ∨
    (a = .deleteFeed ∧ drainOf feed g.cluster = none ∧ g.moved feed a = .stopping g.log.length) ∨
    (a = .deleteFeed ∧ drainOf feed g.cluster ≠ none ∧ g.moved feed a = .idle) ∨
    (a ≠ .deleteFeed ∧ (∀ spec, a ≠ .createFeed spec) ∧ g.moved feed a = g.phase) := by
  cases a with
  | createFeed spec => exact .inl ⟨spec, rfl, rfl⟩
  | deleteFeed =>
    refine .inr ?_
    cases hd : drainOf feed g.cluster with
    | none => exact .inl ⟨rfl, rfl, by rw [Watch.moved, hd]; rfl⟩
    | some job => exact .inr (.inl ⟨rfl, Option.some_ne_none job, by rw [Watch.moved, hd]; rfl⟩)
  | _ =>
    exact .inr (.inr (.inr ⟨ClusterAction.noConfusion, fun _ => ClusterAction.noConfusion, rfl⟩))

/-- The cluster never creates the drain Job. -/
theorem drain_apply {s : Cluster} (hl : Labelled feed s) {a : ClusterAction}
    (ha : a.apply feed s = some s') {job' : Job} (hj : drainOf feed s' = some job') :
    ∃ job, drainOf feed s = some job ∧ job.metadata.uid = job'.metadata.uid := by
  rcases apply_objs hl ha hj with ⟨job, hj, hu, -⟩ | ⟨-, hne, -⟩
  · exact ⟨job, hj, hu⟩
  · exact absurd rfl hne

theorem drain_apply_none {s : Cluster} (hl : Labelled feed s) {a : ClusterAction}
    (ha : a.apply feed s = some s') (hn : drainOf feed s = none) : drainOf feed s' = none := by
  cases hj : drainOf feed s' with
  | none => rfl
  | some job' =>
    obtain ⟨job, hj, -⟩ := drain_apply hl ha hj
    rw [hn] at hj
    cases hj

theorem deleteFeed_spec {s : Cluster} (hl : Labelled feed s)
    (ha : ClusterAction.deleteFeed.apply feed s = some s') {fl' : FeedListener}
    (h : s'.feeds.lookup feed = some fl') : fl'.deletionTimestamp = true := by
  cases moves_of_apply ha with
  | removeFeed fl hf hd hfin =>
    rw [Cluster.feeds_dropFeed, AList.lookup_erase] at h
    cases h
  | deleteFeed fl hf hd fl₁ hname huid hd' =>
    rw [Cluster.feeds_setFeed, hname, hl.feeds feed fl hf, AList.lookup_insert] at h
    cases h
    exact hd'

theorem createFeed_spec {s : Cluster} {spec : FeedListenerSpec}
    (ha : (ClusterAction.createFeed spec).apply feed s = some s') {fl' : FeedListener}
    (h : s'.feeds.lookup feed = some fl') : fl'.deletionTimestamp = false := by
  cases moves_of_apply ha with
  | createFeed fl hn hname hd =>
    rcases lookup_setFeed_cases h with h | ⟨-, rfl⟩
    · rw [hn] at h
      cases h
    · exact hd

/-- Other actions leave the feed as it is, as far as its deletion goes. -/
theorem feed_apply {s : Cluster} {a : ClusterAction} (ha : a.apply feed s = some s')
    (hd : a ≠ .deleteFeed) (hc : ∀ spec, a ≠ .createFeed spec) {fl' : FeedListener}
    (h : s'.feeds.lookup feed = some fl') :
    ∃ fl, s.feeds.lookup feed = some fl ∧ fl.uid = fl'.uid ∧
      fl.deletionTimestamp = fl'.deletionTimestamp := by
  rcases apply_feed ha h with ⟨spec, rfl, -⟩ | ⟨fl, hf, hu, hdel | ⟨rfl, -⟩⟩
  · exact absurd rfl (hc spec)
  · exact ⟨fl, hf, hu, hdel⟩
  · exact absurd rfl hd

theorem Secure.move (h : Secure feed strict g) (hl : Labelled feed g.cluster) {a : ClusterAction}
    (ha : a.apply feed g.cluster = some s')
    (hstrict : strict → a = .deleteFeed → drainOf feed g.cluster = none) :
    Secure feed strict (g.move feed a s') := by
  -- with the phase idle, there is only the log left to speak of
  have hidle : g.moved feed a = .idle → (strict → ∀ fl, s'.feeds.lookup feed = some fl →
      fl.deletionTimestamp ≠ true) → Secure feed strict (g.move feed a s') := by
    intro hp hdel
    refine ⟨fun hne => absurd hp hne, fun n hn => ?_, fun n hn => ?_, fun hne => absurd hp hne,
      fun n hn => ?_, fun n hn => ?_, fun hs fl hf hd => absurd hd (hdel hs fl hf), h.drained⟩
    all_goals
      simp only [Watch.move, hp, Deletion.since] at hn
      cases hn
  rcases moved_cases feed g a with ⟨spec, rfl, hp⟩ | ⟨rfl, hn, hp⟩ | ⟨rfl, hne, hp⟩ | ⟨hd, hc, hp⟩
  · refine hidle hp fun _ fl hf hdel => ?_
    rw [createFeed_spec ha hf] at hdel
    cases hdel
  · refine ⟨fun _ fl hf => deleteFeed_spec hl ha hf, fun _ _ => drain_apply_none hl ha hn, ?_, ?_, ?_, ?_,
      fun _ _ _ _ hi => ?_, h.drained⟩
    · intro n hn'
      rw [Watch.move, hp] at hn'
      cases hn'
    · intro _ job fl hj
      have hnone := drain_apply_none hl ha hn
      cases hnone.symm.trans hj
    · intro n hn'
      rw [Watch.move, hp] at hn'
      cases hn'
      exact le_rfl
    · intro n hn' e past fl hsuf hlen
      rw [Watch.move, hp] at hn'
      cases hn'
      have hlt : past.length + 1 ≤ g.log.length := hsuf.length_le
      omega
    · rw [Watch.move, hp] at hi
      cases hi
  · exact hidle hp fun hs => absurd (hstrict hs rfl) hne
  · have hphase : (g.move feed a s').phase = g.phase := hp
    refine ⟨?_, ?_, ?_, ?_, ?_, ?_, ?_, h.drained⟩
    · intro hne fl' hf
      obtain ⟨fl, hf₀, -, hdel⟩ := feed_apply ha hd hc hf
      rw [← hdel]
      exact h.doomed (hphase ▸ hne) fl hf₀
    · intro n hn
      exact drain_apply_none hl ha (h.undrained n (hphase ▸ hn))
    · intro n hn
      exact (h.quiet n (hphase ▸ hn)).settles (settles_apply hl ha)
    · intro hne job' fl' hj hf
      obtain ⟨job, hj₀, hu⟩ := drain_apply hl ha hj
      obtain ⟨fl, hf₀, huid, -⟩ := feed_apply ha hd hc hf
      rw [← hu, ← huid]
      exact h.created (hphase ▸ hne) job fl hj₀ hf₀
    · intro n hn
      exact h.since n (hphase ▸ hn)
    · intro n hn
      exact h.released n (hphase ▸ hn)
    · intro hs fl' hf hdel
      obtain ⟨fl, hf₀, -, hd₀⟩ := feed_apply ha hd hc hf
      rw [hphase]
      exact h.armed hs fl hf₀ (hd₀.trans hdel)

end Moves

section Calls

variable {feed : String} {strict : Prop} {g : Watch} {s s' : Cluster} {c : Call} {r : Answer c}
  {f : Fate}

theorem answer_objs (ha : s.answer f c = (r, s')) {κ : Kind} {name : String} {o' : Obj κ}
    (ho : (s'.objs κ).lookup name = some o') :
    (∃ o, (s.objs κ).lookup name = some o ∧ Continues o o') ∨
      ∃ o, c = .create κ name o ∧ (s.objs κ).lookup name = none ∧ o'.metadata.uid = s.revision + 1 := by
  rcases answer_effect ha with rfl | rfl
  · exact .inl ⟨o', ho, .refl o'⟩
  · exact serve_objs ho

theorem answer_feed (hl : Labelled feed s) (ha : s.answer f c = (r, s')) {fl' : FeedListener}
    (h : s'.feeds.lookup feed = some fl') :
    ∃ fl, s.feeds.lookup feed = some fl ∧ fl.uid = fl'.uid ∧
      fl.deletionTimestamp = fl'.deletionTimestamp := by
  rcases answer_effect ha with rfl | rfl
  · exact ⟨fl', h, rfl, rfl⟩
  · exact serve_feed hl h

/-- What must be known where the call is made. -/
structure Guarded (feed : String) (strict : Prop) (c : Call) (g : Watch) : Prop where
  create : ∀ o, c = .create .job (drainJobName feed) o →
    (∃ uid, Doomed feed uid g.cluster) ∧ Quiet feed g.cluster
  gentle : Gentle feed c ∨ ∀ n, g.phase ≠ .draining n
  release : ∀ fl, Releases c fl → fl.spec.retainIndexesOnDelete = false →
    ∀ n, g.phase.since = some n → ∃ job before rest, drainRead feed job before :: rest <:+ g.log ∧
      n ≤ rest.length ∧ drainOf feed before = some job ∧
        (0 < job.status.succeeded ∨ jobFailed job = true)
  drained : strict → ∀ fl v past, Releases c fl → g.log = v :: past →
    (∃ event, v.call = .event event ∧ event.reason = "Drained") →
    ∃ job before rest, past = drainRead feed job before :: rest ∧ 0 < job.status.succeeded ∧
      CreatedFor feed fl.uid job.metadata.uid rest

theorem called_since (feed : String) (s' : Cluster) (phase : Deletion) :
    (phase.called feed s').since = phase.since := by
  cases phase with
  | stopping n =>
    unfold Deletion.called
    split_ifs <;> rfl
  | _ => rfl

theorem called_ne_idle {phase : Deletion} : phase.called feed s' ≠ .idle ↔ phase ≠ .idle := by
  cases phase with
  | stopping n =>
    unfold Deletion.called
    split_ifs <;> simp
  | _ => rfl

theorem called_stopping {phase : Deletion} {n : ℕ} (h : phase.called feed s' = .stopping n) :
    drainOf feed s' = none := by
  cases phase with
  | stopping m =>
    unfold Deletion.called at h
    split_ifs at h with hd
    exact Option.isNone_iff_eq_none.mp hd
  | _ => cases h

theorem called_draining {phase : Deletion} {n : ℕ} (h : phase.called feed s' = .draining n) :
    phase = .draining n ∨ phase = .stopping n ∧ drainOf feed s' ≠ none := by
  cases phase with
  | idle => cases h
  | draining m => exact .inl h
  | stopping m =>
    unfold Deletion.called at h
    split_ifs at h with hd
    cases h
    exact .inr ⟨rfl, fun hn => hd (Option.isNone_iff_eq_none.mpr hn)⟩

theorem CreatedFor.cons {uid jobUid : ℕ} {log : List LogEntry} (h : CreatedFor feed uid jobUid log)
    (e : LogEntry) : CreatedFor feed uid jobUid (e :: log) := by
  obtain ⟨e', hm, hrest⟩ := h
  exact ⟨e', List.mem_cons_of_mem e hm, hrest⟩

theorem Secure.call (h : Secure feed strict g) (hl : Labelled feed g.cluster)
    (hg : Guarded feed strict c g) (ha : g.cluster.answer f c = (r, s')) :
    Secure feed strict (g.call feed c r s') where
  doomed := by
    intro hne fl' hf
    obtain ⟨fl, hf₀, -, hd⟩ := answer_feed hl ha hf
    rw [← hd]
    exact h.doomed (called_ne_idle.mp hne) fl hf₀
  undrained := fun n hn => called_stopping hn
  quiet := by
    intro n hn
    rcases called_draining hn with hn | ⟨hn, hd⟩
    · have hgentle := hg.gentle.resolve_right fun hne => hne n hn
      exact (h.quiet n hn).settles (settles_answer hgentle ha)
    · -- the drain Job has just been created
      obtain ⟨job, hj⟩ := Option.ne_none_iff_exists'.mp hd
      rcases answer_objs ha hj with ⟨job₀, hj₀, -⟩ | ⟨o, rfl, -, -⟩
      · cases (h.undrained n hn).symm.trans hj₀
      · refine (hg.create o rfl).2.settles (settles_answer ?_ ha)
        rintro κ name o' ⟨⟩
        exact ⟨rfl, rfl⟩
  created := by
    intro hne job' fl' hj hf
    obtain ⟨fl, hf₀, hu, -⟩ := answer_feed hl ha hf
    rcases answer_objs ha hj with ⟨job, hj₀, huid, -⟩ | ⟨o, rfl, hnone, huid⟩
    · rw [← hu, ← show job.metadata.uid = job'.metadata.uid from huid]
      exact (h.created (called_ne_idle.mp hne) job fl hj₀ hf₀).cons _
    · obtain ⟨⟨uid, fl₀, hf₁, hu₁, hd⟩, hq⟩ := hg.create o rfl
      have hfl : fl₀ = fl := Option.some.inj (hf₁.symm.trans hf₀)
      refine ⟨_, List.mem_cons_self, ⟨o, rfl⟩, hnone, huid, ⟨fl₀, hf₁, ?_, hd⟩, hq⟩
      rw [hfl, hu]
  since := by
    intro n hn
    rw [Watch.call, called_since] at hn
    exact (h.since n hn).trans (Nat.le_succ _)
  released := by
    intro n hn e past fl hsuf hlen hrel hret
    rw [Watch.call, called_since] at hn
    rcases List.suffix_cons_iff.mp hsuf with he | hsuf
    · cases he
      exact hg.release fl hrel hret n hn
    · exact h.released n hn e past fl hsuf hlen hrel hret
  armed := by
    intro hs fl' hf hdel
    obtain ⟨fl, hf₀, -, hd⟩ := answer_feed hl ha hf
    exact called_ne_idle.mpr (h.armed hs fl hf₀ (hd.trans hdel))
  drained := by
    intro hs e v past fl hsuf hrel hv
    rcases List.suffix_cons_iff.mp hsuf with he | hsuf
    · obtain ⟨rfl, hlog⟩ := List.cons.inj he
      exact hg.drained hs fl v past hrel hlog.symm hv
    · exact h.drained hs e v past fl hsuf hrel hv

end Calls

section Rules

variable (feed : String) (strict : Prop)

def CallStep (c : Call) (g : Watch) (r : Answer c) (g' : Watch) : Prop :=
  ∃ f s', g.cluster.answer f c = (r, s') ∧ g' = g.call feed c r s'

def MoveStep (g g' : Watch) : Prop :=
  ∃ a s', a.apply feed g.cluster = some s' ∧
    (strict → a = .deleteFeed → drainOf feed g.cluster = none) ∧ g' = g.move feed a s'

/-- A program of the worker, among all the others' steps. -/
def Watched {α : Type} (F : Watch → Prop) (p : Reconciler α) (G : α → Watch → Prop) : Prop :=
  Triple
    (fun c g r g' => CallStep feed c g r g' ∧ Labelled feed g.cluster ∧ Labelled feed g'.cluster ∧
      Lawful feed c ∧ Truthful feed c r)
    (fun g g' => MoveStep feed strict g g' ∧ Labelled feed g.cluster ∧ Labelled feed g'.cluster)
    (Secure feed strict) F p G

/-- A fact that no action of the cluster ends. -/
def Lasts (F : Watch → Prop) : Prop :=
  Stable (fun g g' => MoveStep feed strict g g' ∧ Labelled feed g.cluster ∧ Labelled feed g'.cluster)
    (Secure feed strict) F

variable {feed strict} {α β : Type} {F : Watch → Prop} {p : Reconciler α} {G : α → Watch → Prop}

theorem secure_env (g g' : Watch) (h : Secure feed strict g)
    (he : MoveStep feed strict g g' ∧ Labelled feed g.cluster ∧ Labelled feed g'.cluster) :
    Secure feed strict g' := by
  obtain ⟨⟨a, s', ha, hstrict, rfl⟩, hl, -⟩ := he
  exact h.move hl ha hstrict

theorem lasts_true : Lasts feed strict fun _ => True := fun _ _ _ _ _ => trivial

theorem watched_pure {a : α} (hF : Lasts feed strict F) (h : ∀ g, F g → G a g) :
    Watched feed strict F (pure a) G :=
  triple_pure secure_env hF a fun g _ => h g

theorem watched_throw (e : Err) : Watched feed strict F (throw e : Reconciler α) G := triple_throw e

theorem Watched.bind {k : α → Reconciler β} {H : β → Watch → Prop} (h : Watched feed strict F p G)
    (hk : ∀ a, Watched feed strict (G a) (k a) H) : Watched feed strict F (p >>= k) H :=
  Triple.bind h hk

theorem Watched.conseq {P : Watch → Prop} {Q : α → Watch → Prop} (h : Watched feed strict F p G)
    (hF : ∀ g, P g → F g) (hG : ∀ a g, G a g → Q a g) : Watched feed strict P p Q :=
  Triple.conseq h (fun g _ => hF g) fun a g _ => hG a g

theorem Watched.wrapping (h : Watched feed strict F p G) (context : String) :
    Watched feed strict F (wrapping context p) G :=
  Triple.tryCatch h fun _ => watched_throw _

theorem watched_attempt {c : Call} {G : Answer c → Watch → Prop} (hF : Lasts feed strict F)
    (hG : ∀ r, Lasts feed strict (G r))
    (hguard : ∀ g, Secure feed strict g → F g → Guarded feed strict c g)
    (h : ∀ g r s' f, Secure feed strict g → F g → g.cluster.answer f c = (r, s') →
      Labelled feed g.cluster → Labelled feed s' → Truthful feed c r → G r (g.call feed c r s')) :
    Watched feed strict F (attempt c) G := by
  refine triple_perform secure_env hF hG ?_
  rintro g r g' hs hF ⟨⟨f, s', ha, rfl⟩, hl, hl', -, ht⟩
  exact ⟨hs.call hl (hguard g hs hF) ha, h g r s' f hs hF ha hl hl' ht⟩

/-- A fact about the result alone may be used to choose the program. -/
theorem watched_of_fact {A : Prop} (h : A → Watched feed strict F p G) :
    Watched feed strict (fun g => A ∧ F g) p G :=
  fun g hs hg => h hg.1 g hs hg.2

/-! A reconcile of a feed that is not being deleted. -/

def Undrained (g : Watch) : Prop := ∀ n, g.phase ≠ .draining n

theorem lasts_undrained : Lasts feed strict Undrained := by
  rintro g g' hs hu ⟨⟨a, s', ha, -, rfl⟩, -, -⟩ n
  rcases moved_cases feed g a with ⟨spec, -, hp⟩ | ⟨-, -, hp⟩ | ⟨-, -, hp⟩ | ⟨-, -, hp⟩
  all_goals
    rw [Watch.move, hp]
    first | exact hu n | exact Deletion.noConfusion

theorem guarded_of_orderly {c : Call} (hc : Orderly feed c) {g : Watch} (hu : Undrained g) :
    Guarded feed strict c g where
  create := by
    rintro o rfl
    exact absurd rfl hc.2
  gentle := .inr hu
  release := by
    rintro fl ⟨rfl, hf⟩
    exact absurd hc.2 hf
  drained := by
    rintro - fl v past ⟨rfl, hf⟩
    exact absurd hc.2 hf

/-- No call of it creates a drain Job, so the phase goes on. -/
theorem Undrained.call {c : Call} (hc : Orderly feed c) {g : Watch} (h : Secure feed strict g)
    (hu : Undrained g) {r : Answer c} {s' : Cluster} {f : Fate} (ha : g.cluster.answer f c = (r, s')) :
    Undrained (g.call feed c r s') := by
  intro n hn
  rcases called_draining hn with hn | ⟨hn, hd⟩
  · exact hu n hn
  · obtain ⟨job, hj⟩ := Option.ne_none_iff_exists'.mp hd
    rcases answer_objs ha hj with ⟨job₀, hj₀, -⟩ | ⟨o, rfl, -⟩
    · cases (h.undrained n hn).symm.trans hj₀
    · exact absurd rfl hc.2

theorem watched_of_orderly {Q : α → Prop} (hp : Obedient feed (Orderly feed) p Q) :
    Watched feed strict Undrained p fun _ _ => True := by
  intro g hs hu
  unfold Obedient at hp
  change Prog Call Answer (Except Err α) at p
  induction p generalizing g with
  | pure r => exact fun _ _ _ _ _ => trivial
  | call c k ih =>
    rintro g₁ h₁ hs₁ r g₂ ⟨⟨f, s', ha, rfl⟩, hl, -, -, ht⟩
    have hu₁ := lasts_undrained.star secure_env hs hu h₁
    have hs₂ := hs₁.call hl (guarded_of_orderly hp.1 hu₁) ha
    exact ⟨hs₂, ih r _ hs₂ (hu₁.call hp.1 hs₁ ha) (hp.2 r ht)⟩

end Rules

/-! Stopping the writers. -/

section Stop

variable {feed : String} {strict : Prop} {uid : ℕ}

/-- A fact about the cluster that the teardown can build on. -/
def Persists (feed : String) (C : Cluster → Prop) : Prop := ∀ s s', Settles feed s s' → C s → C s'

/-- The deletion of that incarnation is under way, and this much is known of the cluster. -/
def Tearing (feed : String) (uid : ℕ) (C : Cluster → Prop) (g : Watch) : Prop :=
  Doomed feed uid g.cluster ∧ C g.cluster

/-- While a feed is being deleted, the phase changes only with the worker's calls. -/
theorem moved_doomed {g : Watch} (hd : Doomed feed uid g.cluster) (hl : Labelled feed g.cluster)
    {a : ClusterAction} {s' : Cluster} (ha : a.apply feed g.cluster = some s') :
    g.moved feed a = g.phase := by
  obtain ⟨-, hne, hnc⟩ := hd.apply hl ha
  rcases moved_cases feed g a with ⟨spec, he, -⟩ | ⟨he, -⟩ | ⟨he, -⟩ | ⟨-, -, hp⟩
  · exact absurd he (hnc spec)
  · exact absurd he hne
  · exact absurd he hne
  · exact hp

theorem lasts_tearing {C : Cluster → Prop} (hC : Persists feed C) :
    Lasts feed strict (Tearing feed uid C) := by
  rintro g g' - ⟨hd, hc⟩ ⟨⟨a, s', ha, -, rfl⟩, hl, -⟩
  exact ⟨(hd.apply hl ha).1, hC _ _ (settles_apply hl ha) hc⟩

/-- Calls that neither create anything nor write the feed. -/
def Mild : Call → Prop
  | .create _ _ _ | .updateFeed _ => False
  | _ => True

theorem Mild.gentle {c : Call} (h : Mild c) : Gentle feed c := by
  rintro κ name o rfl
  exact h.elim

theorem guarded_of_mild {c : Call} (h : Mild c) (g : Watch) : Guarded feed strict c g where
  create := by
    rintro o rfl
    exact h.elim
  gentle := .inl h.gentle
  release := by
    rintro fl ⟨rfl, -⟩
    exact h.elim
  drained := by
    rintro - fl v past ⟨rfl, -⟩
    exact h.elim

theorem watched_mild {c : Call} {F : Watch → Prop} {G : Answer c → Watch → Prop} (hm : Mild c)
    (hF : Lasts feed strict F) (hG : ∀ r, Lasts feed strict (G r))
    (h : ∀ g r s' f, Secure feed strict g → F g → g.cluster.answer f c = (r, s') →
      Labelled feed g.cluster → Labelled feed s' → Truthful feed c r → G r (g.call feed c r s')) :
    Watched feed strict F (attempt c) G :=
  watched_attempt hF hG (fun g _ _ => guarded_of_mild hm g) h

theorem Doomed.answer {s s' : Cluster} {c : Call} {r : Answer c} {f : Fate}
    (h : Doomed feed uid s) (hl : Labelled feed s) (hc : ∀ fl, c ≠ .updateFeed fl)
    (ha : s.answer f c = (r, s')) : Doomed feed uid s' := by
  rcases answer_effect ha with rfl | rfl
  · exact h
  obtain ⟨fl, hf, hu, hd⟩ := h
  have hsame : (s.serve c).2.feeds = s.feeds → Doomed feed uid (s.serve c).2 :=
    fun he => ⟨fl, by rw [he]; exact hf, hu, hd⟩
  cases c with
  | updateFeed fl => exact absurd rfl (hc fl)
  | updateStatus fl' =>
    simp only [Cluster.serve] at hsame ⊢
    split
    · exact ⟨fl, hf, hu, hd⟩
    · rename_i cur hcur
      split_ifs
      · by_cases hn : feed = cur.name
        · have hcur' : s.feeds.lookup feed = some cur := by
            rw [hn, hl.feeds _ _ hcur]
            exact hcur
          cases hf.symm.trans hcur'
          refine ⟨{ fl with status := fl'.status, resourceVersion := s.revision + 1 }, ?_, hu, hd⟩
          rw [Cluster.feeds_setFeed, hn]
          exact AList.lookup_insert s.feeds
        · refine ⟨fl, ?_, hu, hd⟩
          rw [Cluster.feeds_setFeed, AList.lookup_insert_ne hn]
          exact hf
      · exact ⟨fl, hf, hu, hd⟩
  | getFeed name => exact hsame (by simp only [Cluster.serve]; split <;> rfl)
  | get κ name => exact hsame (by simp only [Cluster.serve]; split <;> rfl)
  | create κ name o => exact hsame (by simp only [Cluster.serve]; split <;> rfl)
  | update κ name o =>
    refine hsame ?_
    simp only [Cluster.serve]
    split
    · rfl
    · split_ifs <;> rfl
  | delete κ name foreground =>
    refine hsame ?_
    simp only [Cluster.serve]
    split
    · rfl
    · split_ifs <;> rfl
  | list κ sel => exact hsame rfl
  | listPods sel => exact hsame rfl
  | event e => exact hsame rfl
  | probe ip => exact hsame rfl
  | now => exact hsame rfl

theorem Mild.ne_updateFeed {c : Call} (h : Mild c) : ∀ fl, c ≠ .updateFeed fl := by
  rintro fl rfl
  exact h.elim

theorem tearing_attempt {c : Call} {C : Cluster → Prop} {D : Answer c → Cluster → Prop} (hm : Mild c)
    (hC : Persists feed C) (hD : ∀ r, Persists feed (D r))
    (h : ∀ s r s' f, C s → s.answer f c = (r, s') → Labelled feed s → Labelled feed s' → D r s') :
    Watched feed strict (Tearing feed uid C) (attempt c) fun r => Tearing feed uid (D r) :=
  watched_mild hm (lasts_tearing hC) (fun r => lasts_tearing (hD r))
    fun g r s' f _ hF ha hl hl' _ =>
      ⟨hF.1.answer hl hm.ne_updateFeed ha, h g.cluster r s' f hF.2 ha hl hl'⟩

theorem tearing_request {c : Call} {C : Cluster → Prop} {D : c.Result → Cluster → Prop} (hm : Mild c)
    (hC : Persists feed C) (hD : ∀ a, Persists feed (D a))
    (h : ∀ s a s' f, C s → s.answer f c = (.ok a, s') → Labelled feed s → Labelled feed s' → D a s') :
    Watched feed strict (Tearing feed uid C) (request c) fun a => Tearing feed uid (D a) := by
  refine (tearing_attempt (D := fun r s => ∀ a, r = .ok a → D a s) hm hC ?_ ?_).bind fun r => ?_
  · exact fun r s s' hs hd a ha => hD a s s' hs (hd a ha)
  · rintro s r s' f hc ha hl hl' a rfl
    exact h s a s' f hc ha hl hl'
  · cases r with
    | error e => exact watched_throw _
    | ok a =>
      refine watched_pure (lasts_tearing fun s s' hs hd b hb => hD b s s' hs (hd b hb)) fun g hg => ?_
      exact ⟨hg.1, hg.2 a rfl⟩

theorem tearing_event {C : Cluster → Prop} (hC : Persists feed C) (fl : FeedListener) (warning : Bool)
    (reason action note : String) :
    Watched feed strict (Tearing feed uid C) (eventf fl warning reason action note)
      fun _ => Tearing feed uid C := by
  refine (tearing_attempt (c := .event ⟨fl.uid, warning, reason, action, note⟩) (D := fun _ => C)
    trivial hC (fun _ => hC) ?_).bind fun _ => watched_pure (lasts_tearing hC) fun _ h => h
  intro s r s' f hc ha _ _
  rwa [event_effect ha]

/-- What a deletion leaves under its name is marked, and only if it was in the foreground. -/
theorem tearing_delete {κ : Kind} {name : String} {foreground : Bool} {C D : Cluster → Prop}
    (hC : Persists feed C) (hD : Persists feed D)
    (h : ∀ s s', C s → Settles feed s s' → Labelled feed s' →
      (∀ o, (s'.objs κ).lookup name = some o →
        foreground = true ∧ o.metadata.deletionTimestamp = true) → D s') :
    Watched feed strict (Tearing feed uid C) (deleteIfExists κ name foreground)
      fun _ => Tearing feed uid D := by
  refine (tearing_attempt (c := .delete κ name foreground)
    (D := fun r s => (∃ e : ApiError, r = .error e ∧ e.reason ≠ .notFound) ∨ D s) trivial hC
    (fun r s s' hs => Or.imp_right (hD s s' hs)) ?_).bind fun r => ?_
  · intro s r s' f hc ha hl hl'
    have hmild : Mild (.delete κ name foreground) := trivial
    have hs : Settles feed s s' := settles_answer hmild.gentle ha
    cases r with
    | error e =>
      by_cases he : e.reason = .notFound
      · obtain ⟨hn, rfl⟩ := delete_notFound ha (by rw [ApiError.Definite, he]; decide)
        refine .inr (h s' s' hc hs hl fun o ho => ?_)
        cases hn.symm.trans ho
      · exact .inl ⟨e, rfl, he⟩
    | ok u =>
      refine .inr (h s s' hc hs hl' fun o ho => ?_)
      rcases delete_ok ha with ⟨-, rfl⟩ | ⟨hf, o₀, -, rfl⟩
      · rw [s.lookup_drop_self] at ho
        cases ho
      · rw [s.lookup_set_self] at ho
        cases ho
        rw [metadata_withMetadata]
        exact ⟨hf, rfl⟩
  · have hlast : ∀ e : Answer (.delete κ name foreground), Lasts feed strict (Tearing feed uid
        fun s => (∃ e' : ApiError, e = .error e' ∧ e'.reason ≠ .notFound) ∨ D s) :=
      fun e => lasts_tearing fun s s' hs => Or.imp_right (hD s s' hs)
    cases r with
    | error e =>
      dsimp only
      split_ifs with he
      · refine watched_pure (hlast _) fun g hg => ⟨hg.1, hg.2.resolve_left ?_⟩
        rintro ⟨e', ⟨⟩, hne⟩
        exact hne he
      · exact watched_throw _
    | ok u =>
      refine watched_pure (hlast _) fun g hg => ⟨hg.1, hg.2.resolve_left ?_⟩
      rintro ⟨e', he, -⟩
      cases he

theorem persists_remaining {κ : Kind} {exempt : String → Prop} {C : Cluster → Prop}
    (hC : Persists feed C) (hcron : ∀ s, C s → CronStopped s)
    (hdrain : κ = .job → exempt (drainJobName feed)) (rest : List (String × Obj κ)) :
    Persists feed fun s => C s ∧ Remaining κ exempt rest s :=
  fun s s' hs h => ⟨hC s s' hs h.1, h.2.settles (hcron s h.1) hs hdrain⟩

/-- The first of the list is marked, gone, or was marked when it was listed. -/
theorem Remaining.tail {κ : Kind} {exempt : String → Prop} {name : String} {o : Obj κ}
    {rest : List (String × Obj κ)} {s : Cluster} (h : Remaining κ exempt ((name, o) :: rest) s)
    (hm : ∀ o', (s.objs κ).lookup name = some o' → o.metadata.deletionTimestamp = false →
      o'.metadata.deletionTimestamp = true) : Remaining κ exempt rest s := by
  intro name' o' ho
  refine (h name' o' ho).imp_right fun h => ?_
  rcases h with h | ⟨o'', hmem, hun⟩
  · exact .inl h
  · rcases List.mem_cons.mp hmem with he | hmem
    · cases he
      exact .inl (hm o' ho hun)
    · exact .inr ⟨o'', hmem, hun⟩

theorem stopAll_tearing {κ : Kind} (exempt : String → Prop) {C : Cluster → Prop}
    (hC : Persists feed C) (hcron : ∀ s, C s → CronStopped s)
    (hdrain : κ = .job → exempt (drainJobName feed)) (what : String) (foreground : Bool)
    (rest : List (String × Obj κ)) :
    Watched feed strict (Tearing feed uid fun s => C s ∧ Remaining κ exempt rest s)
      (stopAll κ what foreground rest)
      fun _ => Tearing feed uid fun s => C s ∧ Remaining κ exempt [] s := by
  have hlast := persists_remaining hC hcron hdrain
  induction rest with
  | nil => exact watched_pure (lasts_tearing (hlast [])) fun _ h => h
  | cons p rest ih =>
    obtain ⟨name, o⟩ := p
    unfold stopAll
    split_ifs with hmark
    · refine ih.conseq (fun g hg => ⟨hg.1, hg.2.1, hg.2.2.tail fun o' _ hun => ?_⟩) fun _ _ h => h
      cases hmark.symm.trans hun
    · refine (Watched.wrapping (tearing_delete (hlast _) (hlast rest) ?_) _).bind fun _ => ih
      rintro s s' h hs - hgone
      obtain ⟨hc, hr⟩ := hlast _ s s' hs h
      exact ⟨hc, hr.tail fun o' ho _ => (hgone o' ho).2⟩

theorem persists_podsGone {selectors : List Labels}
    (h : ∀ sel ∈ selectors, sel.matches (drainLabels feed) = false) :
    Persists feed (PodsGone feed selectors) :=
  fun _ _ hs hp => hp.settles hs h

theorem podsGone_tearing (selectors done : List Labels)
    (hdrain : ∀ sel ∈ selectors ++ done, sel.matches (drainLabels feed) = false) :
    Watched feed strict (Tearing feed uid (PodsGone feed done)) (podsGone selectors)
      fun gone => Tearing feed uid fun s => gone = true → PodsGone feed (selectors ++ done) s := by
  induction selectors generalizing done with
  | nil => exact watched_pure (lasts_tearing (persists_podsGone hdrain)) fun g hg => ⟨hg.1, fun _ => hg.2⟩
  | cons sel selectors ih =>
    have hmem : ∀ sel', sel' ∈ selectors ++ sel :: done ↔ sel' ∈ sel :: selectors ++ done := by
      intro sel'
      simp only [List.cons_append, List.mem_cons, List.mem_append]
      tauto
    have hdone : Persists feed (PodsGone feed done) :=
      persists_podsGone fun sel' h => hdrain sel' (List.mem_append_right _ h)
    have hnext : Persists feed (PodsGone feed (sel :: done)) :=
      persists_podsGone fun sel' h => hdrain sel' ((hmem sel').mp (List.mem_append_right _ h))
    have hlast : ∀ pods : List Pod, Persists feed fun s =>
        PodsGone feed done s ∧ (pods = [] → PodsGone feed (sel :: done) s) :=
      fun pods s s' hs h => ⟨hdone s s' hs h.1, fun hp => hnext s s' hs (h.2 hp)⟩
    refine (Watched.wrapping (tearing_request (c := .listPods sel)
      (D := fun (pods : List Pod) s => PodsGone feed done s ∧ (pods = [] → PodsGone feed (sel :: done) s))
      trivial hdone hlast ?_) _).bind fun pods => ?_
    · intro s pods s' f hc ha _ _
      have hp := listPods_ok ha
      rw [listPods_effect ha]
      refine ⟨hc, fun hnil => ⟨hc.1, fun sel' hsel => ?_⟩⟩
      rcases List.mem_cons.mp hsel with rfl | hsel
      · exact hp.symm.trans hnil
      · exact hc.2 sel' hsel
    · change List Pod at pods
      split_ifs with hempty
      · refine (ih (sel :: done) fun sel' h => hdrain sel' ((hmem sel').mp h)).conseq
          (fun g hg => ⟨hg.1, hg.2.2 (List.isEmpty_iff.mp hempty)⟩) fun gone g hg => ⟨hg.1, fun hgone => ?_⟩
        obtain ⟨hj, hp⟩ := hg.2 hgone
        exact ⟨hj, fun sel' h => hp sel' ((hmem sel').mpr h)⟩
      · exact watched_pure (lasts_tearing (hlast pods)) fun g hg => ⟨hg.1, fun h => by cases h⟩

theorem persists_true : Persists feed fun _ => True := fun _ _ _ _ => trivial

/-- Where it reports success, everything that writes has stopped for good. -/
theorem stopWriters_tearing {fl : FeedListener} :
    Watched fl.name strict (Tearing fl.name uid fun _ => True) (stopWriters fl)
      fun stopped => Tearing fl.name uid fun s => stopped = true → Quiet fl.name s := by
  have hcron : Persists fl.name CronStopped := fun _ _ hs h => h.settles hs
  have hshards : Persists fl.name (ShardsStopped []) := fun _ _ hs h => h.settles hs
  refine (Watched.wrapping (tearing_delete persists_true hcron ?_) _).bind fun _ => ?_
  · intro s s' _ _ hl hgone name
    cases ho : (s'.objs .cronJob).lookup name with
    | none => rfl
    | some c =>
      -- every CronJob of the namespace has that one name
      obtain ⟨rfl, -⟩ : IsRebuild fl.name name c := hl.objs .cronJob name c ho
      cases (hgone c ho).1
  refine (Watched.wrapping (tearing_request (c := .list .deployment (selectorLabels fl.name))
    (D := fun (ds : List (String × Obj .deployment)) => ShardsStopped ds) trivial hcron
    (fun _ _ _ hs h => h.settles hs) ?_) _).bind fun ds => ?_
  · intro s ds s' f hc ha hl _
    rw [list_effect ha, list_ok ha]
    refine ⟨hc, fun name d hd => .inr ?_⟩
    by_cases hm : d.metadata.deletionTimestamp = true
    · exact .inl hm
    · obtain ⟨-, k, -, -, -, -, hlab, -⟩ : IsShard fl.name name d := hl.objs .deployment name d hd
      refine .inr ⟨d, Cluster.mem_matching.mpr ⟨hd, ?_⟩, Bool.eq_false_iff.mpr hm⟩
      exact hlab ▸ selector_shard fl.name k
  refine (stopAll_tearing (fun _ => False) hcron (fun _ h => h) Kind.noConfusion _ _ _).bind fun _ => ?_
  refine (Watched.wrapping (tearing_request (c := .list .job (maintenanceLabels fl.name))
    (D := fun (js : List (String × Obj .job)) => JobsStopped fl.name js) trivial hshards
    (fun _ _ _ hs h => h.settles hs) ?_) _).bind fun js => ?_
  · intro s js s' f hc ha hl _
    rw [list_effect ha, list_ok ha]
    refine ⟨hc, fun name j hj => ?_⟩
    rcases (hl.objs .job name j hj : IsOneShot fl.name name j) with ⟨hn, -⟩ | ⟨-, hlab, -⟩
    · exact .inl hn
    · by_cases hm : j.metadata.deletionTimestamp = true
      · exact .inr (.inl hm)
      · refine .inr (.inr ⟨j, Cluster.mem_matching.mpr ⟨hj, ?_⟩, Bool.eq_false_iff.mpr hm⟩)
        exact hlab ▸ maintenance_maintenance fl.name
  refine (stopAll_tearing (· = drainJobName fl.name) hshards (fun _ h => h.1) (fun _ => rfl) _ _ _).bind fun _ => ?_
  refine (podsGone_tearing [selectorLabels fl.name, maintenanceLabels fl.name] [] ?_).conseq
    (fun g hg => ⟨hg.1, hg.2, fun _ h => (List.not_mem_nil h).elim⟩) fun _ _ h => h
  intro sel hsel
  rcases List.mem_cons.mp hsel with rfl | hsel
  · exact selector_drain fl.name
  · rw [List.mem_singleton.mp hsel]
    exact maintenance_drain fl.name

end Stop

/-! The drain Job and its outcome. -/

section Drain

variable {feed : String} {strict : Prop} {uid : ℕ} {fl : FeedListener} {job : Job}

/-- The deletion of that incarnation is under way, and this much is known of the log. -/
def Noted (feed : String) (uid : ℕ) (L : List LogEntry → Deletion → Prop) (g : Watch) : Prop :=
  Doomed feed uid g.cluster ∧ L g.log g.phase

theorem lasts_noted {L : List LogEntry → Deletion → Prop} : Lasts feed strict (Noted feed uid L) := by
  rintro g g' - ⟨hd, hn⟩ ⟨⟨a, s', ha, -, rfl⟩, hl, -⟩
  refine ⟨(hd.apply hl ha).1, ?_⟩
  rw [Watch.move, moved_doomed hd hl ha]
  exact hn

theorem Lasts.and {F G : Watch → Prop} (hF : Lasts feed strict F) (hG : Lasts feed strict G) :
    Lasts feed strict fun g => F g ∧ G g :=
  fun g g' hs h he => ⟨hF g g' hs h.1 he, hG g g' hs h.2 he⟩

theorem lasts_fact {A : Prop} : Lasts feed strict fun _ => A := fun _ _ _ h _ => h

theorem noted_event {L K : List LogEntry → Deletion → Prop} {warning : Bool}
    {reason action note : String}
    (h : ∀ g r, Secure feed strict g → Doomed feed uid g.cluster → L g.log g.phase →
      K (⟨.event ⟨fl.uid, warning, reason, action, note⟩, r, g.cluster⟩ :: g.log)
        (g.phase.called feed g.cluster)) :
    Watched feed strict (Noted feed uid L) (eventf fl warning reason action note)
      fun _ => Noted feed uid K := by
  refine (watched_mild (c := .event ⟨fl.uid, warning, reason, action, note⟩)
    (G := fun _ => Noted feed uid K) trivial lasts_noted (fun _ => lasts_noted) ?_).bind
    fun _ => watched_pure lasts_noted fun _ h => h
  intro g r s' f hs hF ha _ _ _
  have he := event_effect ha
  subst he
  exact ⟨hF.1, h g r hs hF.1 hF.2⟩

/-- Neither succeeded nor failed yet. -/
def Idle (job : Job) : Prop := job.status.succeeded = 0 ∧ jobFailed job = false

/-- The last call was the reading of that Job. -/
def JustRead (feed : String) (uid : ℕ) (job : Job) (log : List LogEntry) (phase : Deletion) : Prop :=
  ∃ before rest, log = drainRead feed job before :: rest ∧ drainOf feed before = some job ∧
    (∀ n, phase.since = some n → n ≤ rest.length) ∧
    (phase ≠ .idle → CreatedFor feed uid job.metadata.uid rest)

theorem announceDrain_watched (hi : Idle job) :
    Watched fl.name strict (Tearing fl.name uid fun _ => True) (announceDrain fl job)
      fun job' => Noted fl.name uid fun log phase => Idle job' ∨ JustRead fl.name uid job' log phase :=
  (tearing_event persists_true fl false "Draining" "Drain" _).bind fun _ =>
    watched_pure (lasts_tearing persists_true) fun _ hg => ⟨hg.1, .inl hi⟩

theorem createDrainJob_watched :
    Watched fl.name strict (Tearing fl.name uid (Quiet fl.name)) (createDrainJob fl (drainJob fl))
      fun job => Noted fl.name uid fun log phase => Idle job ∨ JustRead fl.name uid job log phase := by
  have hguard : ∀ g, Tearing fl.name uid (Quiet fl.name) g →
      Guarded fl.name strict (.create .job (drainJobName fl.name) (drainJob fl)) g := by
    intro g hg
    refine ⟨fun o _ => ⟨⟨uid, hg.1⟩, hg.2⟩, .inl ?_, ?_, ?_⟩
    · rintro κ name o ⟨⟩
      exact ⟨rfl, rfl⟩
    · rintro fl' ⟨h, -⟩
      cases h
    · rintro - fl' v past ⟨h, -⟩
      cases h
  refine (watched_attempt (c := .create .job (drainJobName fl.name) (drainJob fl))
    (G := fun r g => (∀ job : Job, r = .ok job → Idle job) ∧ Tearing fl.name uid (fun _ => True) g)
    (lasts_tearing fun _ _ hs h => h.settles hs) (fun _ => lasts_fact.and (lasts_tearing persists_true))
    (fun g _ hg => hguard g hg) ?_).bind fun r => ?_
  · intro g r s' f _ hF ha hl _ _
    refine ⟨?_, hF.1.answer hl (fun _ => Call.noConfusion) ha, trivial⟩
    rintro job rfl
    rw [create_answered ha]
    exact ⟨rfl, rfl⟩
  · cases r with
    | error e =>
      dsimp only
      split_ifs
      · exact watched_of_fact fun _ => announceDrain_watched ⟨rfl, rfl⟩
      · exact watched_throw _
    | ok job => exact watched_of_fact fun h => announceDrain_watched (h job rfl)

theorem ensureDrainJob_watched :
    Watched fl.name strict (Tearing fl.name uid (Quiet fl.name)) (ensureDrainJob fl)
      fun job => Noted fl.name uid fun log phase => Idle job ∨ JustRead fl.name uid job log phase := by
  have hquiet : Persists fl.name (Quiet fl.name) := fun _ _ hs h => h.settles hs
  refine (watched_mild (c := .get .job (drainJobName fl.name))
    (G := fun r g => Tearing fl.name uid (Quiet fl.name) g ∧
      Noted fl.name uid (fun log phase => ∀ job : Job, r = .ok job → JustRead fl.name uid job log phase) g)
    trivial (lasts_tearing hquiet) (fun _ => (lasts_tearing hquiet).and lasts_noted) ?_).bind fun r => ?_
  · intro g r s' f hs hF ha hl _ _
    have he := get_effect ha
    subst he
    refine ⟨hF, hF.1, ?_⟩
    rintro job rfl
    refine ⟨g.cluster, g.log, rfl, (get_ok ha).1, fun n hn => hs.since n ?_, fun hne => ?_⟩
    · rwa [Watch.call, called_since] at hn
    · obtain ⟨fl₀, hf, hu, -⟩ := hF.1
      rw [← hu]
      exact hs.created (called_ne_idle.mp hne) job fl₀ (get_ok ha).1 hf
  · cases r with
    | ok job =>
      exact watched_pure ((lasts_tearing hquiet).and lasts_noted)
        fun g hg => ⟨hg.1.1, .inr (hg.2.2 job rfl)⟩
    | error e =>
      dsimp only
      split_ifs
      · exact createDrainJob_watched.conseq (fun g hg => hg.1) fun _ _ h => h
      · exact watched_throw _

/-- What must have happened before a release. -/
def ReleaseOk (feed : String) (strict : Prop) (fl : FeedListener) (log : List LogEntry)
    (phase : Deletion) : Prop :=
  (fl.spec.retainIndexesOnDelete = false → ∀ n, phase.since = some n →
    ∃ job before rest, drainRead feed job before :: rest <:+ log ∧ n ≤ rest.length ∧
      drainOf feed before = some job ∧ (0 < job.status.succeeded ∨ jobFailed job = true)) ∧
  (strict → ∀ v past, log = v :: past → (∃ event, v.call = .event event ∧ event.reason = "Drained") →
    ∃ job before rest, past = drainRead feed job before :: rest ∧ 0 < job.status.succeeded ∧
      CreatedFor feed fl.uid job.metadata.uid rest)

theorem releaseFinalizer_watched :
    Watched feed strict (Noted feed uid (ReleaseOk feed strict fl)) (releaseFinalizer fl)
      fun _ _ => True := by
  refine (watched_attempt (G := fun _ _ => True) lasts_noted (fun _ => lasts_true) ?_
    fun _ _ _ _ _ _ _ _ _ _ => trivial).bind fun r => ?_
  · rintro g - ⟨-, hrel, hdr⟩
    refine ⟨?_, .inl ?_, ?_, ?_⟩
    · rintro o ⟨⟩
    · rintro κ name o ⟨⟩
    · rintro fl' ⟨⟨⟩, -⟩
      exact hrel
    · rintro hs fl' v past ⟨⟨⟩, -⟩
      exact hdr hs v past
  · cases r with
    | error e =>
      dsimp only
      split_ifs
      · exact watched_pure lasts_true fun _ _ => trivial
      · exact watched_throw _
    | ok fl' => exact watched_pure lasts_true fun _ _ => trivial

/-- An event of another reason announces no drain. -/
theorem not_drained {event : Event} {r : Answer (.event event)} {s : Cluster} {v : LogEntry}
    {log past : List LogEntry} (he : (⟨.event event, r, s⟩ : LogEntry) :: log = v :: past)
    (hne : event.reason ≠ "Drained") :
    ¬ ∃ event, v.call = .event event ∧ event.reason = "Drained" := by
  rintro ⟨event', hv, hr⟩
  cases he
  cases hv
  exact hne hr

theorem finishDrain_watched (hu : fl.uid = uid) :
    Watched fl.name strict
      (Noted fl.name uid fun log phase => Idle job ∨ JustRead fl.name uid job log phase)
      (finishDrain fl job) fun _ _ => True := by
  unfold finishDrain
  split_ifs with hsucc hfail
  · refine (noted_event (K := ReleaseOk fl.name strict fl) ?_).bind fun _ => releaseFinalizer_watched
    rintro g r hs hd (⟨h0, -⟩ | ⟨before, rest, hlog, hread, hsince, hcreated⟩)
    · omega
    rw [hlog]
    refine ⟨fun _ n hn => ⟨job, before, rest, List.suffix_cons .., hsince n ?_, hread, .inl hsucc⟩, ?_⟩
    · rwa [called_since] at hn
    · intro hst v past he _
      cases he
      obtain ⟨fl₀, hf, -, hdel⟩ := hd
      refine ⟨job, before, rest, rfl, hsucc, ?_⟩
      rw [hu]
      exact hcreated (hs.armed hst fl₀ hf hdel)
  · refine (noted_event (K := ReleaseOk fl.name strict fl) ?_).bind fun _ => releaseFinalizer_watched
    rintro g r hs hd (⟨-, h0⟩ | ⟨before, rest, hlog, hread, hsince, -⟩)
    · cases h0.symm.trans hfail
    rw [hlog]
    refine ⟨fun _ n hn => ⟨job, before, rest, List.suffix_cons .., hsince n ?_, hread, .inr hfail⟩, ?_⟩
    · rwa [called_since] at hn
    · intro hst v past he hv
      exact absurd hv (not_drained he (show "DrainFailed" ≠ "Drained" by decide))
  · exact watched_pure lasts_noted fun _ _ => trivial

theorem markTerminating_watched :
    Watched fl.name strict (Tearing fl.name fl.uid fun _ => True) (markTerminating fl)
      fun fl' g => (fl'.name = fl.name ∧ fl'.uid = fl.uid) ∧
        Tearing fl.name fl.uid (fun _ => True) g := by
  unfold markTerminating
  split_ifs
  · exact watched_pure (lasts_tearing persists_true) fun g hg => ⟨⟨rfl, rfl⟩, hg⟩
  · have hlast : Lasts fl.name strict (Tearing fl.name fl.uid fun _ => True) :=
      lasts_tearing persists_true
    refine (watched_mild (c := .updateStatus { fl with status := { fl.status with phase := .terminating } })
      (G := fun r g => (∀ fl' : FeedListener, r = .ok fl' → fl'.name = fl.name ∧ fl'.uid = fl.uid) ∧
        Tearing fl.name fl.uid (fun _ => True) g)
      trivial hlast (fun _ => lasts_fact.and hlast) ?_).bind fun r => ?_
    · intro g r s' f _ hF ha hl _ ht
      refine ⟨?_, hF.1.answer hl (fun _ => Call.noConfusion) ha, trivial⟩
      rintro fl' rfl
      obtain ⟨cur, -, hu, rfl, -⟩ := updateStatus_ok ha
      exact ⟨ht, hu⟩
    · cases r with
      | error e => exact watched_pure (lasts_fact.and hlast) fun g hg => ⟨⟨rfl, rfl⟩, hg.2⟩
      | ok fl' => exact watched_pure (lasts_fact.and hlast) fun g hg => ⟨hg.1 fl' rfl, hg.2⟩

theorem finalize_watched :
    Watched fl.name strict (Tearing fl.name fl.uid fun _ => True) (finalize fl) fun _ _ => True := by
  unfold finalize
  split
  · exact watched_pure (lasts_tearing persists_true) fun _ _ => trivial
  refine markTerminating_watched.bind fun fl' => watched_of_fact fun ⟨hname, hu⟩ => ?_
  rw [← hname, ← hu]
  split_ifs with hretain
  · -- the indexes stay; nothing was read, and nothing is called drained
    refine (Watched.conseq (noted_event (L := fun _ _ => True) (K := ReleaseOk fl'.name strict fl') ?_)
      (fun g hg => hg) fun _ _ h => h).bind fun _ => releaseFinalizer_watched
    intro g r _ _ _
    refine ⟨fun h => ?_, fun _ v past he hv => absurd hv (not_drained he ?_)⟩
    · cases h.symm.trans hretain
    · show "DrainSkipped" ≠ "Drained"
      decide
  · refine stopWriters_tearing.bind fun stopped => ?_
    split_ifs with hstopped
    · refine (Watched.conseq ensureDrainJob_watched (fun g hg => ⟨hg.1, hg.2 hstopped⟩)
        fun _ _ h => h).bind fun job => finishDrain_watched rfl
    · refine watched_pure (lasts_tearing fun s s' hs h hst => ?_) fun _ _ => trivial
      exact (h hst).settles hs

end Drain

/-- Nothing is assumed of the run but the invariant. -/
theorem reconcile_watched (sha256 : List UInt8 → List UInt8) (feed : String) (strict : Prop) :
    Watched feed strict (fun _ => True) (reconcile sha256 feed) fun _ _ => True := by
  refine (watched_mild (c := .getFeed feed) (G := fun r g => ∀ fl : FeedListener, r = .ok fl →
      fl.name = feed ∧ (fl.deletionTimestamp = true → Tearing feed fl.uid (fun _ => True) g) ∧
        (fl.deletionTimestamp = false → Undrained g)) trivial lasts_true ?_ ?_).bind fun r => ?_
  · intro r g g' hs h he fl hr
    obtain ⟨hname, hdel, hnot⟩ := h fl hr
    exact ⟨hname, fun hd => lasts_tearing persists_true g g' hs (hdel hd) he,
      fun hd => lasts_undrained g g' hs (hnot hd) he⟩
  · rintro g r s' f hs - ha hl _ ht fl rfl
    have he := getFeed_effect ha
    subst he
    have hf := getFeed_ok ha
    refine ⟨ht, fun hd => ⟨⟨fl, hf, rfl, hd⟩, trivial⟩, fun hd n hn => ?_⟩
    rcases called_draining hn with hn | ⟨hn, -⟩
    all_goals
      have hdel := hs.doomed (by rw [hn]; exact Deletion.noConfusion) fl hf
      cases hdel.symm.trans hd
  · cases r with
    | error e =>
      dsimp only
      split_ifs
      · exact fun _ _ _ _ _ _ _ _ => trivial
      · exact watched_throw _
    | ok fl =>
      change FeedListener at fl
      dsimp only
      split_ifs with hd
      · intro g hs hg
        obtain ⟨rfl, hdel, -⟩ := hg fl rfl
        exact finalize_watched g hs (hdel hd)
      · intro g hs hg
        obtain ⟨rfl, -, hnot⟩ := hg fl rfl
        have horderly : Obedient fl.name (Orderly fl.name)
            (registerFinalizer fl >>= reconcileChildren sha256) fun _ => True := by
          refine ObeysOk.bind registerFinalizer_orderly fun fl' hname => ?_
          rw [← hname]
          exact reconcileChildren_orderly sha256
        exact watched_of_orderly horderly g hs (hnot (Bool.eq_false_iff.mpr hd))

end EliteEvents

import EliteEvents.Proofs.FeedWrites
import EliteEvents.Proofs.Teardown

/-! What the worker knows when it writes the feed or creates a child, call by call, from the calls
it has made before. So every call of a run can be told from the log to be one a reconcile may make. -/

namespace EliteEvents

open Prog

/-- The feed as the current reconcile has read it, at the start. -/
def readBy : List LogEntry → Option FeedListener
  | [] => none
  | e :: past =>
    match e.call, e.answer with
    | .getFeed _, .ok fl => some fl
    | .getFeed _, .error _ => none
    | _, _ => readBy past

theorem readBy_cons {e : LogEntry} (past : List LogEntry) (h : ∀ name, e.call ≠ .getFeed name) :
    readBy (e :: past) = readBy past := by
  obtain ⟨c, r, s⟩ := e
  cases c with
  | getFeed name => exact absurd rfl (h name)
  | _ => rfl

/-- The write finds the version it was made from. -/
def Meets (feed : String) (s : Cluster) (fl cur : FeedListener) : Prop :=
  s.feeds.lookup feed = some cur ∧ cur.uid = fl.uid ∧ cur.resourceVersion = fl.resourceVersion

/-- A drain Job read just before, with its outcome announced since. -/
def DrainOver (feed : String) (event : Event) (rest : List LogEntry) : Prop :=
  ∃ (job : Job) (before : Cluster) (earlier : List LogEntry),
    rest = drainRead feed job before :: earlier ∧ drainOf feed before = some job ∧
    (event.reason = "Drained" ∧ 0 < job.status.succeeded ∨
      event.reason = "DrainFailed" ∧ jobFailed job = true)

/-- Why the finalizer may be given up: the indexes are to stay, or the drain is over. -/
def Warranted (feed : String) (fl : FeedListener) (past : List LogEntry) : Prop :=
  ∃ v rest event, past = v :: rest ∧ v.call = .event event ∧
    (event.reason = "DrainSkipped" ∧ fl.spec.retainIndexesOnDelete = true ∨ DrainOver feed event rest)

/-- A call, made on a cluster after the calls of a log, that a reconcile of the feed may make. -/
structure Vetted (feed : String) (c : Call) (s : Cluster) (past : List LogEntry) : Prop where
  names : c.Names feed
  create : ∀ κ name o, c = .create κ name o → κ ≠ .job →
    ∃ fl₀, readBy past = some fl₀ ∧ fl₀.deletionTimestamp = false ∧ Pinned feed fl₀.uid s
  status : ∀ fl, c = .updateStatus fl → ∃ fl₀, readBy past = some fl₀ ∧ fl.uid = fl₀.uid ∧
    ∀ cur, Meets feed s fl cur → cur.deletionTimestamp = fl₀.deletionTimestamp ∧
      (fl₀.deletionTimestamp = true → cur.status.phase ≠ .terminating ∧ fl.status.phase = .terminating)
  register : ∀ fl, c = .updateFeed fl → feedListenerFinalizer ∈ fl.finalizers →
    ∃ fl₀, readBy past = some fl₀ ∧ fl.uid = fl₀.uid ∧ fl₀.deletionTimestamp = false ∧
      ∀ cur, Meets feed s fl cur → cur.deletionTimestamp = false ∧ fl.spec = cur.spec
  release : ∀ fl, c = .updateFeed fl → feedListenerFinalizer ∉ fl.finalizers →
    (∃ fl₀, readBy past = some fl₀ ∧ fl.uid = fl₀.uid ∧ fl₀.deletionTimestamp = true) ∧
      Warranted feed fl past ∧
      ∀ cur, Meets feed s fl cur → cur.deletionTimestamp = true ∧ fl.spec = cur.spec ∧
        feedListenerFinalizer ∈ cur.finalizers

/-- Calls that neither create a child nor read or write the feed. -/
def Call.Harmless : Call → Prop
  | .create κ _ _ => κ = .job
  | .getFeed _ | .updateFeed _ | .updateStatus _ => False
  | _ => True

theorem Call.Harmless.ne_getFeed {c : Call} (h : c.Harmless) (name : String) : c ≠ .getFeed name := by
  rintro rfl
  exact h

theorem vetted_of_harmless {feed : String} {c : Call} (h : c.Harmless) (s : Cluster)
    (past : List LogEntry) : Vetted feed c s past where
  names := by
    cases c with
    | getFeed name | updateFeed fl | updateStatus fl => exact h.elim
    | _ => trivial
  create := by
    rintro κ name o rfl hκ
    exact absurd h hκ
  status := by
    rintro fl rfl
    exact h.elim
  register := by
    rintro fl rfl
    exact h.elim
  release := by
    rintro fl rfl
    exact h.elim

theorem vetted_getFeed {feed : String} (s : Cluster) (past : List LogEntry) :
    Vetted feed (.getFeed feed) s past where
  names := rfl
  create := fun _ _ _ h => by cases h
  status := fun _ h => by cases h
  register := fun _ h => by cases h
  release := fun _ h => by cases h

theorem vetted_create {feed : String} {κ : Kind} {name : String} {o : Obj κ} {s : Cluster}
    {past : List LogEntry} {fl₀ : FeedListener} (hread : readBy past = some fl₀)
    (hd : fl₀.deletionTimestamp = false) (hp : Pinned feed fl₀.uid s) :
    Vetted feed (.create κ name o) s past where
  names := trivial
  create := fun _ _ _ _ _ => ⟨fl₀, hread, hd, hp⟩
  status := fun _ h => by cases h
  register := fun _ h => by cases h
  release := fun _ h => by cases h

theorem vetted_status {feed : String} {fl fl₀ : FeedListener} {s : Cluster} {past : List LogEntry}
    (hname : fl.name = feed) (hread : readBy past = some fl₀) (hu : fl.uid = fl₀.uid)
    (h : ∀ cur, Meets feed s fl cur → cur.deletionTimestamp = fl₀.deletionTimestamp ∧
      (fl₀.deletionTimestamp = true → cur.status.phase ≠ .terminating ∧ fl.status.phase = .terminating)) :
    Vetted feed (.updateStatus fl) s past where
  names := hname
  create := fun _ _ _ h => by cases h
  status := by
    rintro fl' ⟨⟩
    exact ⟨fl₀, hread, hu, h⟩
  register := fun _ h => by cases h
  release := fun _ h => by cases h

/-- The cluster, with the calls made so far. -/
structure Ledger where
  cluster : Cluster
  log : List LogEntry

section Rules

variable (feed : String)

/-- Every call so far was vetted. -/
structure Audited (g : Ledger) : Prop where
  numbered : Numbered feed g.cluster
  vetted : ∀ e past, e :: past <:+ g.log → Vetted feed e.call e.before past

def Entered (c : Call) (g : Ledger) (r : Answer c) (g' : Ledger) : Prop :=
  ∃ f s', g.cluster.answer f c = (r, s') ∧ g' = ⟨s', ⟨c, r, g.cluster⟩ :: g.log⟩

def Elsewhere (g g' : Ledger) : Prop := 
  ∃ (a : ClusterAction) (s' : Cluster), a.apply feed g.cluster = some s' ∧ g' = ⟨s', g.log⟩

/-- A program of the worker, in which every call is vetted. -/
def Vets {α : Type} (F : Ledger → Prop) (p : Reconciler α) (G : α → Ledger → Prop) : Prop :=
  Triple Entered (Elsewhere feed) (Audited feed) F p G

def Remains (F : Ledger → Prop) : Prop := Stable (Elsewhere feed) (Audited feed) F

variable {feed} {α β : Type} {F : Ledger → Prop} {p : Reconciler α} {G : α → Ledger → Prop}

theorem Audited.elsewhere (g g' : Ledger) (h : Audited feed g) (he : Elsewhere feed g g') :
    Audited feed g' := by
  obtain ⟨a, s', ha, rfl⟩ := he
  exact ⟨h.numbered.apply ha, h.vetted⟩

theorem Audited.enter {g : Ledger} {c : Call} {r : Answer c} {s' : Cluster} {f : Fate}
    (h : Audited feed g) (hc : Vetted feed c g.cluster g.log) (ha : g.cluster.answer f c = (r, s')) :
    Audited feed ⟨s', ⟨c, r, g.cluster⟩ :: g.log⟩ := by
  refine ⟨h.numbered.answer hc.names ha, fun e past hsuf => ?_⟩
  rcases List.suffix_cons_iff.mp hsuf with he | hsuf
  · cases he
    exact hc
  · exact h.vetted e past hsuf

theorem vets_attempt {c : Call} {G : Answer c → Ledger → Prop} (hF : Remains feed F)
    (hG : ∀ r, Remains feed (G r))
    (hc : ∀ g, Audited feed g → F g → Vetted feed c g.cluster g.log)
    (h : ∀ g r s' f, Audited feed g → F g → g.cluster.answer f c = (r, s') →
      G r ⟨s', ⟨c, r, g.cluster⟩ :: g.log⟩) : Vets feed F (attempt c) G := by
  refine triple_perform Audited.elsewhere hF hG ?_
  rintro g r g' hg hF ⟨f, s', ha, rfl⟩
  exact ⟨hg.enter (hc g hg hF) ha, h g r s' f hg hF ha⟩

theorem vets_pure {a : α} (hF : Remains feed F) (h : ∀ g, F g → G a g) : Vets feed F (pure a) G :=
  triple_pure Audited.elsewhere hF a fun g _ => h g

theorem vets_throw (e : Err) : Vets feed F (throw e : Reconciler α) G := triple_throw e

theorem Vets.bind {k : α → Reconciler β} {H : β → Ledger → Prop} (h : Vets feed F p G)
    (hk : ∀ a, Vets feed (G a) (k a) H) : Vets feed F (p >>= k) H :=
  Triple.bind h hk

theorem Vets.conseq {P : Ledger → Prop} {Q : α → Ledger → Prop} (h : Vets feed F p G)
    (hF : ∀ g, P g → F g) (hG : ∀ a g, G a g → Q a g) : Vets feed P p Q :=
  Triple.conseq h (fun g _ => hF g) fun a g _ => hG a g

theorem Vets.wrapping (h : Vets feed F p G) (context : String) : Vets feed F (wrapping context p) G :=
  Triple.tryCatch h fun _ => vets_throw _

/-- A program whose calls are vetted and keep a fact. -/
theorem vets_of_obeys {P : Call → Prop} {Q : α → Prop} (hF : Remains feed F)
    (hp : ObeysOk P (fun _ _ => True) p Q)
    (hc : ∀ c g, Audited feed g → F g → P c → Vetted feed c g.cluster g.log)
    (h : ∀ c g r s' f, Audited feed g → F g → P c → g.cluster.answer f c = (r, s') →
      F ⟨s', ⟨c, r, g.cluster⟩ :: g.log⟩) : Vets feed F p fun _ => F := by
  have htriple : Triple Entered (Elsewhere feed) (Audited feed) F p fun a g => Q a ∧ F g := by
    refine triple_of_obeys Audited.elsewhere hF hp ?_
    rintro c g r g' hg hF hP ⟨f, s', ha, rfl⟩
    exact ⟨hg.enter (hc c g hg hF hP) ha, h c g r s' f hg hF hP ha, trivial⟩
  exact Triple.conseq htriple (fun _ _ h => h) fun _ _ _ h => h.2

/-- A fact about the result alone may be used to choose the program. -/
theorem vets_of_fact {A : Prop} (h : A → Vets feed F p G) : Vets feed (fun g => A ∧ F g) p G :=
  fun g hg hF => h hF.1 g hg hF.2

theorem remains_known (base : FeedListener) : Remains feed fun g => Known feed base g.cluster := by
  rintro g g' hg h ⟨a, s', ha, rfl⟩
  exact h.apply hg.numbered ha

theorem remains_log (L : List LogEntry → Prop) : Remains feed fun g => L g.log := by
  rintro g g' hg h ⟨a, s', ha, rfl⟩
  exact h

theorem Remains.and {F G : Ledger → Prop} (hF : Remains feed F) (hG : Remains feed G) :
    Remains feed fun g => F g ∧ G g :=
  fun g g' hg h he => ⟨hF g g' hg h.1 he, hG g g' hg h.2 he⟩

theorem remains_fact {A : Prop} : Remains feed fun _ => A := fun _ _ _ h _ => h

theorem remains_pinned (uid : ℕ) : Remains feed fun g => Pinned feed uid g.cluster := by
  rintro g g' hg h ⟨a, s', ha, rfl⟩
  exact h.apply hg.numbered ha

end Rules

/-! A reconcile of a feed that is not being deleted. -/

section Reconcile

variable {fl fl₀ : FeedListener}

/-- The reconcile has read the feed, and the finalizer is in place. -/
def Working (fl₀ fl : FeedListener) (g : Ledger) : Prop :=
  readBy g.log = some fl₀ ∧ Known fl.name fl g.cluster ∧ Pinned fl.name fl.uid g.cluster

theorem remains_working : Remains fl.name (Working fl₀ fl) :=
  (remains_log fun log => readBy log = some fl₀).and ((remains_known fl).and (remains_pinned fl.uid))

theorem reconcileCall_vetted {T : (c : Call) → Answer c → Prop} {c : Call} (h : ReconcileCall T fl c)
    (hu : fl.uid = fl₀.uid) (hd : fl.deletionTimestamp = false) (hd₀ : fl₀.deletionTimestamp = false)
    {g : Ledger} (hg : Working fl₀ fl g) : Vetted fl.name c g.cluster g.log := by
  obtain ⟨hread, hknown, hpinned⟩ := hg
  cases h with
  | create h ho =>
    rw [hu] at hpinned
    exact vetted_create hread hd₀ hpinned
  | status st =>
    refine vetted_status rfl hread hu fun cur hm => ?_
    obtain rfl := hknown.2 cur hm.1 hm.2.2
    refine ⟨hd.trans hd₀.symm, fun h => ?_⟩
    cases hd₀.symm.trans h
  | _ =>
    refine vetted_of_harmless ?_ g.cluster g.log
    trivial

theorem reconcileCall_ne {T : (c : Call) → Answer c → Prop} {c : Call} (h : ReconcileCall T fl c) :
    (∀ name, c ≠ .getFeed name) ∧ ∀ fl', c ≠ .updateFeed fl' := by
  cases h <;> exact ⟨fun _ => Call.noConfusion, fun _ => Call.noConfusion⟩

theorem reconcileChildren_vets (sha256 : List UInt8 → List UInt8) (hu : fl.uid = fl₀.uid)
    (hd : fl.deletionTimestamp = false) (hd₀ : fl₀.deletionTimestamp = false) :
    Vets fl.name (Working fl₀ fl) (reconcileChildren sha256 fl) fun _ _ => True := by
  refine (vets_of_obeys remains_working (reconcileChildren_calls sha256)
    (fun c g _ hw hc => reconcileCall_vetted hc hu hd hd₀ hw) ?_).conseq (fun _ h => h) fun _ _ _ => trivial
  intro c g r s' f hg hw hc ha
  have hnames := (reconcileCall_vetted hc hu hd hd₀ hw).names
  obtain ⟨hne, hnu⟩ := reconcileCall_ne hc
  obtain ⟨hread, hknown, hpinned⟩ := hw
  refine ⟨(readBy_cons g.log hne).trans hread, hknown.answer hg.numbered hnames ha, ?_⟩
  exact hpinned.answer hg.numbered hnames (fun fl' h => absurd h (hnu fl')) ha

/-- The reconcile has read the feed. -/
def Opened (feed : String) (fl₀ : FeedListener) (g : Ledger) : Prop :=
  readBy g.log = some fl₀ ∧ Known feed fl₀ g.cluster ∧
    (feedListenerFinalizer ∈ fl₀.finalizers → Pinned feed fl₀.uid g.cluster)

theorem remains_opened {feed : String} : Remains feed (Opened feed fl₀) := by
  rintro g g' hg ⟨hread, hknown, hpinned⟩ ⟨a, s', ha, rfl⟩
  exact ⟨hread, hknown.apply hg.numbered ha, fun hf => (hpinned hf).apply hg.numbered ha⟩

theorem vetted_register {feed : String} {s : Cluster} {past : List LogEntry} (hname : fl.name = feed)
    (hread : readBy past = some fl₀) (hu : fl.uid = fl₀.uid) (hd : fl₀.deletionTimestamp = false)
    (hf : feedListenerFinalizer ∈ fl.finalizers)
    (h : ∀ cur, Meets feed s fl cur → cur.deletionTimestamp = false ∧ fl.spec = cur.spec) :
    Vetted feed (.updateFeed fl) s past where
  names := hname
  create := fun _ _ _ h => by cases h
  status := fun _ h => by cases h
  register := by
    rintro fl' ⟨⟩ -
    exact ⟨fl₀, hread, hu, hd, h⟩
  release := by
    rintro fl' ⟨⟩ hn
    exact absurd hf hn

/-- The feed with the finalizer added. -/
def claimed (fl : FeedListener) : FeedListener :=
  { fl with finalizers := fl.finalizers ++ [feedListenerFinalizer] }

theorem mem_claimed (fl : FeedListener) : feedListenerFinalizer ∈ (claimed fl).finalizers :=
  List.mem_append_right _ List.mem_cons_self

/-- The server has answered with the feed as the reconcile goes on with it. -/
def Registered (fl₀ : FeedListener) (r : Answer (.updateFeed (claimed fl₀))) (g : Ledger) : Prop :=
  ∀ fl : FeedListener, r = .ok fl →
    (fl.name = fl₀.name ∧ fl.uid = fl₀.uid ∧ fl.deletionTimestamp = false) ∧
      readBy g.log = some fl₀ ∧ Known fl₀.name fl g.cluster ∧ Pinned fl₀.name fl.uid g.cluster

theorem remains_registered (r : Answer (.updateFeed (claimed fl₀))) :
    Remains fl₀.name (Registered fl₀ r) := by
  intro g g' hg h he fl hr
  obtain ⟨hfl, hread, hknown, hpinned⟩ := h fl hr
  obtain ⟨a, s', ha, rfl⟩ := he
  exact ⟨hfl, hread, hknown.apply hg.numbered ha, hpinned.apply hg.numbered ha⟩

theorem registerFinalizer_vets (hd : fl₀.deletionTimestamp = false) :
    Vets fl₀.name (Opened fl₀.name fl₀) (registerFinalizer fl₀) fun fl g =>
      (fl.name = fl₀.name ∧ fl.uid = fl₀.uid ∧ fl.deletionTimestamp = false) ∧ Working fl₀ fl g := by
  unfold registerFinalizer
  split_ifs with hf
  · exact vets_pure remains_opened fun g hg => ⟨⟨rfl, rfl, hd⟩, hg.1, hg.2.1, hg.2.2 hf⟩
  · refine Vets.wrapping (Vets.bind (vets_attempt (c := .updateFeed (claimed fl₀)) remains_opened
      remains_registered ?_ ?_) fun r => ?_) _
    · rintro g hg ⟨hread, hknown, -⟩
      refine vetted_register rfl hread rfl hd (mem_claimed fl₀) fun cur hm => ?_
      obtain rfl := hknown.2 cur hm.1 hm.2.2
      exact ⟨hd, rfl⟩
    · rintro g r s' f hg ⟨hread, hknown, -⟩ ha fl rfl
      have hname : (claimed fl₀).name = fl₀.name := rfl
      obtain ⟨cur, hl, hversion, hfl, hgone | hl'⟩ := updateFeed_stored hname hg.numbered ha
      · obtain rfl := hknown.2 cur hl hversion
        cases hd.symm.trans hgone.1
      · obtain rfl := hknown.2 cur hl hversion
        subst hfl
        have hnumbered : Numbered cur.name s' := 
          hg.numbered.answer (c := .updateFeed (claimed cur)) rfl ha
        exact ⟨⟨rfl, rfl, hd⟩, hread, known_of_lookup hnumbered hl', _, hl', rfl, mem_claimed cur⟩
    · cases r with
      | error e => exact vets_throw _
      | ok fl =>
        change FeedListener at fl
        refine vets_pure (remains_registered (.ok fl)) fun g hg => ?_
        obtain ⟨hfl, hread, hknown, hpinned⟩ := hg fl rfl
        refine ⟨hfl, hread, ?_⟩
        rw [hfl.1]
        exact ⟨hknown, hpinned⟩

end Reconcile

/-! A reconcile of a feed that is being deleted. -/

section Finalize

variable {feed : String} {fl fl₀ : FeedListener} {job : Job} {L K : List LogEntry → Prop}

/-- The worker goes by a version it has read or written, with perhaps another status, and this much
is known of the log. -/
def Closing (feed : String) (fl₀ fl : FeedListener) (L : List LogEntry → Prop) (g : Ledger) : Prop :=
  (readBy g.log = some fl₀ ∧ ∃ base, Restated base fl ∧ Known feed base g.cluster) ∧ L g.log

theorem remains_closing : Remains feed (Closing feed fl₀ fl L) := by
  rintro g g' hg ⟨⟨hread, base, hbase, hknown⟩, hL⟩ ⟨a, s', ha, rfl⟩
  exact ⟨⟨hread, base, hbase, hknown.apply hg.numbered ha⟩, hL⟩

theorem Closing.call {g : Ledger} {c : Call} {r : Answer c} {s' : Cluster} {f : Fate}
    (h : Closing feed fl₀ fl L g) (hg : Audited feed g) (hc : c.Harmless)
    (ha : g.cluster.answer f c = (r, s'))
    (hK : L g.log → K (⟨c, r, g.cluster⟩ :: g.log)) :
    Closing feed fl₀ fl K ⟨s', ⟨c, r, g.cluster⟩ :: g.log⟩ := by
  obtain ⟨⟨hread, base, hbase, hknown⟩, hL⟩ := h
  have hn : c.Names feed := (vetted_of_harmless hc g.cluster g.log).names
  exact ⟨⟨(readBy_cons g.log hc.ne_getFeed).trans hread, base, hbase, hknown.answer hg.numbered hn ha⟩,
    hK hL⟩

theorem vets_harmless {c : Call} {G : Answer c → List LogEntry → Prop} (hc : c.Harmless)
    (h : ∀ (g : Ledger) r s' f, L g.log → g.cluster.answer f c = (r, s') →
      G r (⟨c, r, g.cluster⟩ :: g.log)) :
    Vets feed (Closing feed fl₀ fl L) (attempt c) fun r => Closing feed fl₀ fl (G r) := by
  refine vets_attempt remains_closing (fun _ => remains_closing)
    (fun g _ _ => vetted_of_harmless hc g.cluster g.log) fun g r s' f hg hF ha => ?_
  exact hF.call hg hc ha fun hL => h g r s' f hL ha

theorem vets_event {warning : Bool} {reason action note : String}
    (h : ∀ s r log, L log → K (⟨.event ⟨fl.uid, warning, reason, action, note⟩, r, s⟩ :: log)) :
    Vets feed (Closing feed fl₀ fl L) (eventf fl warning reason action note)
      fun _ => Closing feed fl₀ fl K := by
  refine Vets.bind (vets_harmless (G := fun _ => K) trivial
    fun g r _ _ hL _ => h g.cluster r g.log hL) fun _ => ?_
  exact vets_pure remains_closing fun _ h => h

theorem vetted_release {s : Cluster} {past : List LogEntry} (hname : fl.name = feed)
    (hread : readBy past = some fl₀) (hu : fl.uid = fl₀.uid) (hd : fl₀.deletionTimestamp = true)
    (hf : feedListenerFinalizer ∉ fl.finalizers) (hw : Warranted feed fl past)
    (h : ∀ cur, Meets feed s fl cur → cur.deletionTimestamp = true ∧ fl.spec = cur.spec ∧
      feedListenerFinalizer ∈ cur.finalizers) :
    Vetted feed (.updateFeed fl) s past where
  names := hname
  create := fun _ _ _ h => by cases h
  status := fun _ h => by cases h
  register := by
    rintro fl' ⟨⟩ hn
    exact absurd hn hf
  release := by
    rintro fl' ⟨⟩ -
    exact ⟨⟨fl₀, hread, hu, hd⟩, hw, h⟩

/-- What the worker knows of the feed it tears down. -/
structure Condemned (feed : String) (fl₀ fl : FeedListener) : Prop where
  name : fl.name = feed
  uid : fl.uid = fl₀.uid
  read : fl₀.deletionTimestamp = true
  deleting : fl.deletionTimestamp = true
  finalizer : feedListenerFinalizer ∈ fl.finalizers

theorem releaseFinalizer_vets (hfl : Condemned feed fl₀ fl) :
    Vets feed (Closing feed fl₀ fl (Warranted feed fl)) (releaseFinalizer fl) fun _ _ => True := by
  refine Vets.bind (vets_attempt (G := fun _ _ => True) remains_closing (fun _ => remains_fact) ?_
    fun _ _ _ _ _ _ _ => trivial) fun r => ?_
  · rintro g hg ⟨⟨hread, base, hbase, hknown⟩, hw⟩
    refine vetted_release hfl.name hread hfl.uid hfl.read ?_ hw fun cur hm => ?_
    · intro hmem
      exact absurd (of_decide_eq_true (List.mem_filter.mp hmem).2) (fun h => h rfl)
    · obtain ⟨hversion, hd, hf, hspec⟩ := hbase.same
      obtain rfl := hknown.2 cur hm.1 (hm.2.2.trans hversion)
      exact ⟨hd.symm.trans hfl.deleting, hspec, hf ▸ hfl.finalizer⟩
  · cases r with
    | error e =>
      dsimp only
      split_ifs
      · exact vets_pure remains_fact fun _ _ => trivial
      · exact vets_throw _
    | ok fl' => exact vets_pure remains_fact fun _ _ => trivial

/-- The last call was the reading of that drain Job. -/
def DrainSeen (feed : String) (job : Job) (log : List LogEntry) : Prop :=
  ∃ before earlier, log = drainRead feed job before :: earlier ∧ drainOf feed before = some job

theorem ensureDrainJob_vets (hname : fl.name = feed) :
    Vets feed (Closing feed fl₀ fl L) (ensureDrainJob fl)
      fun job => Closing feed fl₀ fl fun log => Idle job ∨ DrainSeen feed job log := by
  subst hname
  have hannounce : ∀ job, Idle job → Vets fl.name (Closing fl.name fl₀ fl fun _ => True)
      (announceDrain fl job)
      fun job => Closing fl.name fl₀ fl fun log => Idle job ∨ DrainSeen fl.name job log := by
    intro job hidle
    refine Vets.bind (vets_event (K := fun _ => True) fun _ _ _ _ => trivial) fun _ => ?_
    exact vets_pure remains_closing fun g hg => ⟨hg.1, .inl hidle⟩
  refine Vets.bind (vets_harmless (c := .get .job (drainJobName fl.name))
    (G := fun r log => ∀ job : Job, r = .ok job → DrainSeen fl.name job log) trivial ?_)
    fun r => ?_
  · rintro g r s' f - ha job rfl
    exact ⟨g.cluster, g.log, rfl, (get_ok ha).1⟩
  · cases r with
    | ok job =>
      change Job at job
      exact vets_pure remains_closing fun g hg => ⟨hg.1, .inr (hg.2 job rfl)⟩
    | error e =>
      dsimp only
      split_ifs
      · refine Vets.bind (vets_harmless (c := .create .job (drainJobName fl.name) (drainJob fl))
          (G := fun r _ => ∀ job : Job, r = .ok job → Idle job) rfl ?_) fun r => ?_
        · rintro g r s' f - ha job rfl
          rw [create_answered ha]
          exact ⟨rfl, rfl⟩
        · cases r with
          | error e =>
            dsimp only
            split_ifs
            · exact (hannounce _ ⟨rfl, rfl⟩).conseq (fun g hg => ⟨hg.1, trivial⟩) fun _ _ h => h
            · exact vets_throw _
          | ok job =>
            change Job at job
            intro g hg hF
            exact hannounce job (hF.2 job rfl) g hg ⟨hF.1, trivial⟩
      · exact vets_throw _

theorem finishDrain_vets (hfl : Condemned feed fl₀ fl) :
    Vets feed (Closing feed fl₀ fl fun log => Idle job ∨ DrainSeen feed job log) (finishDrain fl job)
      fun _ _ => True := by
  obtain rfl := hfl.name
  unfold finishDrain
  split_ifs with hsucc hfail
  · refine Vets.bind (vets_event (K := Warranted fl.name fl) ?_) fun _ => releaseFinalizer_vets hfl
    rintro s r log (⟨h0, -⟩ | ⟨before, earlier, rfl, hjob⟩)
    · omega
    · exact ⟨_, _, _, rfl, rfl, .inr ⟨job, before, earlier, rfl, hjob, .inl ⟨rfl, hsucc⟩⟩⟩
  · refine Vets.bind (vets_event (K := Warranted fl.name fl) ?_) fun _ => releaseFinalizer_vets hfl
    rintro s r log (⟨-, h0⟩ | ⟨before, earlier, rfl, hjob⟩)
    · cases h0.symm.trans hfail
    · exact ⟨_, _, _, rfl, rfl, .inr ⟨job, before, earlier, rfl, hjob, .inr ⟨rfl, hfail⟩⟩⟩
  · exact vets_pure remains_closing fun _ _ => trivial

theorem stopWriters_vets :
    Vets fl.name (Closing fl.name fl₀ fl fun _ => True) (stopWriters fl)
      fun _ => Closing fl.name fl₀ fl fun _ => True := by
  have hcall : ∀ {c : Call}, StopCall (fun _ _ => True) fl.name c → c.Harmless := by
    intro c hc
    cases hc <;> trivial
  exact vets_of_obeys remains_closing stopWriters_calls
    (fun c g _ _ hc => vetted_of_harmless (hcall hc) g.cluster g.log)
    fun c g r s' f hg hF hc ha => hF.call hg (hcall hc) ha fun _ => trivial

/-- The feed with the phase Terminating. -/
def terminating (fl : FeedListener) : FeedListener :=
  { fl with status := { fl.status with phase := .terminating } }

theorem markTerminating_vets (hfl : Condemned feed fl₀ fl₀) :
    Vets feed (Opened feed fl₀) (markTerminating fl₀) fun fl g =>
      Condemned feed fl₀ fl ∧ Closing feed fl₀ fl (fun _ => True) g := by
  unfold markTerminating
  split_ifs with hphase
  · exact vets_pure remains_opened fun g hg => ⟨hfl, ⟨hg.1, fl₀, rfl, hg.2.1⟩, trivial⟩
  · refine Vets.bind (vets_attempt (c := .updateStatus (terminating fl₀)) (G := fun r g =>
      Closing feed fl₀ (terminating fl₀) (fun _ => True) g ∧ ∀ fl : FeedListener, r = .ok fl →
        Condemned feed fl₀ fl ∧ Closing feed fl₀ fl (fun _ => True) g) remains_opened ?_ ?_ ?_)
      fun r => ?_
    · intro r g g' hg h he
      exact ⟨remains_closing g g' hg h.1 he,
        fun fl hr => ⟨(h.2 fl hr).1, remains_closing g g' hg (h.2 fl hr).2 he⟩⟩
    · rintro g hg ⟨hread, hknown, -⟩
      refine vetted_status hfl.name hread rfl fun cur hm => ?_
      obtain rfl := hknown.2 cur hm.1 hm.2.2
      exact ⟨rfl, fun _ => ⟨hphase, rfl⟩⟩
    · rintro g r s' f hg ⟨hread, hknown, -⟩ ha
      refine ⟨⟨⟨hread, fl₀, rfl, 
        hknown.answer (c := .updateStatus (terminating fl₀)) hg.numbered hfl.name ha⟩, trivial⟩, ?_⟩
      rintro fl rfl
      have hname : (terminating fl₀).name = feed := hfl.name
      obtain ⟨cur, hl, hversion, hfl', hl'⟩ := updateStatus_stored hname hg.numbered ha
      obtain rfl := hknown.2 cur hl hversion
      have hnumbered : Numbered feed s' := hg.numbered.answer (c := .updateStatus (terminating cur)) hname ha
      refine ⟨?_, ⟨hread, fl, rfl, known_of_lookup hnumbered hl'⟩, trivial⟩
      rw [hfl']
      exact ⟨hfl.name, rfl, hfl.read, hfl.deleting, hfl.finalizer⟩
    · have hremains : Remains feed fun g => Closing feed fl₀ (terminating fl₀) (fun _ => True) g ∧
          ∀ fl : FeedListener, r = .ok fl →
            Condemned feed fl₀ fl ∧ Closing feed fl₀ fl (fun _ => True) g := by
        intro g g' hg h he
        exact ⟨remains_closing g g' hg h.1 he,
          fun fl hr => ⟨(h.2 fl hr).1, remains_closing g g' hg (h.2 fl hr).2 he⟩⟩
      cases r with
      | error e =>
        refine vets_pure hremains fun g hg => ⟨?_, hg.1⟩
        exact ⟨hfl.name, rfl, hfl.read, hfl.deleting, hfl.finalizer⟩
      | ok fl => exact vets_pure hremains fun g hg => hg.2 fl rfl

theorem finalize_vets (hname : fl₀.name = feed) (hd : fl₀.deletionTimestamp = true) :
    Vets feed (Opened feed fl₀) (finalize fl₀) fun _ _ => True := by
  unfold finalize
  split
  · exact vets_pure remains_opened fun _ _ => trivial
  · rename_i hf
    refine (markTerminating_vets ⟨hname, rfl, hd, hd, not_not.mp hf⟩).bind fun fl =>
      vets_of_fact fun hfl => ?_
    obtain rfl := hfl.name
    split_ifs with hretain
    · refine Vets.bind (vets_event (K := Warranted fl.name fl) ?_) fun _ => releaseFinalizer_vets hfl
      exact fun s r log _ => ⟨_, _, _, rfl, rfl, .inl ⟨rfl, hretain⟩⟩
    · refine stopWriters_vets.bind fun stopped => ?_
      split_ifs
      · exact (ensureDrainJob_vets rfl).bind fun job => finishDrain_vets hfl
      · exact vets_pure remains_closing fun _ _ => trivial

end Finalize

/-- Every call of a reconcile is vetted. -/
theorem reconcile_vets (sha256 : List UInt8 → List UInt8) (feed : String) :
    Vets feed (fun _ => True) (reconcile sha256 feed) fun _ _ => True := by
  refine Vets.bind (vets_attempt (c := .getFeed feed) (G := fun r g => ∀ fl₀ : FeedListener, r = .ok fl₀ →
    fl₀.name = feed ∧ Opened feed fl₀ g) remains_fact ?_
    (fun g _ _ => vetted_getFeed g.cluster g.log) ?_) fun r => ?_
  · exact fun r g g' hg h he fl₀ hr => ⟨(h fl₀ hr).1, remains_opened g g' hg (h fl₀ hr).2 he⟩
  · rintro g r s' f hg - ha fl₀ rfl
    obtain rfl := getFeed_effect ha
    have hl := getFeed_ok ha
    exact ⟨(hg.numbered fl₀ hl).1, rfl, known_of_lookup hg.numbered hl, fun hf => ⟨fl₀, hl, rfl, hf⟩⟩
  · cases r with
    | error e =>
      dsimp only
      split_ifs
      · exact fun _ _ _ _ _ _ _ _ => trivial
      · exact vets_throw _
    | ok fl₀ =>
      change FeedListener at fl₀
      intro g hg hF
      obtain ⟨rfl, hopened⟩ := hF fl₀ rfl
      dsimp only
      split_ifs with hd
      · exact finalize_vets rfl hd g hg hopened
      · have hd₀ := Bool.eq_false_iff.mpr hd
        refine Vets.bind (registerFinalizer_vets hd₀) (fun fl => vets_of_fact fun hfl => ?_) g hg hopened
        obtain ⟨hname, hu, hd'⟩ := hfl
        rw [← hname]
        exact reconcileChildren_vets sha256 hu hd' hd₀

/-! Whole runs. -/

section Runs

variable {sha256 : List UInt8 → List UInt8} {feed : String} {w w' : World}

def World.ledger (w : World) : Ledger := ⟨w.cluster, w.log⟩

/-- Every call so far was vetted, and every call to come will be. -/
def Vouched (feed : String) (w : World) : Prop :=
  Audited feed w.ledger ∧
    w.worker.wp Entered (Elsewhere feed) (Audited feed) (fun r _ => ∀ a, r = .ok a → True) w.ledger

theorem vouched_initial : Vouched feed World.initial := by
  refine ⟨⟨numbered_initial, fun e past h => ?_⟩, fun _ _ _ _ _ => trivial⟩
  cases List.eq_nil_of_suffix_nil h

theorem Vouched.step {a : Action} (h : Vouched feed w) (hstep : w.step sha256 feed a = some w') :
    Vouched feed w' := by
  obtain ⟨hg, hwp⟩ := h
  rcases step_cases hstep with ⟨-, -, rfl⟩ | ⟨f, c, k, r, s, -, hc, ha, rfl⟩ | ⟨-, rfl⟩ | ⟨e, s, -, he, rfl⟩
  · exact ⟨hg, reconcile_vets sha256 feed w.ledger hg trivial⟩
  · rw [hc] at hwp
    exact hwp w.ledger .refl hg r _ ⟨f, s, ha, rfl⟩
  · exact ⟨hg, fun _ _ _ _ _ => trivial⟩
  · have henv : Elsewhere feed w.ledger ⟨s, w.log⟩ := ⟨e, s, he, rfl⟩
    exact ⟨hg.elsewhere w.ledger _ henv, wp_env hwp (.single henv)⟩

/-- The call of a step. -/
theorem Vouched.vetted {f : Fate} {c : Call} {k : Answer c → Prog Call Answer (Except Err Requeue)}
    (h : Vouched feed w) (hc : w.worker = .call c k) (hstep : w.step sha256 feed (.call f) = some w') :
    Vetted feed c w.cluster w.log := by
  have h' := h.step hstep
  rcases step_cases hstep with ⟨ha, -⟩ | ⟨f', c', k', r, s, -, hc', -, rfl⟩ | ⟨ha, -⟩ | ⟨e, s, ha, -⟩
  · cases ha
  · cases hc.symm.trans hc'
    exact h'.1.vetted _ _ (List.suffix_refl _)
  · cases ha
  · cases ha

end Runs

end EliteEvents

import EliteEvents.Spec.Watches
import EliteEvents.Proofs.Vetting

/-! The controller does not wake itself in a loop: what a reconcile writes to a feed that is not
being deleted passes `feedListenerTriggers` unnoticed, and a whole teardown wakes the controller at
most twice, with the phase Terminating and with the release. What others write is never missed. -/

namespace EliteEvents

/-- What a vetted call of a reconcile that has read `fl₀` makes of the feed. -/
inductive VettedWrite (r : ℕ) (fl₀ : Option FeedListener) : Call → Option FeedListener →
    Option FeedListener → Prop
  | keep (c : Call) (fl : Option FeedListener) : VettedWrite r fl₀ c fl fl
  | poll (fl cur base : FeedListener) (hread : fl₀ = some base) (hd₀ : base.deletionTimestamp = false)
    (hd : cur.deletionTimestamp = false) :
    VettedWrite r fl₀ (.updateStatus fl) (some cur)
      (some { cur with status := fl.status, resourceVersion := r + 1 })
  | terminate (fl cur base : FeedListener) (hread : fl₀ = some base) (hd₀ : base.deletionTimestamp = true)
    (hd : cur.deletionTimestamp = true) (hcur : cur.status.phase ≠ .terminating)
    (hfl : fl.status.phase = .terminating) :
    VettedWrite r fl₀ (.updateStatus fl) (some cur)
      (some { cur with status := fl.status, resourceVersion := r + 1 })
  | register (fl cur base : FeedListener) (hread : fl₀ = some base) (hd₀ : base.deletionTimestamp = false)
    (hd : cur.deletionTimestamp = false) :
    VettedWrite r fl₀ (.updateFeed fl) (some cur)
      (some { cur with finalizers := fl.finalizers, resourceVersion := r + 1 })
  | release (fl cur base : FeedListener) (hread : fl₀ = some base) (hd₀ : base.deletionTimestamp = true)
    (hd : cur.deletionTimestamp = true) (hcur : feedListenerFinalizer ∈ cur.finalizers)
    (hfl : feedListenerFinalizer ∉ fl.finalizers) :
    VettedWrite r fl₀ (.updateFeed fl) (some cur)
      (some { cur with finalizers := fl.finalizers, resourceVersion := r + 1 })
  | gone (fl cur : FeedListener) : VettedWrite r fl₀ (.updateFeed fl) (some cur) none

section Writes

variable {feed : String} {s s' : Cluster}

theorem Vetted.write {c : Call} {log : List LogEntry} (hv : Vetted feed c s log) (hs : Numbered feed s)
    {f : Fate} {a : Answer c} (ha : s.answer f c = (a, s')) :
    VettedWrite s.revision (readBy log) c (s.feeds.lookup feed) (s'.feeds.lookup feed) := by
  have hw := answer_workerWrite hs hv.names ha
  have hmeets : ∀ {fl cur : FeedListener}, s.feeds.lookup feed = some cur → cur.uid = fl.uid →
      cur.resourceVersion = fl.resourceVersion → Meets feed s fl cur := fun h₁ h₂ h₃ => ⟨h₁, h₂, h₃⟩
  revert hw hmeets
  generalize s.feeds.lookup feed = old
  generalize s'.feeds.lookup feed = new
  generalize s'.revision = r'
  intro hw hmeets
  cases hw with
  | keep => exact .keep c _
  | status fl cur huid hversion =>
    obtain ⟨fl₀, hread, -, h⟩ := hv.status fl rfl
    obtain ⟨hd, hphase⟩ := h cur (hmeets rfl huid hversion)
    cases hd₀ : fl₀.deletionTimestamp with
    | false => exact .poll fl cur fl₀ hread hd₀ (hd.trans hd₀)
    | true => exact .terminate fl cur fl₀ hread hd₀ (hd.trans hd₀) (hphase hd₀).1 (hphase hd₀).2
  | update fl cur huid hversion =>
    by_cases hf : feedListenerFinalizer ∈ fl.finalizers
    · obtain ⟨fl₀, hread, -, hd₀, h⟩ := hv.register fl rfl hf
      obtain ⟨hd, hspec⟩ := h cur (hmeets rfl huid hversion)
      rw [hspec, if_pos rfl]
      exact .register fl cur fl₀ hread hd₀ hd
    · obtain ⟨⟨fl₀, hread, -, hd₀⟩, -, h⟩ := hv.release fl rfl hf
      obtain ⟨hd, hspec, hcur⟩ := h cur (hmeets rfl huid hversion)
      rw [hspec, if_pos rfl]
      exact .release fl cur fl₀ hread hd₀ hd hcur hf
  | release fl cur => exact .gone fl cur

end Writes

/-! Which writes are noticed. -/

section Events

variable {feed : String} {r r' : ℕ} {c : Call} {fl₀ old new : Option FeedListener} {e : UpdateEvent}

theorem updateEvent_some (h : updateEvent old new = some e) :
    ∃ o n, old = some o ∧ new = some n ∧ o.resourceVersion ≠ n.resourceVersion ∧ e = ⟨o, n⟩ := by
  unfold updateEvent at h
  split at h
  · rename_i o n
    split_ifs at h with hversion
    cases h
    exact ⟨o, n, rfl, rfl, hversion, rfl⟩
  · cases h

theorem triggers_iff (o n : FeedListener) : feedListenerTriggers ⟨o, n⟩ = true ↔
    n.deletionTimestamp = true ∨ o.generation ≠ n.generation := by
  cases hd : n.deletionTimestamp <;> simp [feedListenerTriggers, hd]

/-- Nothing that a reconcile writes to a feed it has not found deleted. -/
theorem VettedWrite.unnoticed (h : VettedWrite r fl₀ c old new) {base : FeedListener}
    (hread : fl₀ = some base) (hd : base.deletionTimestamp = false) (he : updateEvent old new = some e) :
    feedListenerTriggers e = false := by
  obtain ⟨o, n, rfl, rfl, hversion, rfl⟩ := updateEvent_some he
  have hquiet : n.deletionTimestamp = false → o.generation = n.generation →
      feedListenerTriggers ⟨o, n⟩ = false := by
    intro hdn hg
    rw [Bool.eq_false_iff, ne_eq, triggers_iff]
    rintro (h | h)
    · cases hdn.symm.trans h
    · exact h hg
  cases h with
  | keep => exact absurd rfl hversion
  | poll fl _ _ _ _ hcur => exact hquiet hcur rfl
  | register fl _ _ _ _ hcur => exact hquiet hcur rfl
  | terminate fl _ base' hread' hd₀ | release fl _ base' hread' hd₀ =>
    cases hread.symm.trans hread'
    cases hd.symm.trans hd₀

/-- Every change of the spec, and everything about a feed that is being deleted. -/
theorem UserWrite.noticed (h : UserWrite feed r old new) (he : updateEvent old new = some e)
    {o n : FeedListener} (ho : e.objectOld = some o) (hn : e.objectNew = some n)
    (hchange : o.spec ≠ n.spec ∨ n.deletionTimestamp = true) : feedListenerTriggers e = true := by
  obtain ⟨o', n', rfl, rfl, hversion, rfl⟩ := updateEvent_some he
  cases ho
  cases hn
  rw [triggers_iff]
  refine hchange.symm.imp id fun hspec => ?_
  cases h with
  | keep => exact absurd rfl hversion
  | edit _ spec =>
    have hne : spec ≠ o.spec := fun h => hspec h.symm
    simp [hne]
  | mark => exact absurd rfl hspec

theorem VettedWrite.noticed (h : VettedWrite r fl₀ c old new) (he : updateEvent old new = some e)
    {o n : FeedListener} (ho : e.objectOld = some o) (hn : e.objectNew = some n)
    (hchange : o.spec ≠ n.spec ∨ n.deletionTimestamp = true) : feedListenerTriggers e = true := by
  obtain ⟨o', n', rfl, rfl, -, rfl⟩ := updateEvent_some he
  cases ho
  cases hn
  rw [triggers_iff]
  refine hchange.symm.imp id fun hspec => ?_
  cases h <;> exact absurd rfl hspec

/-- The feed with that UID, if it is there, is being deleted and says so. -/
def SaysSo (uid : ℕ) (fl : Option FeedListener) : Prop :=
  ∀ cur, fl = some cur → cur.uid = uid → cur.deletionTimestamp = true ∧ cur.status.phase = .terminating

/-- The feed with that UID, if it is there, is being deleted and has been released. -/
def LetGo (uid : ℕ) (fl : Option FeedListener) : Prop :=
  ∀ cur, fl = some cur → cur.uid = uid →
    cur.deletionTimestamp = true ∧ feedListenerFinalizer ∉ cur.finalizers

theorem UserWrite.saysSo {uid : ℕ} (h : UserWrite feed r old new) (hu : uid ≤ r) (hs : SaysSo uid old) :
    SaysSo uid new := by
  intro fl hfl huid
  rcases h.of_some hfl with ⟨-, hnew, -⟩ | ⟨cur, hcur, -, hsame, -, hst, hd, -⟩
  · omega
  · obtain ⟨hdel, hphase⟩ := hs cur hcur (hsame.symm.trans huid)
    rw [hst]
    exact ⟨hd hdel, hphase⟩

theorem UserWrite.letGo {uid : ℕ} (h : UserWrite feed r old new) (hu : uid ≤ r) (hs : LetGo uid old) :
    LetGo uid new := by
  intro fl hfl huid
  rcases h.of_some hfl with ⟨-, hnew, -⟩ | ⟨cur, hcur, -, hsame, hf, -, hd, -⟩
  · omega
  · obtain ⟨hdel, hnot⟩ := hs cur hcur (hsame.symm.trans huid)
    rw [hf]
    exact ⟨hd hdel, hnot⟩

theorem VettedWrite.saysSo {uid : ℕ} (h : VettedWrite r fl₀ c old new) (hs : SaysSo uid old) :
    SaysSo uid new := by
  intro fl hfl huid
  cases h with
  | keep => exact hs fl hfl huid
  | poll _ cur _ _ _ hd | register _ cur _ _ _ hd =>
    cases hfl
    cases hd.symm.trans (hs cur rfl huid).1
  | terminate _ cur _ _ _ hd _ hphase =>
    cases hfl
    exact ⟨hd, hphase⟩
  | release _ cur =>
    cases hfl
    exact hs cur rfl huid
  | gone => cases hfl

theorem VettedWrite.letGo {uid : ℕ} (h : VettedWrite r fl₀ c old new) (hs : LetGo uid old) :
    LetGo uid new := by
  intro fl hfl huid
  cases h with
  | keep => exact hs fl hfl huid
  | poll _ cur _ _ _ hd | register _ cur _ _ _ hd =>
    cases hfl
    cases hd.symm.trans (hs cur rfl huid).1
  | terminate _ cur =>
    cases hfl
    exact hs cur rfl huid
  | release _ cur _ _ _ hd _ hnot =>
    cases hfl
    exact ⟨hd, hnot⟩
  | gone => cases hfl

/-- A call that is noticed either says for the first time that the feed is terminating, or lets it
go. -/
theorem VettedWrite.noticed_once {uid : ℕ} (h : VettedWrite r fl₀ c old new)
    (he : updateEvent old new = some e) (ht : feedListenerTriggers e = true) {n : FeedListener}
    (hn : e.objectNew = some n) (hu : n.uid = uid) :
    ((∃ fl, c = .updateStatus fl) ∧ ¬ SaysSo uid old ∧ SaysSo uid new) ∨
      ((∃ fl, Releases c fl) ∧ ¬ LetGo uid old ∧ LetGo uid new) := by
  have hquiet : ∀ base, fl₀ = some base → base.deletionTimestamp = false → feedListenerTriggers e = false :=
    fun base hread hd => h.unnoticed hread hd he
  obtain ⟨o, n', rfl, rfl, hversion, rfl⟩ := updateEvent_some he
  cases hn
  cases h with
  | keep => exact absurd rfl hversion
  | poll fl _ base hread hd₀ hd | register fl _ base hread hd₀ hd =>
    cases (hquiet base hread hd₀).symm.trans ht
  | terminate fl _ _ _ _ hd hcur hfl =>
    refine .inl ⟨⟨fl, rfl⟩, fun hs => hcur (hs o rfl hu).2, ?_⟩
    rintro fl' ⟨⟩ -
    exact ⟨hd, hfl⟩
  | release fl _ _ _ _ hd hcur hfl =>
    refine .inr ⟨⟨fl, rfl, hfl⟩, fun hs => (hs o rfl hu).2 hcur, ?_⟩
    rintro fl' ⟨⟩ -
    exact ⟨hd, hfl⟩

end Events

/-! Whole runs. -/

section Runs

variable {sha256 : List UInt8 → List UInt8} {feed : String} {ts : List Transition} {w w' : World}

theorem Vouched.trace (h : World.Trace sha256 feed ts w) : Vouched feed w := by
  induction h with
  | nil => exact vouched_initial
  | cons a _ hs ih => exact ih.step hs

/-- A kind of step that can only be taken while a condition does not hold, and brings it about for
good, is taken at most once. -/
theorem at_most_once {q : Transition → Bool} {A : World → Prop}
    (hkeep : ∀ w a w', Vouched feed w → w.step sha256 feed a = some w' → A w → A w')
    (honce : ∀ w a w', Vouched feed w → w.step sha256 feed a = some w' → q ⟨w, a, w'⟩ = true →
      ¬ A w ∧ A w') (h : World.Trace sha256 feed ts w) :
    ts.countP q ≤ 1 ∧ (0 < ts.countP q → A w) := by
  induction h with
  | nil => exact ⟨Nat.zero_le 1, fun h => absurd h (lt_irrefl 0)⟩
  | @cons ts w w' a h hs ih =>
    have hv := Vouched.trace h
    obtain ⟨hle, hA⟩ := ih
    rw [List.countP_cons]
    split_ifs with hq
    · obtain ⟨hnot, hthen⟩ := honce w a w' hv hs hq
      have hzero : ts.countP q = 0 := by
        by_contra hne
        exact hnot (hA (Nat.pos_of_ne_zero hne))
      rw [hzero]
      exact ⟨le_rfl, fun _ => hthen⟩
    · exact ⟨hle, fun hpos => hkeep w a w' hv hs (hA hpos)⟩

/-- How the feed changes in a step: by a user, by a vetted call, or not at all. -/
theorem step_feed {a : Action} (hv : Vouched feed w) (hs : w.step sha256 feed a = some w') :
    ((⟨w, a, w'⟩ : Transition).call = none ∧ w.cluster.revision ≤ w'.cluster.revision ∧
      UserWrite feed w.cluster.revision (w.cluster.feeds.lookup feed) (w'.cluster.feeds.lookup feed)) ∨
    ∃ c, (⟨w, a, w'⟩ : Transition).call = some c ∧ w.cluster.revision ≤ w'.cluster.revision ∧
      VettedWrite w.cluster.revision (readBy w.log) c (w.cluster.feeds.lookup feed)
        (w'.cluster.feeds.lookup feed) := by
  have hn : Numbered feed w.cluster := hv.1.numbered
  rcases step_cases hs with ⟨rfl, -, rfl⟩ | ⟨f, c, k, r, s, rfl, hc, ha, rfl⟩ | ⟨rfl, rfl⟩ |
    ⟨e, s, rfl, he, rfl⟩
  · exact .inl ⟨rfl, le_rfl, .keep _⟩
  · have hvet := hv.vetted hc hs
    refine .inr ⟨c, ?_, (answer_workerWrite hn hvet.names ha).revision_le, hvet.write hn ha⟩
    rw [Transition.call, hc]
  · exact .inl ⟨rfl, le_rfl, .keep _⟩
  · obtain ⟨huser, hrev⟩ := apply_userWrite hn he
    exact .inl ⟨rfl, hrev ▸ Nat.le_succ _, huser⟩

theorem trace_mem (h : World.Trace sha256 feed ts w) {t : Transition} (ht : t ∈ ts) :
    Vouched feed t.before ∧ t.before.step sha256 feed t.action = some t.after := by
  induction h with
  | nil => cases ht
  | cons a h hs ih =>
    rcases List.mem_cons.mp ht with rfl | ht
    · exact ⟨Vouched.trace h, hs⟩
    · exact ih ht

theorem wakes_spec {t : Transition} {uid : ℕ} (h : t.wakes feed uid = true) :
    (∃ c, t.call = some c) ∧ ∃ e n, t.event feed = some e ∧ feedListenerTriggers e = true ∧
      e.objectNew = some n ∧ n.uid = uid := by
  unfold Transition.wakes at h
  obtain ⟨hcall, hevent⟩ := Bool.and_eq_true_iff.mp h
  obtain ⟨e, he, h⟩ := (Option.any_eq_true _ _).mp hevent
  obtain ⟨htrig, h⟩ := Bool.and_eq_true_iff.mp h
  obtain ⟨n, hn, hu⟩ := (Option.any_eq_true _ _).mp h
  exact ⟨Option.isSome_iff_exists.mp hcall, e, n, he, htrig, hn, beq_iff_eq.mp hu⟩

/-- What a call that wakes the controller has done. -/
theorem wakes_cases {t : Transition} {uid : ℕ} (hv : Vouched feed t.before)
    (hs : t.before.step sha256 feed t.action = some t.after) (h : t.wakes feed uid = true) :
    uid ≤ t.after.cluster.revision ∧
    ((t.isStatus = true ∧ ¬ SaysSo uid (t.before.cluster.feeds.lookup feed) ∧
        SaysSo uid (t.after.cluster.feeds.lookup feed)) ∨
      (t.isStatus = false ∧ (∃ c fl, t.call = some c ∧ Releases c fl) ∧
        ¬ LetGo uid (t.before.cluster.feeds.lookup feed) ∧
        LetGo uid (t.after.cluster.feeds.lookup feed))) := by
  obtain ⟨⟨c, hc⟩, e, n, he, ht, hn, hu⟩ := wakes_spec h
  rcases step_feed hv hs with ⟨hnone, -⟩ | ⟨c', hc', -, hw⟩
  · cases hc.symm.trans hnone
  · cases hc.symm.trans hc'
    refine ⟨?_, ?_⟩
    · obtain ⟨o, n', -, hnew, -, rfl⟩ := updateEvent_some he
      cases hn
      exact hu ▸ ((hv.step hs).1.numbered n hnew).2.1
    · rcases hw.noticed_once he ht hn hu with ⟨⟨fl, rfl⟩, hrest⟩ | ⟨⟨fl, rfl, hf⟩, hrest⟩
      · refine .inl ⟨?_, hrest⟩
        rw [Transition.isStatus, hc]
      · refine .inr ⟨?_, ⟨_, fl, hc, rfl, hf⟩, hrest⟩
        rw [Transition.isStatus, hc]

/-- A condition on the feed with a UID that users and vetted calls keep, kept by every step. -/
theorem step_keeps {A : Option FeedListener → Prop} {uid : ℕ} {a : Action}
    (huser : ∀ {r old new}, UserWrite feed r old new → uid ≤ r → A old → A new)
    (hcall : ∀ {r fl₀ c old new}, VettedWrite r fl₀ c old new → A old → A new)
    (hv : Vouched feed w) (hs : w.step sha256 feed a = some w')
    (h : uid ≤ w.cluster.revision ∧ A (w.cluster.feeds.lookup feed)) :
    uid ≤ w'.cluster.revision ∧ A (w'.cluster.feeds.lookup feed) := by
  rcases step_feed hv hs with ⟨-, hr, hw⟩ | ⟨c, -, hr, hw⟩
  · exact ⟨h.1.trans hr, huser hw h.1 h.2⟩
  · exact ⟨h.1.trans hr, hcall hw h.2⟩

theorem status_wakes_once (h : World.Trace sha256 feed ts w) (uid : ℕ) :
    ts.countP (fun t => t.wakes feed uid && t.isStatus) ≤ 1 := by
  refine (at_most_once (A := fun w => uid ≤ w.cluster.revision ∧ SaysSo uid (w.cluster.feeds.lookup feed))
    (fun w a w' hv hs => step_keeps UserWrite.saysSo VettedWrite.saysSo hv hs) ?_ h).1
  intro w a w' hv hs hq
  obtain ⟨hwakes, hstatus⟩ := Bool.and_eq_true_iff.mp hq
  obtain ⟨hu, ⟨-, hnot, hthen⟩ | ⟨hno, -⟩⟩ := @wakes_cases sha256 _ _ _ hv hs hwakes
  · exact ⟨fun hA => hnot hA.2, hu, hthen⟩
  · cases hstatus.symm.trans hno

theorem release_wakes_once (h : World.Trace sha256 feed ts w) (uid : ℕ) :
    ts.countP (fun t => t.wakes feed uid && !t.isStatus) ≤ 1 := by
  refine (at_most_once (A := fun w => uid ≤ w.cluster.revision ∧ LetGo uid (w.cluster.feeds.lookup feed))
    (fun w a w' hv hs => step_keeps UserWrite.letGo VettedWrite.letGo hv hs) ?_ h).1
  intro w a w' hv hs hq
  obtain ⟨hwakes, hstatus⟩ := Bool.and_eq_true_iff.mp hq
  obtain ⟨hu, ⟨hyes, -⟩ | ⟨-, -, hnot, hthen⟩⟩ := @wakes_cases sha256 _ _ _ hv hs hwakes
  · rw [hyes] at hstatus
    cases hstatus
  · exact ⟨fun hA => hnot hA.2, hu, hthen⟩

/-- Over every run: what a reconcile writes to a feed it has read without a deletion timestamp wakes
nobody; over the whole life of a feed, at most one write of the status and one release of the
finalizer wake the controller; and no change of the spec or of a feed that is being deleted is missed. -/
theorem controller_never_loops (h : World.Trace sha256 feed ts w) :
    (∀ t ∈ ts, t.call.isSome = true → ∀ fl₀, readBy t.before.log = some fl₀ →
      fl₀.deletionTimestamp = false → ∀ e, t.event feed = some e → feedListenerTriggers e = false) ∧
    (∀ uid, ts.countP (fun t => t.wakes feed uid && t.isStatus) ≤ 1 ∧
      ts.countP (fun t => t.wakes feed uid && !t.isStatus) ≤ 1 ∧
      ∀ t ∈ ts, t.wakes feed uid = true → t.isStatus = true ∨ ∃ c fl, t.call = some c ∧ Releases c fl) ∧
    ∀ t ∈ ts, ∀ e o n, t.event feed = some e → e.objectOld = some o → e.objectNew = some n →
      o.spec ≠ n.spec ∨ n.deletionTimestamp = true → feedListenerTriggers e = true := by
  refine ⟨?_, fun uid => ⟨status_wakes_once h uid, release_wakes_once h uid, ?_⟩, ?_⟩
  · intro t ht hcall fl₀ hread hd e he
    obtain ⟨hv, hs⟩ := trace_mem h ht
    rcases step_feed hv hs with ⟨hnone, -⟩ | ⟨c, -, -, hw⟩
    · have hnot : t.call.isSome = false := congrArg Option.isSome hnone
      cases hnot.symm.trans hcall
    · exact hw.unnoticed hread hd he
  · intro t ht hwakes
    obtain ⟨hv, hs⟩ := trace_mem h ht
    exact (wakes_cases hv hs hwakes).2.imp (fun hst => hst.1) fun hrel => hrel.2.1
  · intro t ht e o n he ho hn hchange
    obtain ⟨hv, hs⟩ := trace_mem h ht
    rcases step_feed hv hs with ⟨-, -, hw⟩ | ⟨c, -, -, hw⟩
    · exact hw.noticed he ho hn hchange
    · exact hw.noticed he ho hn hchange

end Runs

section Eddn

/-- A scripted run, with its steps. -/
def World.record (sha256 : List UInt8 → List UInt8) (feed : String) :
    List Action → List Transition → World → Option (List Transition × World)
  | [], ts, w => some (ts, w)
  | a :: as, ts, w => (w.step sha256 feed a).bind fun w' => record sha256 feed as (⟨w, a, w'⟩ :: ts) w'

theorem trace_record {sha256 : List UInt8 → List UInt8} {feed : String} {acts : List Action}
    {ts ts' : List Transition} {w w' : World} (h : World.Trace sha256 feed ts w)
    (hr : World.record sha256 feed acts ts w = some (ts', w')) : World.Trace sha256 feed ts' w' := by
  induction acts generalizing ts w with
  | nil =>
    cases hr
    exact h
  | cons a acts ih =>
    obtain ⟨w₁, hs, hr⟩ := Option.bind_eq_some_iff.mp hr
    exact ih (.cons a h hs) hr

/-- The sample feed is created, reconciled, deleted and found deleted: of all the calls, one wakes
the controller, with the phase Terminating. -/
theorem controller_never_loops_eddn :
    ∃ ts w, World.record eddnDigest "eddn" ([.cluster (.createFeed (eddnSpec 1)), .reconcile] ++ served 14 ++
        [.cluster .deleteFeed, .reconcile] ++ served 3) [] World.initial = some (ts, w) ∧
      ts.countP (fun t => t.wakes "eddn" 1) = 1 ∧
      ts.countP (fun t => t.wakes "eddn" 1 && t.isStatus) ≤ 1 := by
  have h : ((World.record eddnDigest "eddn" ([.cluster (.createFeed (eddnSpec 1)), .reconcile] ++ served 14 ++
      [.cluster .deleteFeed, .reconcile] ++ served 3) [] World.initial).map fun p =>
        decide (p.1.countP (fun t => t.wakes "eddn" 1) = 1)) = some true := by
    decide +kernel
  obtain ⟨⟨ts, w⟩, hr, h⟩ := Option.map_eq_some_iff.mp h
  exact ⟨ts, w, hr, of_decide_eq_true h, ((controller_never_loops (trace_record .nil hr)).2.1 1).1⟩

end Eddn

end EliteEvents

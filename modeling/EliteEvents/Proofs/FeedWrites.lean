import EliteEvents.Proofs.Served
import EliteEvents.Proofs.Discipline

/-! Who writes the FeedListener, and what: users create, edit and delete it, the worker sets its
finalizer and its status. Every write gives it a new resource version, so what the worker has read
of it, it has read for good: a write of the worker takes effect on that very version or not at all. -/

namespace EliteEvents

/-- The feed of a name before and after an action of users or the cluster, made at a revision. -/
inductive UserWrite (feed : String) (r : ℕ) : Option FeedListener → Option FeedListener → Prop
  | keep (fl : Option FeedListener) : UserWrite feed r fl fl
  | create (fl : FeedListener) (hname : fl.name = feed) (huid : fl.uid = r + 1)
    (hversion : fl.resourceVersion = r + 1) (hd : fl.deletionTimestamp = false)
    (hf : fl.finalizers = []) : UserWrite feed r none (some fl)
  | edit (fl : FeedListener) (spec : FeedListenerSpec) :
    UserWrite feed r (some fl) (some { fl with
      spec := spec
      generation := if spec = fl.spec then fl.generation else fl.generation + 1
      resourceVersion := r + 1 })
  | remove (fl : FeedListener) (hd : fl.deletionTimestamp = false) (hf : fl.finalizers = []) :
    UserWrite feed r (some fl) none
  | mark (fl : FeedListener) (hd : fl.deletionTimestamp = false) (hf : fl.finalizers ≠ []) :
    UserWrite feed r (some fl) (some { fl with
      deletionTimestamp := true
      generation := fl.generation + 1
      resourceVersion := r + 1 })

/-- The same for a call of the worker, with the revision after it. -/
inductive WorkerWrite (r : ℕ) : ℕ → Call → Option FeedListener → Option FeedListener → Prop
  | keep {r' : ℕ} (h : r ≤ r') (c : Call) (fl : Option FeedListener) : WorkerWrite r r' c fl fl
  | status (fl cur : FeedListener) (huid : cur.uid = fl.uid)
    (hversion : cur.resourceVersion = fl.resourceVersion) :
    WorkerWrite r (r + 1) (.updateStatus fl) (some cur)
      (some { cur with status := fl.status, resourceVersion := r + 1 })
  | update (fl cur : FeedListener) (huid : cur.uid = fl.uid)
    (hversion : cur.resourceVersion = fl.resourceVersion) :
    WorkerWrite r (r + 1) (.updateFeed fl) (some cur) (some { cur with
      finalizers := fl.finalizers
      spec := fl.spec
      generation := if fl.spec = cur.spec then cur.generation else cur.generation + 1
      resourceVersion := r + 1 })
  | release (fl cur : FeedListener) (huid : cur.uid = fl.uid)
    (hversion : cur.resourceVersion = fl.resourceVersion) (hd : cur.deletionTimestamp = true)
    (hf : fl.finalizers = []) : WorkerWrite r (r + 1) (.updateFeed fl) (some cur) none

/-- The feed goes by its name, and its numbers come from the revisions so far. -/
def Numbered (feed : String) (s : Cluster) : Prop :=
  ∀ fl, s.feeds.lookup feed = some fl →
    fl.name = feed ∧ fl.uid ≤ s.revision ∧ fl.resourceVersion ≤ s.revision

section Writes

variable {feed : String} {s s' : Cluster}

theorem numbered_initial : Numbered feed World.initial.cluster := fun _ h => by cases h

private theorem lookup_setFeed {fl : FeedListener} (h : fl.name = feed) :
    (s.setFeed fl).feeds.lookup feed = some fl := by
  rw [Cluster.feeds_setFeed, h, AList.lookup_insert]

private theorem userWrite_setFeed {fl : FeedListener} {old : Option FeedListener} (hname : fl.name = feed)
    (hold : s.feeds.lookup feed = old) (h : UserWrite feed s.revision old (some fl)) :
    UserWrite feed s.revision (s.feeds.lookup feed) ((s.setFeed fl).feeds.lookup feed) := by
  rw [lookup_setFeed hname, hold]
  exact h

theorem apply_userWrite {a : ClusterAction} (hs : Numbered feed s) (ha : a.apply feed s = some s') :
    UserWrite feed s.revision (s.feeds.lookup feed) (s'.feeds.lookup feed) ∧
      s'.revision = s.revision + 1 := by
  have hkeep : ∀ {s'' : Cluster}, s''.feeds = s.feeds →
      UserWrite feed s.revision (s.feeds.lookup feed) (s''.feeds.lookup feed) := by
    intro s'' h
    rw [h]
    exact .keep _
  cases a with
  | createFeed spec =>
    simp only [ClusterAction.apply] at ha
    split at ha
    · cases ha
    · rename_i hn
      split_ifs at ha
      cases ha
      exact ⟨userWrite_setFeed rfl hn (.create _ rfl rfl rfl rfl rfl), rfl⟩
  | editSpec spec =>
    obtain ⟨fl, hl, ha⟩ := Option.bind_eq_some_iff.mp ha
    split_ifs at ha
    cases ha
    exact ⟨userWrite_setFeed (hs fl hl).1 hl (.edit fl spec), rfl⟩
  | deleteFeed =>
    obtain ⟨fl, hl, ha⟩ := Option.bind_eq_some_iff.mp ha
    split_ifs at ha with hd hf
    · cases ha
      rw [Cluster.feeds_dropFeed, AList.lookup_erase, hl]
      exact ⟨.remove fl (Bool.eq_false_iff.mpr hd) hf, rfl⟩
    · cases ha
      exact ⟨userWrite_setFeed (hs fl hl).1 hl (.mark fl (Bool.eq_false_iff.mpr hd) hf), rfl⟩
  | startShardPod name =>
    cases moves_of_apply ha with
    | startShardPod _ d _ _ _ h =>
      obtain ⟨data, -, rfl⟩ := startPod_eq h
      exact ⟨hkeep rfl, rfl⟩
  | startJobPod name =>
    cases moves_of_apply ha with
    | startJobPod _ j _ _ _ h =>
      obtain ⟨data, -, rfl⟩ := startPod_eq h
      exact ⟨hkeep rfl, rfl⟩
  | spawnJob name suffix =>
    cases moves_of_apply ha
    exact ⟨hkeep rfl, rfl⟩
  | podStatus id running readyCondition podIP =>
    cases moves_of_apply ha
    exact ⟨hkeep rfl, rfl⟩
  | podGone id =>
    cases moves_of_apply ha
    exact ⟨hkeep rfl, rfl⟩
  | jobStatus name status =>
    cases moves_of_apply ha
    exact ⟨hkeep rfl, rfl⟩
  | cronStatus name t =>
    cases moves_of_apply ha
    exact ⟨hkeep rfl, rfl⟩
  | mark κ name =>
    cases moves_of_apply ha
    exact ⟨hkeep rfl, rfl⟩
  | gone κ name =>
    cases moves_of_apply ha
    exact ⟨hkeep rfl, rfl⟩

/-- A call that reads or writes a feed is about the feed of that name. -/
def Call.Names (feed : String) : Call → Prop
  | .getFeed name => name = feed
  | .updateFeed fl | .updateStatus fl => fl.name = feed
  | _ => True

private theorem workerWrite_setFeed {c : Call} {fl cur : FeedListener} (hname : fl.name = feed)
    (hold : s.feeds.lookup feed = some cur)
    (h : WorkerWrite s.revision (s.revision + 1) c (some cur) (some fl)) :
    WorkerWrite s.revision (s.setFeed fl).revision c (s.feeds.lookup feed)
      ((s.setFeed fl).feeds.lookup feed) := by
  rw [lookup_setFeed hname, hold]
  exact h

theorem serve_workerWrite (hs : Numbered feed s) {c : Call} (hc : c.Names feed) :
    WorkerWrite s.revision (s.serve c).2.revision c (s.feeds.lookup feed)
      ((s.serve c).2.feeds.lookup feed) := by
  by_cases hw : c.WritesFeed
  · cases c with
    | updateFeed fl =>
      obtain rfl : fl.name = feed := hc
      simp only [Cluster.serve]
      split
      · exact .keep le_rfl _ _
      · rename_i cur hl
        split_ifs with hu hd
        · rw [Cluster.feeds_dropFeed, AList.lookup_erase, hl]
          exact .release fl cur hu.1 hu.2 hd.1 hd.2
        · exact workerWrite_setFeed (hs cur hl).1 hl (.update fl cur hu.1 hu.2)
        · exact .keep le_rfl _ _
    | updateStatus fl =>
      obtain rfl : fl.name = feed := hc
      simp only [Cluster.serve]
      split
      · exact .keep le_rfl _ _
      · rename_i cur hl
        split_ifs with hu
        · exact workerWrite_setFeed (hs cur hl).1 hl (.status fl cur hu.1 hu.2)
        · exact .keep le_rfl _ _
    | _ => exact hw.elim
  · rw [serve_feeds s hw]
    exact .keep (serve_revision s c) c _

theorem answer_workerWrite (hs : Numbered feed s) {c : Call} (hc : c.Names feed) {f : Fate}
    {a : Answer c} (ha : s.answer f c = (a, s')) :
    WorkerWrite s.revision s'.revision c (s.feeds.lookup feed) (s'.feeds.lookup feed) := by
  rcases answer_effect ha with rfl | rfl
  · exact .keep le_rfl c _
  · exact serve_workerWrite hs hc

/-- An update that is answered was made on the version it came from; that feed stays unless it was
being deleted and has given up its last finalizer. -/
theorem updateFeed_stored {fl fl' : FeedListener} {f : Fate} (hname : fl.name = feed)
    (hs : Numbered feed s) (h : s.answer f (.updateFeed fl) = (.ok fl', s')) :
    ∃ cur, s.feeds.lookup feed = some cur ∧ cur.resourceVersion = fl.resourceVersion ∧
      fl' = s.mergeFeed cur fl ∧ ((cur.deletionTimestamp = true ∧ fl.finalizers = []) ∨
        s'.feeds.lookup feed = some fl') := by
  subst hname
  have ha := answer_ok h id
  simp only [Cluster.serve] at ha
  split at ha
  · cases ha
  · rename_i cur hl
    split_ifs at ha with hu hd
    · cases ha
      exact ⟨cur, hl, hu.2, rfl, .inl hd⟩
    · cases ha
      exact ⟨cur, hl, hu.2, rfl, .inr (lookup_setFeed (hs cur hl).1)⟩
    · cases ha

theorem updateStatus_stored {fl fl' : FeedListener} {f : Fate} (hname : fl.name = feed)
    (hs : Numbered feed s) (h : s.answer f (.updateStatus fl) = (.ok fl', s')) :
    ∃ cur, s.feeds.lookup feed = some cur ∧ cur.resourceVersion = fl.resourceVersion ∧
      fl' = { cur with status := fl.status, resourceVersion := s.revision + 1 } ∧
      s'.feeds.lookup feed = some fl' := by
  subst hname
  have ha := answer_ok h id
  simp only [Cluster.serve] at ha
  split at ha
  · cases ha
  · rename_i cur hl
    split_ifs at ha with hu
    · cases ha
      exact ⟨cur, hl, hu.2, rfl, lookup_setFeed (hs cur hl).1⟩
    · cases ha

/-- Users leave the finalizers and the status alone, and never call a deletion off. -/
theorem UserWrite.of_some {r : ℕ} {old new : Option FeedListener} (h : UserWrite feed r old new)
    {fl : FeedListener} (hn : new = some fl) :
    (fl.name = feed ∧ fl.uid = r + 1 ∧ fl.resourceVersion = r + 1) ∨
      ∃ cur, old = some cur ∧ fl.name = cur.name ∧ fl.uid = cur.uid ∧ fl.finalizers = cur.finalizers ∧
        fl.status = cur.status ∧ (cur.deletionTimestamp = true → fl.deletionTimestamp = true) ∧
        (fl = cur ∨ fl.resourceVersion = r + 1) := by
  cases h with
  | keep => exact .inr ⟨fl, hn, rfl, rfl, rfl, rfl, id, .inl rfl⟩
  | create fl' hname huid hversion hd hf =>
    cases hn
    exact .inl ⟨hname, huid, hversion⟩
  | edit cur spec =>
    cases hn
    exact .inr ⟨cur, rfl, rfl, rfl, rfl, rfl, id, .inr rfl⟩
  | remove cur hd hf => cases hn
  | mark cur hd hf =>
    cases hn
    exact .inr ⟨cur, rfl, rfl, rfl, rfl, rfl, fun _ => rfl, .inr rfl⟩

/-- The worker neither brings a feed about nor changes whether it is being deleted. -/
theorem WorkerWrite.of_some {r r' : ℕ} {c : Call} {old new : Option FeedListener}
    (h : WorkerWrite r r' c old new) {fl : FeedListener} (hn : new = some fl) :
    ∃ cur, old = some cur ∧ fl.name = cur.name ∧ fl.uid = cur.uid ∧
      fl.deletionTimestamp = cur.deletionTimestamp ∧ (fl = cur ∨ fl.resourceVersion = r + 1 ∧ r' = r + 1) := by
  cases h with
  | keep => exact ⟨fl, hn, rfl, rfl, rfl, .inl rfl⟩
  | status fl' cur huid hversion =>
    cases hn
    exact ⟨cur, rfl, rfl, rfl, rfl, .inr ⟨rfl, rfl⟩⟩
  | update fl' cur huid hversion =>
    cases hn
    exact ⟨cur, rfl, rfl, rfl, rfl, .inr ⟨rfl, rfl⟩⟩
  | release fl' cur huid hversion hd hf => cases hn

theorem WorkerWrite.revision_le {r r' : ℕ} {c : Call} {old new : Option FeedListener}
    (h : WorkerWrite r r' c old new) : r ≤ r' := by
  cases h with
  | keep h => exact h
  | status | update | release => exact Nat.le_succ r

theorem Numbered.apply {a : ClusterAction} (hs : Numbered feed s) (ha : a.apply feed s = some s') :
    Numbered feed s' := by
  obtain ⟨hw, hr⟩ := apply_userWrite hs ha
  intro fl hl
  rcases hw.of_some hl with ⟨hname, huid, hversion⟩ | ⟨cur, hcur, hname, huid, -, -, -, hversion⟩
  · exact ⟨hname, by omega, by omega⟩
  · obtain ⟨hn, hu, hv⟩ := hs cur hcur
    refine ⟨hname.trans hn, by omega, ?_⟩
    rcases hversion with rfl | hversion <;> omega

theorem Numbered.answer {c : Call} (hs : Numbered feed s) (hc : c.Names feed) {f : Fate}
    {a : Answer c} (ha : s.answer f c = (a, s')) : Numbered feed s' := by
  have hw := answer_workerWrite hs hc ha
  have hr := hw.revision_le
  intro fl hl
  obtain ⟨cur, hcur, hname, huid, -, hversion⟩ := hw.of_some hl
  obtain ⟨hn, hu, hv⟩ := hs cur hcur
  refine ⟨hname.trans hn, by omega, ?_⟩
  rcases hversion with rfl | hversion <;> omega

/-- This version of the feed is known: if the server still has it under that number, it is this. -/
def Known (feed : String) (base : FeedListener) (s : Cluster) : Prop :=
  (base.uid ≤ s.revision ∧ base.resourceVersion ≤ s.revision) ∧
    ∀ cur, s.feeds.lookup feed = some cur → cur.resourceVersion = base.resourceVersion → cur = base

theorem known_of_lookup {base : FeedListener} (hs : Numbered feed s)
    (h : s.feeds.lookup feed = some base) : Known feed base s := by
  refine ⟨(hs base h).2, fun cur hcur _ => ?_⟩
  rw [h] at hcur
  exact (Option.some.inj hcur).symm

theorem Known.apply {base : FeedListener} {a : ClusterAction} (h : Known feed base s)
    (hs : Numbered feed s) (ha : a.apply feed s = some s') : Known feed base s' := by
  obtain ⟨hw, hr⟩ := apply_userWrite hs ha
  obtain ⟨⟨hu, hv⟩, hsame⟩ := h
  refine ⟨⟨by omega, by omega⟩, fun fl hl hversion => ?_⟩
  rcases hw.of_some hl with ⟨-, -, hnew⟩ | ⟨cur, hcur, -, -, -, -, -, rfl | hnew⟩
  · omega
  · exact hsame fl hcur hversion
  · omega

theorem Known.answer {base : FeedListener} {c : Call} (h : Known feed base s) (hs : Numbered feed s)
    (hc : c.Names feed) {f : Fate} {a : Answer c} (ha : s.answer f c = (a, s')) : Known feed base s' := by
  have hw := answer_workerWrite hs hc ha
  have hr := hw.revision_le
  obtain ⟨⟨hu, hv⟩, hsame⟩ := h
  refine ⟨⟨by omega, by omega⟩, fun fl hl hversion => ?_⟩
  obtain ⟨cur, hcur, -, -, -, rfl | hnew⟩ := hw.of_some hl
  · exact hsame fl hcur hversion
  · omega

/-- That incarnation of the feed is there, and has its finalizer. -/
def Pinned (feed : String) (uid : ℕ) (s : Cluster) : Prop :=
  ∃ cur, s.feeds.lookup feed = some cur ∧ cur.uid = uid ∧ feedListenerFinalizer ∈ cur.finalizers

/-- Users cannot remove it, nor take its finalizer. -/
theorem Pinned.apply {uid : ℕ} {a : ClusterAction} (h : Pinned feed uid s) (hs : Numbered feed s)
    (ha : a.apply feed s = some s') : Pinned feed uid s' := by
  have hw := (apply_userWrite hs ha).1
  unfold Pinned at h ⊢
  revert hw h
  generalize s.feeds.lookup feed = old
  generalize s'.feeds.lookup feed = new
  rintro ⟨cur, rfl, hu, hf⟩ hw
  cases hw with
  | keep => exact ⟨cur, rfl, hu, hf⟩
  | edit _ spec => exact ⟨_, rfl, hu, hf⟩
  | remove _ hd hnone =>
    rw [hnone] at hf
    cases hf
  | mark _ hd hsome => exact ⟨_, rfl, hu, hf⟩

/-- Neither can a call of the worker, unless it gives the finalizer up. -/
theorem Pinned.answer {uid : ℕ} {c : Call} (h : Pinned feed uid s) (hs : Numbered feed s)
    (hc : c.Names feed) (hne : ∀ fl, c = .updateFeed fl → feedListenerFinalizer ∈ fl.finalizers) {f : Fate}
    {a : Answer c} (ha : s.answer f c = (a, s')) : Pinned feed uid s' := by
  have hw := answer_workerWrite hs hc ha
  unfold Pinned at h ⊢
  revert hw h
  generalize s.feeds.lookup feed = old
  generalize s'.feeds.lookup feed = new
  generalize s'.revision = r'
  rintro ⟨cur, rfl, hu, hf⟩ hw
  cases hw with
  | keep => exact ⟨cur, rfl, hu, hf⟩
  | status fl => exact ⟨_, rfl, hu, hf⟩
  | update fl => exact ⟨_, rfl, hu, hne fl rfl⟩
  | release fl _ _ _ _ hnone =>
    have hmem := hne fl rfl
    rw [hnone] at hmem
    cases hmem

end Writes

end EliteEvents

import EliteEvents.Proofs.Vetting

/-! No child without the finalizer: once a reconcile of a feed has created a child, that feed is
there and has its finalizer until the teardown gives it up, and it does so only for a feed that is
being deleted, with its drain over or skipped. A deletion asked for at any point of a first
reconcile finds the finalizer in place, or no child. -/

namespace EliteEvents

section Defs

/-- A reconcile of that incarnation has created a ConfigMap, a Service, a Deployment or a CronJob,
or has tried to. -/
def ChildCreated (uid : ℕ) (log : List LogEntry) : Prop :=
  ∃ e past, e :: past <:+ log ∧ (∃ κ name o, e.call = .create κ name o ∧ κ ≠ .job) ∧
    ∃ fl₀, readBy past = some fl₀ ∧ fl₀.uid = uid

/-- `releaseFinalizer` has run on that incarnation. -/
def ReleaseRun (uid : ℕ) (log : List LogEntry) : Prop :=
  ∃ e ∈ log, ∃ fl, Releases e.call fl ∧ fl.uid = uid

/-- Some reconcile has read the feed like this. -/
def HasRead (fl₀ : FeedListener) (log : List LogEntry) : Prop :=
  ∃ past, past <:+ log ∧ readBy past = some fl₀

/-- What holds of every release: the feed was read with a deletion timestamp, has one on the server
if it is still there, and its drain is over or skipped. -/
def ReleasedDown (feed : String) (log : List LogEntry) : Prop :=
  ∀ e past fl, e :: past <:+ log → Releases e.call fl →
    (∃ fl₀, readBy past = some fl₀ ∧ fl.uid = fl₀.uid ∧ fl₀.deletionTimestamp = true) ∧
      (∀ cur, e.before.feeds.lookup feed = some cur → cur.uid = fl.uid → cur.deletionTimestamp = true) ∧
      Warranted feed fl past

/-- The deletion of a feed read with a deletion timestamp goes on, and its UID is taken. -/
def Recalls (feed : String) (s : Cluster) (fl₀ : FeedListener) : Prop :=
  fl₀.uid ≤ s.revision ∧ (fl₀.deletionTimestamp = true →
    ∀ cur, s.feeds.lookup feed = some cur → cur.uid = fl₀.uid → cur.deletionTimestamp = true)

end Defs

section Steps

variable {feed : String} {s s' : Cluster}

theorem Recalls.apply {fl₀ : FeedListener} {a : ClusterAction} (h : Recalls feed s fl₀)
    (hs : Numbered feed s) (ha : a.apply feed s = some s') : Recalls feed s' fl₀ := by
  obtain ⟨hw, hr⟩ := apply_userWrite hs ha
  obtain ⟨hu, hd⟩ := h
  refine ⟨by omega, fun hdel fl hl huid => ?_⟩
  rcases hw.of_some hl with ⟨-, hnew, -⟩ | ⟨cur, hcur, -, hsame, -, -, hmono, -⟩
  · omega
  · exact hmono (hd hdel cur hcur (hsame.symm.trans huid))

theorem Recalls.answer {fl₀ : FeedListener} {c : Call} (h : Recalls feed s fl₀) (hs : Numbered feed s)
    (hc : c.Names feed) {f : Fate} {a : Answer c} (ha : s.answer f c = (a, s')) :
    Recalls feed s' fl₀ := by
  have hw := answer_workerWrite hs hc ha
  have hr := hw.revision_le
  obtain ⟨hu, hd⟩ := h
  refine ⟨by omega, fun hdel fl hl huid => ?_⟩
  obtain ⟨cur, hcur, -, hsame, hmark, -⟩ := hw.of_some hl
  rw [hmark]
  exact hd hdel cur hcur (hsame.symm.trans huid)

/-- A new entry adds to what has been read only if it is the reading itself. -/
theorem HasRead.of_cons {fl₀ : FeedListener} {c : Call} {r : Answer c} {log : List LogEntry}
    (h : HasRead fl₀ (⟨c, r, s⟩ :: log)) :
    HasRead fl₀ log ∨ ∃ (name : String) (hc : c = .getFeed name), hc ▸ r = .ok fl₀ := by
  obtain ⟨past, hsuf, hread⟩ := h
  rcases List.suffix_cons_iff.mp hsuf with rfl | hsuf
  · cases c with
    | getFeed name =>
      right
      refine ⟨name, rfl, ?_⟩
      cases r with
      | error e => cases hread
      | ok fl =>
        cases hread
        rfl
    | _ => exact .inl ⟨log, List.suffix_refl log, hread⟩
  · exact .inl ⟨past, hsuf, hread⟩

/-- A call that gives up a finalizer leaves all other incarnations pinned. -/
theorem Pinned.release {uid : ℕ} {fl : FeedListener} (h : Pinned feed uid s) (hs : Numbered feed s)
    (hname : fl.name = feed) {f : Fate} {a : Answer (.updateFeed fl)}
    (ha : s.answer f (.updateFeed fl) = (a, s')) : Pinned feed uid s' ∨ fl.uid = uid := by
  have hw := answer_workerWrite (c := .updateFeed fl) hs hname ha
  unfold Pinned at h ⊢
  revert hw h
  generalize s.feeds.lookup feed = old
  generalize s'.feeds.lookup feed = new
  generalize s'.revision = r'
  rintro ⟨cur, rfl, hu, hf⟩ hw
  cases hw with
  | keep => exact .inl ⟨cur, rfl, hu, hf⟩
  | update _ _ huid | release _ _ huid => exact .inr (huid.symm.trans hu)

end Steps

section Runs

variable {sha256 : List UInt8 → List UInt8} {feed : String} {w w' : World}

/-- What holds of every run. -/
structure Bound (feed : String) (w : World) : Prop where
  vouched : Vouched feed w
  recalls : ∀ fl₀, HasRead fl₀ w.log → Recalls feed w.cluster fl₀
  pinned : ∀ uid, ChildCreated uid w.log → Pinned feed uid w.cluster ∨ ReleaseRun uid w.log
  released : ReleasedDown feed w.log

theorem bound_initial : Bound feed World.initial where
  vouched := vouched_initial
  recalls := by
    rintro fl₀ ⟨past, hsuf, hread⟩
    rw [List.eq_nil_of_suffix_nil hsuf] at hread
    cases hread
  pinned := by
    rintro uid ⟨e, past, hsuf, -⟩
    cases List.eq_nil_of_suffix_nil hsuf
  released := fun e past fl hsuf => by cases List.eq_nil_of_suffix_nil hsuf

/-- The log grows, so what has been found in it stays there. -/
theorem ReleaseRun.cons {uid : ℕ} {log : List LogEntry} (h : ReleaseRun uid log) (e : LogEntry) :
    ReleaseRun uid (e :: log) := by
  obtain ⟨e', hmem, hrel⟩ := h
  exact ⟨e', List.mem_cons_of_mem e hmem, hrel⟩

/-- A child is created for the feed that was read, or it had been before. -/
theorem ChildCreated.of_cons {uid : ℕ} {c : Call} {r : Answer c} {s : Cluster} {log : List LogEntry}
    (h : ChildCreated uid (⟨c, r, s⟩ :: log)) (hc : Vetted feed c s log) :
    ChildCreated uid log ∨ ((∃ κ name o, c = .create κ name o) ∧ Pinned feed uid s) := by
  obtain ⟨e, past, hsuf, ⟨κ, name, o, hcreate, hκ⟩, fl₀, hread, rfl⟩ := h
  rcases List.suffix_cons_iff.mp hsuf with he | hsuf
  · cases he
    obtain ⟨fl₁, hread₁, -, hp⟩ := hc.create κ name o hcreate hκ
    cases hread.symm.trans hread₁
    exact .inr ⟨⟨κ, name, o, hcreate⟩, hp⟩
  · exact .inl ⟨e, past, hsuf, ⟨κ, name, o, hcreate, hκ⟩, fl₀, hread, rfl⟩

/-- A call gives the finalizer of an incarnation up, and then it is in the log, or leaves it pinned. -/
theorem pinned_call {uid : ℕ} {c : Call} {r : Answer c} {s s' : Cluster} {f : Fate} {log : List LogEntry}
    (hs : Numbered feed s) (hc : c.Names feed) (ha : s.answer f c = (r, s')) (h : Pinned feed uid s) :
    Pinned feed uid s' ∨ ReleaseRun uid (⟨c, r, s⟩ :: log) := by
  by_cases hrel : ∃ fl, Releases c fl
  · obtain ⟨fl, rfl, hf⟩ := hrel
    refine (h.release hs hc ha).imp id fun huid => ?_
    exact ⟨_, List.mem_cons_self, fl, ⟨rfl, hf⟩, huid⟩
  · left
    refine h.answer hs hc (fun fl he => ?_) ha
    by_contra hf
    exact hrel ⟨fl, he, hf⟩

theorem Bound.call {c : Call} {k : Answer c → Prog Call Answer (Except Err Requeue)} {r : Answer c}
    {s : Cluster} {f : Fate} (h : Bound feed w) (hc : w.worker = .call c k)
    (ha : w.cluster.answer f c = (r, s))
    (hstep : w.step sha256 feed (.call f) = some ⟨s, ⟨c, r, w.cluster⟩ :: w.log, k r⟩) :
    Bound feed ⟨s, ⟨c, r, w.cluster⟩ :: w.log, k r⟩ := by
  have hs : Numbered feed w.cluster := h.vouched.1.numbered
  have hv := h.vouched.vetted hc hstep
  refine ⟨h.vouched.step hstep, ?_, ?_, ?_⟩
  · intro fl₀ hread
    rcases hread.of_cons with hread | ⟨name, rfl, rfl⟩
    · exact (h.recalls fl₀ hread).answer hs hv.names ha
    · obtain rfl : name = feed := hv.names
      obtain rfl := getFeed_effect ha
      have hl := getFeed_ok ha
      refine ⟨(hs fl₀ hl).2.1, fun hd cur hcur _ => ?_⟩
      cases hl.symm.trans hcur
      exact hd
  · intro uid hcreated
    rcases hcreated.of_cons hv with hcreated | ⟨⟨κ, name, o, rfl⟩, hp⟩
    · rcases h.pinned uid hcreated with hp | hrel
      · exact pinned_call hs hv.names ha hp
      · exact .inr (hrel.cons _)
    · exact pinned_call hs hv.names ha hp
  · intro e past fl hsuf hrel
    rcases List.suffix_cons_iff.mp hsuf with he | hsuf
    · cases he
      obtain ⟨rfl, hf⟩ := hrel
      obtain ⟨⟨fl₀, hread, hu, hd⟩, hwarrant, -⟩ := hv.release fl rfl hf
      refine ⟨⟨fl₀, hread, hu, hd⟩, fun cur hcur huid => ?_, hwarrant⟩
      exact (h.recalls fl₀ ⟨w.log, List.suffix_refl _, hread⟩).2 hd cur hcur (huid.trans hu)
    · exact h.released e past fl hsuf hrel

theorem Bound.step {a : Action} (h : Bound feed w) (hstep : w.step sha256 feed a = some w') :
    Bound feed w' := by
  rcases step_cases hstep with ⟨-, -, rfl⟩ | ⟨f, c, k, r, s, rfl, hc, ha, rfl⟩ | ⟨-, rfl⟩ |
    ⟨e, s, -, he, rfl⟩
  · exact ⟨h.vouched.step hstep, h.recalls, h.pinned, h.released⟩
  · exact h.call hc ha hstep
  · exact ⟨h.vouched.step hstep, h.recalls, h.pinned, h.released⟩
  · have hs : Numbered feed w.cluster := h.vouched.1.numbered
    refine ⟨h.vouched.step hstep, fun fl₀ hread => (h.recalls fl₀ hread).apply hs he, ?_, h.released⟩
    intro uid hcreated
    exact (h.pinned uid hcreated).imp (fun hp => hp.apply hs he) id

theorem Bound.reaches {ok : World → Action → Prop} (hw : World.initial.Reaches sha256 feed ok w) :
    Bound feed w := by
  induction hw with
  | refl => exact bound_initial
  | step a _ _ hstep ih => exact ih.step hstep

/-- A feed that is not being deleted has not been released. -/
theorem Bound.not_released (h : Bound feed w) {fl : FeedListener}
    (hl : w.cluster.feeds.lookup feed = some fl) (hd : fl.deletionTimestamp = false) :
    ¬ ReleaseRun fl.uid w.log := by
  rintro ⟨e, hmem, fl', hrel, hu⟩
  obtain ⟨later, past, hlog⟩ := List.append_of_mem hmem
  have hsuf : e :: past <:+ w.log := ⟨later, hlog.symm⟩
  obtain ⟨⟨fl₀, hread, hu₀, hd₀⟩, -, -⟩ := h.released e past fl' hsuf hrel
  have hread' : HasRead fl₀ w.log := ⟨past, (List.suffix_cons e past).trans hsuf, hread⟩
  have hdel := (h.recalls fl₀ hread').2 hd₀ fl hl (hu.symm.trans hu₀)
  cases hd.symm.trans hdel

/-- No child without the finalizer, and no release but at the end of a teardown. -/
theorem no_child_without_finalizer (sha256 : List UInt8 → List UInt8) (feed : String)
    (hw : World.initial.Reaches sha256 feed (fun _ _ => True) w) :
    (∀ uid, ChildCreated uid w.log → Pinned feed uid w.cluster ∨ ReleaseRun uid w.log) ∧
    ReleasedDown feed w.log ∧
    ∀ fl w', w.cluster.feeds.lookup feed = some fl → ChildCreated fl.uid w.log →
      w.step sha256 feed (.cluster .deleteFeed) = some w' →
      ∃ fl', w'.cluster.feeds.lookup feed = some fl' ∧ fl'.uid = fl.uid ∧
        fl'.deletionTimestamp = true ∧ feedListenerFinalizer ∈ fl'.finalizers := by
  have hb := Bound.reaches hw
  refine ⟨hb.pinned, hb.released, fun fl w' hl hcreated hstep => ?_⟩
  obtain ⟨s, ha, rfl⟩ := Option.map_eq_some_iff.mp hstep
  obtain ⟨fl₁, hl₁, ha⟩ := Option.bind_eq_some_iff.mp ha
  cases hl.symm.trans hl₁
  split_ifs at ha with hd hnone
  all_goals
    have hnot := hb.not_released hl (Bool.eq_false_iff.mpr hd)
    obtain ⟨cur, hcur, -, hf⟩ := (hb.pinned fl.uid hcreated).resolve_right hnot
    cases hl.symm.trans hcur
  · rw [hnone] at hf
    cases hf
  · cases ha
    refine ⟨{ fl with deletionTimestamp := true, generation := fl.generation + 1,
                      resourceVersion := w.cluster.revision + 1 }, ?_, rfl, rfl, hf⟩
    rw [Cluster.feeds_setFeed, (hb.vouched.1.numbered fl hl).1]
    exact AList.lookup_insert _

end Runs

section Eddn

/-- The last call created a child of the feed with that UID. -/
def justCreated (uid : ℕ) : List LogEntry → Bool
  | e :: past =>
    (match e.call with
      | .create κ _ _ => decide (κ ≠ .job)
      | _ => false) && ((readBy past).map FeedListener.uid == some uid)
  | [] => false

theorem childCreated_of_just {uid : ℕ} {log : List LogEntry} (h : justCreated uid log = true) :
    ChildCreated uid log := by
  cases log with
  | nil => cases h
  | cons e past =>
    obtain ⟨hcreate, hread⟩ := Bool.and_eq_true_iff.mp h
    obtain ⟨fl₀, hread, hu⟩ := Option.map_eq_some_iff.mp (beq_iff_eq.mp hread)
    refine ⟨e, past, List.suffix_refl _, ?_, fl₀, hread, hu⟩
    split at hcreate
    · rename_i κ name o hcall
      exact ⟨κ, name, o, hcall, of_decide_eq_true hcreate⟩
    · cases hcreate

/-- The sample feed is deleted in the middle of its first reconcile, its ConfigMap just created. -/
theorem no_child_without_finalizer_eddn :
    ∃ w fl w', World.initial.run eddnDigest "eddn"
        ([.cluster (.createFeed (eddnSpec 1)), .reconcile] ++ served 4) = some w ∧
      w.cluster.feeds.lookup "eddn" = some fl ∧ ChildCreated fl.uid w.log ∧
      w.step eddnDigest "eddn" (.cluster .deleteFeed) = some w' ∧
      ∃ fl', w'.cluster.feeds.lookup "eddn" = some fl' ∧ fl'.uid = fl.uid ∧
        fl'.deletionTimestamp = true ∧ feedListenerFinalizer ∈ fl'.finalizers := by
  have h : ((World.initial.run eddnDigest "eddn"
      ([.cluster (.createFeed (eddnSpec 1)), .reconcile] ++ served 4)).bind fun w =>
        (w.cluster.feeds.lookup "eddn").bind fun fl =>
          (w.step eddnDigest "eddn" (.cluster .deleteFeed)).map fun _ => justCreated fl.uid w.log) =
      some true := by
    decide +kernel
  obtain ⟨w, hw, h⟩ := Option.bind_eq_some_iff.mp h
  obtain ⟨fl, hl, h⟩ := Option.bind_eq_some_iff.mp h
  obtain ⟨w', hstep, h⟩ := Option.map_eq_some_iff.mp h
  have hcreated := childCreated_of_just h
  have hreach : World.initial.Reaches eddnDigest "eddn" (fun _ _ => True) w :=
    reaches_run .refl (fun _ _ _ => trivial) hw
  exact ⟨w, fl, w', hw, hl, hcreated, hstep,
    (no_child_without_finalizer eddnDigest "eddn" hreach).2.2 fl w' hl hcreated hstep⟩

end Eddn

end EliteEvents

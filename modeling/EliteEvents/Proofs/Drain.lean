import EliteEvents.Proofs.Teardown

/-! Whole runs in which feeds are deleted. The purge of a drain Job is not undone by writers of the
feed, and the finalizer waits for its outcome. That the Job is one of the current incarnation is
true only as long as none was left over when the deletion was asked for: it is looked up by name. -/

namespace EliteEvents

open Prog

section Runs

variable {sha256 : List UInt8 → List UInt8} {feed : String} {strict : Prop} {w w' : World}
  {phase : Deletion}

def Deletion.next (feed : String) (w : World) (a : Action) (w' : World) (phase : Deletion) : Deletion :=
  match a with
  | .cluster e => (⟨w.cluster, w.log, phase⟩ : Watch).moved feed e
  | .call _ => phase.called feed w'.cluster
  | .reconcile | .crash => phase

/-- The invariant holds, and the worker's program keeps it. -/
structure Watching (feed : String) (strict : Prop) (w : World) (phase : Deletion) : Prop where
  labelled : Labelled feed w.cluster
  secure : Secure feed strict ⟨w.cluster, w.log, phase⟩
  worker : w.worker.wp (CallStep feed) (MoveStep feed strict)
    (fun g => Labelled feed g.cluster ∧ Secure feed strict g) (fun _ _ => True) ⟨w.cluster, w.log, phase⟩

theorem watching_initial (feed : String) (strict : Prop) : Watching feed strict World.initial .idle where
  labelled := labelled_initial feed
  secure :=
    { doomed := fun h => absurd rfl h
      undrained := fun _ h => by cases h
      quiet := fun _ h => by cases h
      created := fun h => absurd rfl h
      since := fun _ h => by cases h
      released := fun _ h => by cases h
      armed := fun _ _ h => by cases h
      drained := fun _ e v past fl h => absurd (List.eq_nil_of_suffix_nil h) (List.cons_ne_nil _ _) }
  worker := fun _ _ _ => trivial

theorem Watching.step {a : Action} (h : Watching feed strict w phase)
    (hstrict : strict → a = .cluster .deleteFeed → drainOf feed w.cluster = none)
    (hs : w.step sha256 feed a = some w') : Watching feed strict w' (phase.next feed w a w') := by
  rcases step_cases hs with ⟨rfl, -, rfl⟩ | ⟨f, c, k, r, s, rfl, hc, ha, rfl⟩ | ⟨rfl, rfl⟩ |
    ⟨e, s, rfl, he, rfl⟩
  · refine ⟨h.labelled, h.secure, wp_mono (fun _ _ _ _ => trivial) (wp_of_obeys
      (I := fun g : Watch => Labelled feed g.cluster) (P := Lawful feed) (T := Truthful feed) ?_ ?_
      (reconcile_lawful sha256 feed) h.labelled (reconcile_watched sha256 feed strict _ h.secure trivial))⟩
    · rintro c g r g' hl hc ⟨f, s', ha, rfl⟩
      exact hl.answer hc ha
    · rintro g g' hl ⟨a, s', ha, -, rfl⟩
      exact hl.apply ha
  · have hw := h.worker
    rw [hc] at hw
    obtain ⟨⟨hl, hsec⟩, hk⟩ := hw _ .refl ⟨h.labelled, h.secure⟩ r _ ⟨f, s, ha, rfl⟩
    exact ⟨hl, hsec, hk⟩
  · exact ⟨h.labelled, h.secure, fun _ _ _ => trivial⟩
  · have hstrict' : strict → e = .deleteFeed → drainOf feed w.cluster = none :=
      fun hst he => hstrict hst (by rw [he])
    refine ⟨h.labelled.apply he, h.secure.move h.labelled he hstrict', wp_env h.worker ?_⟩
    exact .single ⟨e, s, he, hstrict', rfl⟩

theorem watching_reachable {ok : World → Action → Prop}
    (hok : strict → ∀ w, ok w (.cluster .deleteFeed) → drainOf feed w.cluster = none)
    (h : World.initial.Reaches sha256 feed ok w) : ∃ phase, Watching feed strict w phase := by
  induction h with
  | refl => exact ⟨.idle, watching_initial feed strict⟩
  | step a hr ha hs ih =>
    obtain ⟨phase, hw⟩ := ih
    refine ⟨_, hw.step (fun hst he => ?_) hs⟩
    subst he
    exact hok hst _ ha

/-- The feed is not created again. -/
def SameFeed (_ : World) : Action → Prop
  | .cluster (.createFeed _) => False
  | _ => True

/-- A deletion that is under way goes on until the feed is created again. -/
theorem Watching.next_ne_idle {a : Action} (h : Watching feed strict w phase) (hne : phase ≠ .idle)
    (hok : SameFeed w a) (hs : w.step sha256 feed a = some w') :
    phase.next feed w a w' ≠ .idle ∧ (phase.next feed w a w').since = phase.since ∧
      ∀ n, phase = .draining n → phase.next feed w a w' = .draining n := by
  rcases step_cases hs with ⟨rfl, -, rfl⟩ | ⟨f, c, k, r, s, rfl, hc, ha, rfl⟩ | ⟨rfl, rfl⟩ |
    ⟨e, s, rfl, he, rfl⟩
  · exact ⟨hne, rfl, fun _ h => h⟩
  · refine ⟨called_ne_idle.mpr hne, called_since .., ?_⟩
    rintro n rfl
    rfl
  · exact ⟨hne, rfl, fun _ h => h⟩
  · have hsame : (⟨w.cluster, w.log, phase⟩ : Watch).moved feed e = phase := by
      have hdel : e ≠ .deleteFeed := by
        rintro rfl
        -- the feed is gone or marked already
        cases moves_of_apply he with
        | removeFeed fl hf hd hfin => cases (h.secure.doomed hne fl hf).symm.trans hd
        | deleteFeed fl hf hd fl' hname huid hd' => cases (h.secure.doomed hne fl hf).symm.trans hd
      rcases moved_cases feed ⟨w.cluster, w.log, phase⟩ e with ⟨spec, rfl, -⟩ | ⟨rfl, -⟩ | ⟨rfl, -⟩ |
        ⟨-, -, hp⟩
      · exact hok.elim
      · exact absurd rfl hdel
      · exact absurd rfl hdel
      · exact hp
    exact ⟨fun hi => hne (hsame.symm.trans hi), congrArg Deletion.since hsame, fun n hn => hsame.trans hn⟩

theorem Watching.reaches (h : Watching feed False w phase) (hne : phase ≠ .idle)
    (hr : w.Reaches sha256 feed SameFeed w') :
    ∃ phase', Watching feed False w' phase' ∧ phase' ≠ .idle ∧ phase'.since = phase.since ∧
      ∀ n, phase = .draining n → phase' = .draining n := by
  induction hr with
  | refl => exact ⟨phase, h, hne, rfl, fun _ h => h⟩
  | step a _ hok hs ih =>
    obtain ⟨phase₁, h₁, hne₁, hsince₁, hdr₁⟩ := ih
    obtain ⟨hne₂, hsince₂, hdr₂⟩ := h₁.next_ne_idle hne₁ hok hs
    exact ⟨_, h₁.step False.elim hs, hne₂, hsince₂.trans hsince₁, fun n hn => hdr₂ n (hdr₁ n hn)⟩

end Runs

/-- Of a feed whose deletion is asked for while no drain Job exists: from the first state on in
which the drain Job does exist, no consumer and no rebuild pod of the feed ever runs; and its
finalizer is given up only over a drain Job that has succeeded or failed, unless the indexes are to
be left in place. -/
theorem purge_not_undone (sha256 : List UInt8 → List UInt8) (feed : String) {w₀ w₁ w₂ : World}
    (h₀ : World.initial.Reaches sha256 feed (fun _ _ => True) w₀)
    (hnone : drainOf feed w₀.cluster = none)
    (hdel : w₀.step sha256 feed (.cluster .deleteFeed) = some w₁)
    (h₂ : w₁.Reaches sha256 feed SameFeed w₂) :
    (drainOf feed w₂.cluster ≠ none → ∀ w₃, w₂.Reaches sha256 feed SameFeed w₃ →
      w₃.cluster.matchingPods (selectorLabels feed) = [] ∧
      w₃.cluster.matchingPods (maintenanceLabels feed) = []) ∧
    ReleasedAfter feed w₁.log.length w₂.log := by
  obtain ⟨phase₀, hw₀⟩ : ∃ phase, Watching feed False w₀ phase :=
    watching_reachable (fun h => h.elim) h₀
  have hw₁ := hw₀.step False.elim hdel
  have hphase : phase₀.next feed w₀ (.cluster .deleteFeed) w₁ = .stopping w₁.log.length := by
    obtain ⟨s, -, rfl⟩ := Option.map_eq_some_iff.mp hdel
    simp only [Deletion.next, Watch.moved, hnone, Option.isNone_none, if_true]
  rw [hphase] at hw₁
  obtain ⟨phase₂, hw₂, hne₂, hsince, -⟩ := hw₁.reaches Deletion.noConfusion h₂
  refine ⟨fun hdrain w₃ h₃ => ?_, hw₂.secure.released _ hsince⟩
  obtain ⟨n, hn⟩ : ∃ n, phase₂ = .draining n := by
    cases phase₂ with
    | idle => exact absurd rfl hne₂
    | stopping n => exact absurd (hw₂.secure.undrained n rfl) hdrain
    | draining n => exact ⟨n, rfl⟩
  obtain ⟨phase₃, hw₃, -, -, hdr⟩ := hw₂.reaches hne₂ h₃
  obtain ⟨-, hpods⟩ := hw₃.secure.quiet n (hdr n hn)
  exact ⟨hpods _ List.mem_cons_self, hpods _ (List.mem_cons_of_mem _ List.mem_cons_self)⟩

/-- A deletion is asked for only where no drain Job exists. -/
def DrainFree (feed : String) (w : World) : Action → Prop
  | .cluster .deleteFeed => drainOf feed w.cluster = none
  | _ => True

/-- In every run in which no drain Job is there when a deletion is asked for, every release that is
announced as drained has looked at a Job created during the deletion of that same incarnation, its
writers stopped. -/
theorem drained_after_purge (sha256 : List UInt8 → List UInt8) (feed : String) {w : World}
    (h : World.initial.Reaches sha256 feed (DrainFree feed) w) : DrainedAfterPurge feed w.log := by
  obtain ⟨phase, hw⟩ : ∃ phase, Watching feed True w phase := watching_reachable (fun _ _ h => h) h
  exact hw.secure.drained trivial

section Eddn

def Action.creates : Action → Bool
  | .cluster (.createFeed _) => true
  | _ => false

def Action.deletes : Action → Bool
  | .cluster .deleteFeed => true
  | _ => false

theorem sameFeed_of {a : Action} (h : a.creates = false) (w : World) : SameFeed w a := by
  unfold Action.creates at h
  unfold SameFeed
  split at h
  · cases h
  · trivial

theorem drainFree_of {a : Action} (h : a.deletes = false) (feed : String) (w : World) :
    DrainFree feed w a := by
  unfold Action.deletes at h
  unfold DrainFree
  split at h
  · cases h
  · trivial

/-- The sample feed with one consumer, running. -/
def eddnUp : List Action :=
  [.cluster (.createFeed (eddnSpec 1)), .reconcile] ++ served 14 ++ [.cluster (.startShardPod "eddn-0")]

/-- Its deletion, once asked for: the pod goes, the drain Job succeeds, the finalizer is released. -/
def eddnDown : List Action :=
  [.reconcile] ++ served 7 ++ [.cluster (.podGone 8), .reconcile] ++ served 9 ++
    [.cluster (.jobStatus "eddn-drain" ⟨1, 0, false⟩), .reconcile] ++ served 9

private theorem eddnDown_run :
    ∃ w₀ w₁ w₂, World.initial.run eddnDigest "eddn" eddnUp = some w₀ ∧
      w₀.step eddnDigest "eddn" (.cluster .deleteFeed) = some w₁ ∧
      w₁.run eddnDigest "eddn" eddnDown = some w₂ ∧
      w₀.cluster.pods.keys = [8] ∧ drainOf "eddn" w₀.cluster = none ∧
      (drainOf "eddn" w₂.cluster).isSome = true ∧ w₂.cluster.feeds.keys = [] := by
  have h : ((World.initial.run eddnDigest "eddn" eddnUp).bind fun w₀ =>
      (w₀.step eddnDigest "eddn" (.cluster .deleteFeed)).bind fun w₁ =>
        (w₁.run eddnDigest "eddn" eddnDown).map fun w₂ => decide
          (w₀.cluster.pods.keys = [8] ∧ (drainOf "eddn" w₀.cluster).isNone = true ∧
            (drainOf "eddn" w₂.cluster).isSome = true ∧ w₂.cluster.feeds.keys = [])) = some true := by
    decide +kernel
  obtain ⟨w₀, h₀, h⟩ := Option.bind_eq_some_iff.mp h
  obtain ⟨w₁, h₁, h⟩ := Option.bind_eq_some_iff.mp h
  obtain ⟨w₂, h₂, h⟩ := Option.map_eq_some_iff.mp h
  obtain ⟨hpods, hnone, hsome, hkeys⟩ := of_decide_eq_true h
  exact ⟨w₀, w₁, w₂, h₀, h₁, h₂, hpods, Option.isNone_iff_eq_none.mp hnone, hsome, hkeys⟩

private theorem eddnDown_plain : ∀ a ∈ eddnDown, a.creates = false ∧ a.deletes = false := by
  have h : (eddnDown.all fun a => !a.creates && !a.deletes) = true := by decide
  intro a ha
  have := List.all_eq_true.mp h a ha
  rwa [Bool.and_eq_true, Bool.not_eq_true', Bool.not_eq_true'] at this

/-- The sample feed, torn down to the end: the drain Job stands, and no writer is left. -/
theorem purge_not_undone_eddn :
    ∃ w₀ w₁ w₂, World.initial.run eddnDigest "eddn" eddnUp = some w₀ ∧
      w₀.step eddnDigest "eddn" (.cluster .deleteFeed) = some w₁ ∧
      w₁.run eddnDigest "eddn" eddnDown = some w₂ ∧
      w₀.cluster.pods.keys = [8] ∧ w₂.cluster.feeds.keys = [] ∧
      w₂.cluster.matchingPods (selectorLabels "eddn") = [] ∧
      w₂.cluster.matchingPods (maintenanceLabels "eddn") = [] ∧
      ReleasedAfter "eddn" w₁.log.length w₂.log := by
  obtain ⟨w₀, w₁, w₂, h₀, h₁, h₂, hpods, hnone, hsome, hkeys⟩ := eddnDown_run
  obtain ⟨hquiet, hrel⟩ := purge_not_undone eddnDigest "eddn"
    (reaches_run .refl (fun _ _ _ => trivial) h₀) hnone h₁
    (reaches_run .refl (fun a ha w => sameFeed_of (eddnDown_plain a ha).1 w) h₂)
  obtain ⟨hsel, hmaint⟩ := hquiet (fun hn => by rw [hn] at hsome; cases hsome) w₂ .refl
  exact ⟨w₀, w₁, w₂, h₀, h₁, h₂, hpods, hkeys, hsel, hmaint, hrel⟩

/-- In that run the deletion is asked for with no drain Job there. -/
theorem drained_after_purge_eddn :
    ∃ w₀ w₁ w₂, World.initial.run eddnDigest "eddn" eddnUp = some w₀ ∧
      w₀.step eddnDigest "eddn" (.cluster .deleteFeed) = some w₁ ∧
      w₁.run eddnDigest "eddn" eddnDown = some w₂ ∧ w₂.cluster.feeds.keys = [] ∧
      DrainedAfterPurge "eddn" w₂.log := by
  obtain ⟨w₀, w₁, w₂, h₀, h₁, h₂, -, hnone, -, hkeys⟩ := eddnDown_run
  have hup : ∀ a ∈ eddnUp, a.deletes = false := by
    have h : (eddnUp.all fun a => !a.deletes) = true := by decide
    intro a ha
    have := List.all_eq_true.mp h a ha
    rwa [Bool.not_eq_true'] at this
  refine ⟨w₀, w₁, w₂, h₀, h₁, h₂, hkeys, drained_after_purge eddnDigest "eddn" ?_⟩
  have hreach : World.initial.Reaches eddnDigest "eddn" (DrainFree "eddn") w₀ :=
    reaches_run .refl (fun a ha w => drainFree_of (hup a ha) "eddn" w) h₀
  exact reaches_run (.step (.cluster .deleteFeed) hreach hnone h₁)
    (fun a ha w => drainFree_of (eddnDown_plain a ha).2 "eddn" w) h₂

/-- The feed is created again before its drain Job is collected, and deleted again. -/
def eddnAgain : List Action :=
  eddnUp ++ [.cluster .deleteFeed] ++ eddnDown ++ [.cluster (.createFeed (eddnSpec 1)), .reconcile] ++
    served 14 ++ [.cluster .deleteFeed, .reconcile] ++ served 11

/-- The last call releases a feed as drained for whose incarnation no drain Job was created. -/
def staleRelease (feed : String) : List LogEntry → Bool
  | e :: v :: past =>
    match e.call, v.call with
    | .updateFeed fl, .event event =>
      decide (feedListenerFinalizer ∉ fl.finalizers) && decide (event.reason = "Drained") &&
        past.all fun x =>
          match x.call with
          | .create .job _ _ => (x.before.feeds.lookup feed).all fun fl' => fl'.uid != fl.uid
          | _ => true
    | _, _ => false
  | _ => false

theorem staleRelease_spec {feed : String} {log : List LogEntry} (h : staleRelease feed log = true) :
    ¬ DrainedAfterPurge feed log := by
  intro hd
  unfold staleRelease at h
  split at h
  · rename_i e v past
    split at h
    · rename_i fl event he hv
      simp only [Bool.and_eq_true, decide_eq_true_eq] at h
      obtain ⟨⟨hfin, hreason⟩, hall⟩ := h
      obtain ⟨job, before, rest, rfl, -, x, hx, ⟨o, hc⟩, -, -, ⟨fl', hf, hu, -⟩, -⟩ :=
        hd e v past fl List.suffix_rfl ⟨he, hfin⟩ ⟨event, hv, hreason⟩
      have hno := List.all_eq_true.mp hall x (List.mem_cons_of_mem _ hx)
      rw [hc] at hno
      simp only [hf, Option.all_some, bne_iff_ne, ne_eq] at hno
      exact hno hu
    · cases h
  · cases h

theorem stale_drain_released :
    ∃ w, World.initial.run eddnDigest "eddn" eddnAgain = some w ∧ ¬ DrainedAfterPurge "eddn" w.log := by
  have h : ((World.initial.run eddnDigest "eddn" eddnAgain).map fun w => staleRelease "eddn" w.log) =
      some true := by
    decide +kernel
  obtain ⟨w, hw, h⟩ := Option.map_eq_some_iff.mp h
  exact ⟨w, hw, staleRelease_spec h⟩

end Eddn

end EliteEvents

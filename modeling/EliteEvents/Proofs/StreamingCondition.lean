import EliteEvents.Spec.StatusPoll

/-! When the Streaming condition says what it is documented to say. The poll counts pods; the
partition is whole when every shard has one. -/

namespace EliteEvents

/-- A ready pod that reported a message within the silence threshold. -/
def Poll.streams (silence : ℤ) (p : Poll) : Bool :=
  p.probed &&
    match p.outcome with
    | .error _ => false
    | .ok status =>
      match status.lastMessageUtc with
      | none => false
      | some last => decide (p.clock - last ≤ silence)

/-- What a probed pod reported as its last message. -/
def Poll.reported (p : Poll) : Option ℤ :=
  match p.outcome with
  | .error _ => none
  | .ok status => status.lastMessageUtc

/-- One turn of the loop over the pods, as a function of the poll. -/
def tallyPoll (silence : ℤ) (t : PodTally) (p : Poll) : PodTally :=
  if p.probed then
    match p.reported with
    | none => { t with ready := t.ready + 1 }
    | some last =>
      { ready := t.ready + 1
        lastMessage := some (match t.lastMessage with | none => last | some seen => if seen < last then last else seen)
        streamingShards := t.streamingShards + if p.clock - last ≤ silence then 1 else 0 }
  else t

section Polled

variable {polls : List Poll} {other : (c : Call) → Answer c} {α β : Type}

theorem polled_bind {p : Reconciler α} {f : α → Reconciler β} {s s' : PollState} {a : α}
    (h : p.polled polls other s = (.ok a, s')) :
    (p >>= f).polled polls other s = (f a).polled polls other s' := by
  have hp : Prog.interp (respond polls other) (α := Except Err α) p s = (.ok a, s') := h
  exact (Prog.interp_bind (respond polls other) _ _ s).trans (by rw [hp]; rfl)

theorem polled_bind_error {p : Reconciler α} {f : α → Reconciler β} {s s' : PollState} {e : Err}
    (h : p.polled polls other s = (.error e, s')) :
    (p >>= f).polled polls other s = (.error e, s') := by
  have hp : Prog.interp (respond polls other) (α := Except Err α) p s = (.error e, s') := h
  exact (Prog.interp_bind (respond polls other) _ _ s).trans (by rw [hp]; rfl)

theorem polled_attempt (c : Call) (s : PollState) :
    (attempt c).polled polls other s = (.ok (respond polls other c s).1, (respond polls other c s).2) :=
  rfl

/-- The loop over the pods, each answered in turn. -/
theorem polled_tallyPods (fl : FeedListener) (rest : List Poll) (t : PodTally) (clock : ℤ)
    (written : Option FeedListener) :
    ∃ clock', (tallyPods fl t (rest.map (·.pod))).polled polls other ⟨rest.filter Poll.probed, clock, written⟩ =
      (.ok (rest.foldl (tallyPoll fl.spec.reconnectAfterSilence) t), ⟨[], clock', written⟩) := by
  induction rest generalizing t clock with
  | nil => exact ⟨clock, rfl⟩
  | cons p rest ih =>
    rw [List.map_cons, tallyPods, List.foldl_cons]
    by_cases hp : p.probed = true
    · have hskip : ¬ (!isPodReady p.pod || decide (p.pod.podIP = "")) = true := by
        simpa [Poll.probed] using hp
      rw [if_neg hskip, List.filter_cons_of_pos hp, tallyPoll, if_pos hp]
      dsimp only
      rw [polled_bind (polled_attempt _ _), Poll.reported]
      cases ho : p.outcome with
      | error e =>
        simp only [respond, ho]
        exact ih _ p.clock
      | ok status =>
        simp only [respond, ho]
        cases hl : status.lastMessageUtc with
        | none => exact ih _ p.clock
        | some last =>
          dsimp only
          rw [polled_bind (polled_attempt _ _)]
          simp only [respond, decide_eq_true_eq]
          exact ih _ p.clock
    · have hskip : (!isPodReady p.pod || decide (p.pod.podIP = "")) = true := by
        simpa [Poll.probed, or_iff_not_imp_left] using hp
      rw [if_pos hskip, List.filter_cons_of_neg hp, tallyPoll, if_neg hp]
      exact ih t clock

theorem polled_wrapping {p : Reconciler α} {s s' : PollState} {a : α}
    (h : p.polled polls other s = (.ok a, s')) (context : String) :
    (wrapping context p).polled polls other s = (.ok a, s') := by
  have hp : Prog.interp (respond polls other) (α := Except Err α) p s = (.ok a, s') := h
  exact (Prog.interp_bind (respond polls other) _ _ s).trans (by rw [hp]; rfl)

theorem polled_wrapping_error {p : Reconciler α} {s s' : PollState} {e : Err}
    (h : p.polled polls other s = (.error e, s')) (context : String) :
    (wrapping context p).polled polls other s = (.error (.wrap context e), s') := by
  have hp : Prog.interp (respond polls other) (α := Except Err α) p s = (.error e, s') := h
  exact (Prog.interp_bind (respond polls other) _ _ s).trans (by rw [hp]; rfl)

theorem polled_request {c : Call} {s : PollState} {r : c.Result}
    (h : (respond polls other c s).1 = .ok r) :
    (request c).polled polls other s = (.ok r, (respond polls other c s).2) := by
  rw [request, polled_bind (polled_attempt c s), h]
  rfl

theorem polled_observe (fl : FeedListener) (s : PollState) :
    ∃ rebuilt, (observeIndexMaintenance fl).polled polls other s =
      (.ok { fl with status := { fl.status with lastIndexRebuildTime := rebuilt } }, s) := by
  unfold observeIndexMaintenance
  split_ifs
  · rw [polled_bind (polled_attempt _ _)]
    simp only [respond]
    cases other (.get .cronJob (maintenanceCronJobName fl.name)) with
    | error e => exact ⟨fl.status.lastIndexRebuildTime, rfl⟩
    | ok cronJob => exact ⟨CronJob.lastSuccessfulTime cronJob, rfl⟩
  · exact ⟨none, rfl⟩

/-- A write of the status counts as written however the server answers. -/
theorem written_updateStatus (fl : FeedListener) (s : PollState) (context : String) :
    ((do
      let _ ← wrapping context (request (.updateStatus fl))
      return some statusPollInterval : Reconciler Requeue).polled polls other s).2.written = some fl := by
  have hattempt := @polled_attempt polls other (.updateStatus fl) s
  cases ho : other (.updateStatus fl) with
  | error e =>
    have hr : (request (.updateStatus fl)).polled polls other s =
        (.error (.api e), { s with written := some fl }) := by
      rw [request, polled_bind hattempt]
      simp only [respond, ho]
      rfl
    rw [polled_bind_error (polled_wrapping_error hr context)]
  | ok a =>
    have hr : (request (.updateStatus fl)).polled polls other s =
        (.ok a, { s with written := some fl }) := polled_request (c := .updateStatus fl) ho
    rw [polled_bind (polled_wrapping hr context)]
    rfl

end Polled

theorem find_setStatusCondition (c : Condition) (cs : List Condition) :
    (setStatusCondition c cs).find? (fun d => decide (d.type = c.type)) = some c := by
  induction cs with
  | nil => simp [setStatusCondition]
  | cons d cs ih =>
    rw [setStatusCondition]
    split_ifs with h
    · simp
    · rw [List.find?_cons_of_neg (by simpa using h), ih]

theorem find_removeStatusCondition {t t' : ConditionType} (h : t ≠ t') (cs : List Condition) :
    (removeStatusCondition t' cs).find? (fun d => decide (d.type = t)) =
      cs.find? fun d => decide (d.type = t) := by
  induction cs with
  | nil => rfl
  | cons d cs ih =>
    rw [removeStatusCondition] at ih ⊢
    by_cases hd : d.type = t
    · rw [List.filter_cons_of_pos (by simpa [hd] using h), List.find?_cons_of_pos (by simpa using hd),
        List.find?_cons_of_pos (by simpa using hd)]
    · rw [List.find?_cons_of_neg (by simpa using hd), List.filter_cons]
      split_ifs
      · rw [List.find?_cons_of_neg (by simpa using hd), ih]
      · exact ih

/-- The Streaming condition of a derived status compares the count of pods with the spec. -/
theorem find_streaming_derived (fl : FeedListener) (t : PodTally) :
    ∃ c, (derived fl t).status.conditions.find? (fun d => decide (d.type = .streaming)) = some c ∧
      c.status = (decide (Int32.ofNat t.streamingShards = fl.spec.consumers) && decide (fl.spec.consumers > 0)) := by
  simp only [derived, setStreaming]
  rw [find_removeStatusCondition (by decide)]
  exact ⟨_, find_setStatusCondition ⟨.streaming, _, _, _, _⟩ _, rfl⟩

/-- The counters of a poll. -/
def polledTally (silence : ℤ) (polls : List Poll) : PodTally := polls.foldl (tallyPoll silence) ⟨0, none, 0⟩

theorem streams_eq (silence : ℤ) (p : Poll) :
    p.streams silence =
      (p.probed && match p.reported with | none => false | some last => decide (p.clock - last ≤ silence)) := by
  unfold Poll.streams Poll.reported
  cases p.outcome <;> rfl

/-- The count goes up by the pods that stream. -/
theorem streamingShards_foldl (silence : ℤ) (polls : List Poll) (t : PodTally) :
    (polls.foldl (tallyPoll silence) t).streamingShards =
      t.streamingShards + (polls.filter (Poll.streams silence)).length := by
  induction polls generalizing t with
  | nil => simp
  | cons p polls ih =>
    have hstep : (tallyPoll silence t p).streamingShards =
        t.streamingShards + if p.streams silence = true then 1 else 0 := by
      rw [streams_eq, tallyPoll]
      cases p.probed with
      | false => simp
      | true => cases p.reported <;> simp
    rw [List.foldl_cons, ih, hstep, List.filter_cons]
    split_ifs
    · rw [List.length_cons]
      omega
    · rfl

/-- The status that a poll writes, from its counters. -/
theorem polledStatus_eq (fl : FeedListener) (polls : List Poll) (other : (c : Call) → Answer c) :
    ∃ rebuilt, polledStatus fl polls other =
      some (derived { tallied fl (polledTally fl.spec.reconnectAfterSilence polls) with
        status := { (tallied fl (polledTally fl.spec.reconnectAfterSilence polls)).status with
          lastIndexRebuildTime := rebuilt } } (polledTally fl.spec.reconnectAfterSilence polls)) := by
  obtain ⟨clock, ht⟩ := @polled_tallyPods polls other fl polls ⟨0, none, 0⟩ 0 none
  change _ = (Except.ok (polledTally fl.spec.reconnectAfterSilence polls), _) at ht
  obtain ⟨rebuilt, ho⟩ := @polled_observe polls other
    (tallied fl (polledTally fl.spec.reconnectAfterSilence polls)) ⟨[], clock, none⟩
  refine ⟨rebuilt, ?_⟩
  rw [polledStatus, reconcileStatus,
    polled_bind (polled_wrapping (polled_request (c := .listPods (selectorLabels fl.name)) rfl) _)]
  simp only [respond]
  rw [polled_bind ht, polled_bind ho]
  exact written_updateStatus _ _ _

/-- How many shards the spec asks for. -/
def FeedListener.shards (fl : FeedListener) : ℕ := fl.spec.consumers.toNatClampNeg

/-- A ready pod of a shard that has just received a message. -/
def freshPod (ip : String) (shard : Int32) : Poll where
  pod := ⟨[], true, some true, ip, []⟩
  outcome := .ok ⟨some 0, 1, shard, 2⟩
  clock := 0

end EliteEvents

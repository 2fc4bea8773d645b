import EliteEvents.Proofs.StreamingCondition

/-! The phase of a feed beside its conditions. Both are derived from the same two counters, and the streaming pods
are among the ready ones; so they never contradict each other, as long as the counter of ready pods does not wrap. -/

namespace EliteEvents

/-- What a condition says, if it is there. -/
def conditionStatus (cs : List Condition) (t : ConditionType) : Option Bool :=
  (cs.find? fun c => decide (c.type = t)).map Condition.status

/-- The times that ready pods reported. -/
def reportedTimes (polls : List Poll) : List ℤ := (polls.filter Poll.probed).filterMap Poll.reported

/-- Phase, conditions and time of a status that a poll wrote agree. -/
structure Coherent (polls : List Poll) (status : FeedListenerStatus) : Prop where
  streaming : status.phase = .streaming ↔ conditionStatus status.conditions .streaming = some true
  pending : status.phase = .pending ↔ conditionStatus status.conditions .available = some false
  settled : status.phase = .streaming ∨ status.phase = .silent ↔
    conditionStatus status.conditions .progressing = some false
  progressing : status.phase = .progressing ↔ conditionStatus status.conditions .available = some true ∧
    conditionStatus status.conditions .progressing = some true
  lastMessage : reportedTimes polls ≠ [] →
    ∃ last ∈ reportedTimes polls, status.lastMessageTime = some last ∧ ∀ t ∈ reportedTimes polls, t ≤ last
  notDegraded : ∀ c ∈ status.conditions, c.type ≠ .degraded

section Counters

variable (silence : ℤ)

theorem ready_foldl (polls : List Poll) (t : PodTally) :
    (polls.foldl (tallyPoll silence) t).ready = t.ready + Int32.ofNat (polls.filter Poll.probed).length := by
  induction polls generalizing t with
  | nil => simp
  | cons p polls ih =>
    have hstep : (tallyPoll silence t p).ready = t.ready + if p.probed = true then 1 else 0 := by
      rw [tallyPoll]
      cases p.probed with
      | false => simp
      | true => cases p.reported <;> simp
    rw [List.foldl_cons, ih, hstep, List.filter_cons]
    split_ifs
    · rw [List.length_cons, Int32.add_assoc, Nat.add_comm, Int32.ofNat_add]
      rfl
    · rw [Int32.add_zero]

/-- The latest of the time seen so far and those reported. -/
theorem lastMessage_foldl (polls : List Poll) (t : PodTally) :
    (polls.foldl (tallyPoll silence) t).lastMessage = (t.lastMessage.toList ++ reportedTimes polls).max? := by
  induction polls generalizing t with
  | nil =>
    rw [List.foldl_nil]
    cases t.lastMessage <;> rfl
  | cons p polls ih =>
    rw [List.foldl_cons, ih, reportedTimes, reportedTimes, tallyPoll, List.filter_cons]
    split_ifs
    · rw [List.filterMap_cons]
      cases p.reported with
      | none => rfl
      | some last =>
        cases t.lastMessage with
        | none => rfl
        | some seen =>
          have hmax : (if seen < last then last else seen) = max seen last := by
            rcases lt_or_ge seen last with h | h
            · rw [if_pos h, max_eq_right h.le]
            · rw [if_neg (not_lt.mpr h), max_eq_left h]
          simp only [hmax]
          rfl
    · rfl

/-- The pods that stream are among those that are ready. -/
theorem streams_le_ready (polls : List Poll) :
    (polls.filter (Poll.streams silence)).length ≤ (polls.filter Poll.probed).length := by
  refine (List.monotone_filter_right polls fun p hp => ?_).length_le
  rw [streams_eq, Bool.and_eq_true] at hp
  exact hp.1

end Counters

section Conditions

theorem conditionStatus_set (c : Condition) (cs : List Condition) :
    conditionStatus (setStatusCondition c cs) c.type = some c.status := by
  rw [conditionStatus, find_setStatusCondition]
  rfl

theorem conditionStatus_set_ne {c : Condition} {t : ConditionType} (h : c.type ≠ t) (cs : List Condition) :
    conditionStatus (setStatusCondition c cs) t = conditionStatus cs t := by
  unfold conditionStatus
  congr 1
  induction cs with
  | nil => exact List.find?_cons_of_neg (by simpa using h)
  | cons d cs ih =>
    rw [setStatusCondition]
    split_ifs with hd
    · rw [List.find?_cons_of_neg (by simpa using h), List.find?_cons_of_neg (by simpa [hd] using h)]
    · rw [List.find?_cons, List.find?_cons, ih]

theorem conditionStatus_remove {t t' : ConditionType} (h : t ≠ t') (cs : List Condition) :
    conditionStatus (removeStatusCondition t' cs) t = conditionStatus cs t := by
  rw [conditionStatus, find_removeStatusCondition h, conditionStatus]

variable (fl : FeedListener) (t : PodTally)

theorem available_derived :
    conditionStatus (derived fl t).status.conditions .available = some (decide (t.ready > 0)) := by
  simp only [derived, setStreaming, setAvailability, FeedListener.withCondition]
  rw [conditionStatus_remove (by decide), conditionStatus_set_ne (by simp), conditionStatus_set_ne (by simp)]
  exact conditionStatus_set ⟨.available, _, _, _, _⟩ _

theorem progressing_derived :
    conditionStatus (derived fl t).status.conditions .progressing = some (decide (t.ready < fl.spec.consumers)) := by
  simp only [derived, setStreaming, setAvailability, FeedListener.withCondition]
  rw [conditionStatus_remove (by decide), conditionStatus_set_ne (by simp)]
  exact conditionStatus_set ⟨.progressing, _, _, _, _⟩ _

/-- The flag that the Streaming condition and the phase are both derived from. -/
def PodTally.whole (t : PodTally) (consumers : Int32) : Bool :=
  decide (Int32.ofNat t.streamingShards = consumers) && decide (consumers > 0)

theorem streaming_status_derived :
    conditionStatus (derived fl t).status.conditions .streaming = some (t.whole fl.spec.consumers) := by
  obtain ⟨c, hc, hs⟩ := find_streaming_derived fl t
  rw [conditionStatus, hc]
  exact congrArg some hs

theorem phase_derived :
    (derived fl t).status.phase =
      if t.ready = 0 then .pending
      else if t.ready < fl.spec.consumers then .progressing
      else if t.whole fl.spec.consumers then .streaming
      else .silent := rfl

theorem pending_derived {fl : FeedListener} {t : PodTally} (h : (derived fl t).status.phase = .pending) :
    t.ready = 0 := by
  rw [phase_derived] at h
  split_ifs at h with hzero
  exact hzero

end Conditions

section Coherence

/-- The counters do not contradict each other: the pods that stream are among the ready ones. -/
structure PodTally.Sound (t : PodTally) : Prop where
  ready_nonneg : 0 ≤ t.ready
  streaming_le : (t.streamingShards : ℤ) ≤ t.ready.toInt

theorem PodTally.Sound.not_whole {t : PodTally} (h : t.Sound) {consumers : Int32} (hlt : t.ready < consumers) :
    t.whole consumers = false := by
  refine Bool.eq_false_iff.mpr fun hw => ?_
  rw [PodTally.whole, Bool.and_eq_true, decide_eq_true_eq, decide_eq_true_eq] at hw
  have hle := h.streaming_le
  have hbound := t.ready.toInt_lt
  have hof : (Int32.ofNat t.streamingShards).toInt = t.streamingShards := Int32.toInt_ofNat_of_lt (by omega)
  rw [hw.1] at hof
  rw [Int32.lt_iff_toInt_lt] at hlt
  omega

theorem coherent_derived {fl : FeedListener} {t : PodTally} {polls : List Poll} (ht : t.Sound)
    (hc : 1 ≤ fl.spec.consumers)
    (hlast : reportedTimes polls ≠ [] → ∃ last ∈ reportedTimes polls,
      (derived fl t).status.lastMessageTime = some last ∧ ∀ t ∈ reportedTimes polls, t ≤ last) :
    Coherent polls (derived fl t).status := by
  have hnonneg := Int32.le_iff_toInt_le.mp ht.ready_nonneg
  have hone := Int32.le_iff_toInt_le.mp hc
  rw [Int32.toInt_zero] at hnonneg
  rw [Int32.toInt_one] at hone
  have hzero : t.ready = 0 ↔ ¬ t.ready > 0 := by
    rw [gt_iff_lt, Int32.lt_iff_toInt_lt, ← Int32.toInt_inj, Int32.toInt_zero]
    omega
  have hsmall : t.ready = 0 → t.ready < fl.spec.consumers := by
    intro h
    rw [Int32.lt_iff_toInt_lt, h, Int32.toInt_zero]
    omega
  have hwhole := @PodTally.Sound.not_whole t ht fl.spec.consumers
  have hphase := phase_derived fl t
  refine ⟨?_, ?_, ?_, ?_, hlast, ?_⟩
  · rw [hphase, streaming_status_derived, Option.some.injEq]
    split_ifs <;> simp_all
  · rw [hphase, available_derived, Option.some.injEq]
    split_ifs <;> simp_all
  · rw [hphase, progressing_derived, Option.some.injEq]
    split_ifs <;> simp_all
  · rw [hphase, available_derived, progressing_derived, Option.some.injEq, Option.some.injEq]
    split_ifs <;> simp_all
  · intro c hcond
    exact of_decide_eq_true (List.mem_filter.mp hcond).2

/-- Without a wrap the counters of a poll are sound. -/
theorem sound_polledTally {silence : ℤ} {polls : List Poll} (h : (polls.filter Poll.probed).length < 2 ^ 31) :
    (polledTally silence polls).Sound := by
  have hready : (polledTally silence polls).ready.toInt = (polls.filter Poll.probed).length := by
    rw [polledTally, ready_foldl, Int32.zero_add]
    exact Int32.toInt_ofNat_of_lt h
  constructor
  · rw [Int32.le_iff_toInt_le, hready, Int32.toInt_zero]
    omega
  · have hle := streams_le_ready silence polls
    rw [hready, polledTally, streamingShards_foldl, Nat.zero_add]
    omega

/-- The last message of a poll is the latest that was reported. -/
theorem lastMessage_polledTally {silence : ℤ} {polls : List Poll} (h : reportedTimes polls ≠ []) :
    ∃ last ∈ reportedTimes polls, (polledTally silence polls).lastMessage = some last ∧
      ∀ t ∈ reportedTimes polls, t ≤ last := by
  obtain ⟨last, hlast⟩ := Option.isSome_iff_exists.mp (List.isSome_max?_of_ne_nil h)
  obtain ⟨hmem, hmax⟩ := List.max?_eq_some_iff.mp hlast
  refine ⟨last, hmem, ?_, hmax⟩
  rw [polledTally, lastMessage_foldl]
  exact hlast

/-- Phase, conditions and last message of every status that a poll writes agree, if fewer than 2^31 pods are ready. -/
theorem status_coherent {fl : FeedListener} (hc : 1 ≤ fl.spec.consumers) {polls : List Poll}
    (hready : (polls.filter Poll.probed).length < 2 ^ 31) (other : (c : Call) → Answer c) :
    ∃ fl', polledStatus fl polls other = some fl' ∧ Coherent polls fl'.status := by
  obtain ⟨rebuilt, hwritten⟩ := polledStatus_eq fl polls other
  refine ⟨_, hwritten, coherent_derived (sound_polledTally hready) hc fun hne => ?_⟩
  obtain ⟨last, hmem, hlast, hmax⟩ := lastMessage_polledTally hne
  refine ⟨last, hmem, ?_, hmax⟩
  show (PodTally.lastMessage _).or _ = some last
  rw [hlast]
  rfl

theorem status_coherent_eddn :
    ∃ fl, polledStatus (eddnFeed 1 1) [freshPod "10.0.0.1" 0, freshPod "10.0.0.2" 0]
        (fun _ => .error ⟨.other, "timeout"⟩) = some fl ∧
      Coherent [freshPod "10.0.0.1" 0, freshPod "10.0.0.2" 0] fl.status :=
  status_coherent (by decide) (by decide) _

/-- With 2^31 ready pods the counter wraps, and a feed that is Progressing is not Available. -/
theorem wrapped_status_incoherent :
    ¬ ∀ (fl : FeedListener) (polls : List Poll) (other : (c : Call) → Answer c), 1 ≤ fl.spec.consumers →
      ∃ fl', polledStatus fl polls other = some fl' ∧ Coherent polls fl'.status := by
  intro hall
  let polls := List.replicate (2 ^ 31) (freshPod "10.0.0.1" 0)
  obtain ⟨fl', hfl', hcoherent⟩ := hall (eddnFeed 1 1) polls (fun _ => .error ⟨.other, "timeout"⟩) (by decide)
  obtain ⟨rebuilt, hwritten⟩ := polledStatus_eq (eddnFeed 1 1) polls fun _ => .error ⟨.other, "timeout"⟩
  rw [hwritten, Option.some.injEq] at hfl'
  subst hfl'
  have hready : (polledTally (eddnFeed 1 1).spec.reconnectAfterSilence polls).ready = Int32.minValue := by
    rw [polledTally, ready_foldl, List.filter_replicate_of_pos (by decide), List.length_replicate]
    decide
  have hpending := hcoherent.pending.mpr (by rw [available_derived, hready]; decide)
  have hzero := pending_derived hpending
  rw [hready] at hzero
  exact absurd hzero (by decide)

end Coherence

end EliteEvents

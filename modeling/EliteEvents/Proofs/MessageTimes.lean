import EliteEvents.Spec.StatusPoll
import EliteEvents.Spec.StreamHealth
import EliteEvents.Proofs.Containment

/-! Whether the times that status reports are times of messages. A process seeds its tracker with
its own start, and the poll cannot tell that seed from a message; so the law holds along the runs
in which no process is read before its first message. -/

namespace EliteEvents

namespace Receiver

variable {J : Type} (X : External J)

theorem processMessage_health (t : Turn) (s : ReceiverState) (json : Text.Str) :
    (processMessage X t s json).1.lastMessageTicks = s.lastMessageTicks ∧
      (processMessage X t s json).1.messagesReceived = s.messagesReceived := by
  unfold processMessage
  split
  · split_ifs <;> exact ⟨rfl, rfl⟩
  · dsimp only
    split_ifs <;> exact ⟨rfl, rfl⟩

theorem recordHeartbeat_health (t : Turn) (force : Bool) (s : ReceiverState) :
    (recordHeartbeat t force s).1.lastMessageTicks = s.lastMessageTicks ∧
      (recordHeartbeat t force s).1.messagesReceived = s.messagesReceived := by
  unfold recordHeartbeat
  split_ifs
  · exact ⟨rfl, rfl⟩
  · dsimp only
    split <;> exact ⟨rfl, rfl⟩

/-- A frame moves the tracker to its arrival, whether or not the shard owns it. -/
theorem onFrame_health (shard : MessageShardFilter) (t : Turn) (s : ReceiverState) (str : Text.Str) :
    (onFrame X shard t s str).1.lastMessageTicks = t.arrival ∧
      (onFrame X shard t s str).1.messagesReceived = s.messagesReceived + 1 := by
  unfold onFrame
  dsimp only
  rw [(recordHeartbeat_health t false _).1, (recordHeartbeat_health t false _).2]
  split_ifs
  · obtain ⟨h1, h2⟩ := processMessage_health X t (recordHandled (recordMessage t s)) str
    exact ⟨h1, h2⟩
  · exact ⟨rfl, rfl⟩

theorem turn_health_frame {shard : MessageShardFilter} {silence : ℕ} {t : Turn} {s s' : ReceiverState}
    {es : List Effect} {str : Text.Str} (h : turn X shard silence t s = .ok (s', es))
    (hr : receive X t.received = .ok (some str)) :
    s'.lastMessageTicks = t.arrival ∧ s'.messagesReceived = s.messagesReceived + 1 := by
  unfold turn at h
  rw [hr] at h
  cases h
  exact onFrame_health X shard t s str

/-- A turn without a frame leaves the tracker alone. -/
theorem turn_health_idle {shard : MessageShardFilter} {silence : ℕ} {t : Turn} {s s' : ReceiverState}
    {es : List Effect} (h : turn X shard silence t s = .ok (s', es))
    (hr : ∀ str, receive X t.received ≠ .ok (some str)) :
    s'.lastMessageTicks = s.lastMessageTicks ∧ s'.messagesReceived = s.messagesReceived := by
  unfold turn at h
  split at h
  · cases h
  · rename_i str hstr
    exact absurd hstr (hr str)
  · split_ifs at h
    · cases h
      exact ⟨rfl, rfl⟩
    · cases h
      exact ⟨rfl, rfl⟩

end Receiver

/-- A time in nanoseconds at which one of the messages arrived. -/
def IsArrival (messages : List ℕ) (t : ℤ) : Prop := ∃ m ∈ messages, t = 100 * (m : ℤ)

theorem IsArrival.mono {a b : List ℕ} (h : a ⊆ b) {t : ℤ} (ht : IsArrival a t) : IsArrival b t := by
  obtain ⟨m, hm, rfl⟩ := ht
  exact ⟨m, h hm, rfl⟩

/-- Status writes that report an arrival as the last message, if they report any. -/
def ReportsArrival (messages : List ℕ) : Call → Prop
  | .updateStatus fl => ∀ t, fl.status.lastMessageTime = some t → IsArrival messages t
  | _ => True

/-- Probes that are answered with an arrival. -/
def AnswersArrival (messages : List ℕ) : (c : Call) → Answer c → Prop
  | .probe _, .ok (status : StreamStatus) =>
    ∀ t, status.lastMessageUtc = some t → IsArrival messages t
  | _, _ => True

theorem answersArrival_other {messages : List ℕ} {c : Call} (hc : ∀ ip, c ≠ .probe ip) (r : Answer c) :
    AnswersArrival messages c r := by
  cases c with
  | probe ip => exact absurd rfl (hc ip)
  | _ => cases r <;> trivial

theorem AnswersArrival.mono {a b : List ℕ} (h : a ⊆ b) {c : Call} {r : Answer c}
    (hr : AnswersArrival a c r) : AnswersArrival b c r := by
  cases c with
  | probe ip =>
    cases r with
    | error e => trivial
    | ok status => exact fun t ht => (hr t ht).mono h
  | _ => exact answersArrival_other (by simp) r

section Obeys

open Prog

variable {messages : List ℕ}

theorem tallyPods_obeys (fl : FeedListener) (pods : List Pod) (t : PodTally)
    (ht : ∀ last, t.lastMessage = some last → IsArrival messages last) :
    ObeysOk (ReportsArrival messages) (AnswersArrival messages) (tallyPods fl t pods)
      fun t' => ∀ last, t'.lastMessage = some last → IsArrival messages last := by
  induction pods generalizing t with
  | nil => exact obeysOk_pure ht
  | cons pod pods ih =>
    rw [tallyPods]
    split_ifs
    · exact ih t ht
    · refine (obeysOk_perform (c := Call.probe pod.podIP) trivial).bind fun r hr => ?_
      cases r with
      | error e => exact ih _ ht
      | ok status =>
        dsimp only
        cases hl : StreamStatus.lastMessageUtc status with
        | none => exact ih _ ht
        | some last =>
          refine (obeysOk_perform (c := Call.now) trivial).bind fun now _ => ih _ ?_
          intro seen hseen
          cases hseen
          have hlast : IsArrival messages last := hr last hl
          cases htl : t.lastMessage with
          | none => exact hlast
          | some seen =>
            dsimp only
            split_ifs
            · exact hlast
            · exact ht seen htl

theorem request_obeys {P : Call → Prop} {T : (c : Call) → Answer c → Prop} {c : Call} (hc : P c)
    (context : String) :
    ObeysOk P T (wrapping context (request c)) fun r => T c (.ok r) := by
  refine ObeysOk.tryCatch ?_ fun _ => obeysOk_throw _
  refine (obeysOk_perform hc).bind fun r hr => ?_
  cases r with
  | error e => exact obeysOk_throw _
  | ok a => exact obeysOk_pure hr

theorem observeIndexMaintenance_obeys (fl : FeedListener) :
    ObeysOk (ReportsArrival messages) (AnswersArrival messages) (observeIndexMaintenance fl)
      fun fl' => fl'.status.lastMessageTime = fl.status.lastMessageTime := by
  unfold observeIndexMaintenance
  split_ifs
  · refine (obeysOk_perform (c := Call.get .cronJob _) trivial).bind fun r _ => ?_
    cases r with
    | error e => exact obeysOk_pure rfl
    | ok cronJob => exact obeysOk_pure rfl
  · exact obeysOk_pure rfl

theorem derived_lastMessageTime (fl : FeedListener) (t : PodTally) :
    (derived fl t).status.lastMessageTime = fl.status.lastMessageTime := rfl

theorem reconcileStatus_obeys {fl : FeedListener}
    (hfl : ∀ t, fl.status.lastMessageTime = some t → IsArrival messages t) :
    ObeysOk (ReportsArrival messages) (AnswersArrival messages) (reconcileStatus fl) fun _ => True := by
  unfold reconcileStatus
  refine (request_obeys (c := Call.listPods _) trivial _).bind fun pods _ => ?_
  refine (tallyPods_obeys fl pods _ (by simp)).bind fun t ht => ?_
  refine (observeIndexMaintenance_obeys (tallied fl t)).bind fun fl' hfl' => ?_
  refine (request_obeys (c := Call.updateStatus _) ?_ _).bind fun _ _ => obeysOk_pure trivial
  intro last hlast
  rw [derived_lastMessageTime, hfl', tallied] at hlast
  rcases Option.or_eq_some_iff.mp hlast with h | ⟨-, h⟩
  · exact ht last h
  · exact hfl last h

end Obeys

namespace Telemetry

/-- A process whose tracker agrees with what it received. -/
structure ProcessSound (received : List ℕ) (clock : ℕ) (p : Process) : Prop where
  count : p.state.messagesReceived = p.messages.length
  last : ∀ t rest, p.messages = t :: rest → p.state.lastMessageTicks = t
  known : ∀ t ∈ p.messages, t ∈ received
  past : ∀ t ∈ p.messages, t ≤ clock

/-- A reading of a process that had received something, no later than the clock that judged it. -/
structure ReadingSound (received : List ℕ) (clock : ℕ) (r : Reading) : Prop where
  process : ProcessSound received clock r.process
  heard : r.process.messages ≠ []
  now : ∀ now, r.now = some now → ∀ t ∈ r.process.messages, 100 * (t : ℤ) ≤ now

/-- The poll counted the pod as streaming. -/
def Reading.Counted (silence : ℤ) (r : Reading) (now : ℤ) : Prop :=
  r.now = some now ∧ now - 100 * (r.process.state.lastMessageTicks : ℤ) ≤ silence

/-- A written status rests on messages: if Streaming is True, each pod it counted received one
within the threshold, and the last message time is the arrival of a message. -/
def Grounded (received : List ℕ) (fl : FeedListener) (readings : List Reading) : Prop :=
  (isStatusConditionTrue fl.status.conditions .streaming = true →
    ∀ r ∈ readings, ∀ now, Reading.Counted fl.spec.reconnectAfterSilence r now →
      ∃ t ∈ r.process.messages, t ∈ received ∧ 100 * (t : ℤ) ≤ now ∧
        now - 100 * (t : ℤ) ≤ fl.spec.reconnectAfterSilence) ∧
  ∀ t, fl.status.lastMessageTime = some t → IsArrival received t

structure Sound (w : Telemetry) : Prop where
  processes : ∀ ip p, w.processes ip = some p → ProcessSound w.received w.clock p
  readings : ∀ r ∈ w.readings, ReadingSound w.received w.clock r
  worker : ∀ messages, w.received ⊆ messages →
    Prog.Obeys (ReportsArrival messages) (AnswersArrival messages) w.worker fun _ => True
  stored : ∀ t, w.lastMessageTime = some t → IsArrival w.received t
  written : ∀ fl readings, w.written = some (fl, readings) → Grounded w.received fl readings

/-- No process is read before its first message. -/
def heard (w : Telemetry) : Action → Bool
  | .call _ failure _ _ =>
    match w.worker with
    | .call (.probe ip) _ =>
      match w.processes ip, failure with
      | some p, none => decide (0 < p.state.messagesReceived)
      | _, _ => true
    | _ => true
  | _ => true

section Steps

variable {J : Type} {X : External J} {w w' : Telemetry}

theorem ProcessSound.mono {p : Process} (h : ProcessSound w.received w.clock p) (hr : w.received ⊆ w'.received)
    (hc : w.clock ≤ w'.clock) : ProcessSound w'.received w'.clock p :=
  ⟨h.count, h.last, fun t ht => hr (h.known t ht), fun t ht => (h.past t ht).trans hc⟩

theorem ReadingSound.mono {r : Reading} (h : ReadingSound w.received w.clock r) (hr : w.received ⊆ w'.received)
    (hc : w.clock ≤ w'.clock) : ReadingSound w'.received w'.clock r :=
  ⟨h.process.mono hr hc, h.heard, h.now⟩

theorem Grounded.mono {a b : List ℕ} (hab : a ⊆ b) {fl : FeedListener} {rs : List Reading}
    (h : Grounded a fl rs) : Grounded b fl rs := by
  refine ⟨fun hs r hr now hn => ?_, fun t ht => (h.2 t ht).mono hab⟩
  obtain ⟨t, ht, hrec, hle⟩ := h.1 hs r hr now hn
  exact ⟨t, ht, hab hrec, hle⟩

/-- Steps that leave the operator alone. -/
theorem Sound.advance (h : Sound w) (hr : w.received ⊆ w'.received) (hc : w.clock ≤ w'.clock)
    (hp : ∀ ip p, w'.processes ip = some p → ProcessSound w'.received w'.clock p) (hworker : w'.worker = w.worker)
    (hreadings : w'.readings = w.readings) (hstored : w'.lastMessageTime = w.lastMessageTime)
    (hwritten : w'.written = w.written) : Sound w' := by
  refine ⟨hp, ?_, ?_, ?_, ?_⟩
  · rw [hreadings]
    exact fun r hr' => (h.readings r hr').mono hr hc
  · rw [hworker]
    exact fun messages hm => h.worker messages (List.Subset.trans hr hm)
  · rw [hstored]
    exact fun t ht => (h.stored t ht).mono hr
  · rw [hwritten]
    exact fun fl rs hrs => (h.written fl rs hrs).mono hr

/-- A process is put in its place, or taken from it. -/
theorem ProcessSound.update (h : Sound w) (hr : w.received ⊆ w'.received) (hc : w.clock ≤ w'.clock)
    {ip : String} {o : Option Process} (ho : ∀ p, o = some p → ProcessSound w'.received w'.clock p)
    (hprocs : w'.processes = Function.update w.processes ip o) :
    ∀ ip' p, w'.processes ip' = some p → ProcessSound w'.received w'.clock p := by
  intro ip' p hp
  rw [hprocs] at hp
  by_cases hip : ip' = ip
  · rw [hip, Function.update_self] at hp
    exact ho p hp
  · rw [Function.update_of_ne hip] at hp
    exact (h.processes ip' p hp).mono hr hc

theorem Sound.takeTurn (h : Sound w) {ip : String} {p : Process} (hp : w.processes ip = some p)
    (t : Turn) : Sound (w.takeTurn X ip p t) := by
  have hsound := h.processes ip p hp
  unfold Telemetry.takeTurn
  dsimp only
  split
  · refine h.advance (fun _ h => h) le_rfl ?_ rfl rfl rfl rfl
    exact ProcessSound.update h (fun _ h => h) le_rfl (by simp) rfl
  · rename_i state es hturn
    split
    · rename_i str hframe
      obtain ⟨hlast, hcount⟩ := Receiver.turn_health_frame X hturn hframe
      refine h.advance (List.subset_cons_self _ _) le_rfl ?_ rfl rfl rfl rfl
      refine ProcessSound.update h (List.subset_cons_self _ _) le_rfl ?_ rfl
      rintro q ⟨⟩
      refine ⟨?_, ?_, ?_, ?_⟩
      · rw [hcount, hsound.count, List.length_cons]
      · rintro t' rest ⟨⟩
        exact hlast
      · intro t' ht'
        rcases List.mem_cons.mp ht' with rfl | ht'
        · exact List.mem_cons_self
        · exact List.mem_cons_of_mem _ (hsound.known t' ht')
      · intro t' ht'
        rcases List.mem_cons.mp ht' with rfl | ht'
        · exact le_rfl
        · exact hsound.past t' ht'
    · rename_i hidle
      obtain ⟨hlast, hcount⟩ := Receiver.turn_health_idle X hturn hidle
      refine h.advance (fun _ h => h) le_rfl ?_ rfl rfl rfl rfl
      refine ProcessSound.update h (fun _ h => h) le_rfl ?_ rfl
      rintro q ⟨⟩
      refine ⟨?_, ?_, hsound.known, hsound.past⟩
      · rw [hcount, hsound.count]
      · intro t' rest hm
        rw [hlast]
        exact hsound.last t' rest hm

theorem readings_grounded {fl : FeedListener} {rs : List Reading} (h : ∀ r ∈ rs, ReadingSound w.received w.clock r)
    (hlast : ∀ t, fl.status.lastMessageTime = some t → IsArrival w.received t) :
    Grounded w.received fl rs := by
  refine ⟨fun _ r hr now hn => ?_, hlast⟩
  obtain ⟨hproc, hheard, hnow⟩ := h r hr
  obtain ⟨t, rest, ht⟩ := List.exists_cons_of_ne_nil hheard
  have hmem : t ∈ r.process.messages := by
    rw [ht]
    exact List.mem_cons_self
  obtain ⟨hn1, hn2⟩ := hn
  rw [hproc.last t rest ht] at hn2
  exact ⟨t, hmem, hproc.known t hmem, hnow now hn1 t hmem, hn2⟩

/-- A call of the poll: a process that answers has something to report. -/
theorem Sound.serve (h : Sound w) {c : Call} {k : Answer c → Prog Call Answer (Except Err Requeue)}
    (hw : w.worker = .call c k) {other : (c : Call) → Answer c} {failure : Option ApiError}
    {nanos : Fin 100} {landed : Bool} (hheard : w.heard (.call other failure nanos landed) = true) :
    Sound { (w.serve other failure nanos landed c).2 with
      worker := k (w.serve other failure nanos landed c).1 } := by
  have hobeys := fun messages hm => by simpa only [hw] using h.worker messages hm
  -- what the continuation obeys, once the answer is allowed
  have hk : ∀ r, AnswersArrival w.received c r → ∀ messages, w.received ⊆ messages →
      Prog.Obeys (ReportsArrival messages) (AnswersArrival messages) (k r) fun _ => True :=
    fun r hr messages hm => (hobeys messages hm).2 r (hr.mono hm)
  cases c with
  | probe ip =>
    simp only [heard, hw] at hheard
    simp only [Telemetry.serve]
    split
    · exact ⟨h.processes, h.readings, hk _ trivial, h.stored, h.written⟩
    · exact ⟨h.processes, h.readings, hk _ trivial, h.stored, h.written⟩
    · rename_i p hp
      have hsound := h.processes ip p hp
      have hne : p.messages ≠ [] := by
        rw [hp] at hheard
        have hpos := of_decide_eq_true hheard
        rw [hsound.count] at hpos
        exact List.ne_nil_of_length_pos hpos
      obtain ⟨t, rest, ht⟩ := List.exists_cons_of_ne_nil hne
      refine ⟨h.processes, ?_, hk _ ?_, h.stored, h.written⟩
      · intro r hr
        rcases List.mem_cons.mp hr with rfl | hr
        · exact ⟨hsound, hne, by simp⟩
        · exact h.readings r hr
      · intro t' ht'
        cases ht'
        rw [hsound.last t rest ht]
        exact ⟨t, hsound.known t (by rw [ht]; exact List.mem_cons_self), rfl⟩
  | now =>
    refine ⟨h.processes, ?_, hk _ trivial, h.stored, h.written⟩
    intro r hr
    simp only [Telemetry.serve] at hr
    cases hrs : w.readings with
    | nil => simp [hrs] at hr
    | cons r₀ rest =>
      simp only [hrs] at hr
      rcases List.mem_cons.mp hr with rfl | hr
      · obtain ⟨hproc, hheard', -⟩ := h.readings r₀ (by rw [hrs]; exact List.mem_cons_self)
        refine ⟨hproc, hheard', ?_⟩
        rintro now ⟨⟩ t ht
        have := hproc.past t ht
        omega
      · exact h.readings r (by rw [hrs]; exact List.mem_cons_of_mem _ hr)
  | updateStatus fl =>
    have hreport := (hobeys w.received (fun _ h => h)).1
    refine ⟨h.processes, h.readings, hk _ (answersArrival_other (by simp) _), ?_, ?_⟩
    · intro t ht
      simp only [Telemetry.serve] at ht
      split_ifs at ht
      · exact hreport t ht
      · exact h.stored t ht
    · rintro fl' rs ⟨⟩
      exact readings_grounded h.readings hreport
  | getFeed name | updateFeed fl | get κ name | create κ name o | update κ name o
  | delete κ name foreground | list κ sel | listPods sel | event e =>
    exact ⟨h.processes, h.readings, hk _ (answersArrival_other (by simp) _), h.stored,
      h.written⟩

theorem Sound.step {a : Action} (h : Sound w) (hheard : w.heard a = true) (hs : w.step X a = some w') :
    Sound w' := by
  cases a with
  | tick d =>
    cases hs
    refine h.advance (fun _ h => h) (Nat.le_add_right _ _) ?_ rfl rfl rfl rfl
    exact fun ip p hp => (h.processes ip p hp).mono (fun _ h => h) (Nat.le_add_right _ _)
  | start ip shard silence seed =>
    cases hs
    refine h.advance (fun _ h => h) le_rfl ?_ rfl rfl rfl rfl
    refine ProcessSound.update h (fun _ h => h) le_rfl ?_ rfl
    rintro p ⟨⟩
    exact ⟨(Receiver.recordHeartbeat_health seed true _).2, by simp, by simp, by simp⟩
  | stop ip =>
    cases hs
    refine h.advance (fun _ h => h) le_rfl ?_ rfl rfl rfl rfl
    exact ProcessSound.update h (fun _ h => h) le_rfl (by simp) rfl
  | turn ip t =>
    obtain ⟨p, hp, rfl⟩ := Option.map_eq_some_iff.mp hs
    exact h.takeTurn hp t
  | poll fl =>
    simp only [Telemetry.step] at hs
    split at hs
    · split_ifs at hs with hfl
      cases hs
      refine ⟨h.processes, by simp, ?_, h.stored, h.written⟩
      intro messages hm
      have hobeys := @reconcileStatus_obeys messages fl fun t ht => (h.stored t (hfl ▸ ht)).mono hm
      exact Prog.Obeys.weaken hobeys (fun _ hc => hc) fun _ _ => trivial
    · cases hs
  | call other failure nanos landed =>
    simp only [Telemetry.step] at hs
    split at hs
    · cases hs
    · rename_i c k hw
      cases hs
      exact h.serve hw hheard

theorem sound_initial (clock : ℕ) : Sound (initial clock) :=
  ⟨by simp [initial], by simp [initial], fun _ _ => trivial, by simp [initial], by simp [initial]⟩

theorem Sound.run {as : List Action} (h : Sound w) (hr : w.run X heard as = some w') : Sound w' := by
  induction as generalizing w with
  | nil =>
    cases hr
    exact h
  | cons a as ih =>
    rw [Telemetry.run] at hr
    split_ifs at hr with ha
    obtain ⟨w₁, h₁, h₂⟩ := Option.bind_eq_some_iff.mp hr
    exact ih (h.step ha h₁) h₂

end Steps

/-- Along every run in which no process is read before its first message, every status that is
written rests on messages. -/
theorem status_rests_on_messages {J : Type} (X : External J) (clock : ℕ) {as : List Action}
    {w : Telemetry} (h : (initial clock).run X heard as = some w) {fl : FeedListener}
    {readings : List Reading} (hw : w.written = some (fl, readings)) :
    Grounded w.received fl readings :=
  ((sound_initial clock).run h).written fl readings hw

/-- An API server that lists one ready pod of the sample feed and fails at everything else. -/
def onePod : (c : Call) → Answer c
  | .listPods _ => .ok [(⟨[], true, some true, "10.0.0.1", []⟩ : Pod)]
  | _ => .error ⟨.other, "timeout"⟩

/-- The pod starts, and the operator polls it; in between the pod receives some frames. -/
def firstPoll (frames : List (List UInt8)) : List Action :=
  [.start "10.0.0.1" onlyShard 1200000000 (delivered []), .tick 5] ++
    frames.map (fun f => .turn "10.0.0.1" (delivered f)) ++
    [.tick 10000000, .poll (eddnFeed 1 1)] ++ List.replicate 5 (.call onePod none 0 true)

/-- What has arrived, and what the last status says of streaming and of the last message. -/
def summary (w : Telemetry) : List ℕ × Option (Bool × Option ℤ) :=
  (w.received, w.written.map fun p =>
    (isStatusConditionTrue p.1.status.conditions .streaming, p.1.status.lastMessageTime))

theorem of_summary {o : Option Telemetry} {received : List ℕ} {streaming : Bool} {last : Option ℤ}
    (h : o.map summary = some (received, some (streaming, last))) :
    ∃ w fl readings, o = some w ∧ w.received = received ∧ w.written = some (fl, readings) ∧
      isStatusConditionTrue fl.status.conditions .streaming = streaming ∧
      fl.status.lastMessageTime = last := by
  obtain ⟨w, rfl, hw⟩ := Option.map_eq_some_iff.mp h
  obtain ⟨hreceived, hwritten⟩ := Prod.mk.inj hw
  obtain ⟨⟨fl, readings⟩, hfl, hs⟩ := Option.map_eq_some_iff.mp hwritten
  obtain ⟨hs, hl⟩ := Prod.mk.inj hs
  exact ⟨w, fl, readings, rfl, hreceived, hfl, hs, hl⟩

theorem status_rests_on_messages_frame : ∃ w fl readings,
    (initial 7).run headerCheck heard (firstPoll [[0x78, 0x9C]]) = some w ∧
      w.written = some (fl, readings) ∧
      isStatusConditionTrue fl.status.conditions .streaming = true ∧
      fl.status.lastMessageTime = some 1200 ∧ Grounded w.received fl readings := by
  have h : ((initial 7).run headerCheck heard (firstPoll [[0x78, 0x9C]])).map summary =
      some ([12], some (true, some 1200)) := by decide +kernel
  obtain ⟨w, fl, readings, hrun, -, hwritten, hs, hl⟩ := of_summary h
  exact ⟨w, fl, readings, hrun, hwritten, hs, hl, status_rests_on_messages headerCheck 7 hrun hwritten⟩

/-- A pod that has just started and received nothing is reported as streaming, with its start as
the time of the last message. -/
theorem seed_reported_as_message : ¬ ∀ (as : List Action) (w : Telemetry),
    (initial 7).run headerCheck (fun _ _ => true) as = some w →
      ∀ fl readings, w.written = some (fl, readings) → Grounded w.received fl readings := by
  intro hall
  have h : ((initial 7).run headerCheck (fun _ _ => true) (firstPoll [])).map summary =
      some ([], some (true, some 700)) := by decide +kernel
  obtain ⟨w, fl, readings, hrun, hreceived, hwritten, -, hl⟩ := of_summary h
  obtain ⟨m, hm, -⟩ := (hall _ w hrun fl readings hwritten).2 700 hl
  rw [hreceived] at hm
  cases hm

end Telemetry

end EliteEvents

import EliteEvents.Spec.StreamConnection

/-! How a stream ends once the hub has completed its channel. The loop knows only the request's token and a
throwing write: on a drained channel it goes round through `: ping`, one comment for every two steps, until one of
them stops it. -/

namespace EliteEvents

open BoundedQueue LiveEventHub

namespace StreamEndpoint

variable {c : Connection} {events : ℕ → List Event} {m n b : ℕ}

/-- The hub completed the channel, and its frames have been read. -/
def Drained (c : Connection) : Prop := c.completed = true ∧ c.queue.items = []

def Payload.isComment : Payload → Bool
  | .connected => true
  | .ping => true
  | .frame _ => false

/-- How many comment frames were written. -/
def comments (c : Connection) : ℕ := c.written.countP Payload.isComment

/-- From step `m` on the response ends, after at most `b` more comment frames. -/
def EndsWithin (events : ℕ → List Event) (m b : ℕ) : Prop :=
  ∃ k, (run events (m + k)).location = .ended ∧
    comments (run events (m + k)) ≤ comments (run events m) + b

/-- The request is cancelled, or its connection breaks, before the handler's step `n` is done. -/
def Stopped (events : ℕ → List Event) (n : ℕ) : Prop :=
  ∃ j ≤ n, Event.cancel ∈ events j ∨ Event.disconnect ∈ events j

/-- On a drained channel, the steps until more than `b` comment frames are written. -/
def patience : Location → ℕ → ℕ
  | .connecting, b => 2 * b
  | .looping, b => 2 * b + 1
  | .waiting, _ => 0
  | .pinging, b => 2 * b
  | .reading, b => 2 * b + 2
  | .ended, _ => 0

/-- A write throws. -/
def Connection.halted (c : Connection) : Bool := c.cancelled || c.broken

/-- The connection as its handler's step `n` finds it. -/
def found (events : ℕ → List Event) (n : ℕ) : Connection :=
  (events n).foldl Connection.event (run events n)

theorem run_succ (events : ℕ → List Event) (n : ℕ) : run events (n + 1) = (found events n).step := rfl

/-! What stops a handler. -/

theorem resume_halted (c : Connection) (r : Bool) : (c.resume r).halted = c.halted := by
  unfold Connection.resume
  split_ifs <;> rfl

theorem event_halted (c : Connection) (e : Event) :
    (c.event e).halted = true ↔ c.halted = true ∨ e = .cancel ∨ e = .disconnect := by
  cases e with
  | arrive f =>
    simp only [Connection.event]
    split_ifs
    · simp
    · rw [resume_halted]
      simp [Connection.halted]
  | complete =>
    rw [Connection.event, resume_halted]
    simp [Connection.halted]
  | keepAlive => simp [Connection.event, resume_halted]
  | cancel =>
    rw [Connection.event, resume_halted]
    simp [Connection.halted]
  | disconnect => simp [Connection.event, Connection.halted]

theorem events_halted (es : List Event) (c : Connection) :
    (es.foldl Connection.event c).halted = true ↔
      c.halted = true ∨ Event.cancel ∈ es ∨ Event.disconnect ∈ es := by
  induction es generalizing c with
  | nil => simp
  | cons e es ih =>
    simp only [List.foldl_cons, ih, event_halted, List.mem_cons, eq_comm (a := e)]
    tauto

theorem write_halted (c : Connection) (p : Payload) (l : Location) : (c.write p l).halted = c.halted := by
  unfold Connection.write
  split_ifs <;> rfl

theorem step_halted (c : Connection) : c.step.halted = c.halted := by
  unfold Connection.step
  split
  · exact write_halted ..
  · split_ifs <;> rfl
  · rfl
  · exact write_halted ..
  · split
    · rfl
    · exact write_halted ..
  · rfl

theorem found_halted (events : ℕ → List Event) (n : ℕ) : (found events n).halted = true ↔ Stopped events n := by
  unfold found Stopped
  rw [events_halted]
  induction n with
  | zero => simp [run, Connection.init, Connection.halted]
  | succ n ih =>
    rw [run_succ, step_halted, found, events_halted, ih]
    constructor
    · rintro (⟨j, hj, h⟩ | h)
      · exact ⟨j, by omega, h⟩
      · exact ⟨n + 1, le_rfl, h⟩
    · rintro ⟨j, hj, h⟩
      rcases Nat.lt_or_ge n j with hn | hn
      · obtain rfl : j = n + 1 := by omega
        exact .inr h
      · exact .inl ⟨j, hn, h⟩

/-! Where a handler can be. -/

theorem resume_cases (c : Connection) (r : Bool) :
    c.resume r = c ∧ c.location ≠ .waiting ∨
      c.location = .waiting ∧ ((c.resume r).location = .reading ∨ (c.resume r).location = .pinging) := by
  by_cases hw : c.location = .waiting
  · cases r <;> simp [Connection.resume, hw]
  · exact .inl ⟨if_neg hw, hw⟩

/-- What an event can do to the location: nothing, unless it ends a wait. -/
theorem event_location (c : Connection) (e : Event) :
    (c.event e).location = c.location ∧ (c.location = .waiting → (c.event e).completed = c.completed) ∨
      c.location = .waiting ∧ ((c.event e).location = .reading ∨ (c.event e).location = .pinging) := by
  have resumed : ∀ (d : Connection) (r : Bool), d.location = c.location →
      (d.resume r).location = c.location ∧ (c.location = .waiting → (d.resume r).completed = c.completed) ∨
        c.location = .waiting ∧ ((d.resume r).location = .reading ∨ (d.resume r).location = .pinging) := by
    intro d r hd
    rcases resume_cases d r with ⟨hs, hw⟩ | ⟨hw, hl⟩
    · exact .inl ⟨by rw [hs, hd], fun h => absurd (hd.trans h) hw⟩
    · exact .inr ⟨hd.symm.trans hw, hl⟩
  cases e with
  | arrive f =>
    simp only [Connection.event]
    split_ifs
    · exact .inl ⟨rfl, fun _ => rfl⟩
    · exact resumed _ _ rfl
  | complete => exact resumed _ _ rfl
  | keepAlive => exact resumed _ _ rfl
  | cancel => exact resumed _ _ rfl
  | disconnect => exact .inl ⟨rfl, fun _ => rfl⟩

/-- `WaitToReadAsync` only waits on a channel that is open, and a handler only ends when a write throws. -/
structure Connection.Sound (c : Connection) : Prop where
  waiting : c.location = .waiting → c.completed = false
  ended : c.location = .ended → c.halted = true

theorem Connection.Sound.event (h : c.Sound) (e : Event) : (c.event e).Sound := by
  have halted : c.halted = true → (c.event e).halted = true := fun hc => (event_halted c e).mpr (.inl hc)
  rcases event_location c e with ⟨hl, hc⟩ | ⟨-, hl⟩
  · refine ⟨fun hw => ?_, fun he => halted (h.ended (hl ▸ he))⟩
    rw [hl] at hw
    rw [hc hw]
    exact h.waiting hw
  · rcases hl with hl | hl <;> exact ⟨by simp [hl], by simp [hl]⟩

theorem Connection.Sound.foldl (h : c.Sound) (es : List Event) : (es.foldl Connection.event c).Sound := by
  induction es generalizing c with
  | nil => exact h
  | cons e es ih => exact ih (h.event e)

theorem write_sound (c : Connection) (p : Payload) {l : Location} (hw : l ≠ .waiting) (he : l ≠ .ended) :
    (c.write p l).Sound := by
  unfold Connection.write
  split_ifs with hc
  · exact ⟨by simp, fun _ => hc⟩
  · exact ⟨fun h => absurd h hw, fun h => absurd h he⟩

theorem Connection.Sound.step (h : c.Sound) : c.step.Sound := by
  unfold Connection.step
  split
  · exact write_sound c _ (by decide) (by decide)
  · split_ifs with hc hq hd
    · exact ⟨by simp, by simp [Connection.halted, hc]⟩
    · exact ⟨by simp, by simp⟩
    · exact ⟨by simp, by simp⟩
    · exact ⟨by simpa using hd, by simp⟩
  · exact h
  · exact write_sound c _ (by decide) (by decide)
  · split
    · exact ⟨by simp, by simp⟩
    · exact write_sound _ _ (by decide) (by decide)
  · exact h

theorem run_sound (events : ℕ → List Event) (n : ℕ) : (run events n).Sound := by
  induction n with
  | zero => exact ⟨by simp [run, Connection.init], by simp [run, Connection.init]⟩
  | succ n ih => exact (ih.foldl _).step

/-! The loop on a drained channel. -/

/-- Events leave a drained channel, and the handler on it, as they are. -/
structure Kept (c d : Connection) : Prop where
  drained : Drained d
  location : d.location = c.location
  written : d.written = c.written

theorem resume_of_ne (h : c.location ≠ .waiting) (r : Bool) : c.resume r = c := if_neg h

theorem event_kept (hd : Drained c) (hw : c.location ≠ .waiting) (e : Event) : Kept c (c.event e) := by
  cases e with
  | arrive f =>
    have hc : c.event (.arrive f) = c := if_pos hd.1
    rw [hc]
    exact ⟨hd, rfl, rfl⟩
  | complete =>
    rw [Connection.event, resume_of_ne (by exact hw)]
    exact ⟨⟨rfl, hd.2⟩, rfl, rfl⟩
  | keepAlive =>
    rw [Connection.event, resume_of_ne hw]
    exact ⟨hd, rfl, rfl⟩
  | cancel =>
    rw [Connection.event, resume_of_ne (by exact hw)]
    exact ⟨hd, rfl, rfl⟩
  | disconnect => exact ⟨hd, rfl, rfl⟩

theorem events_kept (es : List Event) (hd : Drained c) (hw : c.location ≠ .waiting) :
    Kept c (es.foldl Connection.event c) := by
  induction es generalizing c with
  | nil => exact ⟨hd, rfl, rfl⟩
  | cons e es ih =>
    obtain ⟨hd', hl, hwr⟩ := event_kept hd hw e
    obtain ⟨hd'', hl', hwr'⟩ := ih hd' (by rwa [hl])
    exact ⟨hd'', hl'.trans hl, hwr'.trans hwr⟩

theorem Drained.ne_waiting (hd : Drained c) (hs : c.Sound) : c.location ≠ .waiting := by
  intro hw
  have := hs.waiting hw
  rw [hd.1] at this
  exact Bool.noConfusion this

theorem found_kept (hd : Drained (run events n)) : Kept (run events n) (found events n) :=
  events_kept _ hd (hd.ne_waiting (run_sound events n))

theorem tryRead_drained (hd : Drained c) : c.queue.tryRead = none := by
  unfold Queue.tryRead
  split
  · rfl
  · rename_i items bound hq
    have := hd.2
    rw [hq] at this
    exact absurd this (by simp)

/-- One step of a handler that nothing stops: a comment is written on every way back to the condition. -/
theorem step_calm (hd : Drained c) (hs : c.Sound) (hh : c.halted = false) :
    Drained c.step ∧
      ((c.location = .connecting ∨ c.location = .pinging) ∧ c.step.location = .looping ∧
          comments c.step = comments c + 1 ∨
        comments c.step = comments c ∧
          (c.location = .looping ∧ c.step.location = .pinging ∨
            c.location = .reading ∧ c.step.location = .looping)) := by
  have hc : c.cancelled = false := (Bool.or_eq_false_iff.mp hh).1
  have hw : ∀ p l, c.write p l = { c with written := c.written ++ [p], location := l } :=
    fun p l => if_neg (ne_true_of_eq_false hh)
  unfold Connection.step
  split
  case h_1 hl => rw [hw]; exact ⟨hd, .inl ⟨.inl hl, rfl, by simp [comments, Payload.isComment]⟩⟩
  case h_2 hl =>
    rw [if_neg (ne_true_of_eq_false hc), if_neg (not_not.mpr hd.2), if_pos hd.1]
    exact ⟨hd, .inr ⟨rfl, .inl ⟨hl, rfl⟩⟩⟩
  case h_3 hl => exact absurd hl (hd.ne_waiting hs)
  case h_4 hl => rw [hw]; exact ⟨hd, .inl ⟨.inr hl, rfl, by simp [comments, Payload.isComment]⟩⟩
  case h_5 hl => rw [tryRead_drained hd]; exact ⟨hd, .inr ⟨rfl, .inr ⟨hl, rfl⟩⟩⟩
  case h_6 hl =>
    rw [hs.ended hl] at hh
    exact absurd hh (by decide)

/-- How many steps a handler whose writes throw is from its end. -/
def toEnd : Location → ℕ
  | .connecting => 1
  | .looping => 2
  | .waiting => 0
  | .pinging => 1
  | .reading => 3
  | .ended => 0

/-- One step of such a handler writes nothing, and brings it nearer to its end. -/
theorem step_stopped (hd : Drained c) (hs : c.Sound) (hh : c.halted = true) :
    Drained c.step ∧ c.step.written = c.written ∧
      (c.step.location = .ended ∨ toEnd c.step.location < toEnd c.location) := by
  have hw : ∀ p l, c.write p l = { c with location := .ended } := fun p l => if_pos hh
  unfold Connection.step
  split
  case h_1 hl => rw [hw]; exact ⟨hd, rfl, .inl rfl⟩
  case h_2 hl =>
    rw [if_neg (not_not.mpr hd.2), if_pos hd.1]
    split_ifs
    · exact ⟨hd, rfl, .inl rfl⟩
    · exact ⟨hd, rfl, .inr (by simp [hl, toEnd])⟩
  case h_3 hl => exact absurd hl (hd.ne_waiting hs)
  case h_4 hl => rw [hw]; exact ⟨hd, rfl, .inl rfl⟩
  case h_5 hl => rw [tryRead_drained hd]; exact ⟨hd, rfl, .inr (by simp [hl, toEnd])⟩
  case h_6 hl => exact ⟨hd, rfl, .inl hl⟩

/-! Runs. -/

theorem write_comments (c : Connection) (p : Payload) (l : Location) : comments c ≤ comments (c.write p l) := by
  unfold Connection.write
  split_ifs
  · exact le_rfl
  · simp [comments]

theorem step_comments (c : Connection) : comments c ≤ comments c.step := by
  unfold Connection.step
  split
  · exact write_comments ..
  · split_ifs <;> exact le_rfl
  · exact le_rfl
  · exact write_comments ..
  · split
    · exact le_rfl
    · rename_i f queue _
      exact write_comments { c with queue := queue } _ _
  · exact le_rfl

theorem resume_written (c : Connection) (r : Bool) : (c.resume r).written = c.written := by
  unfold Connection.resume
  split_ifs <;> rfl

theorem event_written (c : Connection) (e : Event) : (c.event e).written = c.written := by
  cases e with
  | arrive f =>
    simp only [Connection.event]
    split_ifs
    · rfl
    · exact resume_written ..
  | complete => exact resume_written ..
  | keepAlive => exact resume_written ..
  | cancel => exact resume_written ..
  | disconnect => rfl

theorem events_written (es : List Event) (c : Connection) : (es.foldl Connection.event c).written = c.written := by
  induction es generalizing c with
  | nil => rfl
  | cons e es ih => rw [List.foldl_cons, ih, event_written]

theorem comments_mono (events : ℕ → List Event) : Monotone fun n => comments (run events n) := by
  refine monotone_nat_of_le_succ fun n => ?_
  have := step_comments (found events n)
  rwa [comments, found, events_written] at this

/-! What is written, turn by turn. -/

/-- The writes so far are those of whole turns of the loop, and in a turn that reads, of the frames it has read. -/
def Connection.Told (c : Connection) : Prop :=
  match c.location with
  | .connecting => c.written = []
  | .reading => ∃ turns frames, c.written = payloads (turns ++ [some frames])
  | .ended => c.written = [] ∨ ∃ turns, c.written = payloads turns
  | .looping | .waiting | .pinging => ∃ turns, c.written = payloads turns

theorem Connection.Told.event (h : c.Told) (e : Event) : (c.event e).Told := by
  unfold Connection.Told at h ⊢
  rw [event_written]
  rcases event_location c e with ⟨hl, -⟩ | ⟨hw, hl⟩
  · rwa [hl]
  · rw [hw] at h
    obtain ⟨turns, ht⟩ := h
    rcases hl with hl | hl <;> rw [hl]
    · exact ⟨turns, [], by simp [ht, payloads]⟩
    · exact ⟨turns, ht⟩

theorem Connection.Told.foldl (h : c.Told) (es : List Event) : (es.foldl Connection.event c).Told := by
  induction es generalizing c with
  | nil => exact h
  | cons e es ih => exact ih (h.event e)

theorem Connection.Told.written (h : c.Told) : c.written = [] ∨ ∃ turns, c.written = payloads turns := by
  unfold Connection.Told at h
  split at h
  · exact .inl h
  · obtain ⟨turns, frames, h⟩ := h
    exact .inr ⟨_, h⟩
  · exact h
  · exact .inr h
  · exact .inr h
  · exact .inr h

theorem told_write (h : c.written = [] ∨ ∃ turns, c.written = payloads turns) {p : Payload} {l : Location}
    (hl : { c with written := c.written ++ [p], location := l }.Told) : (c.write p l).Told := by
  unfold Connection.write
  split_ifs
  · exact h
  · exact hl

theorem Connection.Told.step (h : c.Told) : c.step.Told := by
  have hw := h.written
  have htold := h
  unfold Connection.step
  split <;> rename_i hl <;> simp only [Connection.Told, hl] at h
  · exact told_write hw ⟨[], by simp [h, payloads]⟩
  · obtain ⟨turns, ht⟩ := h
    split_ifs
    · exact hw
    · exact ⟨turns, [], by simp [ht, payloads]⟩
    · exact ⟨turns, ht⟩
    · exact ⟨turns, ht⟩
  · exact htold
  · obtain ⟨turns, ht⟩ := h
    exact told_write hw ⟨turns ++ [none], by simp [ht, payloads]⟩
  · obtain ⟨turns, frames, ht⟩ := h
    split
    · exact ⟨_, ht⟩
    · rename_i f queue _
      exact @told_write { c with queue := queue } hw (.frame f) .reading
        ⟨turns, frames ++ [f], by simp [ht, payloads]⟩
  · exact htold

/-- What a run writes is what some turns of the loop write. -/
theorem run_written (events : ℕ → List Event) (n : ℕ) :
    (run events n).written = [] ∨ ∃ turns, (run events n).written = payloads turns := by
  suffices (run events n).Told from this.written
  induction n with
  | zero => exact rfl
  | succ n ih => exact (ih.foldl _).step

/-- A step that writes `a` comments leaves that many fewer to write. -/
theorem endsWithin_succ {a : ℕ} (he : (run events m).location ≠ .ended)
    (hc : comments (run events (m + 1)) = comments (run events m) + a) :
    EndsWithin events m (a + b) ↔ EndsWithin events (m + 1) b := by
  constructor
  · rintro ⟨k, hk, hb⟩
    obtain ⟨k, rfl⟩ : ∃ i, k = i + 1 := Nat.exists_eq_succ_of_ne_zero fun h => he (by simpa [h] using hk)
    refine ⟨k, ?_, ?_⟩ <;> rw [Nat.add_right_comm, Nat.add_assoc]
    · exact hk
    · omega
  · rintro ⟨k, hk, hb⟩
    rw [Nat.add_right_comm, Nat.add_assoc] at hk hb
    exact ⟨k + 1, hk, by omega⟩

theorem Stopped.mono (h : Stopped events m) (hmn : m ≤ n) : Stopped events n := by
  obtain ⟨j, hj, he⟩ := h
  exact ⟨j, hj.trans hmn, he⟩

/-- Once the handler is stopped, it ends and writes no further comment. -/
theorem Stopped.endsWithin (h : Stopped events m) (hd : Drained (run events m)) (b : ℕ) :
    EndsWithin events m b := by
  induction hk : toEnd (run events m).location using Nat.strong_induction_on generalizing m with
  | _ k ih =>
    obtain ⟨hf, hl, hw⟩ := found_kept hd
    obtain ⟨hd', hw', hstep⟩ :=
      step_stopped hf ((run_sound events m).foldl _) ((found_halted events m).mpr h)
    have hc : comments (run events (m + 1)) = comments (run events m) := by
      rw [comments, run_succ, hw', hw, comments]
    rcases hstep with he | hlt
    · exact ⟨1, he, by omega⟩
    · by_cases he : (run events m).location = .ended
      · exact ⟨0, he, Nat.le_add_right _ _⟩
      rw [← Nat.zero_add b, endsWithin_succ he hc]
      exact ih _ (by rwa [← hk, ← hl]) (h.mono (Nat.le_succ m)) hd' rfl

/-- Nothing else ends a response. -/
theorem not_ended (h : ¬Stopped events m) (hn : n ≤ m + 1) : (run events n).location ≠ .ended := by
  intro he
  cases n with
  | zero => simp [run, Connection.init] at he
  | succ n =>
    refine h (((found_halted events n).mp ?_).mono (Nat.le_of_succ_le_succ hn))
    rw [← step_halted]
    exact (run_sound events (n + 1)).ended he

/-- A step of the loop on a drained channel that nothing stops. -/
theorem calm_step (hd : Drained (run events m)) (h : ¬Stopped events m) :
    Drained (run events (m + 1)) ∧
      (((run events m).location = .connecting ∨ (run events m).location = .pinging) ∧
          (run events (m + 1)).location = .looping ∧
          comments (run events (m + 1)) = comments (run events m) + 1 ∨
        comments (run events (m + 1)) = comments (run events m) ∧
          ((run events m).location = .looping ∧ (run events (m + 1)).location = .pinging ∨
            (run events m).location = .reading ∧ (run events (m + 1)).location = .looping)) := by
  obtain ⟨hf, hl, hw⟩ := found_kept hd
  have hh : (found events m).halted = false := by
    rw [← Bool.not_eq_true, found_halted]
    exact h
  have := step_calm hf ((run_sound events m).foldl _) hh
  rwa [hl, comments, comments, hw] at this

theorem not_endsWithin_zero (he : (run events m).location ≠ .ended)
    (hc : comments (run events (m + 1)) = comments (run events m) + 1) : ¬EndsWithin events m 0 := by
  rintro ⟨k, hk, hb⟩
  cases k with
  | zero => exact he hk
  | succ k =>
    have : comments (run events (m + 1)) ≤ comments (run events (m + (k + 1))) :=
      comments_mono events (by omega)
    omega

/-- On a drained channel, at most `b` more comments are written if and only if the handler is stopped in time. -/
theorem endsWithin_iff (hd : Drained (run events m)) :
    EndsWithin events m b ↔ Stopped events (m + patience (run events m).location b) := by
  -- along the steps that are left: each one either is stopped, or goes on to the next location
  induction hp : patience (run events m).location b generalizing m b with
  | zero =>
    by_cases h : Stopped events m
    · exact ⟨fun _ => h, fun _ => h.endsWithin hd b⟩
    · have he := not_ended h (Nat.le_succ m)
      obtain ⟨-, ⟨hl, -, hc⟩ | ⟨-, hl⟩⟩ := calm_step hd h
      · obtain rfl : b = 0 := by rcases hl with hl | hl <;> simpa [hl, patience] using hp
        exact iff_of_false (not_endsWithin_zero he hc) h
      · rcases hl with ⟨hl, -⟩ | ⟨hl, -⟩ <;> simp [hl, patience] at hp
  | succ p ih =>
    by_cases h : Stopped events m
    · exact ⟨fun _ => h.mono (by omega), fun _ => h.endsWithin hd b⟩
    · have he := not_ended h (Nat.le_succ m)
      rw [← Nat.add_assoc, Nat.add_right_comm]
      obtain ⟨hd', ⟨hl, hl', hc⟩ | ⟨hc, hl⟩⟩ := calm_step hd h
      · have hb : 2 * b = p + 1 := by rcases hl with hl | hl <;> simpa [hl, patience] using hp
        obtain ⟨b, rfl⟩ : ∃ i, b = 1 + i := ⟨b - 1, by omega⟩
        rw [endsWithin_succ he hc]
        exact ih hd' (by rw [hl', patience]; omega)
      · rw [← Nat.zero_add b, endsWithin_succ he hc]
        refine ih hd' ?_
        rcases hl with ⟨hl, hl'⟩ | ⟨hl, hl'⟩
        · rw [hl, patience] at hp
          rw [hl', patience]
          omega
        · rw [hl, patience] at hp
          rw [hl', patience]
          omega

/-- After the hub has stopped and the frames are read, the response ends with at most one more comment exactly when
the request is cancelled, or its connection breaks, before the second comment. Completing the channel does not end
it. -/
theorem stopped_hub_ends_iff (events : ℕ → List Event) (m : ℕ) (hd : Drained (run events m)) :
    EndsWithin events m 1 ↔
      ∃ j ≤ m + patience (run events m).location 1, Event.cancel ∈ events j ∨ Event.disconnect ∈ events j :=
  endsWithin_iff hd

/-- The hub stops at once, and the client leaves two steps later. -/
def clientLeaves : ℕ → List Event
  | 0 => [.complete]
  | 2 => [.cancel]
  | _ => []

theorem stopped_hub_ends_iff_left : Drained (run clientLeaves 1) ∧ EndsWithin clientLeaves 1 1 := by
  have hd : Drained (run clientLeaves 1) := by constructor <;> rfl
  have hl : (run clientLeaves 1).location = .looping := rfl
  refine ⟨hd, (stopped_hub_ends_iff clientLeaves 1 hd).mpr ⟨2, ?_, .inl (by simp [clientLeaves])⟩⟩
  rw [hl, patience]
  omega

/-- The hub stops at once, and nothing else ever happens. -/
def hubStops : ℕ → List Event
  | 0 => [.complete]
  | _ => []

/-- The channel is drained, the token never fires, and no step of the handler ends the response. -/
theorem stopped_hub_pings_forever :
    Drained (run hubStops 1) ∧ (∀ n, Event.cancel ∉ hubStops n) ∧
      (∀ n, (run hubStops n).location ≠ .ended) ∧ ¬EndsWithin hubStops 1 1 := by
  have quiet : ∀ n, Event.cancel ∉ hubStops n ∧ Event.disconnect ∉ hubStops n := by
    intro n
    cases n <;> simp [hubStops]
  have never : ∀ n, ¬Stopped hubStops n := fun n ⟨j, _, h⟩ => h.elim (quiet j).1 (quiet j).2
  have unended : ∀ n, (run hubStops n).location ≠ .ended := fun n => not_ended (never n) (Nat.le_succ n)
  exact ⟨by constructor <;> rfl, fun n => (quiet n).1, unended, fun ⟨_, hk, _⟩ => unended _ hk⟩

end StreamEndpoint

end EliteEvents

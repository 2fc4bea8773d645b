import EliteEvents.Lib.Runs
import EliteEvents.Proofs.QuietRebuild
import EliteEvents.Spec.MaintenanceSchedule

/-! The pace of the index maintenance: what each event can do, and how far apart the passes of a run are. -/

namespace EliteEvents

open Redis SearchIndexMaintainer

namespace MaintenanceRun

variable {opts : IndexMaintenanceOptions} {w w' : MaintenanceRun} {e : ℕ × MaintenanceEvent}

/-- What a pass leaves: it got through, or the flag is as it was. -/
theorem rebuildAsync_cases (now : Time) (systems carriers : Attempt) (s : MaintenanceService) :
    (∃ r, (rebuildBoth now systems carriers s.store).2 = .ok r ∧
      s.rebuildAsync now systems carriers = (⟨(rebuildBoth now systems carriers s.store).1, true⟩, .ok ())) ∨
    ((rebuildBoth now systems carriers s.store).2 = .error .failed ∧ s.rebuildAsync now systems carriers =
      (⟨(rebuildBoth now systems carriers s.store).1, s.hasSucceeded⟩, .ok ())) ∨
    ((rebuildBoth now systems carriers s.store).2 = .error .cancelled ∧ s.rebuildAsync now systems carriers =
      (⟨(rebuildBoth now systems carriers s.store).1, s.hasSucceeded⟩, .error .cancelled)) := by
  unfold MaintenanceService.rebuildAsync
  rcases rebuildBoth now systems carriers s.store with ⟨σ, stop | r⟩
  · cases stop with
    | cancelled => exact .inr (.inr ⟨rfl, rfl⟩)
    | failed => exact .inr (.inl ⟨rfl, rfl⟩)
  · exact .inl ⟨r, rfl, rfl⟩

/-- Everything an event can do. -/
inductive Move (opts : IndexMaintenanceOptions) (w : MaintenanceRun) (t : ℕ) : MaintenanceEvent → MaintenanceRun → Prop
  | delayed (due : ℕ) (hp : w.phase = .delaying due) (hd : due ≤ t) :
      Move opts w t .delayed { w with now := t, phase := .rebuilding t }
  | succeeded (since : ℕ) (now : Time) (systems carriers : Attempt) (hp : w.phase = .rebuilding since)
      (hr : ∃ r, (rebuildBoth now systems carriers w.service.store).2 = .ok r) :
      Move opts w t (.rebuilt now systems carriers)
        ({ w with
            now := t
            service := ⟨(rebuildBoth now systems carriers w.service.store).1, true⟩
            passes := ⟨since, t, true⟩ :: w.passes }.afterPass opts t)
  | failed (since : ℕ) (now : Time) (systems carriers : Attempt) (hp : w.phase = .rebuilding since)
      (hr : (rebuildBoth now systems carriers w.service.store).2 = .error .failed) :
      Move opts w t (.rebuilt now systems carriers)
        ({ w with
            now := t
            service := ⟨(rebuildBoth now systems carriers w.service.store).1, w.service.hasSucceeded⟩
            passes := ⟨since, t, false⟩ :: w.passes }.afterPass opts t)
  | abandoned (since : ℕ) (now : Time) (systems carriers : Attempt) (hp : w.phase = .rebuilding since)
      (hs : w.isCancellationRequested = true) :
      Move opts w t (.rebuilt now systems carriers)
        { w with
            now := t
            service := ⟨(rebuildBoth now systems carriers w.service.store).1, w.service.hasSucceeded⟩
            phase := .returned
            passes := ⟨since, t, false⟩ :: w.passes }
  | fired (timer : PeriodicTimer) (hp : w.phase = .waiting ∨ ∃ since, w.phase = .rebuilding since)
      (ht : w.timer = some timer) (hi : 0 < opts.interval)
      (hd : timer.created + (timer.fired + 1) * opts.interval ≤ t) :
      Move opts w t .fired
        { w with now := t, timer := some { timer with fired := timer.fired + 1, signaled := true } }
  | ticked (timer : PeriodicTimer) (hp : w.phase = .waiting) (ht : w.timer = some timer)
      (hs : timer.signaled = true) :
      Move opts w t .ticked
        { w with now := t, timer := some { timer with signaled := false }, phase := .rebuilding t }
  | stopping : Move opts w t .stopping { w with now := t, isCancellationRequested := true }
  | cancelled (hs : w.isCancellationRequested = true) : Move opts w t .cancelled { w with now := t, phase := .returned }

theorem move_of_step (h : w.step opts e = some w') : w.now ≤ e.1 ∧ Move opts w e.1 e.2 w' := by
  obtain ⟨t, e⟩ := e
  have ht : ¬t < w.now := by
    intro ht
    simp [step, ht] at h
  refine ⟨not_lt.mp ht, ?_⟩
  simp only [step, if_neg ht] at h
  cases e with
  | delayed =>
    cases hp : w.phase <;> simp only [hp, reduceCtorEq] at h
    split_ifs at h with hd
    exact Option.some.inj h ▸ .delayed _ hp hd
  | rebuilt now systems carriers =>
    cases hp : w.phase <;> simp only [hp, reduceCtorEq] at h
    rcases rebuildAsync_cases now systems carriers w.service with ⟨r, hr, he⟩ | ⟨hr, he⟩ | ⟨hr, he⟩
    · rw [he, hr] at h
      exact Option.some.inj h ▸ .succeeded _ _ _ _ hp ⟨r, hr⟩
    · rw [he, hr] at h
      exact Option.some.inj h ▸ .failed _ _ _ _ hp hr
    · simp only [he] at h
      split_ifs at h with hs
      exact Option.some.inj h ▸ .abandoned _ _ _ _ hp hs
  | fired =>
    have hp : w.phase = .waiting ∨ ∃ since, w.phase = .rebuilding since := by
      cases hp : w.phase <;> simp only [hp, reduceCtorEq] at h
      · exact .inr ⟨_, rfl⟩
      · exact .inl rfl
    cases htm : w.timer with
    | none => rcases hp with hp | ⟨_, hp⟩ <;> simp [hp, htm] at h
    | some timer =>
      have h : (if 0 < opts.interval ∧ timer.created + (timer.fired + 1) * opts.interval ≤ t then
          some { w with now := t, timer := some { timer with fired := timer.fired + 1, signaled := true } }
          else none) = some w' := by
        rcases hp with hp | ⟨_, hp⟩ <;> simpa only [hp, htm] using h
      split_ifs at h with hd
      exact Option.some.inj h ▸ .fired timer hp htm hd.1 hd.2
  | ticked =>
    cases hp : w.phase <;> simp only [hp, reduceCtorEq] at h
    cases htm : w.timer with
    | none => simp [htm] at h
    | some timer =>
      simp only [htm] at h
      split_ifs at h with hs
      exact Option.some.inj h ▸ .ticked timer hp htm hs
  | stopping => exact Option.some.inj h ▸ .stopping
  | cancelled =>
    cases hp : w.phase <;> simp only [hp, reduceCtorEq] at h
    all_goals
      split_ifs at h with hs
      exact Option.some.inj h ▸ .cancelled hs

@[simp] theorem afterPass_service (t : ℕ) : (w.afterPass opts t).service = w.service := by
  unfold afterPass
  split <;> (try split_ifs) <;> rfl

@[simp] theorem afterPass_isCancellationRequested (t : ℕ) :
    (w.afterPass opts t).isCancellationRequested = w.isCancellationRequested := by
  unfold afterPass
  split <;> (try split_ifs) <;> rfl

@[simp] theorem afterPass_passes (t : ℕ) : (w.afterPass opts t).passes = w.passes := by
  unfold afterPass
  split <;> (try split_ifs) <;> rfl

/-! How far apart the passes are. -/

/-- The passes, newest first, while none has got through. The next one begins at `due` or later. -/
inductive Retried (t₀ : ℕ) : List MaintenancePass → ℕ → Prop
  | nil : Retried t₀ [] (t₀ + startupDelay)
  | cons {ps : List MaintenancePass} {due : ℕ} (h : Retried t₀ ps due) {p : MaintenancePass} (hs : due ≤ p.started)
      (he : p.started ≤ p.ended) (hf : p.succeeded = false) :
      Retried t₀ (p :: ps) (p.ended + retryUntilFirstSuccess)

/-- The passes on the ticks of a timer, newest first: each has a tick of its own. -/
inductive Ticked (interval : ℤ) (created : ℕ) : List MaintenancePass → Prop
  | nil : Ticked interval created []
  | cons {ps : List MaintenancePass} (h : Ticked interval created ps) {p : MaintenancePass} (hi : 0 < interval)
      (hs : created + (ps.length + 1) * interval ≤ p.started) (he : p.started ≤ p.ended) :
      Ticked interval created (p :: ps)

/-- The first pass that got through, with those before and after it. -/
structure Settled (opts : IndexMaintenanceOptions) (t₀ : ℕ) (later : List MaintenancePass) (p : MaintenancePass)
    (earlier : List MaintenancePass) : Prop where
  retried : ∃ due, Retried t₀ earlier due ∧ due ≤ p.started
  ordered : p.started ≤ p.ended
  succeeded : p.succeeded = true
  handedOff : opts.periodic = false → later = []
  ticked : Ticked opts.interval p.ended later

def Scheduled (opts : IndexMaintenanceOptions) (t₀ : ℕ) (ps : List MaintenancePass) : Prop :=
  (∃ due, Retried t₀ ps due) ∨ ∃ later p earlier, ps = later ++ p :: earlier ∧ Settled opts t₀ later p earlier

/-- The timer at time `now`: `taken` of its ticks have been taken. -/
structure OnTicks (opts : IndexMaintenanceOptions) (now : ℕ) (timer : PeriodicTimer) (taken : ℕ) : Prop where
  periodic : opts.periodic = true
  positive : 0 < timer.fired → 0 < opts.interval
  enough : taken + (if timer.signaled then 1 else 0) ≤ timer.fired
  due : timer.created + timer.fired * opts.interval ≤ now

inductive Paced (opts : IndexMaintenanceOptions) (t₀ : ℕ) (w : MaintenanceRun) : Prop
  | delaying (due : ℕ) (hp : w.phase = .delaying due) (ht : w.timer = none) (hs : w.service.hasSucceeded = false)
      (h : Retried t₀ w.passes due)
  | retrying (since due : ℕ) (hp : w.phase = .rebuilding since) (ht : w.timer = none)
      (hs : w.service.hasSucceeded = false) (h : Retried t₀ w.passes due) (hd : due ≤ since) (hn : since ≤ w.now)
  | waiting (timer : PeriodicTimer) (later : List MaintenancePass) (p : MaintenancePass)
      (earlier : List MaintenancePass) (hp : w.phase = .waiting) (ht : w.timer = some timer)
      (hps : w.passes = later ++ p :: earlier) (h : Settled opts t₀ later p earlier) (hc : timer.created = p.ended)
      (hk : OnTicks opts w.now timer later.length)
  | rebuilding (since : ℕ) (timer : PeriodicTimer) (later : List MaintenancePass) (p : MaintenancePass)
      (earlier : List MaintenancePass) (hp : w.phase = .rebuilding since) (ht : w.timer = some timer)
      (hps : w.passes = later ++ p :: earlier) (h : Settled opts t₀ later p earlier) (hc : timer.created = p.ended)
      (hk : OnTicks opts w.now timer (later.length + 1))
      (hs : p.ended + (later.length + 1) * opts.interval ≤ since) (hn : since ≤ w.now)
  | ended (hp : w.phase = .returned ∨ w.phase = .faulted)
      (hf : w.phase = .faulted → opts.periodic = true ∧ PeriodicTimer.accepts opts.interval = false ∧
        w.service.hasSucceeded = true)
      (h : Scheduled opts t₀ w.passes)

variable {t₀ : ℕ}

theorem Paced.scheduled (h : Paced opts t₀ w) : Scheduled opts t₀ w.passes := by
  cases h with
  | delaying due _ _ _ h => exact .inl ⟨due, h⟩
  | retrying _ due _ _ _ h => exact .inl ⟨due, h⟩
  | waiting _ later p earlier _ _ hps h => exact .inr ⟨later, p, earlier, hps, h⟩
  | rebuilding _ _ later p earlier _ _ hps h => exact .inr ⟨later, p, earlier, hps, h⟩
  | ended _ _ h => exact h

theorem OnTicks.later {now t taken : ℕ} {timer : PeriodicTimer} (h : OnTicks opts now timer taken) (ht : now ≤ t) :
    OnTicks opts t timer taken :=
  ⟨h.periodic, h.positive, h.enough, h.due.trans (by exact_mod_cast ht)⟩

/-- Time may pass. -/
theorem Paced.later (h : Paced opts t₀ w) {t : ℕ} (ht : w.now ≤ t) (c : Bool) :
    Paced opts t₀ { w with now := t, isCancellationRequested := c } := by
  cases h with
  | delaying due hp htm hs h => exact .delaying due hp htm hs h
  | retrying since due hp htm hs h hd hn => exact .retrying since due hp htm hs h hd (hn.trans ht)
  | waiting timer later p earlier hp htm hps h hc hk => exact .waiting timer later p earlier hp htm hps h hc (hk.later ht)
  | rebuilding since timer later p earlier hp htm hps h hc hk hs hn =>
    exact .rebuilding since timer later p earlier hp htm hps h hc (hk.later ht) hs (hn.trans ht)
  | ended hp hf h => exact .ended hp hf h

/-- Another tick. -/
theorem OnTicks.fired {now t taken : ℕ} {timer : PeriodicTimer} (h : OnTicks opts now timer taken)
    (hi : 0 < opts.interval) (hd : timer.created + (timer.fired + 1) * opts.interval ≤ t) :
    OnTicks opts t { timer with fired := timer.fired + 1, signaled := true } taken := by
  refine ⟨h.periodic, fun _ => hi, ?_, by exact_mod_cast hd⟩
  have := h.enough
  simp only [if_true]
  omega

/-- A tick that is taken was due. -/
theorem OnTicks.ticked {now taken : ℕ} {timer : PeriodicTimer} (h : OnTicks opts now timer taken)
    (hs : timer.signaled = true) : OnTicks opts now { timer with signaled := false } (taken + 1) ∧
      timer.created + (taken + 1) * opts.interval ≤ now := by
  have hle : taken + 1 ≤ timer.fired := by simpa [hs] using h.enough
  have hmul : ((taken : ℤ) + 1) * opts.interval ≤ timer.fired * opts.interval :=
    mul_le_mul_of_nonneg_right (by exact_mod_cast hle) (h.positive (by omega)).le
  exact ⟨⟨h.periodic, h.positive, by simpa using hle, h.due⟩, by linarith [h.due]⟩

/-- After the pass that got through first. -/
theorem Paced.settle {since due t : ℕ} {s : MaintenanceService} (htm : w.timer = none) (hs : s.hasSucceeded = true)
    (h : Retried t₀ w.passes due) (hd : due ≤ since) (hn : since ≤ t) :
    Paced opts t₀ ({ w with now := t, service := s, passes := ⟨since, t, true⟩ :: w.passes }.afterPass opts t) := by
  have hsettled : Settled opts t₀ [] ⟨since, t, true⟩ w.passes := ⟨⟨due, h, hd⟩, hn, rfl, fun _ => rfl, .nil⟩
  unfold afterPass
  simp only [htm, hs, Bool.not_true, Bool.false_eq_true, if_false]
  split_ifs with hp hi
  · exact .ended (.inl rfl) (fun hf => by cases hf) (.inr ⟨[], _, _, rfl, hsettled⟩)
  · refine .waiting _ [] _ _ rfl rfl rfl hsettled rfl ⟨by simpa using hp, fun h => absurd h (lt_irrefl 0), ?_, ?_⟩
    · simp
    · simp
  · exact .ended (.inr rfl) (fun _ => ⟨by simpa using hp, by simpa using hi, hs⟩) (.inr ⟨[], _, _, rfl, hsettled⟩)

/-- A pass on a tick of the timer, whatever becomes of it. -/
theorem Settled.tick {later earlier : List MaintenancePass} {p : MaintenancePass} {since now t : ℕ}
    {timer : PeriodicTimer} (succeeded : Bool) (h : Settled opts t₀ later p earlier)
    (hk : OnTicks opts now timer (later.length + 1))
    (hs : p.ended + (later.length + 1) * opts.interval ≤ since) (hn : since ≤ t) :
    Settled opts t₀ (⟨since, t, succeeded⟩ :: later) p earlier := by
  have hfired : 0 < timer.fired := lt_of_lt_of_le (Nat.succ_pos _) (le_trans (Nat.le_add_right _ _) hk.enough)
  exact ⟨h.retried, h.ordered, h.succeeded, fun hf => absurd (hf.symm.trans hk.periodic) (by decide),
    .cons h.ticked (hk.positive hfired) hs hn⟩

/-- A pass that runs is one of the first loop, or has a tick of the timer. -/
theorem Paced.running (h : Paced opts t₀ w) {since : ℕ} (hp : w.phase = .rebuilding since) : since ≤ w.now ∧
    ((w.timer = none ∧ w.service.hasSucceeded = false ∧ ∃ due, Retried t₀ w.passes due ∧ due ≤ since) ∨
      ∃ timer later p earlier, w.timer = some timer ∧ w.passes = later ++ p :: earlier ∧
        Settled opts t₀ later p earlier ∧ timer.created = p.ended ∧ OnTicks opts w.now timer (later.length + 1) ∧
        p.ended + (later.length + 1) * opts.interval ≤ since) := by
  cases h with
  | delaying _ hp' => cases hp.symm.trans hp'
  | retrying since' due hp' htm hs h hd hn =>
    obtain rfl : since = since' := by simpa [hp] using hp'
    exact ⟨hn, .inl ⟨htm, hs, due, h, hd⟩⟩
  | waiting _ _ _ _ hp' => cases hp.symm.trans hp'
  | rebuilding since' timer later p earlier hp' htm hps h hc hk hs hn =>
    obtain rfl : since = since' := by simpa [hp] using hp'
    exact ⟨hn, .inr ⟨timer, later, p, earlier, htm, hps, h, hc, hk, hs⟩⟩
  | ended hp' => rcases hp' with hp' | hp' <;> cases hp.symm.trans hp'

theorem Paced.rested (h : Paced opts t₀ w) (hp : w.phase = .waiting) : ∃ timer later p earlier,
    w.timer = some timer ∧ w.passes = later ++ p :: earlier ∧ Settled opts t₀ later p earlier ∧
      timer.created = p.ended ∧ OnTicks opts w.now timer later.length := by
  cases h with
  | delaying _ hp' => cases hp.symm.trans hp'
  | retrying _ _ hp' => cases hp.symm.trans hp'
  | waiting timer later p earlier _ htm hps h hc hk => exact ⟨timer, later, p, earlier, htm, hps, h, hc, hk⟩
  | rebuilding _ _ _ _ _ hp' => cases hp.symm.trans hp'
  | ended hp' => rcases hp' with hp' | hp' <;> cases hp.symm.trans hp'

theorem Paced.delayed (h : Paced opts t₀ w) {due : ℕ} (hp : w.phase = .delaying due) :
    w.timer = none ∧ w.service.hasSucceeded = false ∧ Retried t₀ w.passes due := by
  cases h with
  | delaying due' hp' htm hs h =>
    obtain rfl : due = due' := by simpa [hp] using hp'
    exact ⟨htm, hs, h⟩
  | retrying _ _ hp' => cases hp.symm.trans hp'
  | waiting _ _ _ _ hp' => cases hp.symm.trans hp'
  | rebuilding _ _ _ _ _ hp' => cases hp.symm.trans hp'
  | ended hp' => rcases hp' with hp' | hp' <;> cases hp.symm.trans hp'

theorem Paced.move (h : Paced opts t₀ w) {t : ℕ} {e : MaintenanceEvent} (ht : w.now ≤ t) (hm : Move opts w t e w') :
    Paced opts t₀ w' := by
  cases hm with
  | delayed due hp hd =>
    obtain ⟨htm, hs, h⟩ := h.delayed hp
    exact .retrying t due rfl htm hs h hd le_rfl
  | succeeded since now systems carriers hp hr =>
    obtain ⟨hn, ⟨htm, hs, due, h, hd⟩ | ⟨timer, later, p, earlier, htm, hps, h, hc, hk, hs⟩⟩ := h.running hp
    · exact .settle htm rfl h hd (hn.trans ht)
    · simp only [afterPass, htm]
      exact .waiting timer (_ :: later) p earlier rfl rfl (by rw [hps]; rfl)
        (h.tick true hk hs (hn.trans ht)) hc (hk.later ht)
  | failed since now systems carriers hp hr =>
    obtain ⟨hn, ⟨htm, hs, due, h, hd⟩ | ⟨timer, later, p, earlier, htm, hps, h, hc, hk, hs⟩⟩ := h.running hp
    · simp only [afterPass, htm, hs, Bool.not_false, if_true]
      exact .delaying _ rfl rfl rfl (.cons h hd (hn.trans ht) rfl)
    · simp only [afterPass, htm]
      exact .waiting timer (_ :: later) p earlier rfl rfl (by rw [hps]; rfl)
        (h.tick false hk hs (hn.trans ht)) hc (hk.later ht)
  | abandoned since now systems carriers hp hs =>
    refine .ended (.inl rfl) (fun hf => by cases hf) ?_
    obtain ⟨hn, ⟨htm, hs, due, h, hd⟩ | ⟨timer, later, p, earlier, htm, hps, h, hc, hk, hs⟩⟩ := h.running hp
    · exact .inl ⟨_, .cons h hd (hn.trans ht) rfl⟩
    · exact .inr ⟨_ :: later, p, earlier, by rw [hps]; rfl, h.tick false hk hs (hn.trans ht)⟩
  | fired timer hp htm hi hd =>
    rcases hp with hp | ⟨since, hp⟩
    · obtain ⟨timer', later, p, earlier, htm', hps, h, hc, hk⟩ := h.rested hp
      obtain rfl : timer = timer' := Option.some.inj (htm.symm.trans htm')
      exact .waiting _ later p earlier hp rfl hps h hc (hk.fired hi hd)
    · obtain ⟨hn, ⟨htm', -⟩ | ⟨timer', later, p, earlier, htm', hps, h, hc, hk, hs⟩⟩ := h.running hp
      · cases htm.symm.trans htm'
      · obtain rfl : timer = timer' := Option.some.inj (htm.symm.trans htm')
        exact .rebuilding since _ later p earlier hp rfl hps h hc (hk.fired hi hd) hs (hn.trans ht)
  | ticked timer hp htm hs =>
    obtain ⟨timer', later, p, earlier, htm', hps, h, hc, hk⟩ := h.rested hp
    obtain rfl : timer = timer' := Option.some.inj (htm.symm.trans htm')
    obtain ⟨hk', hd⟩ := (hk.later ht).ticked hs
    exact .rebuilding t _ later p earlier rfl rfl hps h hc hk' (hc ▸ hd) le_rfl
  | stopping => exact h.later ht true
  | cancelled hs => exact .ended (.inl rfl) (fun hf => by cases hf) h.scheduled

theorem paced_start {shardIndex : ℤ} {σ : Store} : Paced opts t₀ (start shardIndex t₀ σ) := by
  by_cases hs : shardIndex = 0
  · exact .delaying (t₀ + startupDelay) (by simp [start, hs]) rfl rfl .nil
  · have hp : (start shardIndex t₀ σ).phase = .returned := by simp [start, hs]
    exact .ended (.inl hp) (fun hf => by cases hp.symm.trans hf) (.inl ⟨_, .nil⟩)

theorem Retried.failed {ps : List MaintenancePass} {due : ℕ} (h : Retried t₀ ps due) :
    ∀ p ∈ ps, p.succeeded = false := by
  induction h with
  | nil => simp
  | cons h hs he hf ih => exact List.forall_mem_cons.mpr ⟨hf, ih⟩

theorem Retried.bounds {ps : List MaintenancePass} {due : ℕ} (h : Retried t₀ ps due) :
    t₀ + startupDelay ≤ due ∧ ∀ p ∈ ps, t₀ + startupDelay ≤ p.started ∧ p.started ≤ p.ended := by
  induction h with
  | nil => simp
  | cons h hs he hf ih => exact ⟨by omega, List.forall_mem_cons.mpr ⟨⟨ih.1.trans hs, he⟩, ih.2⟩⟩

/-- The delay between a failed pass and the next one, be it the one that gets through. -/
theorem Retried.gap {ps : List MaintenancePass} {due : ℕ} (h : Retried t₀ ps due) {x : MaintenancePass}
    (hx : due ≤ x.started) {newer : List MaintenancePass} {q p : MaintenancePass} {older : List MaintenancePass}
    (he : x :: ps = newer ++ q :: p :: older) : p.ended + retryUntilFirstSuccess ≤ q.started := by
  induction h generalizing x newer with
  | nil => cases newer <;> simp at he
  | @cons ps due h y hs hy hf ih =>
    cases newer with
    | nil =>
      simp only [List.nil_append, List.cons.injEq] at he
      rw [← he.1, ← he.2.1]
      exact hx
    | cons z newer =>
      simp only [List.cons_append, List.cons.injEq] at he
      exact ih hs he.2

theorem Ticked.gap {created : ℕ} {interval : ℤ} {ps newer older : List MaintenancePass} {q : MaintenancePass}
    (h : Ticked interval created ps) (he : ps = newer ++ q :: older) :
    created + (older.length + 1) * interval ≤ q.started := by
  induction h generalizing newer with
  | nil => simp at he
  | @cons ps h p hi hs hn ih =>
    cases newer with
    | nil =>
      simp only [List.nil_append, List.cons.injEq] at he
      rw [← he.1, ← he.2]
      exact hs
    | cons z newer =>
      simp only [List.cons_append, List.cons.injEq] at he
      exact ih he.2

theorem Ticked.bounds {created : ℕ} {interval : ℤ} {ps : List MaintenancePass} (h : Ticked interval created ps) :
    ∀ p ∈ ps, created ≤ p.started ∧ p.started ≤ p.ended := by
  induction h with
  | nil => simp
  | @cons ps h p hi hs hn ih =>
    have hpos : 0 ≤ ((ps.length : ℤ) + 1) * interval := by positivity
    exact List.forall_mem_cons.mpr ⟨⟨by omega, hn⟩, ih⟩

/-- What stands behind a marked element stands behind the first one that is marked. -/
theorem suffix_of_unmarked {α : Type} {marked : α → Bool} {a b c d : List α} {x : α} (h : a ++ x :: b = c ++ d)
    (hx : marked x = true) (hd : ∀ y ∈ d, marked y = false) : ∃ l, b = l ++ d := by
  rcases List.append_eq_append_iff.mp h with ⟨l, rfl, hl⟩ | ⟨l, rfl, hl⟩
  · cases l with
    | nil =>
      have hmem : x ∈ d := by
        rw [← (List.nil_append d), ← hl]
        exact List.mem_cons_self
      rw [hd x hmem] at hx
      cases hx
    | cons y l =>
      simp only [List.cons_append, List.cons.injEq] at hl
      exact ⟨l, hl.2⟩
  · have hmem : x ∈ d := by
      rw [hl]
      simp
    rw [hd x hmem] at hx
    cases hx

/-- There is one last marked element. -/
theorem last_marked_unique {α : Type} {marked : α → Bool} {a b c d : List α} {x y : α}
    (h : a ++ x :: b = c ++ y :: d) (hx : marked x = true) (hy : marked y = true)
    (hb : ∀ z ∈ b, marked z = false) (hd : ∀ z ∈ d, marked z = false) : a = c ∧ x = y ∧ b = d := by
  obtain ⟨l, rfl⟩ := suffix_of_unmarked (c := c ++ [y]) (h.trans (by simp)) hx hd
  obtain ⟨l', hl⟩ := suffix_of_unmarked (c := a ++ [x]) (h.symm.trans (by simp)) hy hb
  obtain rfl : l = [] := by
    have hlen := congrArg List.length hl
    simp only [List.length_append] at hlen
    exact List.length_eq_zero_iff.mp (by omega)
  have hheads : a ++ [x] = c ++ [y] := (List.append_left_inj d).mp (by simpa using h)
  obtain ⟨hac, hxy⟩ := List.append_inj' hheads rfl
  exact ⟨hac, List.cons.inj hxy |>.1, rfl⟩

/-- The delay after a failed pass, wherever the first pass that got through is. -/
theorem Scheduled.gap {ps later earlier : List MaintenancePass} {q p : MaintenancePass} (h : Scheduled opts t₀ ps)
    (he : ps = later ++ q :: p :: earlier) (hf : ∀ r ∈ p :: earlier, r.succeeded = false) :
    p.ended + retryUntilFirstSuccess ≤ q.started := by
  rcases h with ⟨due, h⟩ | ⟨later', p', earlier', hps, h⟩
  · -- a pass of the first loop like the one that may begin at `due`
    have hnext : (⟨due, due, false⟩ : MaintenancePass) :: ps = (⟨due, due, false⟩ :: later) ++ q :: p :: earlier := by
      rw [he]
      rfl
    exact h.gap le_rfl hnext
  · obtain ⟨due, hr, hd⟩ := h.retried
    rw [hps] at he
    obtain ⟨l, rfl⟩ := suffix_of_unmarked (c := later ++ [q]) (he.trans (by simp)) h.succeeded hf
    have hheads : later' ++ p' :: l = later ++ [q] :=
      (List.append_left_inj (p :: earlier)).mp (by simpa using he)
    rcases List.eq_nil_or_concat (p' :: l) with hnil | ⟨newer, z, hz⟩
    · cases hnil
    · rw [hz, List.concat_eq_append, ← List.append_assoc] at hheads
      obtain rfl := List.cons.inj (List.append_inj' hheads rfl).2 |>.1
      have hwhole : p' :: (l ++ p :: earlier) = newer ++ z :: p :: earlier := by
        rw [← List.cons_append, hz]
        simp
      exact hr.gap hd hwhole

theorem Scheduled.bounds {ps : List MaintenancePass} (h : Scheduled opts t₀ ps) :
    ∀ p ∈ ps, t₀ + startupDelay ≤ p.started ∧ p.started ≤ p.ended := by
  rcases h with ⟨due, h⟩ | ⟨later, p, earlier, rfl, h⟩
  · exact h.bounds.2
  · obtain ⟨due, hr, hd⟩ := h.retried
    have hfirst : t₀ + startupDelay ≤ p.started ∧ p.started ≤ p.ended := ⟨hr.bounds.1.trans hd, h.ordered⟩
    intro q hq
    rcases List.mem_append.mp hq with hq | hq
    · obtain ⟨hc, hn⟩ := h.ticked.bounds q hq
      exact ⟨by omega, hn⟩
    · rcases List.mem_cons.mp hq with rfl | hq
      · exact hfirst
      · exact hr.bounds.2 q hq

theorem Scheduled.ticks {ps later earlier : List MaintenancePass} {p : MaintenancePass} (h : Scheduled opts t₀ ps)
    (he : ps = later ++ p :: earlier) (hs : p.succeeded = true) (hf : ∀ r ∈ earlier, r.succeeded = false) :
    (opts.periodic = false → later = []) ∧ Ticked opts.interval p.ended later := by
  rcases h with ⟨due, h⟩ | ⟨later', p', earlier', hps, h⟩
  · have hfail := h.failed p (by rw [he]; simp)
    rw [hs] at hfail
    cases hfail
  · obtain ⟨due, hr, -⟩ := h.retried
    obtain ⟨rfl, rfl, rfl⟩ := last_marked_unique (hps.symm.trans he) h.succeeded hs hr.failed hf
    exact ⟨h.handedOff, h.ticked⟩

/-- Outside shard 0 nothing ever happens. -/
theorem idle_step (h : w.step opts e = some w') (hp : w.phase = .returned) :
    w'.phase = .returned ∧ w'.passes = w.passes ∧ w'.service = w.service := by
  obtain ⟨-, hm⟩ := move_of_step h
  generalize e.2 = e' at hm
  cases hm with
  | delayed _ hp' => cases hp.symm.trans hp'
  | succeeded _ _ _ _ hp' => cases hp.symm.trans hp'
  | failed _ _ _ _ hp' => cases hp.symm.trans hp'
  | abandoned _ _ _ _ hp' => cases hp.symm.trans hp'
  | fired _ hp' => rcases hp' with hp' | ⟨_, hp'⟩ <;> cases hp.symm.trans hp'
  | ticked _ hp' => cases hp.symm.trans hp'
  | stopping => exact ⟨hp, rfl, rfl⟩
  | cancelled => exact ⟨rfl, rfl, rfl⟩

/-- Every run of the service on any events. -/
abbrev Reached (opts : IndexMaintenanceOptions) : MaintenanceRun → MaintenanceRun → Prop :=
  Runs.Reaches (step opts) fun _ _ => True

/-- The pace of the passes. No shard but 0 makes any. The first begins after the grace period, a pass after
nothing but failures begins 15 seconds after the last of them, and the passes after the first that got through are
one for each interval at most, or none where the schedule is someone else's. Nothing but an interval that the
timer does not take ever stops the host. -/
theorem passes_paced {shardIndex : ℤ} {σ : Store} (h : Reached opts (start shardIndex t₀ σ) w) :
    (shardIndex ≠ 0 → w.passes = [] ∧ w.service.store = σ) ∧
    (∀ p ∈ w.passes, t₀ + startupDelay ≤ p.started ∧ p.started ≤ p.ended) ∧
    (∀ later q p earlier, w.passes = later ++ q :: p :: earlier → (∀ r ∈ p :: earlier, r.succeeded = false) →
      p.ended + retryUntilFirstSuccess ≤ q.started) ∧
    (∀ later p earlier, w.passes = later ++ p :: earlier → p.succeeded = true →
      (∀ r ∈ earlier, r.succeeded = false) → (opts.periodic = false → later = []) ∧
        ∀ newer q older, later = newer ++ q :: older → p.ended + (older.length + 1) * opts.interval ≤ q.started) ∧
    (w.phase = .faulted → opts.periodic = true ∧ PeriodicTimer.accepts opts.interval = false ∧
      w.service.hasSucceeded = true) := by
  have hpaced : Paced opts t₀ w := h.invariant paced_start fun w e w' hw _ hs =>
    hw.move (move_of_step hs).1 (move_of_step hs).2
  refine ⟨fun hshard => ?_, hpaced.scheduled.bounds, fun later q p earlier he hf => hpaced.scheduled.gap he hf,
    fun later p earlier he hs hf => ?_, fun hfault => ?_⟩
  · have hidle : w.phase = .returned ∧ w.passes = [] ∧ w.service = ⟨σ, false⟩ := by
      refine h.invariant (P := fun w => w.phase = .returned ∧ w.passes = [] ∧ w.service = ⟨σ, false⟩)
        ⟨by simp [start, hshard], rfl, rfl⟩ fun w e w' hw _ hs => ?_
      obtain ⟨hp, hps, hsv⟩ := idle_step hs hw.1
      exact ⟨hp, hps.trans hw.2.1, hsv.trans hw.2.2⟩
    exact ⟨hidle.2.1, by rw [hidle.2.2]⟩
  · obtain ⟨hoff, hticked⟩ := hpaced.scheduled.ticks he hs hf
    exact ⟨hoff, fun newer q older hl => hticked.gap hl⟩
  · cases hpaced with
    | delaying _ hp => cases hfault.symm.trans hp
    | retrying _ _ hp => cases hfault.symm.trans hp
    | waiting _ _ _ _ hp => cases hfault.symm.trans hp
    | rebuilding _ _ _ _ _ hp => cases hfault.symm.trans hp
    | ended _ hf => exact hf hfault

/-- A pass that Redis refuses, one that gets through 15 seconds later, and one on the first tick. -/
def firstHour : List (ℕ × MaintenanceEvent) :=
  [(50000000, .delayed), (60000000, .rebuilt 0 ⟨[], .failed false, [], .done, []⟩ ⟨[], .done, [], .done, []⟩),
    (210000000, .delayed), (220000000, .rebuilt 0 ⟨[], .done, [], .done, []⟩ ⟨[], .done, [], .done, []⟩),
    (36220000000, .fired), (36220000000, .ticked),
    (36230000000, .rebuilt 0 ⟨[], .done, [], .done, []⟩ ⟨[], .done, [], .done, []⟩)]

theorem firstHour_paced : ∃ w, Reached .default (start 0 0 ∅) w ∧
    w.passes = [⟨36220000000, 36230000000, true⟩, ⟨210000000, 220000000, true⟩, ⟨50000000, 60000000, false⟩] ∧
      60000000 + retryUntilFirstSuccess ≤ 210000000 := by
  have hrun : ((Runs.runIf (step .default) (fun _ _ => True) firstHour (start 0 0 ∅)).map passes) =
      some [⟨36220000000, 36230000000, true⟩, ⟨210000000, 220000000, true⟩, ⟨50000000, 60000000, false⟩] := by
    decide +kernel
  obtain ⟨w, hw, hps⟩ := Option.map_eq_some_iff.mp hrun
  have hreach : Reached .default (start 0 0 ∅) w := Runs.reaches_runIf .refl hw
  exact ⟨w, hreach, hps, (passes_paced hreach).2.2.1 [⟨36220000000, 36230000000, true⟩] ⟨210000000, 220000000, true⟩
    ⟨50000000, 60000000, false⟩ [] hps (by simp)⟩

end MaintenanceRun

end EliteEvents

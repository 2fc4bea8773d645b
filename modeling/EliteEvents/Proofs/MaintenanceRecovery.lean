import EliteEvents.Proofs.MaintenanceSchedule

/-! How soon the index maintenance gets a pass through once Redis is there, and what the indexes hold from then
on. -/

namespace EliteEvents

open Redis SearchIndexMaintainer

namespace MaintenanceRun

variable {opts : IndexMaintenanceOptions} {w w' : MaintenanceRun} {e : ℕ × MaintenanceEvent} {t₀ : ℕ}

/-- What is due by `t` has happened by then, timers up to `lag` late: a pass lasts `longest` at most, and a tick
that is there is taken within `lag`. -/
def Prompt (opts : IndexMaintenanceOptions) (lag longest : ℕ) (w : MaintenanceRun) (t : ℕ) : Prop :=
  match w.phase, w.timer with
  | .delaying due, _ => t ≤ due + lag
  | .rebuilding since, _ => t ≤ since + longest
  | .waiting, some timer =>
    if timer.signaled then t ≤ w.now + lag
    else 0 < opts.interval → t ≤ timer.created + (timer.fired + 1) * opts.interval + lag
  | _, _ => True

/-- Redis has been there since `up`: no call of a pass that began then fails. -/
def Answered (up : ℕ) (w : MaintenanceRun) : MaintenanceEvent → Prop
  | .rebuilt _ systems carriers =>
    ∀ since, w.phase = .rebuilding since → up ≤ since → systems.Uninterrupted ∧ carriers.Uninterrupted
  | _ => True

/-- The host is not stopping, and the timer does not fire again before its last tick is taken. -/
def Steady (w : MaintenanceRun) : MaintenanceEvent → Prop
  | .stopping => False
  | .fired => ∀ timer, w.phase = .waiting → w.timer = some timer → timer.signaled = false
  | _ => True

/-- The runs of a process whose timers are prompt, on a server that has been there since `up`. -/
abbrev Supported (opts : IndexMaintenanceOptions) (lag longest up : ℕ) : MaintenanceRun → MaintenanceRun → Prop :=
  Runs.Reaches (step opts) fun w e => w.Prompt opts lag longest e.1 ∧ w.Answered up e.2 ∧ w.Steady e.2

/-- The longest wait between two passes, as long as nothing is late. -/
def longestGap (opts : IndexMaintenanceOptions) : ℤ := max retryUntilFirstSuccess opts.interval

/-- Some pass that began at `up` or later got through. -/
def Recovered (up : ℕ) (w : MaintenanceRun) : Prop := ∃ p ∈ w.passes, up ≤ p.started ∧ p.succeeded = true

/-- Where the schedule stands while no pass since `up` has got through: the next one is due by `due`. -/
def OnTime (opts : IndexMaintenanceOptions) (lag : ℕ) (due : ℤ) (w : MaintenanceRun) : Prop :=
  match w.phase, w.timer with
  | .delaying next, _ => next ≤ due
  | .rebuilding since, _ => since ≤ due + 2 * lag
  | .waiting, some timer =>
    if timer.signaled then w.now ≤ due + lag else timer.created + (timer.fired + 1) * opts.interval ≤ due
  | .waiting, none => False
  | .returned, _ => opts.periodic = false ∧ w.service.hasSucceeded = true
  | .faulted, _ => False

theorem rebuildBoth_done {now : Time} {systems carriers : Attempt} {σ : Store} (hs : systems.Uninterrupted)
    (hc : carriers.Uninterrupted) : ∃ r, (rebuildBoth now systems carriers σ).2 = .ok r := by
  unfold rebuildBoth
  rw [rebuildAsync_done hs]
  simp only [rebuildAsync_done hc]
  exact ⟨_, rfl⟩

/-- After a pass that began before `up`, the next one is due in time. -/
theorem onTime_afterPass {lag longest up t since : ℕ} {s : MaintenanceService} {ps : List MaintenancePass}
    (hacc : opts.periodic = true → PeriodicTimer.accepts opts.interval = true) (ht : w.now ≤ t)
    (htimer : ∀ timer, w.timer = some timer → timer.created + timer.fired * opts.interval ≤ w.now)
    (hp : t ≤ since + longest) (hup : since < up) :
    OnTime opts lag (up + longest + longestGap opts)
      ({ w with now := t, service := s, passes := ps }.afterPass opts t) := by
  have hretry : (retryUntilFirstSuccess : ℤ) ≤ longestGap opts := le_max_left _ _
  have hinterval : opts.interval ≤ longestGap opts := le_max_right _ _
  unfold afterPass
  cases htm : w.timer with
  | none =>
    simp only
    split_ifs with hs hper ha
    · simp only [OnTime]
      push_cast
      omega
    · simp only [OnTime]
      exact ⟨by simpa using hper, by simpa using hs⟩
    · simp only [OnTime, Bool.false_eq_true, if_false]
      omega
    · exact absurd (hacc (by simpa using hper)) ha
  | some timer =>
    have hdue := htimer timer htm
    simp only [OnTime]
    split_ifs
    · omega
    · rw [add_mul, one_mul]
      omega

theorem onTime_move {lag longest up t : ℕ} {e : MaintenanceEvent}
    (hacc : opts.periodic = true → PeriodicTimer.accepts opts.interval = true) (hpaced : Paced opts t₀ w)
    (hstop : w.isCancellationRequested = false) (h : OnTime opts lag (up + longest + longestGap opts) w)
    (ht : w.now ≤ t) (hp : w.Prompt opts lag longest t) (ha : w.Answered up e) (hs : w.Steady e)
    (hm : Move opts w t e w') :
    w'.isCancellationRequested = false ∧
      (Recovered up w' ∨ OnTime opts lag (up + longest + longestGap opts) w') := by
  have htimer : ∀ timer, w.timer = some timer → w.phase = .waiting ∨ (∃ since, w.phase = .rebuilding since) →
      timer.created + timer.fired * opts.interval ≤ w.now := by
    intro timer htm hph
    rcases hph with hph | ⟨since, hph⟩
    · obtain ⟨timer', _, _, _, htm', -, -, -, hk⟩ := hpaced.rested hph
      obtain rfl : timer = timer' := Option.some.inj (htm.symm.trans htm')
      exact hk.due
    · obtain ⟨-, ⟨htm', -⟩ | ⟨timer', _, _, _, htm', -, -, -, hk, -⟩⟩ := hpaced.running hph
      · cases htm.symm.trans htm'
      · obtain rfl : timer = timer' := Option.some.inj (htm.symm.trans htm')
        exact hk.due
  cases hm with
  | delayed due hph hd =>
    simp only [OnTime, hph] at h
    simp only [Prompt, hph] at hp
    refine ⟨hstop, .inr ?_⟩
    simp only [OnTime]
    omega
  | succeeded since now systems carriers hph hr =>
    simp only [Prompt, hph] at hp
    by_cases hup : up ≤ since
    · exact ⟨by simpa using hstop, .inl ⟨⟨since, t, true⟩, by simp, hup, rfl⟩⟩
    · exact ⟨by simpa using hstop,
        .inr (onTime_afterPass hacc ht (fun timer htm => htimer timer htm (.inr ⟨_, hph⟩)) hp (by omega))⟩
  | failed since now systems carriers hph hr =>
    simp only [Prompt, hph] at hp
    have hup : ¬up ≤ since := by
      intro hup
      obtain ⟨hsys, hcar⟩ := ha since hph hup
      obtain ⟨r, hok⟩ := @rebuildBoth_done now _ _ w.service.store hsys hcar
      rw [hr] at hok
      cases hok
    exact ⟨by simpa using hstop,
      .inr (onTime_afterPass hacc ht (fun timer htm => htimer timer htm (.inr ⟨_, hph⟩)) hp (by omega))⟩
  | abandoned since now systems carriers hph hc => cases hstop.symm.trans hc
  | fired timer hph htm hi hd =>
    refine ⟨hstop, .inr ?_⟩
    rcases hph with hph | ⟨since, hph⟩
    · have hsig := hs timer hph htm
      simp only [OnTime, hph, htm, hsig, Bool.false_eq_true, if_false] at h
      simp only [Prompt, hph, htm, hsig, Bool.false_eq_true, if_false] at hp
      have hp := hp hi
      simp only [OnTime, hph, if_true]
      omega
    · simp only [OnTime, hph] at h ⊢
      exact h
  | ticked timer hph htm hsig =>
    simp only [OnTime, hph, htm, hsig, if_true] at h
    simp only [Prompt, hph, htm, hsig, if_true] at hp
    refine ⟨hstop, .inr ?_⟩
    simp only [OnTime]
    omega
  | stopping => exact hs.elim
  | cancelled hc => cases hstop.symm.trans hc

theorem Recovered.move {up t : ℕ} {e : MaintenanceEvent} (h : Recovered up w) (hm : Move opts w t e w') :
    Recovered up w' := by
  obtain ⟨p, hp, hup, hs⟩ := h
  refine ⟨p, ?_, hup, hs⟩
  cases hm with
  | succeeded | failed => simp [hp]
  | abandoned => exact List.mem_cons_of_mem _ hp
  | _ => exact hp

theorem onTime_supported {lag longest up : ℕ} {σ : Store} (hup : t₀ ≤ up)
    (hacc : opts.periodic = true → PeriodicTimer.accepts opts.interval = true)
    (h : Supported opts lag longest up (start 0 t₀ σ) w) :
    Paced opts t₀ w ∧ (Recovered up w ∨ OnTime opts lag (up + longest + longestGap opts) w) := by
  have hinv : Paced opts t₀ w ∧ w.isCancellationRequested = false ∧
      (Recovered up w ∨ OnTime opts lag (up + longest + longestGap opts) w) := by
    refine h.invariant (P := fun w => Paced opts t₀ w ∧ w.isCancellationRequested = false ∧
      (Recovered up w ∨ OnTime opts lag (up + longest + longestGap opts) w)) ⟨paced_start, rfl, .inr ?_⟩ ?_
    · have hgrace : (startupDelay : ℤ) ≤ longestGap opts := le_max_of_le_left (by decide)
      simp only [OnTime, start, ne_eq, not_true, if_false]
      push_cast
      omega
    · rintro w e w' ⟨hpaced, hstop, hw⟩ ⟨hp, ha, hs⟩ hstep
      obtain ⟨ht, hm⟩ := move_of_step hstep
      refine ⟨hpaced.move ht hm, ?_⟩
      rcases hw with hw | hw
      · refine ⟨?_, .inl (hw.move hm)⟩
        cases e with
        | mk t e =>
          cases hm with
          | succeeded | failed => simpa using hstop
          | stopping => exact hs.elim
          | _ => exact hstop
      · exact onTime_move hacc hpaced hstop hw ht hp ha hs hm
  exact ⟨hinv.1, hinv.2.2⟩

/-- On a server that has been there since `up`, and with timers at most `lag` late and passes of at most `longest`,
some pass begun since then has got through soon: after what was left of the one before, the longest gap, and the
pass itself. Where the schedule is not the service's own, the pass that it owes has got through. -/
theorem recovers_in_time {lag longest up now : ℕ} {σ : Store} (hup : t₀ ≤ up)
    (hopts : opts.periodic = true → 0 < opts.interval ∧ PeriodicTimer.accepts opts.interval = true)
    (h : Supported opts lag longest up (start 0 t₀ σ) w) (hp : w.Prompt opts lag longest now)
    (hlate : up + longest + longestGap opts + 2 * lag + longest < now) :
    Recovered up w ∨ opts.periodic = false ∧ w.service.hasSucceeded = true := by
  obtain ⟨hpaced, hr | hon⟩ := onTime_supported hup (fun hper => (hopts hper).2) h
  · exact .inl hr
  · cases hph : w.phase with
    | delaying due =>
      simp only [OnTime, hph] at hon
      simp only [Prompt, hph] at hp
      omega
    | rebuilding since =>
      simp only [OnTime, hph] at hon
      simp only [Prompt, hph] at hp
      omega
    | waiting =>
      cases htm : w.timer with
      | none => simp only [OnTime, hph, htm] at hon
      | some timer =>
        simp only [OnTime, hph, htm] at hon
        simp only [Prompt, hph, htm] at hp
        split_ifs at hon hp
        · omega
        · obtain ⟨_, _, _, _, -, -, -, -, hk⟩ := hpaced.rested hph
          have := hp (hopts hk.periodic).1
          omega
    | returned =>
      simp only [OnTime, hph] at hon
      exact .inr hon
    | faulted => simp only [OnTime, hph] at hon

/-- Redis comes up 10 seconds after the service, and nothing is late: an hour and a few seconds later a pass of
that time has got through. -/
theorem recovers_within_the_hour : ∃ w, Supported .default 0 10000000 100000000 (start 0 0 ∅) w ∧
    (Recovered 100000000 w ∨ IndexMaintenanceOptions.default.periodic = false ∧ w.service.hasSucceeded = true) := by
  have h₁ : Supported .default 0 10000000 100000000 (start 0 0 ∅)
      ⟨50000000, ⟨∅, false⟩, false, none, .rebuilding 50000000, []⟩ :=
    .step (50000000, .delayed) .refl (by simp [Prompt, Answered, Steady, start, startupDelay, TimeSpan.ticksPerSecond])
      rfl
  have h₂ : Supported .default 0 10000000 100000000 (start 0 0 ∅)
      ⟨60000000, ⟨∅, false⟩, false, none, .delaying 210000000, [⟨50000000, 60000000, false⟩]⟩ :=
    .step (60000000, .rebuilt 0 ⟨[], .failed false, [], .done, []⟩ ⟨[], .done, [], .done, []⟩) h₁
      (by simp [Prompt, Answered, Steady]) rfl
  have h₃ : Supported .default 0 10000000 100000000 (start 0 0 ∅)
      ⟨210000000, ⟨∅, false⟩, false, none, .rebuilding 210000000, [⟨50000000, 60000000, false⟩]⟩ :=
    .step (210000000, .delayed) h₂ (by simp [Prompt, Answered, Steady]) rfl
  have h₄ : Supported .default 0 10000000 100000000 (start 0 0 ∅)
      ⟨220000000, ⟨∅, true⟩, false, some ⟨220000000, 0, false⟩, .waiting,
        [⟨210000000, 220000000, true⟩, ⟨50000000, 60000000, false⟩]⟩ :=
    .step (220000000, .rebuilt 0 ⟨[], .done, [], .done, []⟩ ⟨[], .done, [], .done, []⟩) h₃
      (by simp [Prompt, Answered, Steady, Attempt.Uninterrupted]) rfl
  refine ⟨_, h₄, recovers_in_time (Nat.zero_le _) (fun _ => by decide) h₄
    (?_ : Prompt .default 0 10000000 _ 36130000000) (by decide)⟩
  simp [Prompt, IndexMaintenanceOptions.default, TimeSpan.ticksPerSecond]

/-! What the indexes hold. -/

section Indexes

variable {σ τ : Store} {κ : Catalog} {now : Time}

theorem writeChunks_ok {todo : List Cmd} {endings : List Ending} {u : Unit}
    (h : (writeChunks now todo endings σ).2 = .ok u) :
    (writeChunks now todo endings σ).1 = applyAll (todo.map fun c => (now, c)) σ := by
  induction todo generalizing endings σ with
  | nil => rfl
  | cons c todo ih =>
    unfold writeChunks at h ⊢
    cases he : endings.headD .done with
    | done =>
      rw [he] at h
      exact ih h
    | cancelled =>
      rw [he] at h
      cases h
    | failed applied =>
      rw [he] at h
      cases h

/-- A rebuild that reports success is one that nothing interrupted. -/
theorem rebuildAsync_ok {a : Attempt} {r : IndexRebuildResult} (h : (rebuildAsync κ now a σ).2 = .ok r) :
    (rebuildAsync κ now a σ).1 = (rebuild κ now a.zscanned a.scanned σ).1 := by
  unfold SearchIndexMaintainer.rebuildAsync at h ⊢
  cases hz : a.snapshot with
  | cancelled => simp [hz] at h
  | failed applied => simp [hz] at h
  | done =>
    cases hk : a.scan with
    | cancelled => simp [hz, hk] at h
    | failed applied => simp [hz, hk] at h
    | done =>
      simp only [hz, hk] at h ⊢
      cases hw : (writeChunks now (writes κ.index a.zscanned.dedup (liveNames a.scanned)) a.chunks σ).2 with
      | ok u => exact writeChunks_ok hw
      | error e => simp [hw, Except.map] at h

/-- On an index that holds the live names a rebuild changes nothing, however it ends. -/
theorem rebuildAsync_current {a : Attempt} (hs : Scans κ σ a.zscanned a.scanned) (h : indexSet κ σ = liveSet κ σ) :
    (rebuildAsync κ now a σ).1 = σ := by
  unfold SearchIndexMaintainer.rebuildAsync
  cases a.snapshot with
  | cancelled => rfl
  | failed applied => rfl
  | done =>
    cases a.scan with
    | cancelled => rfl
    | failed applied => rfl
    | done =>
      simp only [writes_current hs h]
      rfl

theorem rebuildBoth_current {systems carriers : Attempt} (hs : PassScans now systems carriers τ)
    (h : ∀ κ, indexSet κ τ = liveSet κ τ) : (rebuildBoth now systems carriers τ).1 = τ := by
  have hsys : (rebuildAsync .system now systems τ).1 = τ := rebuildAsync_current hs.system (h .system)
  have hcar := hs.carrier
  rw [hsys] at hcar
  have hcar : (rebuildAsync .carrier now carriers τ).1 = τ := rebuildAsync_current hcar (h .carrier)
  rcases rebuildBoth_cases now systems carriers τ with ⟨e, -, he⟩ | ⟨r, e, -, -, he⟩ | ⟨r, r', -, -, he⟩
  · rw [he]
    exact hsys
  · rw [he, hsys]
    exact hcar
  · rw [he, hsys]
    exact hcar

/-- A pass that gets through leaves both indexes with the live names, wherever the passes before it stopped. -/
theorem rebuildBoth_exact (hσ : ∀ κ, Legible κ σ) (h : Passes σ τ) {systems carriers : Attempt}
    (hs : PassScans now systems carriers τ) (hok : ∃ r, (rebuildBoth now systems carriers τ).2 = .ok r) :
    ∀ κ, indexSet κ (rebuildBoth now systems carriers τ).1 = liveSet κ σ := by
  have hb := h.between hσ
  obtain ⟨r, hok⟩ := hok
  rcases rebuildBoth_cases now systems carriers τ with ⟨e, -, he⟩ | ⟨r, e, -, -, he⟩ | ⟨r₁, r₂, hr₁, hr₂, he⟩
  · rw [he] at hok
    cases hok
  · rw [he] at hok
    cases hok
  · have hsys : Rescored .system (target .system τ) τ (rebuildAsync .system now systems τ).1 := by
      rw [rebuildAsync_ok hr₁]
      exact ((hσ _).between (hb .system)).rebuild now hs.system
    have hb₁ : Between .carrier σ (rebuildAsync .system now systems τ).1 :=
      (hb .carrier).rebuildOther (by decide) (hb .system) (hσ _) hs.system
    have hcar : Rescored .carrier (target .carrier (rebuildAsync .system now systems τ).1)
        (rebuildAsync .system now systems τ).1
        (rebuildAsync .carrier now carriers (rebuildAsync .system now systems τ).1).1 := by
      rw [rebuildAsync_ok hr₂]
      exact ((hσ _).between hb₁).rebuild now hs.carrier
    intro κ
    rw [he]
    cases κ with
    | system =>
      -- the carriers' rebuild leaves the other index alone
      have hsame : indexSet .system (rebuildAsync .carrier now carriers (rebuildAsync .system now systems τ).1).1 =
          indexSet .system (rebuildAsync .system now systems τ).1 := by
        ext m
        rw [mem_indexSet, mem_indexSet, Store.zscore, Store.val, hcar.others _ (by decide), Store.zscore, Store.val]
      rw [hsame, hsys.indexSet_eq, (hb .system).liveSet_eq]
    | carrier => rw [hcar.indexSet_eq, hb₁.liveSet_eq]

/-- The scans of every pass are those of the store it works on. -/
def Scanned (w : MaintenanceRun) : MaintenanceEvent → Prop
  | .rebuilt now systems carriers => PassScans now systems carriers w.service.store
  | _ => True

/-- Every run of the service with the server to itself. -/
abbrev Alone (opts : IndexMaintenanceOptions) : MaintenanceRun → MaintenanceRun → Prop :=
  Runs.Reaches (step opts) fun w e => w.Scanned e.2

/-- The passes so far, of which one got through or none. -/
structure Kept (σ : Store) (w : MaintenanceRun) : Prop where
  passes : Passes σ w.service.store
  exact : w.service.hasSucceeded = true → ∀ κ, indexSet κ w.service.store = liveSet κ σ

theorem Kept.current (hσ : ∀ κ, Legible κ σ) (h : Kept σ w) (hs : w.service.hasSucceeded = true) (κ : Catalog) :
    indexSet κ w.service.store = liveSet κ w.service.store := by
  rw [h.exact hs, (h.passes.between hσ κ).liveSet_eq]

theorem Kept.step (hσ : ∀ κ, Legible κ σ) (h : Kept σ w) (hs : w.Scanned e.2) (hstep : w.step opts e = some w') :
    Kept σ w' ∧ (w.service.hasSucceeded = true → w'.service = w.service) := by
  obtain ⟨-, hm⟩ := move_of_step hstep
  generalize e.2 = e' at hm hs
  have hrest : ∀ (now : Time) (systems carriers : Attempt), PassScans now systems carriers w.service.store →
      w.service.hasSucceeded = true →
        (rebuildBoth now systems carriers w.service.store).1 = w.service.store :=
    fun now systems carriers hs hok => rebuildBoth_current hs (h.current hσ hok)
  cases hm with
  | succeeded since now systems carriers hp hr =>
    refine ⟨⟨?_, fun _ => ?_⟩, fun hok => ?_⟩
    · rw [afterPass_service]
      exact .pass h.passes now systems carriers hs
    · rw [afterPass_service]
      exact rebuildBoth_exact hσ h.passes hs hr
    · rw [afterPass_service, hrest now systems carriers hs hok, ← hok]
  | failed since now systems carriers hp hr =>
    refine ⟨⟨?_, fun hok => ?_⟩, fun hok => ?_⟩
    · rw [afterPass_service]
      exact .pass h.passes now systems carriers hs
    · rw [afterPass_service] at hok ⊢
      rw [hrest now systems carriers hs hok]
      exact h.exact hok
    · rw [afterPass_service, hrest now systems carriers hs hok]
  | abandoned since now systems carriers hp hc =>
    refine ⟨⟨.pass h.passes now systems carriers hs, fun hok => ?_⟩, fun hok => ?_⟩
    · change ∀ κ, indexSet κ (rebuildBoth now systems carriers w.service.store).1 = _
      rw [hrest now systems carriers hs hok]
      exact h.exact hok
    · show MaintenanceService.mk (rebuildBoth now systems carriers w.service.store).1 _ = _
      rw [hrest now systems carriers hs hok]
  | _ => exact ⟨⟨h.passes, h.exact⟩, fun _ => rfl⟩

/-- With the server to itself the service never loses a live name nor adds one that is not live; from the first
pass that gets through, both indexes hold exactly the live names, and no later pass writes anything, however it
ends. -/
theorem indexes_exact_once_through {shardIndex : ℤ} (hσ : ∀ κ, Legible κ σ)
    (h : Alone opts (start shardIndex t₀ σ) w) :
    (∀ κ, Spared κ σ w.service.store) ∧
      (w.service.hasSucceeded = true → (∀ κ, indexSet κ w.service.store = liveSet κ σ) ∧
        ∀ w', Alone opts w w' → w'.service = w.service) := by
  have hkept : Kept σ w := h.invariant (P := Kept σ) ⟨.refl, fun hs => by cases hs⟩ fun w e w' hw hs hstep =>
    (hw.step hσ hs hstep).1
  refine ⟨fun κ => (hkept.passes.between hσ κ).spared, fun hs => ⟨hkept.exact hs, fun w' h' => ?_⟩⟩
  have hlater : Kept σ w' ∧ w'.service = w.service := by
    refine h'.invariant (P := fun v => Kept σ v ∧ v.service = w.service) ⟨hkept, rfl⟩ fun v e v' hv hsc hstep => ?_
    obtain ⟨hk, hsame⟩ := hv.1.step hσ hsc hstep
    exact ⟨hk, (hsame (by rw [hv.2]; exact hs)).trans hv.2⟩
  exact hlater.2

/-- What an uninterrupted rebuild of an index meets. -/
def fullAttempt (κ : Catalog) (σ : Store) : Attempt :=
  ⟨σ.zmembers κ.index, .done, σ.keys.filter (scannable κ σ), .done, []⟩

theorem solStale_exact : ∃ w, Alone .default (start 0 0 solStale) w ∧ w.service.hasSucceeded = true ∧
    indexSet .system w.service.store = liveSet .system solStale := by
  have h₁ : Alone .default (start 0 0 solStale)
      ⟨50000000, ⟨solStale, false⟩, false, none, .rebuilding 50000000, []⟩ :=
    .step (50000000, .delayed) .refl trivial rfl
  have hrun : (MaintenanceRun.step .default ⟨50000000, ⟨solStale, false⟩, false, none, .rebuilding 50000000, []⟩
      (60000000, .rebuilt 0 (fullAttempt .system solStale)
        (fullAttempt .carrier (rebuildAsync .system 0 (fullAttempt .system solStale) solStale).1))).any
          (fun w => w.service.hasSucceeded) = true := by
    decide +kernel
  obtain ⟨w, hw, hs⟩ := Option.any_eq_true _ _ |>.mp hrun
  have h₂ : Alone .default (start 0 0 solStale) w :=
    .step (60000000, .rebuilt 0 _ _) h₁ (PassScans.mk (scans_exist .system solStale) (scans_exist .carrier _)) hw
  exact ⟨w, h₂, hs, ((indexes_exact_once_through legible_solStale h₂).2 hs).1 .system⟩

end Indexes

end MaintenanceRun

end EliteEvents

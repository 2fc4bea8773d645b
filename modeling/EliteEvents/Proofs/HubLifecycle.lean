import EliteEvents.Proofs.LiveTicker
import EliteEvents.Spec.HubLifecycle

/-! What the hub does over its whole life: it is granted one subscription at most, asks for it no more often than every
30 seconds and never after `StopAsync` was called, and has given it back when `StopAsync` returns. -/

namespace EliteEvents

open Text BoundedQueue

namespace LiveEventHub.Hosted

variable {X : TickerLibrary} {w w' : Hosted} {e : ℕ × HostedEvent} {es : List (ℕ × HostedEvent)} {t : ℕ}

/-- Everything an event can do. -/
inductive Move (X : TickerLibrary) (w : Hosted) (t : ℕ) : HostedEvent → Hosted → Prop
  | started (hc : w.connecting = .notStarted) (hs : w.stopping = .notCalled) :
      Move X w t .startAsync { w with now := t, connecting := .looping }
  | left (hc : w.connecting = .looping) : Move X w t .loop { w with now := t, connecting := .returned }
  | attempted (hc : w.connecting = .looping) (hx : w.isCancellationRequested = false) :
      Move X w t .loop { w with now := t, connecting := .subscribing, attempts := t :: w.attempts }
  | subscribed (hc : w.connecting = .subscribing) :
      Move X w t .subscribed
        { w with
          now := t
          connecting := .returned
          subscription := some w.made
          made := w.made + 1
          live := w.made :: w.live }
  | failed (hc : w.connecting = .subscribing) :
      Move X w t .subscribeFailed { w with now := t, connecting := .delaying (t + subscribeRetryDelay) }
  | delayed (due : ℕ) (hc : w.connecting = .delaying due) (hd : due ≤ t) :
      Move X w t .delayed { w with now := t, connecting := .looping }
  | cancelled (due : ℕ) (hc : w.connecting = .delaying due) :
      Move X w t .delayCancelled { w with now := t, connecting := .returned }
  | stop (hs : w.stopping = .notCalled) :
      Move X w t .stopAsync
        { w with now := t, isCancellationRequested := w.connecting ≠ .notStarted, stopping := .awaiting }
  | awaited (hc : w.connecting = .notStarted ∨ w.connecting = .returned) (hs : w.stopping = .awaiting) :
      Move X w t .awaited
        { w with now := t, stopping := if w.subscription.isSome then .unsubscribing else .listing }
  | unsubscribed (hs : w.stopping = .unsubscribing) :
      Move X w t .unsubscribed
        { w with
          now := t
          subscription := none
          live := w.live.filter fun id => w.subscription ≠ some id
          stopping := .listing }
  | threw (reached : Bool) (hs : w.stopping = .unsubscribing) :
      Move X w t (.unsubscribeFailed reached)
        { w with
          now := t
          live := if reached then w.live.filter fun id => w.subscription ≠ some id else w.live
          stopping := .threw }
  | listed (order : List Guid) (hs : w.stopping = .listing) (hp : order.Perm w.hub.clients) :
      Move X w t (.listed order) { w with now := t, stopping := .completing order }
  | stopped (hs : w.stopping = .completing []) : Move X w t .tryComplete { w with now := t, stopping := .returned }
  | completed (id : Guid) (rest : List Guid) (hs : w.stopping = .completing (id :: rest)) :
      Move X w t .tryComplete
        { w with now := t, completed := Function.update w.completed id true, stopping := .completing rest }
  | hub (a : Action) (hub : State) (h : w.hubStep X a = some hub) : Move X w t (.hub a) { w with now := t, hub := hub }

theorem move_of_step (h : w.step X e = some w') : w.now ≤ e.1 ∧ Move X w e.1 e.2 w' := by
  obtain ⟨t, e⟩ := e
  have ht : ¬t < w.now := by
    intro ht
    simp [step, ht] at h
  refine ⟨not_lt.mp ht, ?_⟩
  simp only [step, if_neg ht] at h
  cases e with
  | startAsync =>
    cases hc : w.connecting <;> cases hs : w.stopping <;> simp only [hc, hs, reduceCtorEq] at h
    have hm := Move.started (X := X) (t := t) hc hs
    rw [hs] at hm
    exact Option.some.inj h ▸ hm
  | loop =>
    cases hc : w.connecting <;> simp only [hc, reduceCtorEq] at h
    split_ifs at h with hx
    · exact Option.some.inj h ▸ .left hc
    · exact Option.some.inj h ▸ .attempted hc (Bool.eq_false_of_not_eq_true hx)
  | subscribed =>
    cases hc : w.connecting <;> simp only [hc, reduceCtorEq] at h
    exact Option.some.inj h ▸ .subscribed hc
  | subscribeFailed =>
    cases hc : w.connecting <;> simp only [hc, reduceCtorEq] at h
    exact Option.some.inj h ▸ .failed hc
  | delayed =>
    cases hc : w.connecting <;> simp only [hc, reduceCtorEq] at h
    split_ifs at h with hd
    exact Option.some.inj h ▸ .delayed _ hc hd
  | delayCancelled =>
    cases hc : w.connecting <;> simp only [hc, reduceCtorEq] at h
    split_ifs at h
    exact Option.some.inj h ▸ .cancelled _ hc
  | stopAsync =>
    cases hs : w.stopping <;> simp only [hs, reduceCtorEq] at h
    exact Option.some.inj h ▸ .stop hs
  | awaited =>
    cases hs : w.stopping <;> cases hc : w.connecting <;> simp only [hc, hs, reduceCtorEq] at h
    · have hm := Move.awaited (X := X) (t := t) (.inl hc) hs
      rw [hc] at hm
      exact Option.some.inj h ▸ hm
    · have hm := Move.awaited (X := X) (t := t) (.inr hc) hs
      rw [hc] at hm
      exact Option.some.inj h ▸ hm
  | unsubscribed =>
    cases hs : w.stopping <;> simp only [hs, reduceCtorEq] at h
    exact Option.some.inj h ▸ .unsubscribed hs
  | unsubscribeFailed reached =>
    cases hs : w.stopping <;> simp only [hs, reduceCtorEq] at h
    exact Option.some.inj h ▸ .threw reached hs
  | listed order =>
    cases hs : w.stopping <;> simp only [hs, reduceCtorEq] at h
    split_ifs at h with hp
    exact Option.some.inj h ▸ .listed order hs hp
  | tryComplete =>
    cases hs : w.stopping with
    | completing rest =>
      cases rest with
      | nil =>
        simp only [hs] at h
        exact Option.some.inj h ▸ .stopped hs
      | cons id rest =>
        simp only [hs] at h
        exact Option.some.inj h ▸ .completed id rest hs
    | _ => simp only [hs, reduceCtorEq] at h
  | hub a =>
    obtain ⟨hub, hh, rfl⟩ := Option.map_eq_some_iff.mp h
    exact .hub a hub hh

/-- What every event keeps holds after a run. -/
theorem run_induction {P : Hosted → Prop} (hstep : ∀ {w w' : Hosted} {t : ℕ} {e : HostedEvent},
    P w → w.now ≤ t → Move X w t e w' → P w') (h : run X w es = some w') (hw : P w) : P w' := by
  induction es generalizing w with
  | nil =>
    cases h
    exact hw
  | cons e es ih =>
    obtain ⟨w₁, h₁, h₂⟩ := Option.bind_eq_some_iff.mp h
    obtain ⟨ht, hm⟩ := move_of_step h₁
    exact ih h₂ (hstep hw ht hm)

/-! The subscription. -/

/-- `ConnectAsync` has not begun, or will not go on. -/
def Still (c : Connecting) : Prop := c = .notStarted ∨ c = .returned

/-- `StopAsync` has not awaited `ConnectAsync` yet. -/
def early : Stopping → Bool
  | .notCalled | .awaiting => true
  | _ => false

/-- `StopAsync` is past the subscription. -/
def past : Stopping → Bool
  | .listing | .completing _ | .returned => true
  | _ => false

/-- Redis delivers to nothing but the subscription that the hub holds, and `ConnectAsync` ends with the one it gets. -/
structure Single (w : Hosted) : Prop where
  made : w.made = 0 ∨ w.made = 1 ∧ w.connecting = .returned
  live : ∀ id ∈ w.live, w.subscription = some id
  length : w.live.length ≤ w.made
  still : early w.stopping = false → Still w.connecting
  given_back : past w.stopping = true → w.subscription = none

theorem Single.move {e : HostedEvent} (h : Single w) (hm : Move X w t e w') : Single w' := by
  have hnone : w.connecting ≠ .returned → w.made = 0 := fun hc => h.made.resolve_right fun hr => hc hr.2
  have hgone : (w.live.filter fun id => w.subscription ≠ some id) = [] := by
    rw [List.filter_eq_nil_iff]
    exact fun id hid => by simpa using h.live id hid
  cases hm with
  | started hc hs =>
    exact ⟨.inl (hnone (by simp [hc])), h.live, h.length, fun he => by simp [hs, early] at he, h.given_back⟩
  | left hc | cancelled due hc =>
    exact ⟨.inl (hnone (by simp [hc])), h.live, h.length, fun _ => .inr rfl, h.given_back⟩
  | attempted hc _ | failed hc | delayed _ hc _ =>
    exact ⟨.inl (hnone (by simp [hc])), h.live, h.length, fun he => absurd (h.still he) (by simp [Still, hc]),
      h.given_back⟩
  | subscribed hc =>
    have hmade := hnone (by simp [hc])
    have hempty : w.live = [] := List.length_eq_zero_iff.mp (by have := h.length; omega)
    refine ⟨.inr ⟨by rw [hmade], rfl⟩, by simp [hempty], by simp [hempty, hmade], fun _ => .inr rfl, fun hp => ?_⟩
    have he : early w.stopping = false := by
      cases hs : w.stopping <;> simp_all [past, early]
    exact absurd (h.still he) (by simp [Still, hc])
  | stop hs => exact ⟨h.made, h.live, h.length, nofun, nofun⟩
  | awaited hc hs =>
    refine ⟨h.made, h.live, h.length, fun _ => hc, fun hp => ?_⟩
    dsimp only at hp ⊢
    split_ifs at hp with hsome
    · cases hp
    · exact Option.not_isSome_iff_eq_none.mp hsome
  | unsubscribed hs =>
    have hstill := h.still (by rw [hs]; rfl)
    refine ⟨h.made, ?_, ?_, fun _ => hstill, fun _ => rfl⟩ <;> dsimp only <;> rw [hgone]
    · simp
    · exact Nat.zero_le _
  | threw reached hs =>
    have hstill := h.still (by rw [hs]; rfl)
    have hsub : ∀ id ∈ (if reached then w.live.filter fun id => w.subscription ≠ some id else w.live),
        id ∈ w.live := by
      intro id hid
      split_ifs at hid
      · rw [hgone] at hid
        cases hid
      · exact hid
    refine ⟨h.made, fun id hid => h.live id (hsub id hid), ?_, fun _ => hstill, nofun⟩
    dsimp only
    split_ifs
    · rw [hgone]
      exact Nat.zero_le _
    · exact h.length
  | listed _ hs _ | stopped hs | completed _ _ hs =>
    exact ⟨h.made, h.live, h.length, fun _ => h.still (by rw [hs]; rfl), fun _ => h.given_back (by rw [hs]; rfl)⟩
  | hub a hub hh => exact ⟨h.made, h.live, h.length, h.still, h.given_back⟩

/-! The attempts. -/

/-- The times of the attempts, newest first, are as far apart as the delay, and the next one is too. -/
structure Spaced (w : Hosted) : Prop where
  pairwise : w.attempts.Pairwise fun later earlier => earlier + subscribeRetryDelay ≤ later
  past : ∀ t ∈ w.attempts, t ≤ w.now
  none : w.connecting = .notStarted → w.attempts = []
  looping : w.connecting = .looping → ∀ t ∈ w.attempts, t + subscribeRetryDelay ≤ w.now
  delaying : ∀ due, w.connecting = .delaying due → ∀ t ∈ w.attempts, t + subscribeRetryDelay ≤ due

theorem Spaced.move {e : HostedEvent} (h : Spaced w) (ht : w.now ≤ t) (hm : Move X w t e w') : Spaced w' := by
  have hpast : ∀ s ∈ w.attempts, s ≤ t := fun s hs => (h.past s hs).trans ht
  have hready : w.connecting = .looping → ∀ s ∈ w.attempts, s + subscribeRetryDelay ≤ t :=
    fun hc s hs => (h.looping hc s hs).trans ht
  cases hm with
  | started hc hs =>
    have hnil := h.none hc
    exact ⟨h.pairwise, hpast, fun _ => hnil, fun _ => by simp [hnil], nofun⟩
  | left hc | cancelled due hc | subscribed hc =>
    exact ⟨h.pairwise, hpast, nofun, nofun, nofun⟩
  | attempted hc hx =>
    refine ⟨List.pairwise_cons.mpr ⟨hready hc, h.pairwise⟩, ?_, nofun, nofun,
      nofun⟩
    exact List.forall_mem_cons.mpr ⟨le_rfl, hpast⟩
  | failed hc =>
    refine ⟨h.pairwise, hpast, nofun, nofun, fun due hd => ?_⟩
    cases hd
    exact fun s hs => Nat.add_le_add_right (hpast s hs) _
  | delayed due hc hd =>
    exact ⟨h.pairwise, hpast, nofun, fun _ s hs => (h.delaying due hc s hs).trans hd,
      nofun⟩
  | stop | awaited | unsubscribed | threw | listed | stopped | completed | hub =>
    exact ⟨h.pairwise, hpast, h.none, hready, h.delaying⟩

/-- Once `StopAsync` was called there is no other attempt, -/
structure Stopped (attempts : List ℕ) (w : Hosted) : Prop where
  called : w.stopping ≠ .notCalled
  token : w.isCancellationRequested = true ∨ w.connecting = .notStarted
  attempts : w.attempts = attempts

theorem Stopped.move {attempts : List ℕ} {e : HostedEvent} (h : Stopped attempts w) (hm : Move X w t e w') :
    Stopped attempts w' := by
  obtain ⟨hcalled, htoken, rfl⟩ := h
  cases hm with
  | started _ hs | stop hs => exact absurd hs hcalled
  | attempted hc hx => simp [hx, hc] at htoken
  | left hc | cancelled _ hc | subscribed hc | failed hc | delayed _ hc _ =>
    exact ⟨hcalled, .inl (htoken.resolve_right (by simp [hc])), rfl⟩
  | awaited hc hs =>
    refine ⟨?_, htoken, rfl⟩
    dsimp only
    split_ifs <;> simp
  | unsubscribed | threw | listed | stopped | completed => exact ⟨nofun, htoken, rfl⟩
  | hub => exact ⟨hcalled, htoken, rfl⟩

/-- Redis is away at first, then a client comes, and the host stops. -/
def oneEvening : List (ℕ × HostedEvent) :=
  [(0, .startAsync), (0, .loop), (5, .subscribeFailed), (5 + subscribeRetryDelay, .delayed),
    (5 + subscribeRetryDelay, .loop), (6 + subscribeRetryDelay, .subscribed),
    (7 + subscribeRetryDelay, .hub (.subscribeClient 1)), (8 + subscribeRetryDelay, .stopAsync),
    (8 + subscribeRetryDelay, .awaited), (9 + subscribeRetryDelay, .unsubscribed)]

/-- The rest of `StopAsync`. -/
def closing : List (ℕ × HostedEvent) :=
  [(9 + subscribeRetryDelay, .listed [1]), (9 + subscribeRetryDelay, .tryComplete),
    (9 + subscribeRetryDelay, .tryComplete)]

theorem oneEvening_runs : ∃ w w', run echo (init 0) oneEvening = some w ∧ run echo w closing = some w' ∧
    w.stopping = .listing ∧ w'.stopping = .returned ∧ w.hub.clients = [1] :=
  ⟨_, _, rfl, rfl, rfl, rfl, rfl⟩

theorem hubStep_cases {a : Action} {hub : State} (h : w.hubStep X a = some hub) :
    (Stepped X w.hub a hub ∧ ∀ id, a = .tryWrite id → w.completed id = false) ∨
      ∃ id f rest, a = .tryWrite id ∧ w.completed id = true ∧ w.hub.handling = .writing f (id :: rest) ∧
        hub = { w.hub with handling := .writing f rest } := by
  cases a with
  | message m =>
    simp only [hubStep] at h
    split_ifs at h
    exact .inl ⟨stepped_of_step h, nofun⟩
  | tryWrite id =>
    simp only [hubStep] at h
    split_ifs at h with hc
    · right
      unfold State.tryWriteCompleted at h
      split at h
      · rename_i f id' rest hw
        split_ifs at h with hid
        subst hid
        exact ⟨id, f, rest, rfl, hc, hw, (Option.some.inj h).symm⟩
      · cases h
    · refine .inl ⟨stepped_of_step h, fun id' hid => ?_⟩
      cases hid
      exact Bool.eq_false_of_not_eq_true hc
  | values | subscribeClient | dispose | tryRead => exact .inl ⟨stepped_of_step h, nofun⟩

theorem registered_move {e : HostedEvent} (h : Registered w.hub) (hm : Move X w t e w') : Registered w'.hub := by
  cases hm with
  | hub a hub hh =>
    rcases hubStep_cases hh with ⟨hs, -⟩ | ⟨id, f, rest, -, -, hw, rfl⟩
    · exact h.step hs
    · refine ⟨h.nodup, h.open_of_client, fun f' rest' hr => ?_⟩
      cases hr
      obtain ⟨hn, ho⟩ := h.pending f _ hw
      exact ⟨hn.of_cons, fun c hc => ho c (List.mem_cons_of_mem _ hc)⟩
  | _ => exact h

/-- What a client has read, and what still waits for it. -/
def kept (w : Hosted) (c : Guid) : List TickerFrame :=
  (w.hub.view c).received ++ (w.hub.view c).queue.items

theorem kept_move {e : HostedEvent} {c : Guid} (hr : Registered w.hub) (h : w.completed c = true)
    (hm : Move X w t e w') : w'.completed c = true ∧ kept w' c = kept w c := by
  cases hm with
  | completed id rest hs =>
    refine ⟨?_, rfl⟩
    by_cases hc : c = id
    · rw [hc]
      exact Function.update_self id true w.completed
    · exact (Function.update_of_ne hc true w.completed).trans h
  | hub a hub hh =>
    refine ⟨h, ?_⟩
    rcases hubStep_cases hh with ⟨hs, hopen⟩ | ⟨id, f, rest, -, -, -, rfl⟩
    · have hwritten : written (ops X c w.hub.handling.current [a]) = [] := by
        cases a with
        | tryWrite id =>
          have hne : id ≠ c := by
            rintro rfl
            rw [hopen id rfl] at h
            cases h
          cases w.hub.handling.current <;> simp [ops, hne, written]
        | tryRead id =>
          simp only [ops]
          split_ifs <;> rfl
        | _ => rfl
      unfold kept
      dsimp only
      rw [(view_step hr hs c []).2]
      exact foldl_step_of_unwritten hwritten _
    · rfl
  | _ => exact ⟨h, rfl⟩

/-- Only the loop over the clients completes any. -/
def Untouched (w : Hosted) : Prop :=
  (∀ c, w.completed c = false) ∨ (∃ rest, w.stopping = .completing rest) ∨ w.stopping = .returned

theorem Untouched.move {e : HostedEvent} (h : Untouched w) (hm : Move X w t e w') : Untouched w' := by
  cases hm with
  | listed order => exact .inr (.inl ⟨order, rfl⟩)
  | completed id rest => exact .inr (.inl ⟨rest, rfl⟩)
  | stopped => exact .inr (.inr rfl)
  | left | attempted | subscribed | failed | delayed | cancelled | hub => exact h
  | started _ hs | stop hs | awaited _ hs | unsubscribed hs | threw _ hs =>
    have hnone : ∀ c, w.completed c = false := by simpa [Untouched, hs] using h
    exact .inl hnone

/-- The clients that `_clients.Values` returned are completed, or about to be. -/
def Listed (clients : List Guid) (w : Hosted) : Prop :=
  ∃ rest, (w.stopping = .completing rest ∨ w.stopping = .returned ∧ rest = []) ∧
    ∀ c, w.completed c = true ∨ c ∈ rest ↔ c ∈ clients

theorem Listed.move {clients : List Guid} {e : HostedEvent} (h : Listed clients w) (hm : Move X w t e w') :
    Listed clients w' := by
  obtain ⟨rest, hs, hc⟩ := h
  cases hm with
  | left | attempted | subscribed | failed | delayed | cancelled | hub => exact ⟨rest, hs, hc⟩
  | stopped hs' =>
    obtain rfl : rest = [] := by
      rcases hs with hs | ⟨-, hr⟩
      · rw [hs'] at hs
        cases hs
        rfl
      · exact hr
    exact ⟨[], .inr ⟨rfl, rfl⟩, hc⟩
  | completed id rest' hs' =>
    obtain rfl : rest = id :: rest' := by
      rcases hs with hs | ⟨hs, -⟩ <;> rw [hs'] at hs <;> cases hs
      rfl
    refine ⟨rest', .inl rfl, fun c => ?_⟩
    rw [← hc c, List.mem_cons]
    by_cases hcid : c = id
    · simp [hcid]
    · simp [hcid]
  | started _ hs' | stop hs' | awaited _ hs' | unsubscribed hs' | threw _ hs' | listed _ hs' _ => simp_all

/-- What `StopAsync` does for the open streams. It completes the channels of exactly the clients that it finds attached,
and none before; from then on nothing is added to what such a client has read and what waits for it, so its stream
ends. Where giving the subscription back throws, no client is completed. -/
theorem stop_completes_clients {order : List Guid} {es' : List (ℕ × HostedEvent)} {s : ℕ}
    (h : run X (init t) es = some w) :
    (w.stopping = .threw → ∀ c, w.completed c = false) ∧
      (run X w ((s, .listed order) :: es') = some w' →
        (∀ c, w'.completed c = true → c ∈ w.hub.clients) ∧
        (w'.stopping = .returned → ∀ c ∈ w.hub.clients, w'.completed c = true)) ∧
      ∀ c, w.completed c = true → run X w es' = some w' →
        w'.completed c = true ∧ (w'.hub.view c).received ++ (w'.hub.view c).queue.items =
          (w.hub.view c).received ++ (w.hub.view c).queue.items := by
  have hregistered : Registered w.hub :=
    run_induction (P := fun w => Registered w.hub) (fun h _ hm => registered_move h hm) h registered_init
  have huntouched : Untouched w := run_induction (fun h _ hm => h.move hm) h (.inl fun _ => rfl)
  refine ⟨fun hs => by simpa [Untouched, hs] using huntouched, fun h' => ?_, fun c hc h' => ?_⟩
  · obtain ⟨w₁, h₁, h₂⟩ := Option.bind_eq_some_iff.mp h'
    have hlisted : Listed w.hub.clients w₁ := by
      cases (move_of_step h₁).2 with
      | listed _ hs hp =>
        have hnone : ∀ c, w.completed c = false := by simpa [Untouched, hs] using huntouched
        exact ⟨order, .inl rfl, fun c => by simp [hnone, hp.mem_iff]⟩
    obtain ⟨rest, hs, hc⟩ : Listed w.hub.clients w' := run_induction (fun h _ hm => h.move hm) h₂ hlisted
    refine ⟨fun c hcc => (hc c).mp (.inl hcc), fun hr c hcc => ?_⟩
    rcases hs with hs | ⟨-, rfl⟩
    · rw [hr] at hs
      cases hs
    · exact ((hc c).mpr hcc).resolve_right List.not_mem_nil
  · exact (run_induction (P := fun w' => Registered w'.hub ∧ w'.completed c = true ∧ kept w' c = kept w c)
      (fun h _ hm => ⟨registered_move h.1 hm, (kept_move h.1 h.2.1 hm).1, (kept_move h.1 h.2.1 hm).2.trans h.2.2⟩) h'
      ⟨hregistered, hc, rfl⟩).2

theorem stop_completes_clients_closing : ∃ w w', run echo (init 0) oneEvening = some w ∧
    run echo w closing = some w' ∧ w'.completed 1 = true := by
  obtain ⟨w, w', h, h', -, hr, hc⟩ := oneEvening_runs
  exact ⟨w, w', h, h', ((stop_completes_clients h).2.1 h').2 hr 1 (by simp [hc])⟩

end LiveEventHub.Hosted

end EliteEvents

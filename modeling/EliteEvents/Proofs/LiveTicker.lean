import EliteEvents.Spec.LiveEventHub

/-! What the clients of the live ticker receive, over every interleaving of messages,
subscriptions, disposals and reads. Each client sees its own channel alone: the hub runs one
bounded queue per client, and what happens to it is read off the run. -/

namespace EliteEvents.LiveEventHub

open Text BoundedQueue
open scoped List

variable {X : TickerLibrary}

def Handling.current : Handling → Option TickerFrame
  | .idle => none
  | .enqueued f | .writing f _ => some f

/-- The frame that is being handed out and has not reached the client yet. -/
def Handling.inFlight (c : Guid) : Handling → List TickerFrame
  | .writing f rest => if c ∈ rest then [f] else []
  | .idle | .enqueued _ => []

/-- The frames published, oldest first. -/
def published (X : TickerLibrary) (as : List Action) : List TickerFrame :=
  as.filterMap fun
    | .message m => frame X m
    | _ => none

/-- The frames published between a client's subscription and its disposal: those whose
recipients were read off `_clients` while it was there. -/
def window (X : TickerLibrary) (c : Guid) :
    Bool → Option TickerFrame → List Action → List TickerFrame
  | _, _, [] => []
  | here, _, .message m :: as => window X c here (frame X m) as
  | here, current, .values _ :: as =>
    (if here then current.toList else []) ++ window X c here current as
  | here, current, .subscribeClient id :: as => window X c (here || decide (id = c)) current as
  | here, current, .dispose id :: as => window X c (here && !decide (id = c)) current as
  | here, current, .tryWrite _ :: as | here, current, .tryRead _ :: as => window X c here current as

/-- The actions a client can tell apart: the messages, and what is done to its own channel. -/
def concerns (c : Guid) : Action → Bool
  | .message _ => true
  | .values _ => false
  | .tryWrite id | .subscribeClient id | .dispose id | .tryRead id => decide (id = c)

/-- What a run does to one client's channel. -/
def ops (X : TickerLibrary) (c : Guid) : Option TickerFrame → List Action → List (Op TickerFrame)
  | _, [] => []
  | _, .message m :: as => ops X c (frame X m) as
  | some f, .tryWrite id :: as => if id = c then .write f :: ops X c (some f) as else ops X c (some f) as
  | none, .tryWrite _ :: as => ops X c none as
  | current, .tryRead id :: as => if id = c then .read :: ops X c current as else ops X c current as
  | current, .values _ :: as | current, .subscribeClient _ :: as | current, .dispose _ :: as =>
    ops X c current as

/-- The frames written to a client's channel. -/
def handed (X : TickerLibrary) (c : Guid) (as : List Action) : List TickerFrame :=
  written (ops X c none as)

/-- What a step can do. -/
inductive Stepped (X : TickerLibrary) (s : State) : Action → State → Prop
  | skipped (m : Str) : s.handling.done = true → frame X m = none →
    Stepped X s (.message m) { s with handling := .idle }
  | enqueued (m : Str) (f : TickerFrame) : s.handling.done = true → frame X m = some f →
    Stepped X s (.message m)
      { s with recent := trim recentEventCapacity (s.recent ++ [f]), handling := .enqueued f }
  | snapshot (f : TickerFrame) (order : List Guid) : s.handling = .enqueued f →
    order.Perm s.clients → Stepped X s (.values order) { s with handling := .writing f order }
  | wrote (f : TickerFrame) (id : Guid) (rest : List Guid) : s.handling = .writing f (id :: rest) →
    Stepped X s (.tryWrite id)
      { s with
        handling := .writing f rest
        channels := Function.update s.channels id ((s.channels id).map (·.tryWrite f)) }
  | subscribed (id : Guid) : s.channels id = none →
    Stepped X s (.subscribeClient id)
      { s with
        clients := id :: s.clients
        channels := Function.update s.channels id (some .empty) }
  | disposed (id : Guid) : Stepped X s (.dispose id) { s with clients := s.clients.erase id }
  | empty (id : Guid) (ch : Queue TickerFrame clientQueueCapacity) : s.channels id = some ch →
    ch.tryRead = none → Stepped X s (.tryRead id) s
  | took (id : Guid) (f : TickerFrame) (ch ch' : Queue TickerFrame clientQueueCapacity) :
    s.channels id = some ch → ch.tryRead = some (f, ch') →
    Stepped X s (.tryRead id)
      { s with
        channels := Function.update s.channels id (some ch')
        received := Function.update s.received id (s.received id ++ [f]) }

theorem stepped_of_step {s s' : State} {a : Action} (h : s.step X a = some s') : Stepped X s a s' := by
  cases a with
  | message m =>
    simp only [State.step] at h
    split_ifs at h with hd
    split at h
    · rename_i hf
      cases h
      exact .skipped m hd hf
    · rename_i f hf
      cases h
      exact .enqueued m f hd hf
  | values order =>
    simp only [State.step] at h
    split at h
    · rename_i f hf
      split_ifs at h with hp
      cases h
      exact .snapshot f order hf hp
    · cases h
  | tryWrite id =>
    simp only [State.step] at h
    split at h
    · rename_i f id' rest hf
      split_ifs at h with hid
      subst hid
      cases h
      exact .wrote f id rest hf
    · cases h
  | subscribeClient id =>
    simp only [State.step] at h
    split at h
    · cases h
    · rename_i hc
      cases h
      exact .subscribed id hc
  | dispose id =>
    cases h
    exact .disposed id
  | tryRead id =>
    simp only [State.step] at h
    split at h
    · cases h
    · rename_i ch hc
      split at h
      · rename_i hr
        cases h
        exact .empty id ch hc hr
      · rename_i f ch' hr
        cases h
        exact .took id f ch ch' hc hr

/-- Registered clients, and those of the snapshot still to be served, have a channel; no client
is listed twice. -/
structure Registered (s : State) : Prop where
  nodup : s.clients.Nodup
  open_of_client : ∀ id ∈ s.clients, (s.channels id).isSome
  pending : ∀ f rest, s.handling = .writing f rest →
    rest.Nodup ∧ ∀ id ∈ rest, (s.channels id).isSome

theorem registered_init : Registered .init :=
  ⟨List.nodup_nil, by simp [State.init], by simp [State.init]⟩

private theorem isSome_update {channels : Guid → Option (Queue TickerFrame clientQueueCapacity)}
    {id c : Guid} {o : Option (Queue TickerFrame clientQueueCapacity)}
    (ho : (channels id).isSome → o.isSome) (hc : (channels c).isSome) :
    (Function.update channels id o c).isSome := by
  by_cases h : c = id
  · subst h
    rw [Function.update_self]
    exact ho hc
  · rwa [Function.update_of_ne h]

theorem Registered.step {s s' : State} {a : Action} (hs : Registered s) (h : Stepped X s a s') :
    Registered s' := by
  cases h with
  | skipped m | enqueued m f => exact ⟨hs.nodup, hs.open_of_client, fun _ _ h => by cases h⟩
  | snapshot f order hf hp =>
    refine ⟨hs.nodup, hs.open_of_client, ?_⟩
    intro f' rest h
    cases h
    exact ⟨hp.nodup_iff.mpr hs.nodup, fun id hid => hs.open_of_client id (hp.mem_iff.mp hid)⟩
  | wrote f id rest hf =>
    have hopen : ∀ c, (s.channels c).isSome →
        (Function.update s.channels id ((s.channels id).map (·.tryWrite f)) c).isSome :=
      fun c hc => isSome_update (fun h => by simpa using h) hc
    refine ⟨hs.nodup, fun c hc => hopen c (hs.open_of_client c hc), ?_⟩
    intro f' rest' h
    cases h
    obtain ⟨hn, ho⟩ := hs.pending f (id :: rest) hf
    exact ⟨hn.of_cons, fun c hc => hopen c (ho c (List.mem_cons_of_mem _ hc))⟩
  | subscribed id hid =>
    have hopen : ∀ c, (s.channels c).isSome →
        (Function.update s.channels id (some .empty) c).isSome :=
      fun c hc => isSome_update (fun _ => rfl) hc
    refine ⟨List.nodup_cons.mpr ⟨fun hmem => ?_, hs.nodup⟩, ?_, ?_⟩
    · have := hs.open_of_client id hmem
      rw [hid] at this
      cases this
    · intro c hc
      rcases List.mem_cons.mp hc with rfl | hc
      · simp only [Function.update_self, Option.isSome_some]
      · exact hopen c (hs.open_of_client c hc)
    · intro f rest h
      obtain ⟨hn, ho⟩ := hs.pending f rest h
      exact ⟨hn, fun c hc => hopen c (ho c hc)⟩
  | disposed id =>
    exact ⟨hs.nodup.erase id, fun c hc => hs.open_of_client c (List.mem_of_mem_erase hc), hs.pending⟩
  | empty id ch => exact hs
  | took id f ch ch' =>
    have hopen : ∀ c, (s.channels c).isSome →
        (Function.update s.channels id (some ch') c).isSome :=
      fun c hc => isSome_update (fun _ => rfl) hc
    refine ⟨hs.nodup, fun c hc => hopen c (hs.open_of_client c hc), ?_⟩
    intro f' rest h
    obtain ⟨hn, ho⟩ := hs.pending f' rest h
    exact ⟨hn, fun c hc => hopen c (ho c hc)⟩

/-- A client as its own queue. -/
def State.view (s : State) (c : Guid) : Client TickerFrame clientQueueCapacity :=
  ⟨(s.channels c).getD .empty, s.received c⟩

/-- One step does to a client's queue what its operations say, and nothing else. -/
theorem view_step {s s' : State} {a : Action} (hs : Registered s) (h : Stepped X s a s') (c : Guid)
    (as : List Action) :
    ops X c s.handling.current (a :: as) = ops X c s.handling.current [a] ++
        ops X c s'.handling.current as ∧
      s'.view c = (ops X c s.handling.current [a]).foldl Client.step (s.view c) := by
  cases h with
  | skipped m hd hf | enqueued m f hd hf =>
    refine ⟨?_, rfl⟩
    simp only [ops, hf, List.nil_append]
    rfl
  | snapshot f order hf hp =>
    simp only [hf, Handling.current, ops, List.nil_append, List.foldl_nil, true_and]
    rfl
  | wrote f id rest hf =>
    simp only [hf, Handling.current, ops]
    split_ifs with hid
    · subst hid
      refine ⟨rfl, ?_⟩
      obtain ⟨ch, hch⟩ := Option.isSome_iff_exists.mp ((hs.pending f _ hf).2 id List.mem_cons_self)
      simp only [State.view, Function.update_self, hch, Option.map_some, Option.getD_some,
        List.foldl_cons, List.foldl_nil, Client.step]
    · refine ⟨rfl, ?_⟩
      simp only [State.view, Function.update_of_ne (Ne.symm hid), List.foldl_nil]
  | subscribed id hid =>
    simp only [ops, List.nil_append, List.foldl_nil, true_and]
    by_cases hc : c = id
    · subst hc
      simp only [State.view, Function.update_self, hid, Option.getD_some, Option.getD_none]
    · simp only [State.view, Function.update_of_ne hc]
  | disposed id => exact ⟨rfl, rfl⟩
  | empty id ch hch hr =>
    simp only [ops]
    split_ifs with hid
    · subst hid
      refine ⟨rfl, ?_⟩
      simp only [State.view, hch, Option.getD_some, List.foldl_cons, List.foldl_nil, Client.step, hr]
    · exact ⟨rfl, rfl⟩
  | took id f ch ch' hch hr =>
    simp only [ops]
    split_ifs with hid
    · subst hid
      refine ⟨rfl, ?_⟩
      simp only [State.view, Function.update_self, hch, Option.getD_some, List.foldl_cons,
        List.foldl_nil, Client.step, hr]
    · refine ⟨rfl, ?_⟩
      simp only [State.view, Function.update_of_ne (Ne.symm hid), List.foldl_nil]

/-- The hub runs one bounded queue per client. -/
theorem view_run {s s' : State} {as : List Action} (hs : Registered s) (h : run X s as = some s')
    (c : Guid) : s'.view c = (ops X c s.handling.current as).foldl Client.step (s.view c) := by
  induction as generalizing s with
  | nil =>
    cases h
    simp only [ops, List.foldl_nil]
  | cons a as ih =>
    obtain ⟨s₁, h₁, h₂⟩ := Option.bind_eq_some_iff.mp h
    have hstep := stepped_of_step h₁
    obtain ⟨hops, hview⟩ := view_step hs hstep c as
    rw [ih (hs.step hstep) h₂, hview, hops, List.foldl_append]

theorem inFlight_of_done {h : Handling} (hd : h.done = true) (c : Guid) : h.inFlight c = [] := by
  cases h with
  | idle => rfl
  | enqueued f => rfl
  | writing f rest =>
    cases rest with
    | nil => simp [Handling.inFlight]
    | cons id rest => cases hd

/-- A frame published while the client is there is written to its channel, at the latest before
the next one is published. -/
theorem window_step {s s' : State} {a : Action} (hs : Registered s) (h : Stepped X s a s') (c : Guid)
    (as : List Action) :
    s.handling.inFlight c ++ window X c (decide (c ∈ s.clients)) s.handling.current (a :: as) =
      written (ops X c s.handling.current [a]) ++ (s'.handling.inFlight c ++
        window X c (decide (c ∈ s'.clients)) s'.handling.current as) := by
  cases h with
  | skipped m hd hf | enqueued m f hd hf =>
    rw [inFlight_of_done hd c]
    simp only [window, ops, written, hf]
    rfl
  | snapshot f order hf hp =>
    simp only [hf, Handling.inFlight, Handling.current, window, ops, written, hp.mem_iff,
      decide_eq_true_eq, Option.toList_some, List.nil_append]
  | wrote f id rest hf =>
    have hn := (hs.pending f _ hf).1
    simp only [hf, Handling.inFlight, Handling.current, window, ops]
    by_cases hid : id = c
    · subst hid
      simp only [List.mem_cons_self, if_true, (List.nodup_cons.mp hn).1, if_false, written,
        List.nil_append]
    · simp only [hid, if_false, written, List.mem_cons, Ne.symm hid, false_or, List.nil_append]
  | subscribed id hid =>
    simp only [window, ops, written, List.nil_append, List.mem_cons, Bool.decide_or]
    rw [Bool.or_comm, show decide (c = id) = decide (id = c) from decide_eq_decide.mpr eq_comm]
  | disposed id =>
    simp only [window, ops, written, List.nil_append]
    have hmem : decide (c ∈ s.clients.erase id) = (decide (c ∈ s.clients) && !decide (id = c)) := by
      rw [Bool.eq_iff_iff]
      simp only [decide_eq_true_eq, hs.nodup.mem_erase_iff, Bool.and_eq_true, Bool.not_eq_true',
        decide_eq_false_iff_not]
      tauto
    rw [hmem]
  | empty id ch | took id f ch ch' =>
    simp only [window, ops]
    split_ifs <;> rfl

theorem window_run {s s' : State} {as : List Action} (hs : Registered s) (h : run X s as = some s')
    (c : Guid) :
    s.handling.inFlight c ++ window X c (decide (c ∈ s.clients)) s.handling.current as =
      written (ops X c s.handling.current as) ++ s'.handling.inFlight c := by
  induction as generalizing s with
  | nil =>
    cases h
    simp only [window, ops, written, List.append_nil, List.nil_append]
  | cons a as ih =>
    obtain ⟨s₁, h₁, h₂⟩ := Option.bind_eq_some_iff.mp h
    have hstep := stepped_of_step h₁
    rw [window_step hs hstep c as, ih (hs.step hstep) h₂, (view_step hs hstep c as).1, written_append,
      List.append_assoc]

theorem ops_filter (c : Guid) (current : Option TickerFrame) (as : List Action) :
    ops X c current (as.filter (concerns c)) = ops X c current as := by
  induction as generalizing current with
  | nil => rfl
  | cons a as ih =>
    cases a with
    | message m => rw [List.filter_cons_of_pos rfl, ops, ops, ih]
    | values order => simp [concerns, ops, ih]
    | tryWrite id =>
      by_cases h : id = c
      · rw [List.filter_cons_of_pos (by simpa [concerns] using h)]
        cases current <;> simp only [ops, ih]
      · rw [List.filter_cons_of_neg (by simpa [concerns] using h)]
        cases current <;> simp [ops, ih, h]
    | subscribeClient id | dispose id =>
      by_cases h : id = c
      · rw [List.filter_cons_of_pos (by simpa [concerns] using h), ops, ops, ih]
      · rw [List.filter_cons_of_neg (by simpa [concerns] using h), ops, ih]
    | tryRead id =>
      by_cases h : id = c
      · rw [List.filter_cons_of_pos (by simpa [concerns] using h), ops, ops, ih]
      · rw [List.filter_cons_of_neg (by simpa [concerns] using h), ops, if_neg h, ih]

/-- A client has a channel from its subscription on. -/
theorem isSome_channels_run {s s' : State} {as : List Action} (h : run X s as = some s') (c : Guid) :
    (s'.channels c).isSome ↔ (s.channels c).isSome ∨ .subscribeClient c ∈ as := by
  induction as generalizing s with
  | nil =>
    cases h
    simp
  | cons a as ih =>
    obtain ⟨s₁, h₁, h₂⟩ := Option.bind_eq_some_iff.mp h
    rw [ih h₂, List.mem_cons, ← or_assoc]
    refine or_congr_left ?_
    cases stepped_of_step h₁ with
    | skipped m | enqueued m f | snapshot f order | disposed id | empty id ch => simp
    | wrote f id rest hf =>
      by_cases hc : c = id
      · simp [hc]
      · simp [Function.update_of_ne hc]
    | subscribed id hid =>
      by_cases hc : c = id
      · simp [hc]
      · simp [hc]
    | took id f ch ch' hch =>
      by_cases hc : c = id
      · simp [hc, hch]
      · simp [Function.update_of_ne hc]

theorem run_prefix {s s' : State} {as bs : List Action} (h : run X s as = some s') (hb : bs <+: as) :
    ∃ s₁, run X s bs = some s₁ := by
  induction bs generalizing s as with
  | nil => exact ⟨s, rfl⟩
  | cons b bs ih =>
    obtain ⟨rest, rfl⟩ := hb
    obtain ⟨s₁, h₁, h₂⟩ := Option.bind_eq_some_iff.mp h
    obtain ⟨s₂, h₃⟩ := ih h₂ (List.prefix_append bs rest)
    exact ⟨s₂, Option.bind_eq_some_iff.mpr ⟨s₁, h₁, h₃⟩⟩

/-- Cutting the operations of a client short is cutting the run short. -/
theorem ops_prefix {c : Guid} {current : Option TickerFrame} {as : List Action}
    {o : List (Op TickerFrame)} (h : o <+: ops X c current as) :
    ∃ bs, bs <+: as ∧ ops X c current bs = o := by
  induction as generalizing current o with
  | nil => exact ⟨[], List.prefix_refl _, (List.prefix_nil.mp h).symm⟩
  | cons a as ih =>
    have hsilent : ∀ current', ops X c current (a :: as) = ops X c current' as →
        (∀ bs, ops X c current (a :: bs) = ops X c current' bs) →
        ∃ bs, bs <+: a :: as ∧ ops X c current bs = o := by
      intro current' heq hall
      obtain ⟨bs, hbs, ho⟩ := ih (heq ▸ h)
      exact ⟨a :: bs, List.cons_prefix_cons.mpr ⟨rfl, hbs⟩, by rw [hall, ho]⟩
    have hloud : ∀ p, ops X c current (a :: as) = p :: ops X c current as →
        (∀ bs, ops X c current (a :: bs) = p :: ops X c current bs) →
        ∃ bs, bs <+: a :: as ∧ ops X c current bs = o := by
      intro p heq hall
      rw [heq, List.prefix_cons_iff] at h
      rcases h with rfl | ⟨t, rfl, ht⟩
      · exact ⟨[], List.nil_prefix, rfl⟩
      · obtain ⟨bs, hbs, ho⟩ := ih ht
        exact ⟨a :: bs, List.cons_prefix_cons.mpr ⟨rfl, hbs⟩, by rw [hall, ho]⟩
    cases a with
    | message m => exact hsilent (frame X m) (by rw [ops]) fun bs => by rw [ops]
    | values order | subscribeClient id | dispose id =>
      exact hsilent current (by rw [ops]) fun bs => by rw [ops]
    | tryWrite id =>
      cases current with
      | none => exact hsilent none (by rw [ops]) fun bs => by rw [ops]
      | some f =>
        by_cases hid : id = c
        · exact hloud (.write f) (by rw [ops, if_pos hid]) fun bs => by rw [ops, if_pos hid]
        · exact hsilent (some f) (by rw [ops, if_neg hid]) fun bs => by rw [ops, if_neg hid]
    | tryRead id =>
      by_cases hid : id = c
      · exact hloud .read (by rw [ops, if_pos hid]) fun bs => by rw [ops, if_pos hid]
      · exact hsilent current (by rw [ops, if_neg hid]) fun bs => by rw [ops, if_neg hid]

theorem recent_run {s s' : State} {as before : List Action} (h : run X s as = some s')
    (hs : s.recent = (published X before).rtake recentEventCapacity) :
    s'.recent = (published X (before ++ as)).rtake recentEventCapacity := by
  induction as generalizing s before with
  | nil =>
    cases h
    rwa [List.append_nil]
  | cons a as ih =>
    obtain ⟨s₁, h₁, h₂⟩ := Option.bind_eq_some_iff.mp h
    rw [List.append_cons]
    refine ih h₂ ?_
    rw [published, List.filterMap_append, ← published]
    cases stepped_of_step h₁ with
    | skipped m hd hf => simpa [hf] using hs
    | enqueued m f hd hf =>
      simp only [hs, trim_concat]
      simp [hf]
    | snapshot f order | wrote f id rest | subscribed id | disposed id | empty id ch
    | took id f ch ch' => simpa using hs

/-- What a run has delivered to a client. -/
structure Delivered (X : TickerLibrary) (as : List Action) (s : State) (c : Guid)
    (queue : List TickerFrame) : Prop where
  /-- every frame published while the client is subscribed is written to its channel, but for
  one that is still being handed out -/
  handed_out : window X c false none as = handed X c as ++ s.handling.inFlight c
  subsequence : s.received c ++ queue <+ handed X c as
  suffix : queue <:+ handed X c as
  bound : queue.length ≤ 100
  /-- the frames read have ascending positions, and at each position passed over there was a
  moment with 100 later frames already written and the client not there yet -/
  missing : ∃ taken : List ℕ, taken.Pairwise (· < ·) ∧
    s.received c = (taken.filterMap fun i => (handed X c as)[i]?) ∧
    (∀ i ∈ taken, i + queue.length < (handed X c as).length) ∧
    ∀ i, i + queue.length < (handed X c as).length → i ∉ taken →
      ∃ as₁ s₁, as₁ <+: as ∧ run X .init as₁ = some s₁ ∧ i + 100 < (handed X c as₁).length ∧
        s₁.received c = (taken.filter (· < i)).filterMap fun j => (handed X c as)[j]?

theorem view_run_init {s : State} {as : List Action} (h : run X .init as = some s) (c : Guid) :
    s.view c = BoundedQueue.run (ops X c none as) :=
  view_run registered_init h c

theorem delivered {s : State} {as : List Action} (h : run X .init as = some s) {c : Guid}
    {ch : Queue TickerFrame clientQueueCapacity} (hch : s.channels c = some ch) :
    Delivered X as s c ch.items := by
  have hview := view_run_init h c
  have hq : (BoundedQueue.run (ops X c none as)).queue = ch := by
    rw [← hview, State.view, hch, Option.getD_some]
  have hr : (BoundedQueue.run (ops X c none as) : Client _ clientQueueCapacity).received =
      s.received c := by rw [← hview, State.view]
  obtain ⟨taken, ht⟩ := exists_taken (n := clientQueueCapacity) (ops X c none as)
  refine ⟨window_run registered_init h c, ?_, ?_, ch.bound, taken, ht.ascending, ?_, ?_, ?_⟩
  · rw [← hr, ← hq]
    exact received_sublist _
  · rw [← hq]
    exact queue_suffix _
  · rw [← hr]
    exact ht.received
  · rw [← hq]
    exact ht.before
  · intro i hi hnot
    rw [← hq] at hi
    obtain ⟨o, ho, hover, hgot⟩ := ht.overtaken i hi hnot
    obtain ⟨as₁, hpre, hops⟩ := ops_prefix ho
    obtain ⟨s₁, hs₁⟩ := run_prefix h hpre
    refine ⟨as₁, s₁, hpre, hs₁, ?_, ?_⟩
    · rw [handed, hops]
      exact hover
    · rw [← hops, ← view_run_init hs₁ c] at hgot
      exact hgot

/-- A client's channel and what it has read depend on the messages and on what is done to the
client itself. -/
theorem unaffected {s s' : State} {as bs : List Action} (h : run X .init as = some s)
    (h' : run X .init bs = some s') {c : Guid}
    (hsame : bs.filter (concerns c) = as.filter (concerns c)) :
    s'.channels c = s.channels c ∧ s'.received c = s.received c := by
  have hview : s'.view c = s.view c := by
    rw [view_run_init h' c, view_run_init h c, ← ops_filter c none bs, hsame, ops_filter]
  obtain ⟨hq, hr⟩ := Client.mk.inj hview
  refine ⟨?_, hr⟩
  have hmem : Action.subscribeClient c ∈ bs ↔ Action.subscribeClient c ∈ as := by
    have hin : ∀ l : List Action, Action.subscribeClient c ∈ l ↔
        Action.subscribeClient c ∈ l.filter (concerns c) := by
      intro l
      rw [List.mem_filter, concerns, decide_eq_true rfl, and_iff_left rfl]
    rw [hin bs, hsame, ← hin]
  have hsome : (s'.channels c).isSome ↔ (s.channels c).isSome := by
    rw [isSome_channels_run h' c, isSome_channels_run h c, hmem]
  cases hc : s.channels c with
  | none =>
    rw [hc] at hsome
    exact Option.not_isSome_iff_eq_none.mp fun hs => by cases hsome.mp hs
  | some ch =>
    rw [hc] at hsome hq
    obtain ⟨ch', hc'⟩ := Option.isSome_iff_exists.mp (hsome.mpr rfl)
    rw [hc'] at hq ⊢
    exact congrArg some hq

/-- Live fan-out loses only what overflow drops: every client gets the frames of its own
subscription in order, short only of those overtaken by a full queue, whatever the other clients
do; and the ring holds the last frames published. -/
theorem live_fan_out {s : State} {as : List Action} (h : run X .init as = some s) :
    (∀ c ch, s.channels c = some ch → Delivered X as s c ch.items) ∧
    (∀ c bs s', run X .init bs = some s' → bs.filter (concerns c) = as.filter (concerns c) →
      s'.channels c = s.channels c ∧ s'.received c = s.received c) ∧
    s.recentFrames = (published X as).reverse.take 40 := by
  refine ⟨fun c ch hch => delivered h hch, fun c bs s' h' hsame => unaffected h h' hsame, ?_⟩
  have hrecent : s.recent = (published X ([] ++ as)).rtake recentEventCapacity := recent_run h rfl
  rw [State.recentFrames, hrecent, List.nil_append, List.rtake_eq_reverse_take_reverse,
    List.reverse_reverse]
  rfl

/-- Every message is an event whose type is its text, and its row is that text again. -/
def echo : TickerLibrary where
  deserializeObject m := .ok (some ⟨m, none, none, none, 0⟩)
  serializeObject e := e.type
  renderAsync e := .ok e.type

/-- A client reads one of two frames and leaves while the second is handed out to another. -/
def twoClients : List Action :=
  [.subscribeClient 1, .message [1], .values [1], .tryWrite 1, .tryRead 1, .subscribeClient 2,
    .message [2], .values [1, 2], .dispose 1, .tryWrite 1, .tryWrite 2]

theorem live_fan_out_two_clients : ∃ s, run echo .init twoClients = some s ∧
    (∀ c ch, s.channels c = some ch → Delivered echo twoClients s c ch.items) ∧
    s.recentFrames = (published echo twoClients).reverse.take 40 :=
  ⟨_, rfl, (live_fan_out rfl).1, (live_fan_out rfl).2.2⟩

end EliteEvents.LiveEventHub

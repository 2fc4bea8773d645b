import EliteEvents.Proofs.LiveTicker
import EliteEvents.Spec.TickerPage

/-! The whole way of the live feed, from the subscription to the rows on a page: what is on the page is what was
published, newest first, and the page never goes back in time, over any interleaving of the page's load, its
connection and the feed. -/

namespace EliteEvents

open Text BoundedQueue LiveEventHub
open scoped List

namespace TickerPage

theorem trimRows_eq_take (rows : List Str) : trimRows rows = rows.take maxRows := by
  induction rows using List.reverseRecOn with
  | nil =>
    unfold trimRows
    simp
  | append_singleton rows x ih =>
    unfold trimRows
    split_ifs with h
    · rw [List.length_append, List.length_singleton] at h
      rw [List.dropLast_concat, ih, List.take_append_of_le_length (by omega)]
    · rw [List.take_of_length_le (by omega)]

theorem take_append_take {α : Type} (n : ℕ) (a b : List α) : (a ++ b.take n).take n = (a ++ b).take n := by
  rw [List.take_append, List.take_append, List.take_take, Nat.min_eq_left (Nat.sub_le _ _)]

theorem onMessage_rows (p : TickerPage) (html : Str) : (p.onMessage html).rows = (html :: p.rows).take maxRows :=
  trimRows_eq_take _

/-- The rows after any number of events: the newest of all that came, and of those from before. -/
theorem rows_foldl (fs : List TickerFrame) (p : TickerPage) (h : p.rows.length ≤ maxRows) :
    (fs.foldl (fun p f => p.onMessage f.html) p).rows =
      (fs.reverse.map TickerFrame.html ++ p.rows).take maxRows := by
  induction fs generalizing p with
  | nil => simp [List.take_of_length_le h]
  | cons f fs ih =>
    rw [List.foldl_cons, ih _ (by rw [onMessage_rows]; exact List.length_take_le _ _), onMessage_rows,
      take_append_take, List.reverse_cons, List.map_append, List.append_assoc]
    rfl

/-- The page waits for events as long as it shows none. -/
theorem waiting_foldl (fs : List TickerFrame) (p : TickerPage) (h : p.waiting = true ↔ p.rows = []) :
    (fs.foldl (fun p f => p.onMessage f.html) p).waiting = true ↔
      (fs.foldl (fun p f => p.onMessage f.html) p).rows = [] := by
  induction fs generalizing p with
  | nil => exact h
  | cons f fs ih =>
    refine ih _ ?_
    have hrows := onMessage_rows p f.html
    have hne : (p.onMessage f.html).rows ≠ [] := by
      rw [hrows, maxRows, List.take_succ_cons]
      exact List.cons_ne_nil _ _
    have hlen : ¬(trimRows (f.html :: p.rows)).length = 0 := fun h => hne (List.length_eq_zero_iff.mp h)
    simp only [hne, iff_false]
    simp [onMessage, hlen]

end TickerPage

namespace LiveEventHub

variable {X : TickerLibrary} {s s' : State} {as before after : List Action} {c : Guid}

/-- The frame that is in the ring and has not been given to anyone yet. -/
def Handling.pending : Handling → List TickerFrame
  | .enqueued f => [f]
  | .idle | .writing _ _ => []

/-- Whatever clients come and go, one is handed the frame that was pending and those published since, in order
and each at most once. -/
theorem window_sublist (h : run X s as = some s') (here : Bool) :
    window X c here s.handling.current as <+ s.handling.pending ++ published X as := by
  induction as generalizing s here with
  | nil => exact List.nil_sublist _
  | cons a as ih =>
    obtain ⟨s₁, h₁, h₂⟩ := Option.bind_eq_some_iff.mp h
    have hstep := stepped_of_step h₁
    cases hstep with
    | skipped m hd hf =>
      have hw := ih h₂ here
      simp only [window, hf, published, List.filterMap_cons]
      exact hw.trans (List.sublist_append_right _ _)
    | enqueued m f hd hf =>
      have hw := ih h₂ here
      simp only [window, hf, published, List.filterMap_cons]
      exact hw.trans (List.sublist_append_right _ _)
    | snapshot f order hf hp =>
      have hw := ih h₂ here
      simp only [hf, Handling.current, Handling.pending, window, published, List.filterMap_cons]
      refine List.Sublist.append ?_ hw
      split_ifs
      · exact List.Sublist.refl _
      · exact List.nil_sublist _
    | wrote f id rest hf =>
      have hw := ih h₂ here
      simp only [hf, Handling.current, Handling.pending, window, published, List.filterMap_cons]
      exact hw
    | subscribed id hid => exact ih h₂ (here || decide (id = c))
    | disposed id => exact ih h₂ (here && !decide (id = c))
    | empty id ch hch hr => exact ih h₂ here
    | took id f ch ch' hch hr => exact ih h₂ here

/-- Before it subscribes, a client is handed nothing. -/
theorem window_append (h : run X s before = some s') (hc : .subscribeClient c ∉ before) :
    window X c false s.handling.current (before ++ after) = window X c false s'.handling.current after := by
  induction before generalizing s with
  | nil =>
    cases h
    rfl
  | cons a before ih =>
    obtain ⟨s₁, h₁, h₂⟩ := Option.bind_eq_some_iff.mp h
    have hrest := ih h₂ fun hm => hc (List.mem_cons_of_mem a hm)
    rw [List.cons_append, ← hrest]
    cases stepped_of_step h₁ with
    | skipped m hd hf => simp only [window, hf, Handling.current]
    | enqueued m f hd hf => simp only [window, hf, Handling.current]
    | snapshot f order hf hp => simp only [window, hf, Handling.current, List.nil_append, Bool.false_eq_true, if_false]
    | wrote f id rest hf => simp only [window, hf, Handling.current]
    | subscribed id hid =>
      have hne : id ≠ c := fun he => hc (by rw [← he]; exact List.mem_cons_self)
      simp only [window, Bool.false_or, decide_eq_false hne]
    | disposed id => simp only [window, Bool.false_and]
    | empty id ch hch hr => simp only [window]
    | took id f ch ch' hch hr => simp only [window]

/-- The frame that is pending is the newest of the ring. -/
theorem pending_sublist (h : run X s as = some s') {old : List TickerFrame}
    (hs : s.handling.pending <+ old.getLast?.toList) :
    s'.handling.pending <+ (old ++ published X as).getLast?.toList := by
  induction as generalizing s old with
  | nil =>
    cases h
    rwa [published, List.filterMap_nil, List.append_nil]
  | cons a as ih =>
    obtain ⟨s₁, h₁, h₂⟩ := Option.bind_eq_some_iff.mp h
    cases stepped_of_step h₁ with
    | skipped m hd hf =>
      simp only [published, List.filterMap_cons, hf]
      exact ih h₂ (List.nil_sublist _)
    | enqueued m f hd hf =>
      simp only [published, List.filterMap_cons, hf]
      rw [List.append_cons]
      exact ih h₂ (by simp [Handling.pending])
    | snapshot f order hf hp => exact ih h₂ (List.nil_sublist _)
    | wrote f id rest hf => exact ih h₂ (List.nil_sublist _)
    | subscribed id hid => exact ih h₂ hs
    | disposed id => exact ih h₂ hs
    | empty id ch hch hr => exact ih h₂ hs
    | took id f ch ch' hch hr => exact ih h₂ hs

theorem run_append (h₁ : run X s before = some s') {s₂ : State} (h₂ : run X s' after = some s₂) :
    run X s (before ++ after) = some s₂ := by
  induction before generalizing s with
  | nil => exact Option.some.inj h₁ ▸ h₂
  | cons a before ih =>
    obtain ⟨s₁, hs₁, h₁⟩ := Option.bind_eq_some_iff.mp h₁
    exact Option.bind_eq_some_iff.mpr ⟨s₁, hs₁, ih h₁⟩

/-- What a client that comes after `before` can have read: the newest frame of that time, if it was about to be
handed out, and those published since. -/
theorem received_after {s₁ s₂ : State} (h₁ : run X .init before = some s₁) (hc : .subscribeClient c ∉ before)
    (h₂ : run X s₁ after = some s₂) :
    s₂.received c <+ (published X before).getLast?.toList ++ published X after := by
  have h := run_append h₁ h₂
  have hview := view_run_init h c
  have hwritten : s₂.received c <+ handed X c (before ++ after) := by
    have hsub := received_sublist (n := clientQueueCapacity) (ops X c none (before ++ after))
    rw [← hview] at hsub
    exact (List.sublist_append_left _ _).trans hsub
  have hwindow : window X c false none (before ++ after) = handed X c (before ++ after) ++ s₂.handling.inFlight c :=
    window_run registered_init h c
  have hlate : window X c false none (before ++ after) = window X c false s₁.handling.current after :=
    window_append (s := .init) h₁ hc
  have hpending : s₁.handling.pending <+ (published X before).getLast?.toList :=
    @pending_sublist _ _ _ _ h₁ [] (List.nil_sublist _)
  calc s₂.received c
      <+ handed X c (before ++ after) ++ s₂.handling.inFlight c := hwritten.trans (List.sublist_append_left _ _)
    _ = window X c false s₁.handling.current after := by rw [← hwindow, hlate]
    _ <+ s₁.handling.pending ++ published X after := window_sublist h₂ false
    _ <+ (published X before).getLast?.toList ++ published X after := hpending.append_right _

/-- A page that was rendered after `before`, connected at any time since, and was sent the first `n` frames its
connection read, shows the newest 40 of those and of what it came with, newest first. From bottom to top they
are in the order in which they were published, and only the newest frame of the page's own render can be there
twice. -/
theorem page_shows_newest_in_order {s₁ s₂ : State} (h₁ : run X .init before = some s₁)
    (hc : .subscribeClient c ∉ before) (h₂ : run X s₁ after = some s₂) (n : ℕ) {page : TickerPage}
    (hpage : page = ((s₂.received c).take n).foldl (fun p f => p.onMessage f.html)
      (TickerPage.load s₁.recentFrames)) :
    page.rows = ((((s₂.received c).take n).reverse ++ (published X before).reverse).take 40).map
        TickerFrame.html ∧
      page.rows.reverse <+ (published X before ++ ((published X before).getLast?.toList ++
        published X after)).map TickerFrame.html ∧
      (page.waiting = true ↔ page.rows = []) := by
  have hrecent : s₁.recentFrames = (published X before).reverse.take 40 := by
    have hring : s₁.recent = (published X ([] ++ before)).rtake recentEventCapacity := recent_run h₁ rfl
    rw [State.recentFrames, hring, List.nil_append, List.rtake_eq_reverse_take_reverse, List.reverse_reverse]
    rfl
  have hrows : page.rows = ((((s₂.received c).take n).reverse ++ (published X before).reverse).take 40).map
      TickerFrame.html := by
    have hload : (TickerPage.load s₁.recentFrames).rows.length ≤ TickerPage.maxRows := by
      rw [TickerPage.load, List.length_map, hrecent]
      exact List.length_take_le _ _
    rw [hpage, TickerPage.rows_foldl _ _ hload, TickerPage.load, hrecent, List.map_take, List.map_take,
      List.map_append]
    exact TickerPage.take_append_take 40 _ _
  refine ⟨hrows, ?_, ?_⟩
  · rw [hrows, ← List.map_reverse]
    refine List.Sublist.map _ ?_
    calc (((((s₂.received c).take n).reverse ++ (published X before).reverse).take 40).reverse)
        <+ (((s₂.received c).take n).reverse ++ (published X before).reverse).reverse :=
          List.Sublist.reverse (List.take_sublist _ _)
      _ = published X before ++ (s₂.received c).take n := by simp
      _ <+ _ := ((List.take_sublist _ _).trans (received_after h₁ hc h₂)).append_left _
  · rw [hpage]
    refine TickerPage.waiting_foldl _ _ ?_
    simp [TickerPage.load]

/-- A client that subscribes while a frame is about to be handed out, and reads it and the next one. -/
def earlyClient : List Action :=
  [.subscribeClient 7, .values [7], .tryWrite 7, .tryRead 7, .message [2], .values [7], .tryWrite 7, .tryRead 7]

theorem page_of_two_frames : ∃ s₁ s₂, run echo .init [.message [1]] = some s₁ ∧
    run echo s₁ earlyClient = some s₂ ∧
    (((s₂.received 7).take 2).foldl (fun p f => p.onMessage f.html) (TickerPage.load s₁.recentFrames)).rows =
      [[2], [1], [1]] := by
  have hread : ((run echo .init [.message [1]]).bind fun s => run echo s earlyClient).map
      (fun s => s.received 7) = some [⟨[1], [1]⟩, ⟨[2], [2]⟩] := by decide +kernel
  obtain ⟨s₂, hrun, hr⟩ := Option.map_eq_some_iff.mp hread
  obtain ⟨s₁, h₁, h₂⟩ := Option.bind_eq_some_iff.mp hrun
  refine ⟨s₁, s₂, h₁, h₂, ?_⟩
  rw [(page_shows_newest_in_order h₁ (by decide) h₂ 2 rfl).1, hr]
  rfl

end LiveEventHub

end EliteEvents

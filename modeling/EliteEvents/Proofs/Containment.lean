import EliteEvents.Spec.Receiver

/-! What a frame can do to the receive loop. Everything after `Receive` is contained by the
try block of `ProcessMessageAsync`; `Receive` itself decompresses outside of it, so a frame
that zlib rejects ends `ExecuteAsync`, and with it the host. -/

namespace EliteEvents

open Text

variable {J : Type} (X : External J) (shard : MessageShardFilter) (silence : ℕ)

/-- The frame of this turn is a journal message of this shard that a handler takes. -/
def Addressed (t : Turn) (m : JournalMessage) : Prop :=
  ∃ json, Receiver.receive X t.received = .ok (some json) ∧ shard.owns json = true ∧
    readMessage X json = .ok (some (.journal m)) ∧ m.event ∈ JournalMessageHandler.handles

/-- No frame ends the run, and every frame addressed to a handler reaches it. -/
def Contained (start : ℕ) (seed : Turn) (ts : List Turn) : Prop :=
  let o := (Receiver.execute X shard silence start seed ts).2
  o.escaped = none ∧
    ∀ (i : ℕ) (t : Turn) (m : JournalMessage), ts[i]? = some t → Addressed X shard t m →
      ∃ es, o.turns[i]? = some es ∧ Effect.handle m ∈ es

/-- The frame is empty, or zlib decompresses it without throwing. -/
def Decompresses (t : Turn) : Prop :=
  ∀ b bs, t.received = some (b :: bs) → ∃ u, X.uncompressBuffer (b :: bs) = .ok u

theorem receive_cons (b : UInt8) (bs : List UInt8) :
    Receiver.receive X (some (b :: bs)) =
      (X.uncompressBuffer (b :: bs)).map (Option.map X.getString) := by
  change (X.uncompressBuffer (b :: bs) >>= fun u => pure (u.map X.getString)) = _
  cases X.uncompressBuffer (b :: bs) <;> rfl

theorem receive_ok_iff (t : Turn) :
    (∃ r, Receiver.receive X t.received = .ok r) ↔ Decompresses X t := by
  unfold Decompresses
  rcases ht : t.received with _ | _ | ⟨b, bs⟩
  · exact ⟨fun _ b bs h => by simp at h, fun _ => ⟨none, rfl⟩⟩
  · exact ⟨fun _ b bs h => by simp at h, fun _ => ⟨none, rfl⟩⟩
  · constructor
    · rintro ⟨r, hr⟩ b' bs' h
      simp only [Option.some.injEq, List.cons.injEq] at h
      obtain ⟨rfl, rfl⟩ := h
      cases hu : X.uncompressBuffer (b :: bs) with
      | error e => rw [receive_cons, hu] at hr; cases hr
      | ok u => exact ⟨u, rfl⟩
    · intro h
      obtain ⟨u, hu⟩ := h b bs rfl
      exact ⟨u.map X.getString, by rw [receive_cons, hu]; rfl⟩

theorem turn_ok_iff (t : Turn) (s : ReceiverState) :
    (∃ r, Receiver.turn X shard silence t s = .ok r) ↔ Decompresses X t := by
  rw [← receive_ok_iff]
  unfold Receiver.turn
  cases hr : Receiver.receive X t.received with
  | error e => simp
  | ok str =>
    cases str with
    | none => simp only; split_ifs <;> simp
    | some str => simp

theorem loop_escaped_iff (ts : List Turn) (s : ReceiverState) :
    (Receiver.loop X shard silence ts s).escaped = none ↔ ∀ t ∈ ts, Decompresses X t := by
  induction ts generalizing s with
  | nil => simp [Receiver.loop]
  | cons t ts ih =>
    rw [List.forall_mem_cons, ← turn_ok_iff X shard silence t s]
    cases ht : Receiver.turn X shard silence t s with
    | error e => simp [Receiver.loop, ht]
    | ok r => simp [Receiver.loop, ht, ih]

/-- A run that was not cut short has completed each of its turns. -/
theorem loop_turns {ts : List Turn} {s : ReceiverState}
    (h : (Receiver.loop X shard silence ts s).escaped = none) {i : ℕ} {t : Turn}
    (hi : ts[i]? = some t) :
    ∃ s₁ s₂ es, Receiver.turn X shard silence t s₁ = .ok (s₂, es) ∧
      (Receiver.loop X shard silence ts s).turns[i]? = some es := by
  induction ts generalizing s i with
  | nil => simp at hi
  | cons t' ts ih =>
    unfold Receiver.loop at h ⊢
    cases ht : Receiver.turn X shard silence t' s with
    | error e => rw [ht] at h; cases h
    | ok r =>
      obtain ⟨s', es⟩ := r
      rw [ht] at h
      cases i with
      | zero =>
        simp only [List.getElem?_cons_zero, Option.some.injEq] at hi
        subst hi
        exact ⟨s, s', es, ht, rfl⟩
      | succ i => exact ih h (by simpa using hi)

theorem handle_mem (t : Turn) (m : JournalMessage) :
    Effect.handle m ∈ (JournalMessageHandler.handle X t m).1 := by
  unfold JournalMessageHandler.handle
  split
  · simp
  · simp
  · split <;> simp

theorem dispatch_mem {t : Turn} {json : Str} {m : JournalMessage}
    (hm : readMessage X json = .ok (some (.journal m))) (he : m.event ∈ JournalMessageHandler.handles) :
    Effect.handle m ∈ (dispatch X t json).1 := by
  have hh : getMessageHandlers X t m.event = [JournalMessageHandler.handle X t] := by
    simp only [JournalMessageHandler.handles, List.mem_cons, List.not_mem_nil, or_false] at he
    rcases he with he | he <;> rw [he] <;> rfl
  have hc := handle_mem X t m
  simp only [dispatch, hm, hh, runHandlers]
  split
  · rename_i hx; rw [hx] at hc; exact hc
  · rename_i hx; rw [hx] at hc; exact List.mem_append_left _ hc

/-- Whatever the handler, Redis or the throttles did, the frame was dispatched. -/
theorem processMessage_mem {t : Turn} {s : ReceiverState} {json : Str} {m : JournalMessage}
    (hm : readMessage X json = .ok (some (.journal m))) (he : m.event ∈ JournalMessageHandler.handles) :
    Effect.handle m ∈ (Receiver.processMessage X t s json).2 := by
  have hd := dispatch_mem X (t := t) hm he
  unfold Receiver.processMessage
  split
  · rename_i hx; rw [hx] at hd
    split_ifs
    · exact List.mem_append_left _ hd
    · exact hd
  · rename_i hx; rw [hx] at hd
    simp only
    split_ifs
    · exact List.mem_append_left _ hd
    · exact hd

theorem turn_mem {t : Turn} {s s' : ReceiverState} {es : List Effect} {m : JournalMessage}
    (ht : Receiver.turn X shard silence t s = .ok (s', es)) (ha : Addressed X shard t m) :
    Effect.handle m ∈ es := by
  obtain ⟨json, hr, ho, hm, he⟩ := ha
  simp only [Receiver.turn, hr, Receiver.onFrame, ho, if_true, Except.ok.injEq, Prod.mk.injEq] at ht
  rw [← ht.2]
  exact List.mem_append_left _ (processMessage_mem X hm he)

/-- Exactly the frames that zlib rejects stop ingestion: a run survives its frames and
dispatches every later one if and only if each non-empty frame decompresses. -/
theorem contained_iff_decompresses (start : ℕ) (seed : Turn) (ts : List Turn) :
    Contained X shard silence start seed ts ↔ ∀ t ∈ ts, Decompresses X t := by
  rw [← loop_escaped_iff X shard silence ts (Receiver.startup start seed).1]
  constructor
  · exact fun h => h.1
  · intro h
    refine ⟨h, fun i t m hi ha => ?_⟩
    obtain ⟨s₁, s₂, es, ht, hes⟩ := loop_turns X shard silence h hi
    exact ⟨es, hes, turn_mem X shard silence ht ha⟩

/-- A decompressor that checks the two header bytes of a zlib stream and finds it empty. -/
def headerCheck : External Unit where
  casing := asciiCasing
  uncompressBuffer
    | cmf :: flg :: _ =>
      if cmf.toNat % 16 = 8 ∧ (cmf.toNat * 256 + flg.toNat) % 31 = 0 then .ok (some [])
      else .error .zlib
    | _ => .error .zlib
  getString := List.map UInt8.toUInt16
  parse _ := .error .json
  schemaRef _ := .ok none
  toJournal _ := .ok none
  toApproachSettlement _ := .ok none
  nextExpirationUtc _ := 0

def delivered (frame : List UInt8) : Turn where
  received := some frame
  arrival := 0
  batchBuilt := 0
  failure := 0
  idle := 0
  reconnected := 0
  writer _ := .ok ()
  heartbeatWrite := .ok ()

/-- One zero byte is no zlib stream: it ends the run of any consumer it reaches. -/
theorem zero_byte_frame_escapes :
    ¬ Contained headerCheck onlyShard 1200000000 0 (delivered []) [delivered [0x00]] := by
  intro h
  exact absurd h.1 (by decide)

end EliteEvents

import EliteEvents.Proofs.Labels

/-! What a call did, read off its answer: one lemma for each answer a reconcile acts on. Errors
of the server itself (not found, already exists, conflict) come without an effect; any other error
leaves open whether the call took effect. -/

namespace EliteEvents

variable {s s' : Cluster} {f : Fate}

/-- Errors the server answers with on purpose. -/
def ApiError.Definite (e : ApiError) : Prop := e.reason ≠ .other

theorem withMetadata_metadata {κ : Kind} (o : Obj κ) : o.withMetadata o.metadata = o := by
  cases κ <;> rfl

theorem get_ok {κ : Kind} {name : String} {o : Obj κ}
    (h : s.answer f (.get κ name) = (.ok o, s')) : (s.objs κ).lookup name = some o ∧ s' = s := by
  have hs := answer_ok h id
  simp only [Cluster.serve] at hs
  split at hs
  · cases hs
  · cases hs
    exact ⟨‹_›, rfl⟩

/-- Reads leave the cluster alone, whatever they answer. -/
theorem get_effect {κ : Kind} {name : String} {r : Answer (.get κ name)}
    (h : s.answer f (.get κ name) = (r, s')) : s' = s := by
  rcases answer_effect h with rfl | rfl
  · rfl
  · simp only [Cluster.serve]
    split <;> rfl

theorem getFeed_effect {name : String} {r : Answer (.getFeed name)}
    (h : s.answer f (.getFeed name) = (r, s')) : s' = s := by
  rcases answer_effect h with rfl | rfl
  · rfl
  · simp only [Cluster.serve]
    split <;> rfl

theorem list_effect {κ : Kind} {sel : Labels} {r : Answer (.list κ sel)}
    (h : s.answer f (.list κ sel) = (r, s')) : s' = s := (answer_effect h).elim id id

theorem listPods_effect {sel : Labels} {r : Answer (.listPods sel)}
    (h : s.answer f (.listPods sel) = (r, s')) : s' = s := (answer_effect h).elim id id

theorem event_effect {e : Event} {r : Answer (.event e)}
    (h : s.answer f (.event e) = (r, s')) : s' = s := (answer_effect h).elim id id

theorem probe_effect {podIP : String} {r : Answer (.probe podIP)}
    (h : s.answer f (.probe podIP) = (r, s')) : s' = s := (answer_effect h).elim id id

theorem now_effect {r : Answer .now} (h : s.answer f .now = (r, s')) : s' = s :=
  (answer_effect h).elim id id

theorem getFeed_ok {name : String} {fl : FeedListener}
    (h : s.answer f (.getFeed name) = (.ok fl, s')) : s.feeds.lookup name = some fl := by
  have hs := answer_ok h id
  simp only [Cluster.serve] at hs
  split at hs
  · cases hs
  · rename_i hl
    cases hs
    exact hl

theorem getFeed_notFound {name : String} {e : ApiError}
    (h : s.answer f (.getFeed name) = (.error e, s')) (he : e.Definite) :
    s.feeds.lookup name = none := by
  have hs := answer_error h he
  simp only [Cluster.serve] at hs
  split at hs
  · rename_i hl
    exact hl
  · cases hs

theorem list_ok {κ : Kind} {sel : Labels} {os : List (String × Obj κ)}
    (h : s.answer f (.list κ sel) = (.ok os, s')) : os = s.matching κ sel := by
  have hs := answer_ok h id
  cases hs
  rfl

theorem listPods_ok {sel : Labels} {pods : List Pod}
    (h : s.answer f (.listPods sel) = (.ok pods, s')) : pods = s.matchingPods sel := by
  have hs := answer_ok h id
  cases hs
  rfl

theorem create_effect {κ : Kind} {name : String} {o : Obj κ} {r : Answer (.create κ name o)}
    (h : s.answer f (.create κ name o) = (r, s')) :
    s' = s ∨ (s.objs κ).lookup name = none ∧
      s' = s.set κ name (o.withMetadata (s.stamp o.metadata (s.revision + 1) false)) := by
  rcases answer_effect h with rfl | rfl
  · exact .inl rfl
  · simp only [Cluster.serve]
    split
    · exact .inl rfl
    · exact .inr ⟨‹_›, rfl⟩

theorem create_stored {κ : Kind} {name : String} {o o' : Obj κ}
    (h : s.answer f (.create κ name o) = (.ok o', s')) :
    s' = s.set κ name (o.withMetadata (s.stamp o.metadata (s.revision + 1) false)) := by
  have hs := answer_ok h id
  simp only [Cluster.serve] at hs
  split at hs
  · cases hs
  · cases hs
    rfl

theorem create_answered {κ : Kind} {name : String} {o o' : Obj κ}
    (h : s.answer f (.create κ name o) = (.ok o', s')) :
    o' = o.withMetadata (s.stamp o.metadata (s.revision + 1) false) := by
  have hs := answer_ok h id
  simp only [Cluster.serve] at hs
  split at hs
  · cases hs
  · cases hs
    rfl

theorem update_stored {κ : Kind} {name : String} {o o' : Obj κ}
    (h : s.answer f (.update κ name o) = (.ok o', s')) :
    ∃ uid deleting, s' = s.set κ name (o.withMetadata (s.stamp o.metadata uid deleting)) := by
  have hs := answer_ok h id
  simp only [Cluster.serve] at hs
  split at hs
  · cases hs
  · split_ifs at hs
    · cases hs
      exact ⟨_, _, rfl⟩
    · cases hs

theorem update_effect {κ : Kind} {name : String} {o : Obj κ} {r : Answer (.update κ name o)}
    (h : s.answer f (.update κ name o) = (r, s')) :
    s' = s ∨ ∃ uid deleting, s' = s.set κ name (o.withMetadata (s.stamp o.metadata uid deleting)) := by
  rcases answer_effect h with rfl | rfl
  · exact .inl rfl
  · simp only [Cluster.serve]
    split
    · exact .inl rfl
    · split_ifs
      · exact .inr ⟨_, _, rfl⟩
      · exact .inl rfl

/-- The object is gone, or marked if it was to go in the foreground. -/
theorem delete_effect {κ : Kind} {name : String} {foreground : Bool}
    {r : Answer (.delete κ name foreground)}
    (h : s.answer f (.delete κ name foreground) = (r, s')) :
    s' = s ∨ (foreground = false ∧ s' = s.drop κ name) ∨ (foreground = true ∧
      ∃ o, (s.objs κ).lookup name = some o ∧
        s' = s.set κ name (o.withMetadata (s.stamp o.metadata o.metadata.uid true))) := by
  rcases answer_effect h with rfl | rfl
  · exact .inl rfl
  · simp only [Cluster.serve]
    split
    · exact .inl rfl
    · split_ifs with hf
      · exact .inr (.inr ⟨hf, _, ‹_›, rfl⟩)
      · exact .inr (.inl ⟨Bool.eq_false_iff.mpr hf, rfl⟩)

theorem delete_ok {κ : Kind} {name : String} {foreground : Bool} {u : Unit}
    (h : s.answer f (.delete κ name foreground) = (.ok u, s')) :
    (foreground = false ∧ s' = s.drop κ name) ∨ (foreground = true ∧
      ∃ o, (s.objs κ).lookup name = some o ∧
        s' = s.set κ name (o.withMetadata (s.stamp o.metadata o.metadata.uid true))) := by
  have hs := answer_ok h id
  simp only [Cluster.serve] at hs
  split at hs
  · cases hs
  · split_ifs at hs with hf
    · cases hs
      exact .inr ⟨hf, _, ‹_›, rfl⟩
    · cases hs
      exact .inl ⟨Bool.eq_false_iff.mpr hf, rfl⟩

theorem delete_notFound {κ : Kind} {name : String} {foreground : Bool} {e : ApiError}
    (h : s.answer f (.delete κ name foreground) = (.error e, s')) (he : e.Definite) :
    (s.objs κ).lookup name = none ∧ s' = s := by
  have hs := answer_error h he
  simp only [Cluster.serve] at hs
  split at hs
  · cases hs
    exact ⟨‹_›, rfl⟩
  · split_ifs at hs <;> cases hs

/-- A status update writes the status of the feed it names, if that feed is still the same. -/
theorem updateStatus_effect {fl : FeedListener} {r : Answer (.updateStatus fl)}
    (h : s.answer f (.updateStatus fl) = (r, s')) :
    s' = s ∨ ∃ cur, s.feeds.lookup fl.name = some cur ∧ cur.uid = fl.uid ∧
      s' = s.setFeed { cur with status := fl.status, resourceVersion := s.revision + 1 } := by
  rcases answer_effect h with rfl | rfl
  · exact .inl rfl
  · simp only [Cluster.serve]
    split
    · exact .inl rfl
    · split_ifs with hu
      · exact .inr ⟨_, ‹_›, hu.1, rfl⟩
      · exact .inl rfl

theorem updateStatus_ok {fl fl' : FeedListener}
    (h : s.answer f (.updateStatus fl) = (.ok fl', s')) :
    ∃ cur, s.feeds.lookup fl.name = some cur ∧ cur.uid = fl.uid ∧
      fl' = { cur with status := fl.status, resourceVersion := s.revision + 1 } ∧ s' = s.setFeed fl' := by
  have hs := answer_ok h id
  simp only [Cluster.serve] at hs
  split at hs
  · cases hs
  · split_ifs at hs with hu
    · cases hs
      exact ⟨_, ‹_›, hu.1, rfl, rfl⟩
    · cases hs

theorem updateFeed_effect {fl : FeedListener} {r : Answer (.updateFeed fl)}
    (h : s.answer f (.updateFeed fl) = (r, s')) :
    s' = s ∨ ∃ cur, s.feeds.lookup fl.name = some cur ∧ cur.uid = fl.uid ∧
      ((s' = s.setFeed (s.mergeFeed cur fl)) ∨
        (cur.deletionTimestamp = true ∧ fl.finalizers = [] ∧ s' = s.dropFeed fl.name)) := by
  rcases answer_effect h with rfl | rfl
  · exact .inl rfl
  · simp only [Cluster.serve]
    split
    · exact .inl rfl
    · rename_i cur hl
      split_ifs with hu hd
      · exact .inr ⟨cur, hl, hu.1, .inr ⟨hd.1, hd.2, rfl⟩⟩
      · exact .inr ⟨cur, hl, hu.1, .inl rfl⟩
      · exact .inl rfl

theorem updateFeed_ok {fl fl' : FeedListener} (h : s.answer f (.updateFeed fl) = (.ok fl', s')) :
    ∃ cur, s.feeds.lookup fl.name = some cur ∧ cur.uid = fl.uid ∧ fl' = s.mergeFeed cur fl := by
  have hs := answer_ok h id
  simp only [Cluster.serve] at hs
  split at hs
  · cases hs
  · split_ifs at hs with hu hd
    · cases hs
      exact ⟨_, ‹_›, hu.1, rfl⟩
    · cases hs
      exact ⟨_, ‹_›, hu.1, rfl⟩
    · cases hs

end EliteEvents

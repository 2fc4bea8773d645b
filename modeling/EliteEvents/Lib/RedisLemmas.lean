import EliteEvents.Lib.Redis

/-! What each command does to each observable of the keyspace: the frame rule, the
lookups after a write, and the four quantities that commands only ever add to (hash
counters, string counters, set membership, incremented scores). -/

namespace Redis

open Text

theorem dlookup_filter {α : Type*} {β : Type*} [DecidableEq α] (p : β → Bool) (k : α)
    (l : List (Sigma fun _ : α => β)) (h : l.NodupKeys) :
    (l.filter fun e => p e.2).dlookup k = (l.dlookup k).filter p := by
  induction l with
  | nil => rfl
  | cons e l ih =>
    obtain ⟨k', v⟩ := e
    rw [List.nodupKeys_cons] at h
    have ih := ih h.2
    by_cases hk : k = k'
    · subst hk
      cases hp : p v with
      | true => simp [hp, Option.filter]
      | false =>
        have hn : l.dlookup k = none := List.dlookup_eq_none.mpr h.1
        simp [hp, ih, hn, Option.filter]
    · have hne : ∀ l' : List (Sigma fun _ : α => β), List.dlookup k (⟨k', v⟩ :: l') = l'.dlookup k :=
        fun l' => List.dlookup_cons_ne l' ⟨k', v⟩ hk
      cases hp : p v with
      | true => rw [List.filter_cons_of_pos (by simpa using hp), hne, hne, ih]
      | false => rw [List.filter_cons_of_neg (by simpa using hp), hne, ih]

namespace Store

theorem lookup_purge (now : Time) (σ : Store) (k : Str) :
    (σ.purge now).lookup k = (σ.lookup k).filter fun e => !e.lapsed now :=
  dlookup_filter (fun e : Entry => !e.lapsed now) k σ.entries σ.nodupKeys

theorem lookup_put_self (σ : Store) (k : Str) {v : Value} (hv : v.isEmpty = false) :
    (σ.put k v).lookup k = some ⟨v, (σ.lookup k).bind Entry.expiry⟩ := by
  simp [put, hv]

theorem lookup_put_ne (σ : Store) {k k' : Str} (h : k' ≠ k) (v : Value) :
    (σ.put k v).lookup k' = σ.lookup k' := by
  unfold put
  split_ifs
  · exact AList.lookup_erase_ne h
  · exact AList.lookup_insert_ne h

theorem val_put_self (σ : Store) (k : Str) (v : Value) :
    (σ.put k v).val k = if v.isEmpty then none else some v := by
  unfold val put
  split_ifs <;> simp

theorem val_put_ne (σ : Store) {k k' : Str} (h : k' ≠ k) (v : Value) :
    (σ.put k v).val k' = σ.val k' := by
  rw [val, lookup_put_ne σ h, val]

/-- An empty aggregate reads like a missing key, so a stored value is read as it was put. -/
theorem hget_put (σ : Store) (k : Str) (v : Value) (f : Str) : (σ.put k v).hget k f = v.hget f := by
  rw [hget, val_put_self]
  split_ifs with he
  · cases v with
    | str s => rfl
    | zset z => rfl
    | hash h =>
      have hn : h.entries = [] := by simpa [Value.isEmpty] using he
      simp [Value.hget, AList.lookup, hn]
  · rfl

theorem zscore_put (σ : Store) (k : Str) (v : Value) (m : Str) :
    (σ.put k v).zscore k m = v.zscore m := by
  rw [zscore, val_put_self]
  split_ifs with he
  · cases v with
    | str s => rfl
    | hash h => rfl
    | zset z =>
      have hn : z.entries = [] := by simpa [Value.isEmpty] using he
      simp [Value.zscore, AList.lookup, hn]
  · rfl

theorem counter_put (σ : Store) (k : Str) (v : Value) : (σ.put k v).counter k = v.counter := by
  rw [counter, val_put_self]
  split_ifs with he
  · cases v with
    | str s => exact absurd he (by simp [Value.isEmpty])
    | hash h => rfl
    | zset z => rfl
  · rfl

/-- A key that opens as a hash is missing or a hash. -/
theorem hash_ok {σ : Store} {k : Str} {h : Hash} (hh : σ.hash k = .ok h) :
    (∀ f, σ.hget k f = h.lookup f) ∧ (∀ m, σ.zscore k m = none) ∧ σ.counter k = 0 := by
  unfold hash at hh
  unfold hget zscore counter
  cases hv : σ.val k with
  | none =>
    rw [hv] at hh
    cases hh
    exact ⟨fun _ => rfl, fun _ => rfl, rfl⟩
  | some v =>
    rw [hv] at hh
    cases v with
    | hash h' => cases hh; exact ⟨fun _ => rfl, fun _ => rfl, rfl⟩
    | str s => cases hh
    | zset z => cases hh

theorem zset_ok {σ : Store} {k : Str} {z : ZSet} (hz : σ.zset k = .ok z) :
    (∀ m, σ.zscore k m = z.lookup m) ∧ (∀ f, σ.hget k f = none) ∧ σ.counter k = 0 := by
  unfold zset at hz
  unfold hget zscore counter
  cases hv : σ.val k with
  | none =>
    rw [hv] at hz
    cases hz
    exact ⟨fun _ => rfl, fun _ => rfl, rfl⟩
  | some v =>
    rw [hv] at hz
    cases v with
    | zset z' => cases hz; exact ⟨fun _ => rfl, fun _ => rfl, rfl⟩
    | str s => cases hz
    | hash h => cases hz

end Store

theorem lookup_addFields_of_notMem (h : Hash) (fs : List (Str × Str)) {f : Str}
    (hf : f ∉ fs.map Prod.fst) : (addFields h fs).lookup f = h.lookup f := by
  unfold addFields
  induction fs generalizing h with
  | nil => rfl
  | cons p fs ih =>
    simp only [List.map_cons, List.mem_cons, not_or] at hf
    rw [List.foldl_cons, ih _ hf.2, AList.lookup_insert_ne hf.1]

theorem mem_addFields (h : Hash) (fs : List (Str × Str)) (f : Str) :
    f ∈ addFields h fs ↔ f ∈ h ∨ f ∈ fs.map Prod.fst := by
  unfold addFields
  induction fs generalizing h with
  | nil => simp
  | cons p fs ih =>
    rw [List.foldl_cons, ih, AList.mem_insert, List.map_cons, List.mem_cons]
    tauto

theorem mem_addMembers (z : ZSet) (es : List (Str × ℤ)) (m : Str) :
    m ∈ addMembers z es ↔ m ∈ z ∨ m ∈ es.map Prod.fst := by
  unfold addMembers
  induction es generalizing z with
  | nil => simp
  | cons p es ih =>
    rw [List.foldl_cons, ih, AList.mem_insert, List.map_cons, List.mem_cons]
    tauto

theorem mem_eraseMembers (z : ZSet) (ms : List Str) (m : Str) :
    m ∈ eraseMembers z ms ↔ m ∈ z ∧ m ∉ ms := by
  unfold eraseMembers
  induction ms generalizing z with
  | nil => simp
  | cons m' ms ih =>
    rw [List.foldl_cons, ih, AList.mem_erase, List.mem_cons]
    tauto

/-- The key whose value a command adds to. -/
def Cmd.target : Cmd → Option Str
  | .incr k | .hincrby k _ _ | .hset k _ | .zadd k _ | .zincrby k _ _ => some k
  | .zrem _ _ | .expire _ _ | .expireAt _ _ | .set _ _ _ | .del _ => none

/-- At `K` the command takes nothing away: it neither removes members, replaces the value,
deletes the key nor makes it lapse. -/
def Cmd.OnlyAdds (now : Time) (K : Str) : Cmd → Prop
  | .incr _ | .hincrby _ _ _ | .hset _ _ | .zadd _ _ | .zincrby _ _ _ | .expire _ _ => True
  | .expireAt k deadline => k = K → now < deadline
  | .zrem k _ | .set k _ _ => k ≠ K
  | .del ks => K ∉ ks

theorem map_ok {α β : Type} {x : Except Error α} {f : α → β} {y : β} (h : x.map f = .ok y) :
    ∃ a, x = .ok a ∧ f a = y := by
  cases x with
  | error e => cases h
  | ok a => exact ⟨a, rfl, by simpa [Except.map] using h⟩

/-- INCR writes the counter one higher, on a missing key or on an integer string. -/
theorem incr_ok {now : Time} {k : Str} {σ σ' : Store} (h : (Cmd.incr k).run now σ = .ok σ') :
    (∀ f, σ.hget k f = none) ∧ (∀ m, σ.zscore k m = none) ∧
      σ' = σ.put k (.str (Decimal.text (σ.counter k + 1))) := by
  simp only [Cmd.run] at h
  unfold Store.hget Store.zscore Store.counter
  cases hv : σ.val k with
  | none =>
    rw [hv] at h
    cases h
    exact ⟨fun _ => rfl, fun _ => rfl, rfl⟩
  | some v =>
    rw [hv] at h
    cases v with
    | hash hs => cases h
    | zset z => cases h
    | str s =>
      simp only at h
      cases ht : Decimal.ofText s with
      | none => rw [ht] at h; cases h
      | some n =>
        rw [ht] at h
        cases h
        exact ⟨fun _ => rfl, fun _ => rfl, by simp [Value.counter, ht]⟩

theorem hincrby_ok {now : Time} {k f : Str} {n : ℤ} {σ σ' : Store}
    (h : (Cmd.hincrby k f n).run now σ = .ok σ') :
    ∃ hs, σ.hash k = .ok hs ∧
      σ' = σ.put k (.hash (hs.insert f (Decimal.text (σ.hcount k f + n)))) := by
  simp only [Cmd.run] at h
  cases hh : σ.hash k with
  | error e => rw [hh] at h; cases h
  | ok hs =>
    refine ⟨hs, rfl, ?_⟩
    rw [hh] at h
    rw [Store.hcount, (Store.hash_ok hh).1 f]
    simp only at h
    cases hl : hs.lookup f with
    | none => rw [hl] at h; cases h; simp
    | some s =>
      rw [hl] at h
      simp only at h
      cases ht : Decimal.ofText s with
      | none => rw [ht] at h; cases h
      | some m => rw [ht] at h; cases h; simp [ht]

theorem val_insert_expiry {σ : Store} {k : Str} {e : Entry} (he : σ.lookup k = some e)
    (d : Option Time) (K : Str) : Store.val (σ.insert k { e with expiry := d }) K = σ.val K := by
  unfold Store.val
  by_cases hk : K = k
  · subst hk; simp [he]
  · rw [AList.lookup_insert_ne hk]

theorem val_foldl_erase {σ : Store} {ks : List Str} {K : Str} (h : K ∉ ks) :
    Store.val (ks.foldl (fun σ k => σ.erase k) σ) K = σ.val K := by
  induction ks generalizing σ with
  | nil => rfl
  | cons k ks ih =>
    rw [List.mem_cons, not_or] at h
    rw [List.foldl_cons, ih h.2, Store.val, AList.lookup_erase_ne h.1, Store.val]

/-- A command that adds to no value, or to another key, keeps the value at `K`. -/
theorem run_val_of_target_ne {now : Time} {c : Cmd} {σ σ' : Store} {K : Str}
    (h : c.run now σ = .ok σ') (hadd : c.OnlyAdds now K) (ht : c.target ≠ some K) :
    σ'.val K = σ.val K := by
  have hne : ∀ {k : Str}, some k ≠ some K → K ≠ k := fun hk e => hk (by rw [e])
  cases c with
  | incr k => rw [(incr_ok h).2.2, Store.val_put_ne σ (hne ht)]
  | hincrby k f n =>
    obtain ⟨hs, -, rfl⟩ := hincrby_ok h
    exact Store.val_put_ne σ (hne ht) _
  | hset k fs =>
    obtain ⟨hs, -, rfl⟩ := map_ok h
    exact Store.val_put_ne σ (hne ht) _
  | zadd k es =>
    obtain ⟨z, -, rfl⟩ := map_ok h
    exact Store.val_put_ne σ (hne ht) _
  | zincrby k n m =>
    obtain ⟨z, -, rfl⟩ := map_ok h
    exact Store.val_put_ne σ (hne ht) _
  | zrem k ms =>
    obtain ⟨z, -, rfl⟩ := map_ok h
    exact Store.val_put_ne σ (Ne.symm hadd) _
  | expire k ttl =>
    simp only [Cmd.run, Except.ok.injEq] at h
    subst h
    split
    · rfl
    · rename_i e he; exact val_insert_expiry he _ K
  | expireAt k deadline =>
    simp only [Cmd.run, Except.ok.injEq] at h
    subst h
    split
    · rfl
    · rename_i e he
      split_ifs with hd
      · have hk : K ≠ k := fun hk => not_lt.mpr hd (hadd hk.symm)
        rw [Store.val, AList.lookup_erase_ne hk, Store.val]
      · exact val_insert_expiry he _ K
  | set k v ttl =>
    simp only [Cmd.run, Except.ok.injEq] at h
    subst h
    rw [Store.val, AList.lookup_insert_ne (Ne.symm hadd), Store.val]
  | del ks =>
    simp only [Cmd.run, Except.ok.injEq] at h
    subst h
    exact val_foldl_erase hadd

/-- What a successful command that takes nothing away at `K` does to the value at `K`:
nothing, or one of the five additions. -/
theorem run_adds {now : Time} {c : Cmd} {σ σ' : Store} {K : Str} (h : c.run now σ = .ok σ')
    (hadd : c.OnlyAdds now K) :
    (c.target ≠ some K ∧ σ'.val K = σ.val K) ∨
    (c = .incr K ∧ (∀ f, σ.hget K f = none) ∧ (∀ m, σ.zscore K m = none) ∧
      σ' = σ.put K (.str (Decimal.text (σ.counter K + 1)))) ∨
    (∃ f n hs, c = .hincrby K f n ∧ σ.hash K = .ok hs ∧
      σ' = σ.put K (.hash (hs.insert f (Decimal.text (σ.hcount K f + n))))) ∨
    (∃ fs hs, c = .hset K fs ∧ σ.hash K = .ok hs ∧ σ' = σ.put K (.hash (addFields hs fs))) ∨
    (∃ es z, c = .zadd K es ∧ σ.zset K = .ok z ∧ σ' = σ.put K (.zset (addMembers z es))) ∨
    (∃ n m z, c = .zincrby K n m ∧ σ.zset K = .ok z ∧
      σ' = σ.put K (.zset (z.insert m ((z.lookup m).getD 0 + n)))) := by
  by_cases ht : c.target = some K
  · right
    cases c with
    | incr k => cases ht; exact .inl ⟨rfl, incr_ok h⟩
    | hincrby k f n =>
      cases ht
      obtain ⟨hs, hh, hp⟩ := hincrby_ok h
      exact .inr (.inl ⟨f, n, hs, rfl, hh, hp⟩)
    | hset k fs =>
      cases ht
      obtain ⟨hs, hh, hp⟩ := map_ok h
      exact .inr (.inr (.inl ⟨fs, hs, rfl, hh, hp.symm⟩))
    | zadd k es =>
      cases ht
      obtain ⟨z, hz, hp⟩ := map_ok h
      exact .inr (.inr (.inr (.inl ⟨es, z, rfl, hz, hp.symm⟩)))
    | zincrby k n m =>
      cases ht
      obtain ⟨z, hz, hp⟩ := map_ok h
      exact .inr (.inr (.inr (.inr ⟨n, m, z, rfl, hz, hp.symm⟩)))
    | zrem k ms => cases ht
    | expire k ttl => cases ht
    | expireAt k deadline => cases ht
    | set k v ttl => cases ht
    | del ks => cases ht
  · exact .inl ⟨ht, run_val_of_target_ne h hadd ht⟩

/-! The four quantities, with what one command adds to each. -/

def Cmd.hashAdds (K f : Str) : Cmd → ℤ
  | .hincrby k f' n => if k = K ∧ f' = f then n else 0
  | _ => 0

def Cmd.counterAdds (K : Str) : Cmd → ℤ
  | .incr k => if k = K then 1 else 0
  | _ => 0

def Cmd.scoreAdds (K m : Str) : Cmd → ℤ
  | .zincrby k n m' => if k = K ∧ m' = m then n else 0
  | _ => 0

def Cmd.AddsMember (K m : Str) : Cmd → Prop
  | .zadd k es => k = K ∧ m ∈ es.map Prod.fst
  | .zincrby k _ m' => k = K ∧ m' = m
  | _ => False

/-- The command does not overwrite the field by HSET. -/
def Cmd.KeepsField (K f : Str) : Cmd → Prop
  | .hset k fs => k = K → f ∉ fs.map Prod.fst
  | _ => True

theorem hashAdds_of_target_ne {c : Cmd} {K : Str} (h : c.target ≠ some K) (f : Str) :
    c.hashAdds K f = 0 := by
  cases c with
  | hincrby k f' n =>
    have hk : k ≠ K := fun e => h (by rw [e]; rfl)
    simp [Cmd.hashAdds, hk]
  | _ => rfl

theorem counterAdds_of_target_ne {c : Cmd} {K : Str} (h : c.target ≠ some K) :
    c.counterAdds K = 0 := by
  cases c with
  | incr k =>
    have hk : k ≠ K := fun e => h (by rw [e]; rfl)
    simp [Cmd.counterAdds, hk]
  | _ => rfl

theorem scoreAdds_of_target_ne {c : Cmd} {K : Str} (h : c.target ≠ some K) (m : Str) :
    c.scoreAdds K m = 0 := by
  cases c with
  | zincrby k n m' =>
    have hk : k ≠ K := fun e => h (by rw [e]; rfl)
    simp [Cmd.scoreAdds, hk]
  | _ => rfl

theorem not_addsMember_of_target_ne {c : Cmd} {K : Str} (h : c.target ≠ some K) (m : Str) :
    ¬ c.AddsMember K m := by
  cases c with
  | zadd k es => exact fun hm => h (by rw [← hm.1]; rfl)
  | zincrby k n m' => exact fun hm => h (by rw [← hm.1]; rfl)
  | _ => exact id

theorem hcount_run {now : Time} {c : Cmd} {σ σ' : Store} {K f : Str} (h : c.run now σ = .ok σ')
    (hadd : c.OnlyAdds now K) (hkeep : c.KeepsField K f) :
    σ'.hcount K f = σ.hcount K f + c.hashAdds K f := by
  rcases run_adds h hadd with ⟨ht, hv⟩ | ⟨rfl, hn, -, rfl⟩ | ⟨f', n, hs, rfl, hh, rfl⟩ |
    ⟨fs, hs, rfl, hh, rfl⟩ | ⟨es, z, rfl, hz, rfl⟩ | ⟨n, m, z, rfl, hz, rfl⟩
  · rw [hashAdds_of_target_ne ht, add_zero, Store.hcount, Store.hget, hv, ← Store.hget, Store.hcount]
  · simp [Store.hcount, Store.hget_put, Value.hget, hn, Cmd.hashAdds]
  · rw [Store.hcount, Store.hget_put]
    by_cases hf : f = f'
    · subst hf; simp [Value.hget, Cmd.hashAdds]
    · rw [Value.hget, AList.lookup_insert_ne hf, ← (Store.hash_ok hh).1 f, ← Store.hcount]
      simp [Cmd.hashAdds, Ne.symm hf]
  · rw [Store.hcount, Store.hget_put, Value.hget, lookup_addFields_of_notMem hs fs (hkeep rfl),
      ← (Store.hash_ok hh).1 f, ← Store.hcount]
    exact (add_zero _).symm
  · simp [Store.hcount, Store.hget_put, Value.hget, (Store.zset_ok hz).2.1, Cmd.hashAdds]
  · simp [Store.hcount, Store.hget_put, Value.hget, (Store.zset_ok hz).2.1, Cmd.hashAdds]

theorem counter_run {now : Time} {c : Cmd} {σ σ' : Store} {K : Str} (h : c.run now σ = .ok σ')
    (hadd : c.OnlyAdds now K) : σ'.counter K = σ.counter K + c.counterAdds K := by
  rcases run_adds h hadd with ⟨ht, hv⟩ | ⟨rfl, -, -, rfl⟩ | ⟨f', n, hs, rfl, hh, rfl⟩ |
    ⟨fs, hs, rfl, hh, rfl⟩ | ⟨es, z, rfl, hz, rfl⟩ | ⟨n, m, z, rfl, hz, rfl⟩
  · rw [counterAdds_of_target_ne ht, add_zero, Store.counter, hv, ← Store.counter]
  · simp [Store.counter_put, Value.counter, Cmd.counterAdds]
  · simp [Store.counter_put, Value.counter, (Store.hash_ok hh).2.2, Cmd.counterAdds]
  · simp [Store.counter_put, Value.counter, (Store.hash_ok hh).2.2, Cmd.counterAdds]
  · simp [Store.counter_put, Value.counter, (Store.zset_ok hz).2.2, Cmd.counterAdds]
  · simp [Store.counter_put, Value.counter, (Store.zset_ok hz).2.2, Cmd.counterAdds]

theorem isMember_run {now : Time} {c : Cmd} {σ σ' : Store} {K m : Str} (h : c.run now σ = .ok σ')
    (hadd : c.OnlyAdds now K) :
    (σ'.zscore K m).isSome ↔ (σ.zscore K m).isSome ∨ c.AddsMember K m := by
  rcases run_adds h hadd with ⟨ht, hv⟩ | ⟨rfl, -, hn, rfl⟩ | ⟨f', n, hs, rfl, hh, rfl⟩ |
    ⟨fs, hs, rfl, hh, rfl⟩ | ⟨es, z, rfl, hz, rfl⟩ | ⟨n, m', z, rfl, hz, rfl⟩
  · have := not_addsMember_of_target_ne ht m
    rw [Store.zscore, hv, ← Store.zscore]
    simp [this]
  · simp [Store.zscore_put, Value.zscore, hn, Cmd.AddsMember]
  · simp [Store.zscore_put, Value.zscore, (Store.hash_ok hh).2.1, Cmd.AddsMember]
  · simp [Store.zscore_put, Value.zscore, (Store.hash_ok hh).2.1, Cmd.AddsMember]
  · rw [Store.zscore_put, Value.zscore, AList.lookup_isSome, mem_addMembers,
      (Store.zset_ok hz).1, AList.lookup_isSome]
    simp [Cmd.AddsMember]
  · rw [Store.zscore_put, Value.zscore, AList.lookup_isSome, AList.mem_insert,
      (Store.zset_ok hz).1, AList.lookup_isSome]
    simp only [Cmd.AddsMember, true_and]
    constructor
    · rintro (rfl | hm)
      · exact .inr rfl
      · exact .inl hm
    · rintro (hm | rfl)
      · exact .inr hm
      · exact .inl rfl

theorem score_run {now : Time} {c : Cmd} {σ σ' : Store} {K m : Str} (h : c.run now σ = .ok σ')
    (hadd : c.OnlyAdds now K) (hz : ∀ es, c ≠ .zadd K es) :
    (σ'.zscore K m).getD 0 = (σ.zscore K m).getD 0 + c.scoreAdds K m := by
  rcases run_adds h hadd with ⟨ht, hv⟩ | ⟨rfl, -, hn, rfl⟩ | ⟨f', n, hs, rfl, hh, rfl⟩ |
    ⟨fs, hs, rfl, hh, rfl⟩ | ⟨es, z, rfl, -, -⟩ | ⟨n, m', z, rfl, hzs, rfl⟩
  · rw [scoreAdds_of_target_ne ht, add_zero, Store.zscore, hv, ← Store.zscore]
  · simp [Store.zscore_put, Value.zscore, hn, Cmd.scoreAdds]
  · simp [Store.zscore_put, Value.zscore, (Store.hash_ok hh).2.1, Cmd.scoreAdds]
  · simp [Store.zscore_put, Value.zscore, (Store.hash_ok hh).2.1, Cmd.scoreAdds]
  · exact absurd rfl (hz es)
  · rw [Store.zscore_put, Value.zscore, (Store.zset_ok hzs).1]
    by_cases hm : m = m'
    · subst hm; simp [Cmd.scoreAdds]
    · rw [AList.lookup_insert_ne hm]
      simp [Cmd.scoreAdds, Ne.symm hm]

theorem zmembers_nodup (σ : Store) (k : Str) : (σ.zmembers k).Nodup := by
  unfold Store.zmembers
  split
  · exact AList.keys_nodup _
  · exact List.nodup_nil

theorem Store.mem_zmembers (σ : Store) (k m : Str) : m ∈ σ.zmembers k ↔ (σ.zscore k m).isSome := by
  unfold Store.zmembers Store.zscore
  cases σ.val k with
  | none => simp
  | some v =>
    cases v with
    | str s => simp [Value.zscore]
    | hash h => simp [Value.zscore]
    | zset z => exact AList.lookup_isSome.symm

theorem Store.mem_keys {σ : Store} {k : Str} (h : (σ.val k).isSome) : k ∈ σ.keys := by
  rw [Store.val, Option.isSome_map] at h
  exact AList.mem_keys.mp (AList.lookup_isSome.mp h)

theorem entries_eq_nil {β : Type} (z : AList fun _ : Str => β) : z.entries = [] ↔ ∀ m, m ∉ z := by
  constructor
  · intro h m hm
    rw [AList.mem_keys, AList.keys, h] at hm
    cases hm
  · intro h
    cases he : z.entries with
    | nil => rfl
    | cons e es =>
      refine absurd ?_ (h e.1)
      rw [AList.mem_keys, AList.keys, he]
      exact List.mem_cons_self

theorem Value.isEmpty_zset (z : ZSet) : (Value.zset z).isEmpty = true ↔ ∀ m, m ∉ z := by
  rw [Value.isEmpty, List.isEmpty_iff, entries_eq_nil]

theorem Value.isEmpty_hash (h : Hash) : (Value.hash h).isEmpty = true ↔ ∀ f, f ∉ h := by
  rw [Value.isEmpty, List.isEmpty_iff, entries_eq_nil]

theorem Value.zset_nonempty {z : ZSet} {m : Str} (hm : m ∈ z) : (Value.zset z).isEmpty = false :=
  Bool.eq_false_iff.mpr fun he => (Value.isEmpty_zset z).mp he m hm

theorem Value.hash_nonempty {h : Hash} {f : Str} (hf : f ∈ h) : (Value.hash h).isEmpty = false :=
  Bool.eq_false_iff.mpr fun he => (Value.isEmpty_hash h).mp he f hf

theorem isEmpty_insert {h : Hash} {f s : Str} : (Value.hash (h.insert f s)).isEmpty = false :=
  Value.hash_nonempty ((AList.mem_insert _).mpr (.inl rfl))

theorem isEmpty_zset_insert {z : ZSet} {m : Str} {n : ℤ} : (Value.zset (z.insert m n)).isEmpty = false :=
  Value.zset_nonempty ((AList.mem_insert _).mpr (.inl rfl))

theorem isEmpty_addFields {h : Hash} {fs : List (Str × Str)} (hfs : fs ≠ []) :
    (Value.hash (addFields h fs)).isEmpty = false := by
  obtain ⟨p, fs, rfl⟩ := List.exists_cons_of_ne_nil hfs
  exact Value.hash_nonempty ((mem_addFields _ _ _).mpr (.inr List.mem_cons_self))

theorem isEmpty_addMembers {z : ZSet} {es : List (Str × ℤ)} (hes : es ≠ []) :
    (Value.zset (addMembers z es)).isEmpty = false := by
  obtain ⟨p, es, rfl⟩ := List.exists_cons_of_ne_nil hes
  exact Value.zset_nonempty ((mem_addMembers _ _ _).mpr (.inr List.mem_cons_self))

/-- The key a command may bring into being. -/
def Cmd.written : Cmd → Option Str
  | .set k _ _ => some k
  | c => c.target

/-- A key that exists after a command existed before it, or is the key it wrote. -/
theorem isSome_of_run {now : Time} {c : Cmd} {σ σ' : Store} {K : Str} (h : c.run now σ = .ok σ')
    (hw : c.written ≠ some K) (hs : (σ'.val K).isSome) : (σ.val K).isSome := by
  have hne : ∀ {k : Str}, some k ≠ some K → K ≠ k := fun hk e => hk (by rw [e])
  cases c with
  | incr k => rwa [(incr_ok h).2.2, Store.val_put_ne σ (hne hw)] at hs
  | hincrby k f n =>
    obtain ⟨hs', -, rfl⟩ := hincrby_ok h
    rwa [Store.val_put_ne σ (hne hw)] at hs
  | hset k fs =>
    obtain ⟨hs', -, rfl⟩ := map_ok h
    rwa [Store.val_put_ne σ (hne hw)] at hs
  | zadd k es =>
    obtain ⟨z, -, rfl⟩ := map_ok h
    rwa [Store.val_put_ne σ (hne hw)] at hs
  | zincrby k n m =>
    obtain ⟨z, -, rfl⟩ := map_ok h
    rwa [Store.val_put_ne σ (hne hw)] at hs
  | zrem k ms =>
    obtain ⟨z, hz, rfl⟩ := map_ok h
    by_cases hk : K = k
    · subst hk
      rw [Store.val_put_self] at hs
      cases hv : σ.val K with
      | some v => rfl
      | none =>
        -- a missing key opens as the empty set, and nothing is left of that
        rw [Store.zset, hv] at hz
        cases hz
        have he : (Value.zset (eraseMembers ∅ ms)).isEmpty = true := by
          rw [Value.isEmpty_zset]
          intro m hm
          exact AList.notMem_empty m ((mem_eraseMembers _ _ _).mp hm).1
        rw [if_pos he] at hs
        exact hs
    · rwa [Store.val_put_ne σ hk] at hs
  | expire k ttl =>
    simp only [Cmd.run, Except.ok.injEq] at h
    subst h
    split at hs
    · exact hs
    · rename_i e he; rwa [val_insert_expiry he] at hs
  | expireAt k deadline =>
    simp only [Cmd.run, Except.ok.injEq] at h
    subst h
    split at hs
    · exact hs
    · rename_i e he
      split_ifs at hs
      · by_cases hk : K = k
        · rw [hk, Store.val, AList.lookup_erase] at hs
          cases hs
        · rwa [Store.val, AList.lookup_erase_ne hk] at hs
      · rwa [val_insert_expiry he] at hs
  | set k v ttl =>
    simp only [Cmd.run, Except.ok.injEq] at h
    subst h
    rwa [Store.val, AList.lookup_insert_ne (hne hw)] at hs
  | del ks =>
    simp only [Cmd.run, Except.ok.injEq] at h
    subst h
    clear hw
    induction ks generalizing σ with
    | nil => exact hs
    | cons k ks ih =>
      have := ih hs
      by_cases hk : K = k
      · rw [hk, Store.val, AList.lookup_erase] at this
        cases this
      · rwa [Store.val, AList.lookup_erase_ne hk] at this

/-- The command carries at least one field or member. -/
def Cmd.Nonvoid : Cmd → Prop
  | .hset _ fs => fs ≠ []
  | .zadd _ es => es ≠ []
  | _ => True

/-- After a command that only adds at `K`, the key exists if it did or was the target. -/
theorem isSome_run {now : Time} {c : Cmd} {σ σ' : Store} {K : Str} (h : c.run now σ = .ok σ')
    (hadd : c.OnlyAdds now K) (hv : c.Nonvoid) (hs : (σ.val K).isSome ∨ c.target = some K) :
    (σ'.val K).isSome := by
  have hput : ∀ v : Value, v.isEmpty = false → ((σ.put K v).val K).isSome := by
    intro v hv
    rw [Store.val_put_self, hv]
    rfl
  rcases run_adds h hadd with ⟨ht, he⟩ | ⟨rfl, -, -, rfl⟩ | ⟨f', n, hs, rfl, hh, rfl⟩ |
    ⟨fs, hs, rfl, hh, rfl⟩ | ⟨es, z, rfl, hz, rfl⟩ | ⟨n, m, z, rfl, hz, rfl⟩
  · rw [he]
    exact hs.resolve_right ht
  · exact hput _ rfl
  · exact hput _ isEmpty_insert
  · exact hput _ (isEmpty_addFields hv)
  · exact hput _ (isEmpty_addMembers hv)
  · exact hput _ isEmpty_zset_insert

theorem isMember_zrem {now : Time} {k : Str} {ms : List Str} {σ σ' : Store}
    (h : (Cmd.zrem k ms).run now σ = .ok σ') (m : Str) :
    (σ'.zscore k m).isSome ↔ (σ.zscore k m).isSome ∧ m ∉ ms := by
  obtain ⟨z, hz, rfl⟩ := map_ok h
  rw [Store.zscore_put, Value.zscore, AList.lookup_isSome, mem_eraseMembers, (Store.zset_ok hz).1,
    AList.lookup_isSome]

/-! Deadlines. -/

/-- The key whose deadline a command sets. -/
def Cmd.timed : Cmd → Option Str
  | .expire k _ | .expireAt k _ | .set k _ _ => some k
  | _ => none

theorem Store.deadline_put (σ : Store) (k : Str) (v : Value) {K : Str} (h : σ.deadline K = none) :
    (σ.put k v).deadline K = none := by
  by_cases hk : K = k
  · subst hk
    unfold put
    split_ifs
    · rw [deadline, AList.lookup_erase]
      rfl
    · rw [deadline, AList.lookup_insert]
      exact h
  · rw [deadline, lookup_put_ne σ hk]
    exact h

/-- A key without a deadline keeps having none, unless a command sets it. -/
theorem deadline_run {now : Time} {c : Cmd} {σ σ' : Store} {K : Str} (h : c.run now σ = .ok σ')
    (ht : c.timed ≠ some K) (hd : σ.deadline K = none) : σ'.deadline K = none := by
  have hne : ∀ {k : Str}, some k ≠ some K → K ≠ k := fun hk e => hk (by rw [e])
  have herase : ∀ {k : Str}, Store.deadline (σ.erase k) K = none := by
    intro k
    by_cases hk : K = k
    · rw [hk, Store.deadline, AList.lookup_erase]
      rfl
    · rw [Store.deadline, AList.lookup_erase_ne hk]
      exact hd
  cases c with
  | incr k => rw [(incr_ok h).2.2]; exact Store.deadline_put σ k _ hd
  | hincrby k f n =>
    obtain ⟨hs, -, rfl⟩ := hincrby_ok h
    exact Store.deadline_put σ k _ hd
  | hset k fs =>
    obtain ⟨hs, -, rfl⟩ := map_ok h
    exact Store.deadline_put σ k _ hd
  | zadd k es =>
    obtain ⟨z, -, rfl⟩ := map_ok h
    exact Store.deadline_put σ k _ hd
  | zincrby k n m =>
    obtain ⟨z, -, rfl⟩ := map_ok h
    exact Store.deadline_put σ k _ hd
  | zrem k ms =>
    obtain ⟨z, -, rfl⟩ := map_ok h
    exact Store.deadline_put σ k _ hd
  | expire k ttl =>
    simp only [Cmd.run, Except.ok.injEq] at h
    subst h
    split
    · exact hd
    · rw [Store.deadline, AList.lookup_insert_ne (hne ht)]
      exact hd
  | expireAt k d =>
    simp only [Cmd.run, Except.ok.injEq] at h
    subst h
    split
    · exact hd
    · split_ifs
      · exact herase
      · rw [Store.deadline, AList.lookup_insert_ne (hne ht)]
        exact hd
  | set k v ttl =>
    simp only [Cmd.run, Except.ok.injEq] at h
    subst h
    rw [Store.deadline, AList.lookup_insert_ne (hne ht)]
    exact hd
  | del ks =>
    simp only [Cmd.run, Except.ok.injEq] at h
    subst h
    clear herase ht
    induction ks generalizing σ with
    | nil => exact hd
    | cons k ks ih =>
      refine ih ?_
      by_cases hk : K = k
      · rw [hk, Store.deadline, AList.lookup_erase]
        rfl
      · rw [Store.deadline, AList.lookup_erase_ne hk]
        exact hd

theorem Store.val_purge_of_deadline {σ : Store} {K : Str} (h : σ.deadline K = none) (now : Time) :
    (σ.purge now).val K = σ.val K ∧ (σ.purge now).deadline K = none := by
  unfold Store.val Store.deadline at *
  rw [lookup_purge]
  cases hl : σ.lookup K with
  | none => exact ⟨rfl, rfl⟩
  | some e =>
    rw [hl] at h
    have he : e.expiry = none := h
    simp [Entry.lapsed, he]

theorem Store.isSome_of_purge {σ : Store} {K : Str} {now : Time} (h : ((σ.purge now).val K).isSome) :
    (σ.val K).isSome := by
  unfold Store.val at *
  rw [lookup_purge] at h
  cases hl : σ.lookup K with
  | none => rw [hl] at h; cases h
  | some e => rfl

/-! A batch runs at one instant: after its first command nothing lapses any more. -/

/-- No key has lapsed at `now`. -/
def Store.Fresh (now : Time) (σ : Store) : Prop :=
  ∀ k e, σ.lookup k = some e → e.lapsed now = false

theorem Store.fresh_purge (now : Time) (σ : Store) : (σ.purge now).Fresh now := by
  intro k e he
  rw [lookup_purge, Option.filter_eq_some_iff] at he
  simpa using he.2

theorem Store.Fresh.purge_eq {now : Time} {σ : Store} (h : σ.Fresh now) : σ.purge now = σ := by
  refine AList.ext ?_
  refine List.filter_eq_self.mpr fun p hp => ?_
  rw [h p.1 p.2 (AList.mem_lookup_iff.mpr hp)]
  rfl

theorem Store.Fresh.insert {now : Time} {σ : Store} (h : σ.Fresh now) (k : Str) {e : Entry}
    (he : e.lapsed now = false) : Store.Fresh now (AList.insert k e σ) := by
  intro k' e' hl
  by_cases hk : k' = k
  · subst hk
    rw [AList.lookup_insert] at hl
    cases hl
    exact he
  · rw [AList.lookup_insert_ne hk] at hl
    exact h k' e' hl

theorem Store.Fresh.erase {now : Time} {σ : Store} (h : σ.Fresh now) (k : Str) :
    Store.Fresh now (AList.erase k σ) := by
  intro k' e' hl
  by_cases hk : k' = k
  · subst hk
    rw [AList.lookup_erase] at hl
    cases hl
  · rw [AList.lookup_erase_ne hk] at hl
    exact h k' e' hl

theorem Store.Fresh.put {now : Time} {σ : Store} (h : σ.Fresh now) (k : Str) (v : Value) :
    (σ.put k v).Fresh now := by
  unfold Store.put
  split_ifs
  · exact h.erase k
  · refine h.insert k ?_
    cases hl : σ.lookup k with
    | none => rfl
    | some e =>
      have := h k e hl
      simpa [Entry.lapsed] using this

theorem Store.Fresh.run {now : Time} {c : Cmd} {σ σ' : Store} (h : σ.Fresh now)
    (hr : c.run now σ = .ok σ') : σ'.Fresh now := by
  have hlate : ∀ (v : Value) (d : Time), now ≤ d → Entry.lapsed now ⟨v, some d⟩ = false :=
    fun v d hd => decide_eq_false (not_lt.mpr hd)
  cases c with
  | incr k => rw [(incr_ok hr).2.2]; exact h.put k _
  | hincrby k f n =>
    obtain ⟨hs, -, rfl⟩ := hincrby_ok hr
    exact h.put k _
  | hset k fs =>
    obtain ⟨hs, -, rfl⟩ := map_ok hr
    exact h.put k _
  | zadd k es =>
    obtain ⟨z, -, rfl⟩ := map_ok hr
    exact h.put k _
  | zincrby k n m =>
    obtain ⟨z, -, rfl⟩ := map_ok hr
    exact h.put k _
  | zrem k ms =>
    obtain ⟨z, -, rfl⟩ := map_ok hr
    exact h.put k _
  | expire k ttl =>
    simp only [Cmd.run, Except.ok.injEq] at hr
    subst hr
    split
    · exact h
    · exact h.insert k (hlate _ _ (Nat.le_add_right _ _))
  | expireAt k d =>
    simp only [Cmd.run, Except.ok.injEq] at hr
    subst hr
    split
    · exact h
    · split_ifs with hd
      · exact h.erase k
      · exact h.insert k (hlate _ _ (not_le.mp hd).le)
  | set k v ttl =>
    simp only [Cmd.run, Except.ok.injEq] at hr
    subst hr
    cases ttl with
    | none => exact h.insert k rfl
    | some d => exact h.insert k (hlate _ _ (Nat.le_add_right _ _))
  | del ks =>
    simp only [Cmd.run, Except.ok.injEq] at hr
    subst hr
    induction ks generalizing σ with
    | nil => exact h
    | cons k ks ih => exact ih (h.erase k)

theorem Cmd.exec_eq_apply {now : Time} {σ : Store} (h : σ.Fresh now) (c : Cmd) :
    c.exec now σ = c.apply now σ := by
  rw [Cmd.exec, h.purge_eq]

theorem applyAll_append (cs ds : List (Time × Cmd)) (σ : Store) :
    applyAll (cs ++ ds) σ = applyAll ds (applyAll cs σ) := List.foldl_append

/-- The first command drops the lapsed keys. -/
theorem execAll_purge (now : Time) (c : Cmd) (cs : List Cmd) (σ : Store) :
    execAll now (c :: cs) σ = execAll now (c :: cs) (σ.purge now) := by
  rw [execAll, execAll, List.foldl_cons, List.foldl_cons, Cmd.exec, Cmd.exec,
    (Store.fresh_purge now σ).purge_eq]

/-! What the commands leave at their key, deadline included. -/

theorem lookup_hincrby {now : Time} {k f : Str} {n : ℤ} {σ σ' : Store}
    (h : (Cmd.hincrby k f n).run now σ = .ok σ') :
    ∃ hs, σ.hash k = .ok hs ∧
      σ'.lookup k = some ⟨.hash (hs.insert f (Decimal.text (σ.hcount k f + n))), σ.deadline k⟩ ∧
      ∀ K, K ≠ k → σ'.lookup K = σ.lookup K := by
  obtain ⟨hs, hh, rfl⟩ := hincrby_ok h
  exact ⟨hs, hh, Store.lookup_put_self σ k isEmpty_insert, fun K hK => Store.lookup_put_ne σ hK _⟩

theorem lookup_hset {now : Time} {k : Str} {fs : List (Str × Str)} (hne : fs ≠ []) {σ σ' : Store}
    (h : (Cmd.hset k fs).run now σ = .ok σ') :
    ∃ hs, σ.hash k = .ok hs ∧ σ'.lookup k = some ⟨.hash (addFields hs fs), σ.deadline k⟩ ∧
      ∀ K, K ≠ k → σ'.lookup K = σ.lookup K := by
  obtain ⟨hs, hh, rfl⟩ := map_ok h
  exact ⟨hs, hh, Store.lookup_put_self σ k (isEmpty_addFields hne), fun K hK => Store.lookup_put_ne σ hK _⟩

theorem lookup_zadd {now : Time} {k : Str} {es : List (Str × ℤ)} (hne : es ≠ []) {σ σ' : Store}
    (h : (Cmd.zadd k es).run now σ = .ok σ') :
    ∃ z, σ.zset k = .ok z ∧ σ'.lookup k = some ⟨.zset (addMembers z es), σ.deadline k⟩ ∧
      ∀ K, K ≠ k → σ'.lookup K = σ.lookup K := by
  obtain ⟨z, hz, rfl⟩ := map_ok h
  exact ⟨z, hz, Store.lookup_put_self σ k (isEmpty_addMembers hne), fun K hK => Store.lookup_put_ne σ hK _⟩

theorem lookup_zincrby {now : Time} {k : Str} {n : ℤ} {m : Str} {σ σ' : Store}
    (h : (Cmd.zincrby k n m).run now σ = .ok σ') :
    ∃ z, σ.zset k = .ok z ∧
      σ'.lookup k = some ⟨.zset (z.insert m ((z.lookup m).getD 0 + n)), σ.deadline k⟩ ∧
      ∀ K, K ≠ k → σ'.lookup K = σ.lookup K := by
  obtain ⟨z, hz, rfl⟩ := map_ok h
  exact ⟨z, hz, Store.lookup_put_self σ k isEmpty_zset_insert, fun K hK => Store.lookup_put_ne σ hK _⟩

theorem lookup_expire {now : Time} {k : Str} {ttl : Time} {σ σ' : Store} {e : Entry}
    (h : (Cmd.expire k ttl).run now σ = .ok σ') (he : σ.lookup k = some e) :
    σ'.lookup k = some { e with expiry := some (now + ttl) } ∧
      ∀ K, K ≠ k → σ'.lookup K = σ.lookup K := by
  simp only [Cmd.run, he, Except.ok.injEq] at h
  subst h
  exact ⟨AList.lookup_insert _, fun K hK => AList.lookup_insert_ne hK⟩

theorem lookup_expireAt {now : Time} {k : Str} {deadline : Time} {σ σ' : Store} {e : Entry}
    (h : (Cmd.expireAt k deadline).run now σ = .ok σ') (he : σ.lookup k = some e) :
    σ'.lookup k = (if deadline ≤ now then none else some { e with expiry := some deadline }) ∧
      ∀ K, K ≠ k → σ'.lookup K = σ.lookup K := by
  simp only [Cmd.run, he, Except.ok.injEq] at h
  subst h
  split_ifs
  · exact ⟨AList.lookup_erase _ _, fun K hK => AList.lookup_erase_ne hK⟩
  · exact ⟨AList.lookup_insert _, fun K hK => AList.lookup_insert_ne hK⟩

theorem Store.zset_of_lookup {σ : Store} {k : Str} {z : ZSet} {d : Option Time}
    (hl : σ.lookup k = some ⟨.zset z, d⟩) : σ.zset k = .ok z := by
  rw [Store.zset, Store.val, hl]
  rfl

theorem Store.zset_of_missing {σ : Store} {k : Str} (hl : σ.lookup k = none) : σ.zset k = .ok ∅ := by
  rw [Store.zset, Store.val, hl]
  rfl

theorem Store.hash_of_lookup {σ : Store} {k : Str} {h : Hash} {d : Option Time}
    (hl : σ.lookup k = some ⟨.hash h, d⟩) : σ.hash k = .ok h := by
  rw [Store.hash, Store.val, hl]
  rfl

theorem Store.zset_congr {σ σ' : Store} {k : Str} (h : σ'.lookup k = σ.lookup k) :
    σ'.zset k = σ.zset k := by
  rw [Store.zset, Store.zset, Store.val, Store.val, h]

/-! What a command does to existence and deadlines. -/

section Effects

variable {now : Time} {σ σ' : Store} {c : Cmd} {k : Str}

/-- A command that adds to a key makes it exist and leaves all deadlines as they are. -/
theorem put_of_run (h : c.run now σ = .ok σ') (ht : c.target = some k) (hv : c.Nonvoid) :
    ∃ v : Value, v.isEmpty = false ∧ σ' = σ.put k v := by
  cases c with
  | incr k' =>
    cases ht
    exact ⟨_, rfl, (incr_ok h).2.2⟩
  | hincrby k' f n =>
    cases ht
    obtain ⟨hs, -, rfl⟩ := hincrby_ok h
    exact ⟨_, isEmpty_insert, rfl⟩
  | hset k' fs =>
    cases ht
    obtain ⟨hs, -, rfl⟩ := map_ok h
    exact ⟨_, isEmpty_addFields hv, rfl⟩
  | zadd k' es =>
    cases ht
    obtain ⟨z, -, rfl⟩ := map_ok h
    exact ⟨_, isEmpty_addMembers hv, rfl⟩
  | zincrby k' n m =>
    cases ht
    obtain ⟨z, -, rfl⟩ := map_ok h
    exact ⟨_, isEmpty_zset_insert, rfl⟩
  | _ => cases ht

theorem deadline_put_eq {v : Value} (hv : v.isEmpty = false) (K : Str) :
    (σ.put k v).deadline K = σ.deadline K := by
  by_cases hk : K = k
  · subst hk
    rw [Store.deadline, Store.lookup_put_self σ K hv]
    rfl
  · rw [Store.deadline, Store.lookup_put_ne σ hk, Store.deadline]

theorem isSome_put {v : Value} (hv : v.isEmpty = false) (K : Str) :
    ((σ.put k v).val K).isSome ↔ K = k ∨ (σ.val K).isSome := by
  by_cases hk : K = k
  · subst hk
    rw [Store.val_put_self, hv]
    exact ⟨fun _ => .inl rfl, fun _ => rfl⟩
  · rw [Store.val_put_ne σ hk]
    exact ⟨.inr, fun h => h.resolve_left hk⟩

theorem val_expire {ttl : Time} (h : (Cmd.expire k ttl).run now σ = .ok σ') (K : Str) : σ'.val K = σ.val K :=
  run_val_of_target_ne h trivial (Option.some_ne_none K).symm

theorem deadline_expire {ttl : Time} (h : (Cmd.expire k ttl).run now σ = .ok σ') (K : Str) :
    σ'.deadline K = if K = k ∧ (σ.val k).isSome then some (now + ttl) else σ.deadline K := by
  cases he : σ.lookup k with
  | none =>
    have hn : ¬ (σ.val k).isSome := by
      rw [Store.val, he]
      exact Bool.false_ne_true
    rw [if_neg fun h => hn h.2]
    simp only [Cmd.run, he, Except.ok.injEq] at h
    rw [h]
  | some e =>
    obtain ⟨hself, hne⟩ := lookup_expire h he
    have hs : (σ.val k).isSome := by
      rw [Store.val, he]
      rfl
    by_cases hk : K = k
    · subst hk
      rw [if_pos ⟨rfl, hs⟩, Store.deadline, hself]
      rfl
    · rw [if_neg fun h => hk h.1, Store.deadline, hne K hk, Store.deadline]

theorem isSome_of_deadline {d : Time} (h : σ.deadline k = some d) : (σ.val k).isSome := by
  unfold Store.deadline at h
  unfold Store.val
  obtain ⟨e, he, -⟩ := Option.bind_eq_some_iff.mp h
  rw [he]
  rfl

/-- What is left after time has passed is as it was. -/
theorem lookup_purge_of_isSome {t : Time} (h : ((σ.purge t).val k).isSome) :
    (σ.purge t).lookup k = σ.lookup k := by
  rw [Store.val, Option.isSome_map, Store.lookup_purge] at h
  rw [Store.lookup_purge]
  cases hl : σ.lookup k with
  | none => rfl
  | some e =>
    rw [hl, Option.filter_some] at h
    rw [Option.filter_some]
    split_ifs at h ⊢
    · rfl
    · cases h

theorem lookup_purge_of_deadline {t : Time} (h : ∀ d, σ.deadline k = some d → t ≤ d) :
    (σ.purge t).lookup k = σ.lookup k := by
  rw [Store.lookup_purge]
  cases hl : σ.lookup k with
  | none => rfl
  | some e =>
    have he : e.lapsed t = false := by
      unfold Entry.lapsed
      cases hd : e.expiry with
      | none => rfl
      | some d =>
        have hdead : σ.deadline k = some d := by
          rw [Store.deadline, hl]
          exact hd
        exact decide_eq_false (not_lt.mpr (h d hdead))
    rw [Option.filter_some, he]
    rfl

theorem deadline_purge {t d : Time} (h : (σ.purge t).deadline k = some d) :
    σ.deadline k = some d ∧ t ≤ d := by
  have hl := lookup_purge_of_isSome (isSome_of_deadline h)
  obtain ⟨e, he, hd⟩ := Option.bind_eq_some_iff.mp h
  have hfresh := Store.fresh_purge t σ k e he
  refine ⟨?_, ?_⟩
  · rw [Store.deadline, ← hl]
    exact h
  · unfold Entry.lapsed at hfresh
    rw [hd] at hfresh
    exact not_lt.mp (of_decide_eq_false hfresh)

end Effects

/-! Ranges of a sorted set. -/

theorem zrevrange_perm (z : ZSet) : (zrevrange z).Perm (z.entries.map fun e => (e.1, e.2)) :=
  List.mergeSort_perm _ _

theorem mem_zrevrange {z : ZSet} {p : Str × ℤ} : p ∈ zrevrange z ↔ z.lookup p.1 = some p.2 := by
  rw [(zrevrange_perm z).mem_iff, List.mem_map, ← Option.mem_def, AList.mem_lookup_iff]
  constructor
  · rintro ⟨e, he, rfl⟩
    exact he
  · exact fun h => ⟨_, h, rfl⟩

theorem zrevrange_nodup (z : ZSet) : ((zrevrange z).map Prod.fst).Nodup := by
  rw [((zrevrange_perm z).map Prod.fst).nodup_iff, List.map_map]
  exact z.nodupKeys

theorem zLe_iff (a b : Str × ℤ) : zLe a b = true ↔ a.2 < b.2 ∨ a.2 = b.2 ∧ utf8 a.1 ≤ utf8 b.1 := by
  simp [zLe]

theorem zLe_trans (a b c : Str × ℤ) (hab : zLe a b = true) (hbc : zLe b c = true) : zLe a c = true := by
  rw [zLe_iff] at *
  rcases hab with h1 | ⟨h1, h1'⟩ <;> rcases hbc with h2 | ⟨h2, h2'⟩
  · exact .inl (by omega)
  · exact .inl (by omega)
  · exact .inl (by omega)
  · exact .inr ⟨by omega, List.le_trans h1' h2'⟩

theorem zLe_total (a b : Str × ℤ) : (zLe a b || zLe b a) = true := by
  rw [Bool.or_eq_true, zLe_iff, zLe_iff]
  rcases lt_trichotomy a.2 b.2 with h | h | h
  · exact .inl (.inl h)
  · rcases List.le_total (utf8 a.1) (utf8 b.1) with h' | h'
    · exact .inl (.inr ⟨h, h'⟩)
    · exact .inr (.inr ⟨h.symm, h'⟩)
  · exact .inr (.inl h)

/-- Highest score first. -/
theorem zrevrange_pairwise (z : ZSet) : (zrevrange z).Pairwise fun a b => b.2 ≤ a.2 := by
  refine (List.pairwise_mergeSort (fun a b c hab hbc => zLe_trans c b a hbc hab) (fun a b => zLe_total b a) _).imp ?_
  intro a b hab
  rw [zLe_iff] at hab
  omega

/-- A test that no later element passes alone cuts a list where it filters it. -/
theorem takeWhile_eq_filter {α : Type} {p : α → Bool} {l : List α}
    (h : l.Pairwise fun a b => p b = true → p a = true) : l.takeWhile p = l.filter p := by
  induction l with
  | nil => rfl
  | cons a l ih =>
    obtain ⟨ha, hl⟩ := List.pairwise_cons.mp h
    by_cases hp : p a = true
    · rw [List.takeWhile_cons_of_pos hp, List.filter_cons_of_pos hp, ih hl]
    · rw [List.takeWhile_cons_of_neg hp, List.filter_cons_of_neg hp]
      exact (List.filter_eq_nil_iff.mpr fun b hb hpb => hp (ha b hb hpb)).symm

/-- The range that the server walks is what a filter of the whole set would keep. -/
theorem zrevrangeByScore_eq (floor : ℤ) (limit : ℕ) (z : ZSet) :
    zrevrangeByScore floor limit z = ((zrevrange z).filter fun p => decide (floor < p.2)).take limit := by
  rw [zrevrangeByScore, takeWhile_eq_filter]
  refine (zrevrange_pairwise z).imp fun hab hb => ?_
  rw [decide_eq_true_eq] at hb ⊢
  omega

/-! What a run of commands adds up to. Each of the four quantities depends only on the multiset
of the commands that count, not on the order they ran in. -/

/-- The commands that change a count or a member set. -/
def Cmd.counts : Cmd → Bool
  | .incr _ | .hincrby _ _ _ | .zadd _ _ | .zincrby _ _ _ => true
  | .hset _ _ | .zrem _ _ | .expire _ _ | .expireAt _ _ | .set _ _ _ | .del _ => false

/-- The commands of a run that count, in no order. -/
def counted (cs : List Cmd) : Multiset Cmd := ↑(cs.filter Cmd.counts)

theorem counted_append (cs ds : List Cmd) : counted (cs ++ ds) = counted cs + counted ds := by
  rw [counted, List.filter_append, ← Multiset.coe_add]
  rfl

theorem counted_cons (c : Cmd) (cs : List Cmd) : counted (c :: cs) = counted [c] + counted cs :=
  counted_append [c] cs

/-- A sum over a run is the sum over the commands that count, if the others add nothing. -/
theorem sum_counted {w : Cmd → ℤ} (hw : ∀ c, c.counts = false → w c = 0) (cs : List Cmd) :
    (cs.map w).sum = ((counted cs).map w).sum := by
  induction cs with
  | nil => rfl
  | cons c cs ih =>
    rw [List.map_cons, List.sum_cons, ih, counted_cons, Multiset.map_add, Multiset.sum_add]
    congr 1
    cases hc : c.counts with
    | true => simp [counted, hc]
    | false => simp [counted, hc, hw c hc]

section RunAll

variable {cs : List (Time × Cmd)} {σ σ' : Store} {K : Str}

theorem runAll_cons {p : Time × Cmd} (h : runAll (p :: cs) σ = .ok σ') :
    ∃ σ₁, p.2.run p.1 σ = .ok σ₁ ∧ runAll cs σ₁ = .ok σ' := by
  unfold runAll at h
  split at h
  · cases h
  · exact ⟨_, ‹_›, h⟩

theorem runAll_append {ds : List (Time × Cmd)} {σ₁ : Store} (h : runAll cs σ = .ok σ₁)
    (h' : runAll ds σ₁ = .ok σ') : runAll (cs ++ ds) σ = .ok σ' := by
  induction cs generalizing σ with
  | nil =>
    cases h
    exact h'
  | cons p cs ih =>
    obtain ⟨τ, hr, hc⟩ := runAll_cons h
    rw [List.cons_append, runAll, hr]
    exact ih hc

/-- A quantity that every command adds to adds up along a run. -/
theorem sum_runAll {obs : Store → ℤ} {w : Cmd → ℤ} (hw : ∀ c, c.counts = false → w c = 0)
    (h : runAll cs σ = .ok σ')
    (hstep : ∀ p ∈ cs, ∀ τ τ', p.2.run p.1 τ = .ok τ' → obs τ' = obs τ + w p.2) :
    obs σ' = obs σ + ((counted (cs.map Prod.snd)).map w).sum := by
  rw [← sum_counted hw]
  induction cs generalizing σ with
  | nil =>
    cases h
    simp
  | cons p cs ih =>
    obtain ⟨σ₁, h₁, h₂⟩ := runAll_cons h
    rw [ih h₂ fun q hq => hstep q (List.mem_cons_of_mem p hq), hstep p List.mem_cons_self _ _ h₁]
    simp only [List.map_cons, List.sum_cons]
    ring

theorem hcount_runAll {f : Str} (h : runAll cs σ = .ok σ') (hadd : ∀ p ∈ cs, p.2.OnlyAdds p.1 K)
    (hkeep : ∀ p ∈ cs, p.2.KeepsField K f) :
    σ'.hcount K f = σ.hcount K f + ((counted (cs.map Prod.snd)).map (Cmd.hashAdds K f)).sum := by
  refine sum_runAll (fun c hc => ?_) h fun p hp τ τ' hr => hcount_run hr (hadd p hp) (hkeep p hp)
  cases c with
  | hincrby k f n => cases hc
  | _ => rfl

theorem counter_runAll (h : runAll cs σ = .ok σ') (hadd : ∀ p ∈ cs, p.2.OnlyAdds p.1 K) :
    σ'.counter K = σ.counter K + ((counted (cs.map Prod.snd)).map (Cmd.counterAdds K)).sum := by
  refine sum_runAll (fun c hc => ?_) h fun p hp τ τ' hr => counter_run hr (hadd p hp)
  cases c with
  | incr k => cases hc
  | _ => rfl

theorem score_runAll {m : Str} (h : runAll cs σ = .ok σ') (hadd : ∀ p ∈ cs, p.2.OnlyAdds p.1 K)
    (hz : ∀ p ∈ cs, ∀ es, p.2 ≠ .zadd K es) :
    (σ'.zscore K m).getD 0 =
      (σ.zscore K m).getD 0 + ((counted (cs.map Prod.snd)).map (Cmd.scoreAdds K m)).sum := by
  refine sum_runAll (fun c hc => ?_) h
    fun p hp τ τ' hr => score_run hr (hadd p hp) (hz p hp)
  cases c with
  | zincrby k n m => cases hc
  | _ => rfl

theorem isMember_runAll {m : Str} (h : runAll cs σ = .ok σ')
    (hadd : ∀ p ∈ cs, p.2.OnlyAdds p.1 K) :
    (σ'.zscore K m).isSome ↔
      (σ.zscore K m).isSome ∨ ∃ c ∈ counted (cs.map Prod.snd), c.AddsMember K m := by
  induction cs generalizing σ with
  | nil =>
    cases h
    simp [counted]
  | cons p cs ih =>
    obtain ⟨σ₁, h₁, h₂⟩ := runAll_cons h
    rw [ih h₂ fun q hq => hadd q (List.mem_cons_of_mem p hq),
      isMember_run h₁ (hadd p List.mem_cons_self), or_assoc, List.map_cons, counted_cons]
    refine or_congr_right ?_
    have hp : (∃ c ∈ counted [p.2], c.AddsMember K m) ↔ p.2.AddsMember K m := by
      cases hc : p.2 with
      | zadd k es => simp [counted, Cmd.counts]
      | zincrby k n m' => simp [counted, Cmd.counts]
      | _ => simp [counted, Cmd.counts, Cmd.AddsMember]
    rw [← hp]
    simp only [Multiset.mem_add, or_and_right, exists_or]

end RunAll

end Redis

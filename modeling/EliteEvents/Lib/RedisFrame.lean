import EliteEvents.Lib.RedisLemmas

/-! What a command can touch: the keys it names and no others, each from its own entry alone. Two keyspaces that
differ at one key keep differing there only, as long as no command names it. -/

namespace Redis

open Text

/-- The keys a command names. -/
def Cmd.keys : Cmd → List Str
  | .incr k | .hincrby k _ _ | .hset k _ | .zadd k _ | .zincrby k _ _ | .zrem k _ | .expire k _
  | .expireAt k _ | .set k _ _ => [k]
  | .del ks => ks

/-- The value a command puts in the place of another, where it succeeds. -/
def Cmd.newValue : Cmd → Option Value → Option Value
  | .incr _, none => some (.str (Decimal.text 1))
  | .incr _, some (.str s) => (Decimal.ofText s).map fun n => .str (Decimal.text (n + 1))
  | .hincrby _ f n, none => some (.hash ((∅ : Hash).insert f (Decimal.text n)))
  | .hincrby _ f n, some (.hash h) =>
    match h.lookup f with
    | none => some (.hash (h.insert f (Decimal.text n)))
    | some s => (Decimal.ofText s).map fun m => .hash (h.insert f (Decimal.text (m + n)))
  | .hset _ fs, none => some (.hash (addFields ∅ fs))
  | .hset _ fs, some (.hash h) => some (.hash (addFields h fs))
  | .zadd _ es, none => some (.zset (addMembers ∅ es))
  | .zadd _ es, some (.zset z) => some (.zset (addMembers z es))
  | .zincrby _ n m, none => some (.zset ((∅ : ZSet).insert m (((∅ : ZSet).lookup m).getD 0 + n)))
  | .zincrby _ n m, some (.zset z) => some (.zset (z.insert m ((z.lookup m).getD 0 + n)))
  | .zrem _ ms, none => some (.zset (eraseMembers ∅ ms))
  | .zrem _ ms, some (.zset z) => some (.zset (eraseMembers z ms))
  | _, _ => none

/-- What a command makes of the entry of a key it names. A new value keeps the deadline. -/
def Cmd.revised (now : Time) : Cmd → Option Entry → Option Entry
  | .expire _ ttl, o => o.map fun e => { e with expiry := some (now + ttl) }
  | .expireAt _ deadline, o =>
    o.bind fun e => if deadline ≤ now then none else some { e with expiry := some deadline }
  | .set _ v ttl, _ => some ⟨.str v, ttl.map (now + ·)⟩
  | .del _, _ => none
  | c, o =>
    match c.newValue (o.map Entry.val) with
    | none => o
    | some v => if v.isEmpty then none else some ⟨v, o.bind Entry.expiry⟩

section Lookup

variable {now : Time} {σ : Store} {c : Cmd} {k : Str}

theorem lookup_put (σ : Store) (k : Str) (v : Value) (K : Str) : (σ.put k v).lookup K =
    if K = k then if v.isEmpty then none else some ⟨v, (σ.lookup K).bind Entry.expiry⟩ else σ.lookup K := by
  split_ifs with hk hv
  · rw [Store.put, if_pos hv, hk, AList.lookup_erase]
  · rw [Store.put, if_neg hv, hk, AList.lookup_insert]
  · exact Store.lookup_put_ne σ hk v

theorem lookup_insert (σ : Store) (k : Str) (e : Entry) (K : Str) :
    AList.lookup K (σ.insert k e) = if K = k then some e else σ.lookup K := by
  split_ifs with hk
  · rw [hk, AList.lookup_insert]
  · exact AList.lookup_insert_ne hk

theorem lookup_foldl_erase (ks : List Str) (σ : Store) (K : Str) :
    (ks.foldl (fun σ k => σ.erase k) σ).lookup K = if K ∈ ks then none else σ.lookup K := by
  induction ks generalizing σ with
  | nil => simp
  | cons k ks ih =>
    rw [List.foldl_cons, ih]
    by_cases hk : K = k
    · subst hk
      simp [AList.lookup_erase]
    · simp [AList.lookup_erase_ne hk, hk]

/-- A command on values puts a new one in its key's place, or fails and changes nothing. -/
theorem apply_eq_put (hk : c.keys = [k]) (ht : c.timed = none) (hd : ∀ ks, c ≠ .del ks) : c.apply now σ =
    match c.newValue (σ.val k) with
    | none => σ
    | some v => σ.put k v := by
  cases c with
  | incr k' =>
    cases hk
    simp only [Cmd.apply, Cmd.run]
    rcases hv : σ.val k with _ | (s | h | z) <;> simp only [Cmd.newValue]
    cases Decimal.ofText s <;> rfl
  | hincrby k' f n =>
    cases hk
    simp only [Cmd.apply, Cmd.run, Store.hash]
    rcases hv : σ.val k with _ | (s | h | z) <;> simp only [Cmd.newValue]
    · rfl
    · cases h.lookup f with
      | none => rfl
      | some s => cases hs : Decimal.ofText s <;> simp [hs]
  | hset k' fs =>
    cases hk
    simp only [Cmd.apply, Cmd.run, Store.hash]
    rcases σ.val k with _ | (s | h | z) <;> rfl
  | zadd k' es =>
    cases hk
    simp only [Cmd.apply, Cmd.run, Store.zset]
    rcases σ.val k with _ | (s | h | z) <;> rfl
  | zincrby k' n m =>
    cases hk
    simp only [Cmd.apply, Cmd.run, Store.zset]
    rcases σ.val k with _ | (s | h | z) <;> rfl
  | zrem k' ms =>
    cases hk
    simp only [Cmd.apply, Cmd.run, Store.zset]
    rcases σ.val k with _ | (s | h | z) <;> rfl
  | del ks => exact absurd rfl (hd ks)
  | _ => cases ht

theorem lookup_apply_put (hk : c.keys = [k]) (ht : c.timed = none) (hd : ∀ ks, c ≠ .del ks) (K : Str) :
    (c.apply now σ).lookup K = if K ∈ c.keys then
      match c.newValue ((σ.lookup K).map Entry.val) with
      | none => σ.lookup K
      | some v => if v.isEmpty then none else some ⟨v, (σ.lookup K).bind Entry.expiry⟩
    else σ.lookup K := by
  rw [apply_eq_put hk ht hd, hk]
  by_cases hK : K = k
  · subst hK
    rw [if_pos (List.mem_singleton_self K)]
    change _ = match c.newValue (σ.val K) with
      | none => σ.lookup K
      | some v => if v.isEmpty then none else some ⟨v, (σ.lookup K).bind Entry.expiry⟩
    cases c.newValue (σ.val K) with
    | none => rfl
    | some v => rw [lookup_put, if_pos rfl]
  · rw [if_neg (by simpa using hK)]
    cases c.newValue (σ.val k) with
    | none => rfl
    | some v => rw [lookup_put, if_neg hK]

/-- A command changes the entries of the keys it names, each by itself. -/
theorem lookup_apply (c : Cmd) (now : Time) (σ : Store) (K : Str) :
    (c.apply now σ).lookup K = if K ∈ c.keys then c.revised now (σ.lookup K) else σ.lookup K := by
  cases c with
  | incr k => exact lookup_apply_put rfl rfl (by simp) K
  | hincrby k f n => exact lookup_apply_put rfl rfl (by simp) K
  | hset k fs => exact lookup_apply_put rfl rfl (by simp) K
  | zadd k es => exact lookup_apply_put rfl rfl (by simp) K
  | zincrby k n m => exact lookup_apply_put rfl rfl (by simp) K
  | zrem k ms => exact lookup_apply_put rfl rfl (by simp) K
  | expire k ttl =>
    simp only [Cmd.apply, Cmd.run, Cmd.keys, Cmd.revised, List.mem_singleton]
    cases hl : σ.lookup k with
    | none =>
      split_ifs with hK
      · rw [hK, hl]
        rfl
      · rfl
    | some e =>
      rw [lookup_insert]
      split_ifs with hK
      · rw [hK, hl]
        rfl
      · rfl
  | expireAt k deadline =>
    simp only [Cmd.apply, Cmd.run, Cmd.keys, Cmd.revised, List.mem_singleton]
    cases hl : σ.lookup k with
    | none =>
      by_cases hK : K = k
      · rw [if_pos hK, hK, hl]
        rfl
      · rw [if_neg hK]
    | some e =>
      by_cases hd : deadline ≤ now
      · simp only [if_pos hd]
        split_ifs with hK
        · rw [hK, hl, AList.lookup_erase]
          rfl
        · exact AList.lookup_erase_ne hK
      · simp only [if_neg hd, lookup_insert]
        split_ifs with hK
        · rw [hK, hl]
          rfl
        · rfl
  | set k v ttl =>
    simp only [Cmd.apply, Cmd.run, Cmd.keys, Cmd.revised, List.mem_singleton]
    exact lookup_insert σ k _ K
  | del ks => exact lookup_foldl_erase ks σ K

theorem mem_keys_of_timed (h : c.timed = some k) : k ∈ c.keys := by
  cases c with
  | expire k' ttl => exact List.mem_singleton.mpr (Option.some.inj h).symm
  | expireAt k' d => exact List.mem_singleton.mpr (Option.some.inj h).symm
  | set k' v ttl => exact List.mem_singleton.mpr (Option.some.inj h).symm
  | _ => cases h

/-- How an entry came to be there: it was there with that deadline, it is new and has none, or the command set
the deadline. -/
theorem expiry_of_apply {K : Str} {e : Entry} (h : (c.apply now σ).lookup K = some e) :
    (∃ e₀, σ.lookup K = some e₀ ∧ e.expiry = e₀.expiry ∧ (K ∈ c.keys → c.timed = none)) ∨
      (σ.lookup K = none ∧ K ∈ c.keys ∧ c.timed = none ∧ (∀ ks, c ≠ .del ks) ∧ e.expiry = none) ∨
      (∃ ttl, c = .expire K ttl ∧ e.expiry = some (now + ttl)) ∨
      (∃ deadline, c = .expireAt K deadline ∧ e.expiry = some deadline) ∨
      (∃ v ttl, c = .set K v ttl ∧ e.expiry = ttl.map (now + ·)) := by
  rw [lookup_apply] at h
  split_ifs at h with hK
  · by_cases ht : c.timed = none ∧ ∀ ks, c ≠ .del ks
    · -- the old entry, or a new value in its place
      have hput : (∃ e₀, σ.lookup K = some e₀ ∧ e.expiry = e₀.expiry) ∨
          (σ.lookup K = none ∧ e.expiry = none) := by
        have hrev : c.revised now (σ.lookup K) =
            match c.newValue ((σ.lookup K).map Entry.val) with
            | none => σ.lookup K
            | some v => if v.isEmpty then none else some ⟨v, (σ.lookup K).bind Entry.expiry⟩ := by
          cases c with
          | expire k ttl => cases ht.1
          | expireAt k deadline => cases ht.1
          | set k v ttl => cases ht.1
          | del ks => exact absurd rfl (ht.2 ks)
          | _ => rfl
        rw [hrev] at h
        split at h
        · exact .inl ⟨e, h, rfl⟩
        · split_ifs at h
          cases h
          cases hl : σ.lookup K with
          | none => exact .inr ⟨rfl, rfl⟩
          | some e₀ => exact .inl ⟨e₀, rfl, rfl⟩
      rcases hput with ⟨e₀, hl, he⟩ | ⟨hl, he⟩
      · exact .inl ⟨e₀, hl, he, fun _ => ht.1⟩
      · exact .inr (.inl ⟨hl, hK, ht.1, ht.2, he⟩)
    · cases c with
      | expire k ttl =>
        obtain rfl := List.mem_singleton.mp hK
        obtain ⟨e₀, -, rfl⟩ := Option.map_eq_some_iff.mp h
        exact .inr (.inr (.inl ⟨ttl, rfl, rfl⟩))
      | expireAt k deadline =>
        obtain rfl := List.mem_singleton.mp hK
        obtain ⟨e₀, -, h⟩ := Option.bind_eq_some_iff.mp h
        split_ifs at h
        cases h
        exact .inr (.inr (.inr (.inl ⟨deadline, rfl, rfl⟩)))
      | set k v ttl =>
        obtain rfl := List.mem_singleton.mp hK
        cases h
        exact .inr (.inr (.inr (.inr ⟨v, ttl, rfl, rfl⟩)))
      | del ks => cases h
      | _ => exact absurd ⟨rfl, by simp⟩ ht
  · exact .inl ⟨e, h, rfl, fun hk => absurd hk hK⟩

end Lookup

/-! Two keyspaces that agree everywhere but at one key. -/

def Store.AgreesOff (K : Str) (σ τ : Store) : Prop := ∀ k, k ≠ K → σ.lookup k = τ.lookup k

namespace Store.AgreesOff

variable {now : Time} {σ τ : Store} {c : Cmd} {K : Str}

theorem apply (h : AgreesOff K σ τ) (c : Cmd) (now : Time) : AgreesOff K (c.apply now σ) (c.apply now τ) := by
  intro k hk
  rw [lookup_apply, lookup_apply, h k hk]

/-- A command that names no other key leaves the agreement as it is. -/
theorem apply_left (h : AgreesOff K σ τ) (hc : c.keys = [K]) : AgreesOff K (c.apply now σ) τ := by
  intro k hk
  rw [lookup_apply, hc, if_neg (by simpa using hk), h k hk]

theorem purge (h : AgreesOff K σ τ) (t : Time) : AgreesOff K (σ.purge t) (τ.purge t) := by
  intro k hk
  rw [lookup_purge, lookup_purge, h k hk]

end Store.AgreesOff

/-! What a run leaves of the deadlines that its commands set, and of the fields. -/

section Runs

variable {now : Time} {cs : List (Time × Cmd)} {σ σ' : Store} {c : Cmd} {K : Str}

theorem apply_of_run (h : c.run now σ = .ok σ') : c.apply now σ = σ' := by
  rw [Cmd.apply, h]

/-- A run that succeeds is what the server makes of its commands. -/
theorem applyAll_of_runAll (h : runAll cs σ = .ok σ') : applyAll cs σ = σ' := by
  induction cs generalizing σ with
  | nil =>
    cases h
    rfl
  | cons p cs ih =>
    obtain ⟨σ₁, h₁, h₂⟩ := runAll_cons h
    rw [applyAll, List.foldl_cons, apply_of_run h₁]
    exact ih h₂

/-- The deadline that the command sets at the key, if any, is at `t` or later, and the key is not replaced. -/
def Cmd.Lasts (now t : Time) (K : Str) : Cmd → Prop
  | .expire k ttl => k = K → t ≤ now + ttl
  | .expireAt k deadline => k = K → t ≤ deadline
  | .set k _ _ => k ≠ K
  | _ => True

theorem deadline_run_le {t : Time} (h : c.run now σ = .ok σ') (hc : c.Lasts now t K)
    (hσ : ∀ d, σ.deadline K = some d → t ≤ d) {d : Time} (hd : σ'.deadline K = some d) : t ≤ d := by
  obtain ⟨e, he, hexp⟩ := Option.bind_eq_some_iff.mp hd
  rw [← apply_of_run h] at he
  rcases expiry_of_apply he with ⟨e₀, h₀, heq, -⟩ | ⟨-, -, -, -, hnone⟩ | ⟨ttl, rfl, hset⟩ | ⟨deadline, rfl, hset⟩ |
    ⟨v, ttl, rfl, -⟩
  · refine hσ d ?_
    rw [Store.deadline, h₀, Option.bind_some, ← heq, hexp]
  · rw [hnone] at hexp
    cases hexp
  · rw [hset] at hexp
    rw [← Option.some.inj hexp]
    exact hc rfl
  · rw [hset] at hexp
    rw [← Option.some.inj hexp]
    exact hc rfl
  · exact absurd rfl hc

theorem deadline_runAll_le {t : Time} (h : runAll cs σ = .ok σ') (hcs : ∀ p ∈ cs, p.2.Lasts p.1 t K)
    (hσ : ∀ d, σ.deadline K = some d → t ≤ d) {d : Time} (hd : σ'.deadline K = some d) : t ≤ d := by
  induction cs generalizing σ with
  | nil =>
    cases h
    exact hσ d hd
  | cons p cs ih =>
    obtain ⟨σ₁, h₁, h₂⟩ := runAll_cons h
    exact ih h₂ (fun q hq => hcs q (List.mem_cons_of_mem p hq))
      fun _ hd' => deadline_run_le h₁ (hcs p List.mem_cons_self) hσ hd'

theorem lookup_addFields_of_mem {fs : List (Str × Str)} (hnodup : (fs.map Prod.fst).Nodup) (h : Hash)
    {p : Str × Str} (hp : p ∈ fs) : (addFields h fs).lookup p.1 = some p.2 := by
  induction fs generalizing h with
  | nil => cases hp
  | cons q fs ih =>
    rw [List.map_cons, List.nodup_cons] at hnodup
    rcases List.mem_cons.mp hp with rfl | hp
    · show (addFields (h.insert p.1 p.2) fs).lookup p.1 = _
      rw [lookup_addFields_of_notMem _ fs hnodup.1, AList.lookup_insert]
    · exact ih hnodup.2 _ hp

theorem hget_hset {fs : List (Str × Str)} (h : (Cmd.hset K fs).run now σ = .ok σ') (hnodup : (fs.map Prod.fst).Nodup)
    {p : Str × Str} (hp : p ∈ fs) : σ'.hget K p.1 = some p.2 := by
  obtain ⟨hs, -, rfl⟩ := map_ok h
  rw [Store.hget_put, Value.hget, lookup_addFields_of_mem hnodup hs hp]

/-- A field stays as it is under commands that neither overwrite nor increment it. -/
theorem hget_run {f v : Str} (h : c.run now σ = .ok σ') (hadd : c.OnlyAdds now K) (hkeep : c.KeepsField K f)
    (hinc : ∀ n, c ≠ .hincrby K f n) (hv : σ.hget K f = some v) : σ'.hget K f = some v := by
  rcases run_adds h hadd with ⟨-, hval⟩ | ⟨rfl, hn, -, -⟩ | ⟨f', n, hs, rfl, hh, rfl⟩ |
    ⟨fs, hs, rfl, hh, rfl⟩ | ⟨es, z, rfl, hz, -⟩ | ⟨n, m, z, rfl, hz, -⟩
  · rw [Store.hget, hval, ← Store.hget, hv]
  · rw [hn] at hv
    cases hv
  · have hf : f ≠ f' := fun hf => hinc n (by rw [hf])
    rw [Store.hget_put, Value.hget, AList.lookup_insert_ne hf, ← (Store.hash_ok hh).1 f, hv]
  · rw [Store.hget_put, Value.hget, lookup_addFields_of_notMem hs fs (hkeep rfl), ← (Store.hash_ok hh).1 f, hv]
  · rw [(Store.zset_ok hz).2.1] at hv
    cases hv
  · rw [(Store.zset_ok hz).2.1] at hv
    cases hv

/-- At `K` the command writes these fields together by HSET or leaves them alone. -/
def Cmd.Describes (K : Str) (names : List Str) : Cmd → Prop
  | .hset k fs => k = K → fs.map Prod.fst = names
  | .hincrby k f _ => k = K → f ∉ names
  | _ => True

/-- The fields were last described by one HSET, and say what it said. -/
theorem described_from {names : List Str} (hnodup : names.Nodup) {fs₀ : List (Str × Str)}
    (hnames : fs₀.map Prod.fst = names) (h₀ : ∀ p ∈ fs₀, σ.hget K p.1 = some p.2)
    (h : runAll cs σ = .ok σ') (hadd : ∀ p ∈ cs, p.2.OnlyAdds p.1 K) (hdesc : ∀ p ∈ cs, p.2.Describes K names) :
    ∃ fs, (fs = fs₀ ∨ Cmd.hset K fs ∈ cs.map Prod.snd) ∧ ∀ p ∈ fs, σ'.hget K p.1 = some p.2 := by
  induction cs generalizing σ fs₀ with
  | nil =>
    cases h
    exact ⟨fs₀, .inl rfl, h₀⟩
  | cons q cs ih =>
    obtain ⟨σ₁, h₁, h₂⟩ := runAll_cons h
    rw [List.forall_mem_cons] at hadd hdesc
    by_cases hq : ∃ fs, q.2 = .hset K fs
    · obtain ⟨fs, hfs⟩ := hq
      rw [hfs] at h₁ hdesc
      have hfields : fs.map Prod.fst = names := hdesc.1 rfl
      obtain ⟨fs', hmem, hget⟩ := ih hfields (fun p hp => hget_hset h₁ (by rwa [hfields]) hp) h₂ hadd.2 hdesc.2
      refine ⟨fs', .inr ?_, hget⟩
      rw [List.map_cons]
      rcases hmem with rfl | hmem
      · exact List.mem_cons.mpr (.inl hfs.symm)
      · exact List.mem_cons_of_mem _ hmem
    · have hstay : ∀ p ∈ fs₀, σ₁.hget K p.1 = some p.2 := by
        intro p hp
        have hp' : p.1 ∈ names := by
          rw [← hnames]
          exact List.mem_map_of_mem hp
        refine hget_run h₁ hadd.1 ?_ (fun n hn => ?_) (h₀ p hp)
        · cases hc : q.2 with
          | hset k fs =>
            rintro rfl
            exact absurd ⟨fs, hc⟩ hq
          | _ => trivial
        · have hd := hdesc.1
          rw [hn] at hd
          exact hd rfl hp'
      obtain ⟨fs', hmem, hget⟩ := ih hnames hstay h₂ hadd.2 hdesc.2
      exact ⟨fs', hmem.imp_right (List.mem_cons_of_mem _), hget⟩

/-- Once a run has described the fields, they say what one of its HSETs said. -/
theorem described_runAll (names : List Str) (hnodup : names.Nodup) {fs₀ : List (Str × Str)}
    (hmem : Cmd.hset K fs₀ ∈ cs.map Prod.snd) (h : runAll cs σ = .ok σ') (hadd : ∀ p ∈ cs, p.2.OnlyAdds p.1 K)
    (hdesc : ∀ p ∈ cs, p.2.Describes K names) :
    ∃ fs, Cmd.hset K fs ∈ cs.map Prod.snd ∧ ∀ p ∈ fs, σ'.hget K p.1 = some p.2 := by
  induction cs generalizing σ with
  | nil => cases hmem
  | cons q cs ih =>
    obtain ⟨σ₁, h₁, h₂⟩ := runAll_cons h
    rw [List.forall_mem_cons] at hadd hdesc
    rw [List.map_cons] at hmem ⊢
    rcases List.mem_cons.mp hmem with hq | hmem
    · rw [← hq] at h₁ hdesc
      have hfields : fs₀.map Prod.fst = names := hdesc.1 rfl
      obtain ⟨fs, hfs, hget⟩ := described_from hnodup hfields (fun p hp => hget_hset h₁ (by rwa [hfields]) hp) h₂
        hadd.2 hdesc.2
      refine ⟨fs, ?_, hget⟩
      rcases hfs with rfl | hfs
      · exact List.mem_cons.mpr (.inl hq)
      · exact List.mem_cons_of_mem _ hfs
    · obtain ⟨fs, hfs, hget⟩ := ih hmem h₂ hadd.2 hdesc.2
      exact ⟨fs, List.mem_cons_of_mem _ hfs, hget⟩

theorem lookup_addMembers {es : List (Str × ℤ)} {z : ZSet} {m : Str} {n : ℤ}
    (h : (addMembers z es).lookup m = some n) : z.lookup m = some n ∨ (m, n) ∈ es := by
  induction es generalizing z with
  | nil => exact .inl h
  | cons p es ih =>
    rcases ih (z := z.insert p.1 p.2) h with h | h
    · by_cases hm : m = p.1
      · subst hm
        rw [AList.lookup_insert] at h
        rw [← Option.some.inj h]
        exact .inr List.mem_cons_self
      · rw [AList.lookup_insert_ne hm] at h
        exact .inl h
    · exact .inr (List.mem_cons_of_mem p h)

/-- A score that nothing increments is one that some ZADD of the run gave, or is as old as the run. -/
theorem zscore_runAll {m : Str} {n : ℤ} (h : runAll cs σ = .ok σ') (hadd : ∀ p ∈ cs, p.2.OnlyAdds p.1 K)
    (hinc : ∀ p ∈ cs, ∀ n m, p.2 ≠ .zincrby K n m) (hs : σ'.zscore K m = some n) :
    σ.zscore K m = some n ∨ ∃ es, Cmd.zadd K es ∈ cs.map Prod.snd ∧ (m, n) ∈ es := by
  induction cs generalizing σ with
  | nil =>
    cases h
    exact .inl hs
  | cons q cs ih =>
    obtain ⟨σ₁, h₁, h₂⟩ := runAll_cons h
    rw [List.forall_mem_cons] at hadd hinc
    rcases ih h₂ hadd.2 hinc.2 with hs | ⟨es, hes, hm⟩
    · rcases run_adds h₁ hadd.1 with ⟨-, hval⟩ | ⟨-, -, -, rfl⟩ | ⟨f', n', hs', -, -, rfl⟩ | ⟨fs, hs', -, -, rfl⟩ |
        ⟨es, z, hq, hz, rfl⟩ | ⟨n', m', z, hq, -, -⟩
      · rw [Store.zscore, hval] at hs
        exact .inl hs
      · rw [Store.zscore_put] at hs
        cases hs
      · rw [Store.zscore_put] at hs
        cases hs
      · rw [Store.zscore_put] at hs
        cases hs
      · rw [Store.zscore_put, Value.zscore] at hs
        rcases lookup_addMembers hs with hs | hs
        · rw [(Store.zset_ok hz).1]
          exact .inl hs
        · exact .inr ⟨es, by rw [List.map_cons, hq]; exact List.mem_cons_self, hs⟩
      · exact absurd hq (hinc.1 n' m')
    · exact .inr ⟨es, List.mem_cons_of_mem _ hes, hm⟩

end Runs

end Redis

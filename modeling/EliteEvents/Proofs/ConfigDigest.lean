import EliteEvents.Lib.Records
import EliteEvents.Lib.Utf8
import EliteEvents.Proofs.Convergence

/-! What the pods are rolled by. The digest of the configuration is taken over a stream that tells the
configuration, whatever order the map gives its entries in; so the annotation changes when the configuration does,
and only then. -/

namespace EliteEvents

open Text Records

section Stream

/-- What `hashConfigData` feeds to SHA-256, for strings that are any bytes. -/
def digestBytes (data : List (List UInt8 × List UInt8)) : List UInt8 := stream (· ≤ ·) 0 data

/-- The bytes of a map. -/
def bytesOf (data : Labels) : List (List UInt8 × List UInt8) :=
  data.map fun p => (p.1.toUTF8.toList, p.2.toUTF8.toList)

theorem digestInput_eq (data : Labels) : digestInput data = digestBytes (bytesOf data) := by
  have hsort := List.map_insertionSort (fun a b : String × String => a.1.toUTF8.toList ≤ b.1.toUTF8.toList)
    (fun a b : List UInt8 × List UInt8 => a.1 ≤ b.1) (fun p => (p.1.toUTF8.toList, p.2.toUTF8.toList)) data
    fun _ _ _ _ => Iff.rfl
  rw [digestInput, digestBytes, stream, bytesOf, ← hsort, List.flatMap_map]
  rfl

theorem digestBytes_eq_iff {a b : List (List UInt8 × List UInt8)} (hka : (a.map Prod.fst).Nodup) (ha : Free 0 a)
    (hb : Free 0 b) : digestBytes a = digestBytes b ↔ a.Perm b :=
  stream_eq_iff _ hka ha hb

theorem bytesOf_perm {a b : Labels} : (bytesOf a).Perm (bytesOf b) ↔ a.Perm b := by
  refine List.map_perm_map_iff fun p q h => ?_
  obtain ⟨hkey, hvalue⟩ := Prod.mk.inj h
  exact Prod.ext (toUTF8_toList_injective hkey) (toUTF8_toList_injective hvalue)

end Stream

section Spec

/-- A string without NUL. -/
def NulFree (s : String) : Prop := Char.ofNat 0 ∉ s.toList

theorem NulFree.append {s t : String} (hs : NulFree s) (ht : NulFree t) : NulFree (s ++ t) := by
  rw [NulFree, String.toList_append, List.mem_append, not_or]
  exact ⟨hs, ht⟩

theorem nulFree_digits (n : ℕ) : Char.ofNat 0 ∉ Nat.toDigits 10 n := by
  intro h
  have hd := Nat.isDigit_of_mem_toDigits (by decide : 0 < 10) (by decide) h
  exact absurd hd (by decide)

theorem nulFree_itoa (n : ℤ) : NulFree (itoa n) := by
  rw [NulFree, itoa, Decimal.toList_toString]
  cases n with
  | ofNat n => exact nulFree_digits n
  | negSucc n =>
    rw [Decimal.render, List.mem_cons, not_or]
    exact ⟨by decide, nulFree_digits (n + 1)⟩

theorem nulFree_pad2 (n : ℕ) : NulFree (pad2 n) := by
  have hn : NulFree (toString n) := nulFree_itoa n
  unfold pad2
  split_ifs
  · exact NulFree.append (by unfold NulFree; decide) hn
  · exact hn

theorem nulFree_aspNetDuration (d : ℤ) : NulFree (aspNetDuration d) := by
  have hcolon : NulFree ":" := by unfold NulFree; decide
  exact ((((nulFree_pad2 _).append hcolon).append (nulFree_pad2 _)).append hcolon).append (nulFree_pad2 _)

/-- The strings of a spec that go into the configuration are without NUL. -/
structure FeedListenerSpec.NulFree (spec : FeedListenerSpec) : Prop where
  connectionString : EliteEvents.NulFree spec.redis.connectionString
  relayEndpoint : EliteEvents.NulFree spec.relayEndpoint
  authKey : ∀ secret, spec.redis.authSecret = some secret → EliteEvents.NulFree secret.key

/-- The keys of the configuration of every feed, and the one of a feed with an auth secret. -/
theorem keys_buildConfigData (spec : FeedListenerSpec) :
    (buildConfigData spec).map Prod.fst =
      ["ASPNETCORE_ENVIRONMENT", "ConnectionStrings__Redis", "Eddn__StreamUrl", shardCountKey,
        "Eddn__ReconnectAfterSilence", periodicKey, "RedisLiveness__UnreachableRestartThreshold"] ++
      if spec.redis.authSecret.isSome then ["REDIS_AUTH_FILE"] else [] := by
  unfold buildConfigData
  cases spec.redis.authSecret <;> rfl

theorem nodup_buildConfigData (spec : FeedListenerSpec) : ((buildConfigData spec).map Prod.fst).Nodup := by
  rw [keys_buildConfigData]
  split_ifs <;> decide

theorem nulFree_buildConfigData {spec : FeedListenerSpec} (h : spec.NulFree) {p : String × String}
    (hp : p ∈ buildConfigData spec) : NulFree p.1 ∧ NulFree p.2 := by
  constructor
  · have hkey : p.1 ∈ (buildConfigData spec).map Prod.fst := List.mem_map_of_mem hp
    rw [keys_buildConfigData] at hkey
    have hall : ∀ k ∈ ["ASPNETCORE_ENVIRONMENT", "ConnectionStrings__Redis", "Eddn__StreamUrl", shardCountKey,
        "Eddn__ReconnectAfterSilence", periodicKey, "RedisLiveness__UnreachableRestartThreshold"] ++
        ["REDIS_AUTH_FILE"], NulFree k := by
      unfold NulFree
      decide
    refine hall p.1 (List.mem_append.mpr ((List.mem_append.mp hkey).imp_right fun hs => ?_))
    split_ifs at hs
    · exact hs
    · cases hs
  · have hbool : ∀ b, NulFree (formatBool b) := by
      unfold NulFree
      decide
    unfold buildConfigData at hp
    rw [List.mem_append] at hp
    rcases hp with hp | hp
    · simp only [List.mem_cons, List.not_mem_nil, or_false] at hp
      rcases hp with rfl | rfl | rfl | rfl | rfl | rfl | rfl
      · unfold NulFree
        decide
      · exact h.connectionString
      · exact h.relayEndpoint
      · exact nulFree_itoa _
      · exact nulFree_aspNetDuration _
      · exact hbool _
      · exact nulFree_aspNetDuration _
    · split at hp
      · cases hp
      · rename_i secret hsecret
        obtain rfl := List.mem_singleton.mp hp
        exact NulFree.append (by unfold NulFree; decide) (h.authKey secret hsecret)

theorem free_bytesOf {data : Labels} (h : ∀ p ∈ data, NulFree p.1 ∧ NulFree p.2) : Free 0 (bytesOf data) := by
  intro q hq
  obtain ⟨p, hp, rfl⟩ := List.mem_map.mp hq
  have hnul : ∀ {s : String}, NulFree s → (0 : UInt8) ∉ s.toUTF8.toList :=
    fun hs hmem => hs ((mem_toUTF8 (d := Char.ofNat 0) (by decide)).mp hmem)
  exact ⟨hnul (h p hp).1, hnul (h p hp).2⟩

/-- The streams of two specs are equal exactly if their configurations are. -/
theorem digestInput_buildConfigData {spec spec' : FeedListenerSpec} (h : spec.NulFree) (h' : spec'.NulFree) :
    digestInput (buildConfigData spec) = digestInput (buildConfigData spec') ↔
      (buildConfigData spec).Perm (buildConfigData spec') := by
  have hkeys : ((bytesOf (buildConfigData spec)).map Prod.fst).Nodup := by
    have hmap : (bytesOf (buildConfigData spec)).map Prod.fst =
        ((buildConfigData spec).map Prod.fst).map fun s => s.toUTF8.toList := by
      rw [bytesOf, List.map_map, List.map_map]
      rfl
    rw [hmap]
    exact (nodup_buildConfigData spec).map toUTF8_toList_injective
  rw [digestInput_eq, digestInput_eq, digestBytes_eq_iff hkeys (free_bytesOf fun p => nulFree_buildConfigData h)
    (free_bytesOf fun p => nulFree_buildConfigData h'), bytesOf_perm]

end Spec

section Annotation

/-- The annotation on the pod template of a shard. -/
def configHashOf (fl : FeedListener) (k : ℕ) (s : Cluster) : Option String :=
  ((s.objs .deployment).lookup (shardDeploymentName fl.name k)).bind fun d : Deployment =>
    d.template.annotations.lookup configHashAnnotation

theorem Reconciled.configHash {sha256 : List UInt8 → List UInt8} {feed : String} {fl : FeedListener} {w : World}
    (h : Reconciled sha256 feed fl w) {k : ℕ} (hk : (k : ℤ) < fl.spec.consumers.toInt) :
    configHashOf fl k w.cluster = some (hashConfigData sha256 (buildConfigData fl.spec)) := by
  obtain ⟨d, hd, -, -, -, -, -, hhash⟩ := h.converged.2.shards k hk
  rw [configHashOf, hd]
  exact hhash

/-- The truncated digest tells two inputs apart. -/
def NoCollision (sha256 : List UInt8 → List UInt8) (data data' : Labels) : Prop :=
  hashConfigData sha256 data = hashConfigData sha256 data' → digestInput data = digestInput data'

/-- The stream that is digested tells the map it is made from, in whatever order the map gives its entries; so the
annotations that two reconciles leave on the pod templates differ exactly if the configurations do. -/
theorem config_hash_identifies :
    (∀ a b : List (List UInt8 × List UInt8), (a.map Prod.fst).Nodup → (b.map Prod.fst).Nodup → Free 0 a → Free 0 b →
      (digestBytes a = digestBytes b ↔ a.Perm b)) ∧
    (∀ data, digestInput data = digestBytes (bytesOf data)) ∧
    ∀ sha256 feed feed' fl fl' w w', Reconciled sha256 feed fl w → Reconciled sha256 feed' fl' w' →
      fl.spec.NulFree → fl'.spec.NulFree →
      NoCollision sha256 (buildConfigData fl.spec) (buildConfigData fl'.spec) →
      ∀ k k' : ℕ, (k : ℤ) < fl.spec.consumers.toInt → (k' : ℤ) < fl'.spec.consumers.toInt →
        ∃ hash hash', configHashOf fl k w.cluster = some hash ∧ configHashOf fl' k' w'.cluster = some hash' ∧
          (hash ≠ hash' ↔ ¬ (buildConfigData fl.spec).Perm (buildConfigData fl'.spec)) := by
  refine ⟨fun a b hka _ ha hb => digestBytes_eq_iff hka ha hb, digestInput_eq, ?_⟩
  intro sha256 feed feed' fl fl' w w' hw hw' hnul hnul' hcollision k k' hk hk'
  refine ⟨_, _, hw.configHash hk, hw'.configHash hk', not_congr ?_⟩
  rw [← digestInput_buildConfigData hnul hnul']
  refine ⟨hcollision, fun h => ?_⟩
  rw [hashConfigData, hashConfigData, h]

/-- A reconcile of the sample feed in which every call is served. -/
theorem reconciled_served {consumers : Int32} {n : ℕ}
    (h : ((World.initial.run eddnDigest "eddn" [.cluster (.createFeed (eddnSpec consumers))]).bind fun w₀ =>
      (w₀.cluster.feeds.lookup "eddn").bind fun fl =>
        (w₀.run eddnDigest "eddn" (.reconcile :: served n)).map fun w₁ => decide (fl.spec = eddnSpec consumers ∧
          fl.deletionTimestamp = false ∧ w₁.returned = some (some statusPollInterval))) = some true) :
    ∃ fl w, fl.spec = eddnSpec consumers ∧ Reconciled eddnDigest "eddn" fl w := by
  obtain ⟨w₀, h₀, h⟩ := Option.bind_eq_some_iff.mp h
  obtain ⟨fl, hfl, h⟩ := Option.bind_eq_some_iff.mp h
  obtain ⟨w₁, h₁, h⟩ := Option.map_eq_some_iff.mp h
  obtain ⟨hspec, hd, hret⟩ := of_decide_eq_true h
  rw [served, ← List.map_replicate] at h₁
  exact ⟨fl, w₁, hspec, w₀, _, _, reaches_run .refl (fun _ _ _ => trivial) h₀, hfl, hd, h₁, returned_spec hret⟩

theorem nulFree_eddnSpec (consumers : Int32) : (eddnSpec consumers).NulFree := by
  have hredis : NulFree "redis:6379,abortConnect=false" := by unfold NulFree; decide
  have hrelay : NulFree "tcp://eddn.edcd.io:9500" := by unfold NulFree; decide
  have hkey : NulFree "password" := by unfold NulFree; decide
  refine ⟨hredis, hrelay, fun secret h => ?_⟩
  obtain rfl := Option.some.inj h
  exact hkey

theorem config_hash_identifies_eddn :
    ∃ fl fl' w w' hash hash', fl.spec = eddnSpec 1 ∧ fl'.spec = eddnSpec 2 ∧
      Reconciled eddnDigest "eddn" fl w ∧ Reconciled eddnDigest "eddn" fl' w' ∧
      configHashOf fl 0 w.cluster = some hash ∧ configHashOf fl' 1 w'.cluster = some hash' ∧
      (hash ≠ hash' ↔ ¬ (buildConfigData fl.spec).Perm (buildConfigData fl'.spec)) := by
  obtain ⟨fl, w, hspec, hw⟩ := @reconciled_served 1 14 (by decide +kernel)
  obtain ⟨fl', w', hspec', hw'⟩ := @reconciled_served 2 16 (by decide +kernel)
  have hcollision : NoCollision eddnDigest (buildConfigData fl.spec) (buildConfigData fl'.spec) := by
    rw [hspec, hspec']
    exact fun h => absurd h (by decide +kernel)
  obtain ⟨hash, hash', hh, hh', hiff⟩ := config_hash_identifies.2.2 eddnDigest "eddn" "eddn" fl fl' w w' hw hw'
    (hspec ▸ nulFree_eddnSpec 1) (hspec' ▸ nulFree_eddnSpec 2) hcollision 0 1 (by rw [hspec]; decide)
    (by rw [hspec']; decide)
  exact ⟨fl, fl', w, w', hash, hash', hspec, hspec', hw, hw', hh, hh', hiff⟩

end Annotation

end EliteEvents

import EliteEvents.Proofs.Builders
import EliteEvents.Proofs.Durations
import EliteEvents.Spec.PodConfiguration

/-! From the spec of a feed to its running containers: what the operator writes into the pods is what the ingestion
image reads back, in each of the three ways it is run. -/

namespace EliteEvents

open EliteEvents.Configuration

variable {fl : FeedListener} {spec : FeedListenerSpec} {configMaps secrets : String → Labels} {k : ℕ}
  {configHash : String}

theorem value_cons (name text : String) (env : Labels) (key : String) :
    value ((name, text) :: env) key = if names name key then some text else value env key := by
  unfold value
  rw [List.find?_cons]
  cases names name key <;> rfl

@[simp] theorem value_nil (key : String) : value [] key = none := rfl

theorem value_append (env env' : Labels) (key : String) :
    value (env ++ env') key = (value env key).or (value env' key) := by
  unfold value
  rw [List.find?_append, Option.map_or]

/-- The variables of the ConfigMap that are in a section. -/
def sections (spec : FeedListenerSpec) : Labels :=
  [ ("ASPNETCORE_ENVIRONMENT", "Production"),
    ("ConnectionStrings__Redis", spec.redis.connectionString),
    ("Eddn__StreamUrl", spec.relayEndpoint),
    (shardCountKey, itoa spec.consumers.toInt),
    ("Eddn__ReconnectAfterSilence", aspNetDuration spec.reconnectAfterSilence),
    (periodicKey, formatBool !(maintenanceSchedule spec).2),
    ("RedisLiveness__UnreachableRestartThreshold", aspNetDuration spec.redisUnreachableRestartAfter) ]

/-- The password file is in no section. -/
theorem value_config (own : Labels) {key : String} (hk : names "REDIS_AUTH_FILE" key = false) :
    value (own ++ buildConfigData spec) key = value (own ++ sections spec) key := by
  rw [value_append, value_append own, buildConfigData, value_append, ← sections]
  cases spec.redis.authSecret with
  | none => rw [value_nil, Option.or_none]
  | some secret => rw [value_cons, hk, if_neg Bool.false_ne_true, value_nil, Option.or_none]

/-- A key in the environment of a shard: the first variable that names it. -/
theorem value_shard {key : String} (hk : names "REDIS_AUTH_FILE" key = false) :
    value ([(shardIndexEnvVar, itoa k)] ++ buildConfigData spec) key =
      if names shardIndexEnvVar key then some (itoa k)
      else if names "ASPNETCORE_ENVIRONMENT" key then some "Production"
      else if names "ConnectionStrings__Redis" key then some spec.redis.connectionString
      else if names "Eddn__StreamUrl" key then some spec.relayEndpoint
      else if names shardCountKey key then some (itoa spec.consumers.toInt)
      else if names "Eddn__ReconnectAfterSilence" key then some (aspNetDuration spec.reconnectAfterSilence)
      else if names periodicKey key then some (formatBool !(maintenanceSchedule spec).2)
      else if names "RedisLiveness__UnreachableRestartThreshold" key then
        some (aspNetDuration spec.redisUnreachableRestartAfter)
      else none := by
  rw [value_config _ hk, List.singleton_append, sections]
  simp only [value_cons, value_nil]

/-! The options. -/

theorem bindProperty_absent {α : Type} {env : Labels} {convert : List Char → Option α} {key : String} {initial : α}
    (h : value env key = none) : bindProperty env convert key initial = .ok initial := by
  rw [bindProperty, h]

theorem bindProperty_itoa {env : Labels} {key : String} {n initial : Int32} (h : value env key = some (itoa n.toInt)) :
    bindProperty env convertToInt32 key initial = .ok n := by
  have hn : -2 ^ 31 ≤ n.toInt ∧ n.toInt < 2 ^ 31 := ⟨n.le_toInt, n.toInt_lt⟩
  rw [bindProperty, h]
  simp only [trimSpace_itoa, convertToInt32, Decimal.parse_render, Option.bind_some, if_pos hn, Int32.ofInt_toInt]

theorem bindProperty_formatBool {env : Labels} {key : String} {b initial : Bool}
    (h : value env key = some (formatBool b)) : bindProperty env convertToBoolean key initial = .ok b := by
  rw [bindProperty, h]
  cases b <;> rfl

/-- A duration of the resource in whole seconds, as ticks. A negative one counts as none. -/
def wholeSeconds (d : ℤ) : ℕ := d.toNat / 1000000000 * TimeSpan.ticksPerSecond

theorem parse_duration_iff (d : ℤ) :
    TimeSpan.parse (aspNetDuration d).toList = some (wholeSeconds d) ↔ d < 24 * 3600 * 1000000000 := by
  have hd : aspNetDuration d = aspNetDuration (d.toNat : ℤ) := rfl
  rw [hd, parse_aspNetDuration, wholeSeconds, TimeSpan.read_seconds_iff]
  omega

theorem trimSpace_aspNetDuration (d : ℤ) : trimSpace (aspNetDuration d).toList = (aspNetDuration d).toList := by
  have hpad : ∀ n, ∀ c ∈ (pad2 n).toList, isSpace c = false := by
    intro n c hc
    have hdigits := parseNat_pad2 n
    unfold Decimal.parseNat at hdigits
    split_ifs at hdigits with h
    exact isSpace_digit (.inl (h.2 c hc))
  have hall : ∀ c ∈ (aspNetDuration d).toList, isSpace c = false := by
    intro c hc
    have hcolon : ∀ c ∈ ":".toList, isSpace c = false := by decide
    simp only [aspNetDuration, String.toList_append, List.mem_append] at hc
    rcases hc with (((hc | hc) | hc) | hc) | hc
    · exact hpad _ c hc
    · exact hcolon c hc
    · exact hpad _ c hc
    · exact hcolon c hc
    · exact hpad _ c hc
  rw [trimSpace, dropWhile_of_forall hall, dropWhile_of_forall fun c hc => hall c (List.mem_reverse.mp hc),
    List.reverse_reverse]

/-- What a property makes of a duration that the operator wrote. -/
theorem bindProperty_duration {α : Type} {env : Labels} {convert : List Char → Option α} {key : String} {initial : α}
    {d : ℤ} (h : value env key = some (aspNetDuration d)) :
    bindProperty env convert key initial =
      match convert (aspNetDuration d).toList with
      | none => .error key
      | some a => .ok a := by
  rw [bindProperty, h]
  cases hc : convert (aspNetDuration d).toList <;> simp only [trimSpace_aspNetDuration, hc]

/-! The pods. -/

theorem shard_environment (h : configMaps (configMapName fl.name) = (buildConfigMap fl).data) :
    (buildShardDeployment fl k configHash).template.spec.environment configMaps =
      [(shardIndexEnvVar, itoa k)] ++ buildConfigData fl.spec := by
  simp [PodSpec.environment, buildShardDeployment, shardContainer, containerEnv, h, buildConfigMap]

theorem oneShot_environment {name arg : String} (h : configMaps (configMapName fl.name) = (buildConfigMap fl).data) :
    (oneShotPodSpec fl name arg).environment configMaps = buildConfigData fl.spec := by
  simp [PodSpec.environment, oneShotPodSpec, containerEnv, h, buildConfigMap]

/-- The options of a shard, with each of the two durations as its text is read. -/
theorem eddnSection_shard (hk : (k : ℤ) < fl.spec.consumers.toInt) :
    EddnSection.ofEnv ([(shardIndexEnvVar, itoa k)] ++ buildConfigData fl.spec) =
      match TimeSpan.parse (aspNetDuration fl.spec.reconnectAfterSilence).toList with
      | none => .error "Eddn:ReconnectAfterSilence"
      | some ticks => .ok
        { EddnSection.default with
          shardIndex := Int32.ofInt k
          shardCount := fl.spec.consumers
          streamUrl := fl.spec.relayEndpoint
          reconnectAfterSilence := ticks } := by
  set env := [(shardIndexEnvVar, itoa k)] ++ buildConfigData fl.spec with henv
  have hwatermark : value env "Eddn:ReceiveHighWatermark" = none := by
    rw [henv, value_shard (by decide)]
    simp +decide only [if_false]
  have htimeout : value env "Eddn:ReceiveTimeout" = none := by
    rw [henv, value_shard (by decide)]
    simp +decide only [if_false]
  have hreconnect : value env "Eddn:ReconnectAfterSilence" = some (aspNetDuration fl.spec.reconnectAfterSilence) := by
    rw [henv, value_shard (by decide)]
    simp +decide only [if_true, if_false]
  have hcount : value env "Eddn:ShardCount" = some (itoa fl.spec.consumers.toInt) := by
    rw [henv, value_shard (by decide)]
    simp +decide only [if_true, if_false]
  have hindex : value env "Eddn:ShardIndex" = some (itoa (Int32.ofInt k).toInt) := by
    have hmax := fl.spec.consumers.toInt_lt
    rw [toInt_ofInt ⟨by omega, by omega⟩, henv, value_shard (by decide)]
    simp +decide only [if_true]
  have hurl : value env "Eddn:StreamUrl" = some fl.spec.relayEndpoint := by
    rw [henv, value_shard (by decide)]
    simp +decide only [if_true, if_false]
  rw [EddnSection.ofEnv, bindProperty_absent hwatermark, bindProperty_absent htimeout, bindProperty_duration hreconnect,
    bindProperty_itoa hcount, bindProperty_itoa hindex, hurl]
  cases TimeSpan.parse (aspNetDuration fl.spec.reconnectAfterSilence).toList <;> rfl

theorem indexMaintenance_shard :
    IndexMaintenanceOptions.ofEnv ([(shardIndexEnvVar, itoa k)] ++ buildConfigData fl.spec) =
      .ok { IndexMaintenanceOptions.default with periodic := !(maintenanceSchedule fl.spec).2 } := by
  set env := [(shardIndexEnvVar, itoa k)] ++ buildConfigData fl.spec with henv
  have hperiodic : value env "IndexMaintenance:Periodic" = some (formatBool !(maintenanceSchedule fl.spec).2) := by
    rw [henv, value_shard (by decide)]
    simp +decide only [if_true, if_false]
  have hinterval : value env "IndexMaintenance:Interval" = none := by
    rw [henv, value_shard (by decide)]
    simp +decide only [if_false]
  rw [IndexMaintenanceOptions.ofEnv, bindProperty_formatBool hperiodic, bindProperty_absent hinterval]
  rfl

theorem redisLiveness_shard :
    RedisLivenessOptions.ofEnv ([(shardIndexEnvVar, itoa k)] ++ buildConfigData fl.spec) =
      match TimeSpan.parse (aspNetDuration fl.spec.redisUnreachableRestartAfter).toList with
      | none => .error "RedisLiveness:UnreachableRestartThreshold"
      | some ticks => .ok { RedisLivenessOptions.default with unreachableRestartThreshold := ticks } := by
  set env := [(shardIndexEnvVar, itoa k)] ++ buildConfigData fl.spec with henv
  have hprobe : value env "RedisLiveness:ProbeInterval" = none := by
    rw [henv, value_shard (by decide)]
    simp +decide only [if_false]
  have htimeout : value env "RedisLiveness:ProbeTimeout" = none := by
    rw [henv, value_shard (by decide)]
    simp +decide only [if_false]
  have hthreshold : value env "RedisLiveness:UnreachableRestartThreshold" =
      some (aspNetDuration fl.spec.redisUnreachableRestartAfter) := by
    rw [henv, value_shard (by decide)]
    simp +decide only [if_true, if_false]
  rw [RedisLivenessOptions.ofEnv, bindProperty_absent hprobe, bindProperty_absent htimeout,
    bindProperty_duration hthreshold]
  cases TimeSpan.parse (aspNetDuration fl.spec.redisUnreachableRestartAfter).toList <;> rfl

/-- The pod of a shard binds the options that the spec asks for, with its own shard, durations in whole seconds, the
in-process timer on exactly if no CronJob is scheduled, and the defaults of the classes elsewhere, if and only if both
durations are shorter than a day. -/
theorem shard_binds_its_spec_iff (h : configMaps (configMapName fl.name) = (buildConfigMap fl).data)
    (hk : (k : ℤ) < fl.spec.consumers.toInt) (configHash : String) :
    let env := (buildShardDeployment fl k configHash).template.spec.environment configMaps
    (EddnSection.ofEnv env = .ok
        { EddnSection.default with
          shardIndex := Int32.ofInt k
          shardCount := fl.spec.consumers
          streamUrl := fl.spec.relayEndpoint
          reconnectAfterSilence := wholeSeconds fl.spec.reconnectAfterSilence } ∧
      IndexMaintenanceOptions.ofEnv env =
        .ok { IndexMaintenanceOptions.default with periodic := !(maintenanceSchedule fl.spec).2 } ∧
      RedisLivenessOptions.ofEnv env = .ok
        { RedisLivenessOptions.default with
          unreachableRestartThreshold := wholeSeconds fl.spec.redisUnreachableRestartAfter }) ↔
      fl.spec.reconnectAfterSilence < 24 * 3600 * 1000000000 ∧
        fl.spec.redisUnreachableRestartAfter < 24 * 3600 * 1000000000 := by
  intro env
  have henv : env = [(shardIndexEnvVar, itoa k)] ++ buildConfigData fl.spec := shard_environment h
  rw [henv, eddnSection_shard hk, indexMaintenance_shard, redisLiveness_shard, ← parse_duration_iff,
    ← parse_duration_iff]
  cases TimeSpan.parse (aspNetDuration fl.spec.reconnectAfterSilence).toList <;>
    cases TimeSpan.parse (aspNetDuration fl.spec.redisUnreachableRestartAfter).toList <;> simp

/-- The ConfigMap of the sample feed at three consumers. -/
def eddnConfigMaps (name : String) : Labels :=
  if name = configMapName "eddn" then (buildConfigMap (eddnFeed 1 3)).data else []

theorem shard_binds_its_spec_eddn :
    EddnSection.ofEnv ((buildShardDeployment (eddnFeed 1 3) 2 "").template.spec.environment eddnConfigMaps) = .ok
      { EddnSection.default with shardIndex := Int32.ofInt (2 : ℕ), shardCount := 3 } :=
  ((@shard_binds_its_spec_iff (eddnFeed 1 3) eddnConfigMaps 2 rfl (by decide) "").mpr ⟨by decide, by decide⟩).1

/-! The connection. -/

theorem lookup_authFile (own : Labels) (hown : own.lookup "REDIS_AUTH_FILE" = none) :
    (own ++ buildConfigData spec).lookup "REDIS_AUTH_FILE" =
      spec.redis.authSecret.map fun secret => redisAuthMountPath ++ "/" ++ secret.key := by
  rw [List.lookup_append, hown, Option.none_or, buildConfigData]
  cases spec.redis.authSecret <;> rfl

/-- Each key of a Secret is the file of its name. -/
theorem findSome_file (data : Labels) (mountPath key : String) :
    (data.findSome? fun entry => if mountPath ++ "/" ++ key = mountPath ++ "/" ++ entry.1 then some entry.2 else none) =
      data.lookup key := by
  induction data with
  | nil => rfl
  | cons p data ih =>
    obtain ⟨k, v⟩ := p
    have hkey : mountPath ++ "/" ++ key = mountPath ++ "/" ++ k ↔ key = k := by
      rw [← String.toList_inj, ← String.toList_inj]
      simp only [String.toList_append, List.append_cancel_left_eq]
    rw [List.findSome?_cons, List.lookup_cons, ih]
    by_cases hk : key = k
    · simp [hk]
    · simp [hkey, hk, beq_false_of_ne hk]

theorem readAllText_auth {p : PodSpec} {secret : RedisAuthSecret} (hs : spec.redis.authSecret = some secret)
    (hmounts : p.container.volumeMounts = authMounts spec) (hvolumes : p.volumes = authVolumes spec) :
    p.readAllText secrets (redisAuthMountPath ++ "/" ++ secret.key) = (secrets secret.name).lookup secret.key := by
  rw [PodSpec.readAllText, hmounts, hvolumes, authMounts, authVolumes, hs]
  simp only [List.findSome?_cons, List.findSome?_nil, List.lookup_cons_self, Option.bind_some, findSome_file]
  cases (secrets secret.name).lookup secret.key <;> rfl

/-- A pod that mounts what the operator mounts, and has no password file of its own. -/
theorem connect_pod {p : PodSpec} {own : Labels} (hown : own.lookup "REDIS_AUTH_FILE" = none)
    (hurl : value own "ConnectionStrings:Redis" = none) (henv : p.environment configMaps = own ++ buildConfigData spec)
    (hmounts : p.container.volumeMounts = authMounts spec) (hvolumes : p.volumes = authVolumes spec) :
    connect (p.environment configMaps) (p.readAllText secrets) =
      { connectionString := spec.redis.connectionString
        password := spec.redis.authSecret.bind fun secret =>
          ((secrets secret.name).lookup secret.key).map fun text => String.ofList (trimSpace text.toList) } := by
  have hvalue : value (own ++ buildConfigData spec) "ConnectionStrings:Redis" = some spec.redis.connectionString := by
    rw [value_config _ (by decide), value_append, hurl, Option.none_or]
    simp +decide only [sections, value_cons, if_true, if_false]
  rw [connect, henv, hvalue, lookup_authFile own hown]
  cases hs : spec.redis.authSecret with
  | none => rfl
  | some secret =>
    have hpath : redisAuthMountPath ++ "/" ++ secret.key ≠ "" := by
      intro hempty
      have := congrArg String.toList hempty
      simp [redisAuthMountPath] at this
    simp only [Option.map_some, if_neg hpath, readAllText_auth hs hmounts hvolumes, Option.bind_some]
    rfl

/-- Whatever the feed, the pods of its shards ingest, those of its CronJob rebuild and that of its drain Job purges; and
all of them connect to the Redis of the spec, with the trimmed value of the Secret's key for a password where a Secret
is given that has it. -/
theorem pods_run_as_specified (h : configMaps (configMapName fl.name) = (buildConfigMap fl).data) (k : ℕ)
    (configHash : String) (secrets : String → Labels) :
    ∀ p ∈ [((buildShardDeployment fl k configHash).template.spec, ProgramMode.ingest),
        ((buildMaintenanceCronJob fl).jobTemplate.template.spec, ProgramMode.rebuild),
        ((buildDrainJob fl).template.spec, ProgramMode.purge)],
      programMode p.1.container.args = p.2 ∧
        connect (p.1.environment configMaps) (p.1.readAllText secrets) =
          { connectionString := fl.spec.redis.connectionString
            password := fl.spec.redis.authSecret.bind fun secret =>
              ((secrets secret.name).lookup secret.key).map fun text => String.ofList (trimSpace text.toList) } := by
  -- a one-shot pod has no variables of its own
  have hnone : ([] : Labels).lookup "REDIS_AUTH_FILE" = none := rfl
  have honeShot : ∀ name arg, connect ((oneShotPodSpec fl name arg).environment configMaps)
      ((oneShotPodSpec fl name arg).readAllText secrets) = _ := fun name arg =>
    connect_pod hnone rfl (oneShot_environment h) rfl rfl
  intro p hp
  simp only [List.mem_cons, List.not_mem_nil, or_false] at hp
  rcases hp with rfl | rfl | rfl
  · refine ⟨rfl, connect_pod rfl ?_ (@shard_environment fl configMaps k configHash h) rfl rfl⟩
    rw [value_cons, if_neg (by decide), value_nil]
  · exact ⟨rfl, honeShot _ _⟩
  · exact ⟨rfl, honeShot _ _⟩

theorem pods_run_as_specified_eddn :
    connect ((buildDrainJob (eddnFeed 1 3)).template.spec.environment eddnConfigMaps)
      ((buildDrainJob (eddnFeed 1 3)).template.spec.readAllText fun _ => [("password", "s3cret\n")]) =
      ⟨"redis:6379,abortConnect=false", some "s3cret"⟩ :=
  (@pods_run_as_specified (eddnFeed 1 3) eddnConfigMaps rfl 2 "" (fun _ => [("password", "s3cret\n")]) _
    (.tail _ (.tail _ (.head _)))).2

end EliteEvents

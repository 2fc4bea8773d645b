import EliteEvents.Lib.Glob
import EliteEvents.Spec.DockingWriter

/-! `SearchIndexMaintainer`: the rebuild of a search index from the keys that exist, first as
the plan it computes from what ZSCAN and SCAN returned, then as a run whose server calls
interleave with the writers' commands and with time. -/

namespace EliteEvents

open Text Redis

/-- The two search indexes, with what `RebuildAsync` is told about each. -/
inductive Catalog
  | system
  | carrier
  deriving DecidableEq

namespace Catalog

def index : Catalog → Str
  | .system => RedisKeys.systemIndex
  | .carrier => RedisKeys.carrierIndex

def livePattern : Catalog → Str
  | .system => RedisKeys.allSystemStationsPattern
  | .carrier => RedisKeys.allCarrierDaysPattern

/-- The key whose existence makes a name live. -/
def dataKey : Catalog → Str → Str
  | .system, name => RedisKeys.systemStations name
  | .carrier, name => RedisKeys.carrierDays name

end Catalog

/-- `Enumerable.Chunk`, on at most `fuel` elements. -/
def chunkFrom (size : ℕ) : ℕ → List Str → List (List Str)
  | 0, _ => []
  | fuel + 1, l => if l = [] then [] else l.take size :: chunkFrom size fuel (l.drop size)

def chunk (size : ℕ) (l : List Str) : List (List Str) := chunkFrom size l.length l

structure IndexRebuildResult where
  added : ℕ
  removed : ℕ
  total : ℕ
  deriving DecidableEq

namespace SearchIndexMaintainer

def writeChunkSize : ℕ := 500

/-- The names behind the scanned keys, as a set. -/
def liveNames (keys : List Str) : List Str := (keys.filterMap RedisKeys.extractName).dedup

def toAdd (indexed live : List Str) : List Str := live.filter fun name => name ∉ indexed
def toRemove (indexed live : List Str) : List Str := indexed.filter fun name => name ∉ live

/-- The writes of a rebuild: the additions in chunks, then the removals. -/
def writes (index : Str) (indexed live : List Str) : List Cmd :=
  ((chunk writeChunkSize (toAdd indexed live)).map fun names =>
      (Cmd.zadd index (names.map fun name => (name, RedisKeys.indexScore))).encode) ++
    (chunk writeChunkSize (toRemove indexed live)).map fun names => (Cmd.zrem index names).encode

def result (indexed live : List Str) : IndexRebuildResult :=
  ⟨(toAdd indexed live).length, (toRemove indexed live).length, live.length⟩

/-- What SCAN may return: the existing keys that match. -/
def scannable (κ : Catalog) (σ : Store) (k : Str) : Bool :=
  (σ.val k).isSome && globMatch κ.livePattern k

/-- `RebuildAsync` with the server to itself and no key lapsing, from what its two scans
returned. -/
def rebuild (κ : Catalog) (now : Time) (zscanned scanned : List Str) (σ : Store) :
    Store × IndexRebuildResult :=
  let indexed := zscanned.dedup
  let live := liveNames scanned
  (applyAll ((writes κ.index indexed live).map fun c => (now, c)) σ, result indexed live)

end SearchIndexMaintainer

/-- Where a rebuild stands. A scan carries, beside what it has returned, the elements that
were there at its start and at every moment since: those it must return before it ends. -/
inductive Phase
  | idle
  | snapshot (steady indexed : List Str)
  | scan (indexed steady keys : List Str)
  | write (todo : List Cmd) (result : IndexRebuildResult)
  | done (result : IndexRebuildResult)

/-- A server with batches in flight and one rebuild. Time passes in steps of their own, which
drop the keys that lapse, so the store never holds a lapsed key at `now`. -/
structure RebuildWorld where
  now : Time
  store : Store
  batches : List (List Cmd)
  phase : Phase

inductive RebuildAction
  | tick (t : Time)
  | submit (call : WriterCall) (nextExpiration : Time)
  | command (i : ℕ)
  | start
  | zscanPage (members : List Str)
  | zscanEnd
  | scanPage (keys : List Str)
  | scanEnd
  | writeChunk
  | finish
  deriving DecidableEq

namespace RebuildWorld

open SearchIndexMaintainer

def init (now : Time) (σ : Store) : RebuildWorld := ⟨now, σ, [], .idle⟩

/-- A scan in progress forgets the elements that are no longer there. -/
def observe (κ : Catalog) (σ : Store) : Phase → Phase
  | .snapshot steady indexed => .snapshot (steady.filter (· ∈ σ.zmembers κ.index)) indexed
  | .scan indexed steady keys => .scan indexed (steady.filter (scannable κ σ)) keys
  | p => p

def setStore (κ : Catalog) (w : RebuildWorld) (σ : Store) : RebuildWorld :=
  { w with store := σ, phase := observe κ σ w.phase }

/-- One step, if it is enabled. -/
def step (I : Casing) (κ : Catalog) (w : RebuildWorld) : RebuildAction → Option RebuildWorld
  | .tick t =>
    if w.now ≤ t then some { w.setStore κ (w.store.purge t) with now := t } else none
  | .submit call nextExpiration =>
    some { w with batches := w.batches ++ [DockingWriter.batch I nextExpiration call] }
  | .command i =>
    match w.batches[i]? with
    | some (c :: rest) =>
      some { w.setStore κ (c.apply w.now w.store) with batches := w.batches.set i rest }
    | _ => none
  | .start =>
    match w.phase with
    | .idle => some { w with phase := .snapshot (w.store.zmembers κ.index) [] }
    | _ => none
  | .zscanPage members =>
    match w.phase with
    | .snapshot steady indexed =>
      if ∀ m ∈ members, m ∈ w.store.zmembers κ.index then
        some { w with phase := .snapshot steady (indexed ++ members) }
      else none
    | _ => none
  | .zscanEnd =>
    match w.phase with
    | .snapshot steady indexed =>
      if ∀ m ∈ steady, m ∈ indexed then
        some { w with phase := .scan indexed.dedup (w.store.keys.filter (scannable κ w.store)) [] }
      else none
    | _ => none
  | .scanPage keys =>
    match w.phase with
    | .scan indexed steady seen =>
      if ∀ k ∈ keys, scannable κ w.store k then
        some { w with phase := .scan indexed steady (seen ++ keys) }
      else none
    | _ => none
  | .scanEnd =>
    match w.phase with
    | .scan indexed steady seen =>
      let live := liveNames seen
      if ∀ k ∈ steady, k ∈ seen then
        some { w with phase := .write (writes κ.index indexed live) (result indexed live) }
      else none
    | _ => none
  | .writeChunk =>
    match w.phase with
    | .write (c :: todo) r =>
      some { w with store := c.apply w.now w.store, phase := .write todo r }
    | _ => none
  | .finish =>
    match w.phase with
    | .write [] r => some { w with phase := .done r }
    | _ => none

/-- The actions of a run, one after the other. -/
def run (I : Casing) (κ : Catalog) (w : RebuildWorld) : List RebuildAction → Option RebuildWorld
  | [] => some w
  | a :: as => (w.step I κ a).bind fun w' => w'.run I κ as

/-- The rebuild has finished and no batch is in flight. -/
def quiet (w : RebuildWorld) : Bool :=
  (match w.phase with
    | .done _ => true
    | _ => false) && w.batches.all List.isEmpty

end RebuildWorld

end EliteEvents

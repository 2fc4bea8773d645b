import EliteEvents.Lib.Decimal
import Mathlib.Data.List.AList

/-! A Redis server: a finite keyspace of strings, hashes and sorted sets with key
expiry, and the commands that write it. A lapsed key is invisible from its deadline on;
an aggregate value without elements does not exist; a command on a key of another type
fails and changes nothing. Keys, members and field values are text, as the strings they
read back as. -/

namespace Redis

open Text

/-- Server time, in milliseconds. -/
abbrev Time := ℕ

abbrev Hash := AList fun _ : Str => Str
abbrev ZSet := AList fun _ : Str => ℤ

inductive Value
  | str (s : Str)
  | hash (h : Hash)
  | zset (z : ZSet)

/-- An aggregate without elements: Redis deletes the key instead of storing it. -/
def Value.isEmpty : Value → Bool
  | .str _ => false
  | .hash h => h.entries.isEmpty
  | .zset z => z.entries.isEmpty

def Value.hget : Value → Str → Option Str
  | .hash h, f => h.lookup f
  | _, _ => none

def Value.zscore : Value → Str → Option ℤ
  | .zset z, m => z.lookup m
  | _, _ => none

def Value.counter : Value → ℤ
  | .str s => (Decimal.ofText s).getD 0
  | _ => 0

structure Entry where
  val : Value
  expiry : Option Time

def Entry.lapsed (now : Time) (e : Entry) : Bool :=
  match e.expiry with
  | none => false
  | some deadline => decide (deadline < now)

abbrev Store := AList fun _ : Str => Entry

inductive Error
  | wrongType
  | notInteger
  deriving DecidableEq

inductive Cmd
  | incr (k : Str)
  | hincrby (k f : Str) (n : ℤ)
  | hset (k : Str) (fs : List (Str × Str))
  | zadd (k : Str) (es : List (Str × ℤ))
  | zincrby (k : Str) (n : ℤ) (m : Str)
  | zrem (k : Str) (ms : List Str)
  | expire (k : Str) (ttl : Time)
  | expireAt (k : Str) (deadline : Time)
  | set (k v : Str) (ttl : Option Time)
  | del (ks : List Str)
  deriving DecidableEq

namespace Store

/-- The keyspace as it is seen at `now`: lapsed keys are gone. -/
def purge (now : Time) (σ : Store) : Store :=
  ⟨σ.entries.filter fun e => !e.2.lapsed now, σ.nodupKeys.sublist List.filter_sublist⟩

/-- Replace the value of a key and keep its deadline. -/
def put (σ : Store) (k : Str) (v : Value) : Store :=
  if v.isEmpty then σ.erase k else σ.insert k ⟨v, (σ.lookup k).bind Entry.expiry⟩

def val (σ : Store) (k : Str) : Option Value := (σ.lookup k).map Entry.val

/-- PEXPIRETIME; none for a missing key or one without a deadline. -/
def deadline (σ : Store) (k : Str) : Option Time := (σ.lookup k).bind Entry.expiry

def hash (σ : Store) (k : Str) : Except Error Hash :=
  match σ.val k with
  | none => .ok ∅
  | some (.hash h) => .ok h
  | some _ => .error .wrongType

def zset (σ : Store) (k : Str) : Except Error ZSet :=
  match σ.val k with
  | none => .ok ∅
  | some (.zset z) => .ok z
  | some _ => .error .wrongType

/-- GET, as an integer counter; a missing key counts 0. -/
def counter (σ : Store) (k : Str) : ℤ := ((σ.val k).map Value.counter).getD 0

/-- HGET. -/
def hget (σ : Store) (k f : Str) : Option Str := (σ.val k).bind fun v => v.hget f

/-- HGET, as an integer counter; a missing field counts 0. -/
def hcount (σ : Store) (k f : Str) : ℤ := ((σ.hget k f).bind Decimal.ofText).getD 0

/-- ZSCORE. -/
def zscore (σ : Store) (k m : Str) : Option ℤ := (σ.val k).bind fun v => v.zscore m

/-- The members of a sorted set, in no particular order. -/
def zmembers (σ : Store) (k : Str) : List Str :=
  match σ.val k with
  | some (.zset z) => z.keys
  | _ => []

end Store

/-- Redis orders a sorted set by score, then by the bytes of the member. -/
def zLe (a b : Str × ℤ) : Bool :=
  decide (a.2 < b.2) || (decide (a.2 = b.2) && decide (utf8 a.1 ≤ utf8 b.1))

/-- ZREVRANGEBYSCORE over the whole score range: the members with their scores, highest first. -/
def zrevrange (z : ZSet) : List (Str × ℤ) :=
  (z.entries.map fun e => (e.1, e.2)).mergeSort fun a b => zLe b a

/-- ZREVRANGEBYSCORE down to an exclusive bound, with a limit on the number of members. -/
def zrevrangeByScore (floor : ℤ) (limit : ℕ) (z : ZSet) : List (Str × ℤ) :=
  ((zrevrange z).takeWhile fun p => decide (floor < p.2)).take limit

/-- ZRANGEBYLEX: the members between two bounds, in the order of the set, which is that of their bytes
where all scores are the same. -/
def zrangeByLex (min max : List UInt8) (limit : ℕ) (z : ZSet) : List Str :=
  ((((z.entries.map fun e => (e.1, e.2)).mergeSort zLe).map Prod.fst).filter fun m =>
    decide (min ≤ utf8 m) && decide (utf8 m ≤ max)).take limit

def addFields (h : Hash) (fs : List (Str × Str)) : Hash := fs.foldl (fun h p => h.insert p.1 p.2) h
def addMembers (z : ZSet) (es : List (Str × ℤ)) : ZSet := es.foldl (fun z p => z.insert p.1 p.2) z
def eraseMembers (z : ZSet) (ms : List Str) : ZSet := ms.foldl (fun z m => z.erase m) z

/-- One command at server time `now`, on a keyspace without lapsed keys. -/
def Cmd.run (now : Time) : Cmd → Store → Except Error Store
  | .incr k, σ =>
    match σ.val k with
    | none => .ok (σ.put k (.str (Decimal.text 1)))
    | some (.str s) =>
      match Decimal.ofText s with
      | some n => .ok (σ.put k (.str (Decimal.text (n + 1))))
      | none => .error .notInteger
    | some _ => .error .wrongType
  | .hincrby k f n, σ =>
    match σ.hash k with
    | .error e => .error e
    | .ok h =>
      match h.lookup f with
      | none => .ok (σ.put k (.hash (h.insert f (Decimal.text n))))
      | some s =>
        match Decimal.ofText s with
        | some m => .ok (σ.put k (.hash (h.insert f (Decimal.text (m + n)))))
        | none => .error .notInteger
  | .hset k fs, σ => (σ.hash k).map fun h => σ.put k (.hash (addFields h fs))
  | .zadd k es, σ => (σ.zset k).map fun z => σ.put k (.zset (addMembers z es))
  | .zincrby k n m, σ =>
    (σ.zset k).map fun z => σ.put k (.zset (z.insert m ((z.lookup m).getD 0 + n)))
  | .zrem k ms, σ => (σ.zset k).map fun z => σ.put k (.zset (eraseMembers z ms))
  | .expire k ttl, σ =>
    .ok (match σ.lookup k with
      | none => σ
      | some e => σ.insert k { e with expiry := some (now + ttl) })
  | .expireAt k deadline, σ =>
    .ok (match σ.lookup k with
      | none => σ
      | some e =>
        -- a deadline that is not in the future deletes the key
        if deadline ≤ now then σ.erase k else σ.insert k { e with expiry := some deadline })
  | .set k v ttl, σ => .ok (σ.insert k ⟨.str v, ttl.map (now + ·)⟩)
  | .del ks, σ => .ok (ks.foldl (fun σ k => σ.erase k) σ)

/-- A command on a keyspace as it is: an error leaves it alone. -/
def Cmd.apply (now : Time) (c : Cmd) (σ : Store) : Store :=
  match c.run now σ with
  | .ok σ' => σ'
  | .error _ => σ

/-- A command as the server runs it: lapsed keys are dropped first. -/
def Cmd.exec (now : Time) (c : Cmd) (σ : Store) : Store := c.apply now (σ.purge now)

/-- Commands with the time each one runs at, on a server where no key lapses. -/
def applyAll (cs : List (Time × Cmd)) (σ : Store) : Store := cs.foldl (fun σ p => p.2.apply p.1 σ) σ

/-- Commands with the time each one runs at, all of which must succeed. -/
def runAll : List (Time × Cmd) → Store → Except Error Store
  | [], σ => .ok σ
  | p :: cs, σ =>
    match p.2.run p.1 σ with
    | .error e => .error e
    | .ok σ' => runAll cs σ'

/-- The commands of one batch, run back to back at one instant. -/
def execAll (now : Time) (cs : List Cmd) (σ : Store) : Store := cs.foldl (fun σ c => c.exec now σ) σ

/-- A command as the client sends it, its text encoded. -/
def Cmd.encode : Cmd → Cmd
  | .incr k => .incr (wire k)
  | .hincrby k f n => .hincrby (wire k) (wire f) n
  | .hset k fs => .hset (wire k) (fs.map fun p => (wire p.1, wire p.2))
  | .zadd k es => .zadd (wire k) (es.map fun p => (wire p.1, p.2))
  | .zincrby k n m => .zincrby (wire k) n (wire m)
  | .zrem k ms => .zrem (wire k) (ms.map wire)
  | .expire k ttl => .expire (wire k) ttl
  | .expireAt k deadline => .expireAt (wire k) deadline
  | .set k v ttl => .set (wire k) (wire v) ttl
  | .del ks => .del (ks.map wire)

end Redis

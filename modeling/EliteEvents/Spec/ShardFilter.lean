import EliteEvents.Lib.Text

/-! `MessageShardFilter`: which consumer owns a message. The feed is a broadcast, so every
consumer sees every frame and keeps the ones whose hash falls in its own residue class. -/

namespace EliteEvents

open Text

/-- The exceptions of the constructor, with the parameter each one names. -/
inductive ArgumentOutOfRange
  | shardCount (actual : Int32) (message : String)
  | shardIndex (actual : Int32) (message : String)
  deriving DecidableEq

/-- A filter that was constructed: its index lies in `[0, shardCount)`. -/
structure MessageShardFilter where
  shardIndex : Int32
  shardCount : Int32
  index_nonneg : 0 ≤ shardIndex
  index_lt : shardIndex < shardCount

namespace MessageShardFilter

def create (shardIndex shardCount : Int32) : Except ArgumentOutOfRange MessageShardFilter :=
  if shardCount < 1 then
    .error (.shardCount shardCount "Shard count must be at least 1.")
  else if h : shardIndex < 0 ∨ shardCount ≤ shardIndex then
    .error (.shardIndex shardIndex s!"Shard index must be within [0, {shardCount.toInt}).")
  else
    .ok ⟨shardIndex, shardCount, Int32.not_lt.mp (not_or.mp h).1, Int32.not_le.mp (not_or.mp h).2⟩

def offsetBasis : UInt32 := 2166136261
def prime : UInt32 := 16777619

/-- One turn of the FNV-1a loop: the low byte of the code unit, then the high byte. -/
def hashUnit (hash : UInt32) (c : UInt16) : UInt32 :=
  let hash := (hash ^^^ c.toUInt8.toUInt32) * prime
  (hash ^^^ (c >>> 8).toUInt8.toUInt32) * prime

/-- The avalanche steps after the loop. -/
def finalize (hash : UInt32) : UInt32 :=
  let hash := hash ^^^ (hash >>> 16)
  let hash := hash * 0x85EBCA6B
  let hash := hash ^^^ (hash >>> 13)
  let hash := hash * 0xC2B2AE35
  hash ^^^ (hash >>> 16)

def stableHash (value : Str) : UInt32 := finalize (value.foldl hashUnit offsetBasis)

def owns (f : MessageShardFilter) (rawMessage : Str) : Bool :=
  if f.shardCount = 1 then true
  else stableHash rawMessage % f.shardCount.toUInt32 == f.shardIndex.toUInt32

end MessageShardFilter

/-- The filter of a consumer that is alone. -/
def onlyShard : MessageShardFilter := ⟨0, 1, by decide, by decide⟩

end EliteEvents

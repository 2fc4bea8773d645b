import EliteEvents.Spec.Ingestion
import EliteEvents.Spec.Controller

/-! Feed health on its way from the consumers to the resource: each process counts from its own
start (`StreamHealthTracker`), answers `/health/stream`, and the operator polls the pods while
they receive, restart and go. -/

namespace EliteEvents

/-- A consumer process in its pod. `messages` are the arrival times of what it received since it
started, newest first. -/
structure Process where
  shard : MessageShardFilter
  reconnectAfterSilence : ℕ
  state : ReceiverState
  messages : List ℕ

/-- `GET /health/stream`. Times are in nanoseconds there and in ticks here; the tracker always
has one. -/
def Process.health (p : Process) : StreamStatus where
  lastMessageUtc := some (100 * (p.state.lastMessageTicks : ℤ))
  messagesReceived := p.state.messagesReceived
  shardIndex := p.shard.shardIndex
  shardCount := p.shard.shardCount

/-- A probe that was answered: the process that answered it, and the clock that `time.Since`
then read. -/
structure Reading where
  process : Process
  now : Option ℤ

/-- The consumers by pod IP, the operator's poll and the resource. `received` are the arrival
times of all messages of all consumers so far; `readings` are those of the poll in progress, the
last one first; `written` is the last status that was written, with the readings it came from. -/
structure Telemetry where
  clock : ℕ
  processes : String → Option Process
  received : List ℕ
  lastMessageTime : Option ℤ
  worker : Prog Call Answer (Except Err Requeue)
  readings : List Reading
  written : Option (FeedListener × List Reading)

namespace Telemetry

def initial (clock : ℕ) : Telemetry := ⟨clock, fun _ => none, [], none, .pure (.ok none), [], none⟩

inductive Action
  | tick (d : ℕ)
  /-- a process starts, or restarts -/
  | start (ip : String) (shard : MessageShardFilter) (reconnectAfterSilence : ℕ) (seed : Turn)
  | stop (ip : String)
  /-- a turn of the receive loop -/
  | turn (ip : String) (t : Turn)
  /-- the operator comes to `reconcileStatus`, with the resource as it is stored -/
  | poll (fl : FeedListener)
  /-- the poll's next call: what the API server answers, whether the probe fails, the clock below
  a tick, and whether a status write takes effect -/
  | call (other : (c : Call) → Answer c) (failure : Option ApiError) (nanos : Fin 100) (landed : Bool)

variable {J : Type} (X : External J)

/-- A turn of one process. An exception ends it. -/
def takeTurn (w : Telemetry) (ip : String) (p : Process) (t : Turn) : Telemetry :=
  let t := { t with arrival := w.clock }
  match Receiver.turn X p.shard p.reconnectAfterSilence t p.state with
  | .error _ => { w with processes := Function.update w.processes ip none }
  | .ok (state, _) =>
    match Receiver.receive X t.received with
    | .ok (some _) =>
      { w with
        processes := Function.update w.processes ip
          (some { p with state := state, messages := w.clock :: p.messages })
        received := w.clock :: w.received }
    | _ => { w with processes := Function.update w.processes ip (some { p with state := state }) }

/-- What a call of the poll is answered, and what it leaves behind. -/
def serve (w : Telemetry) (other : (c : Call) → Answer c) (failure : Option ApiError) (nanos : Fin 100)
    (landed : Bool) : (c : Call) → Answer c × Telemetry
  | .probe ip =>
    match w.processes ip, failure with
    | none, _ => (.error ⟨.other, "connection refused"⟩, w)
    | some _, some e => (.error e, w)
    | some p, none => (.ok p.health, { w with readings := ⟨p, none⟩ :: w.readings })
  | .now =>
    let now : ℤ := 100 * w.clock + nanos.val
    (.ok now, { w with readings := match w.readings with
      | [] => []
      | r :: rest => { r with now := some now } :: rest })
  | .updateStatus fl =>
    (other (.updateStatus fl),
      { w with
        lastMessageTime := if landed then fl.status.lastMessageTime else w.lastMessageTime
        written := some (fl, w.readings) })
  | c => (other c, w)

def step (w : Telemetry) : Action → Option Telemetry
  | .tick d => some { w with clock := w.clock + d }
  | .start ip shard silence seed =>
    let p : Process := ⟨shard, silence, (Receiver.startup w.clock seed).1, []⟩
    some { w with processes := Function.update w.processes ip (some p) }
  | .stop ip => some { w with processes := Function.update w.processes ip none }
  | .turn ip t => (w.processes ip).map fun p => w.takeTurn X ip p t
  | .poll fl =>
    match w.worker with
    | .pure _ =>
      if fl.status.lastMessageTime = w.lastMessageTime then
        some { w with worker := reconcileStatus fl, readings := [] }
      else none
    | .call _ _ => none
  | .call other failure nanos landed =>
    match w.worker with
    | .pure _ => none
    | .call c k =>
      let (r, w') := w.serve other failure nanos landed c
      some { w' with worker := k r }

/-- A run whose every step meets a condition on the state it is taken in. -/
def run (ok : Telemetry → Action → Bool) : List Action → Telemetry → Option Telemetry
  | [], w => some w
  | a :: as, w => if ok w a then (w.step X a).bind (run ok as) else none

end Telemetry

end EliteEvents

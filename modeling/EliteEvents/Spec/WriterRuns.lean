import EliteEvents.Lib.Interleaving
import EliteEvents.Spec.DockingWriter

/-! The writers at work, command by command. A batch reaches the server in its own order, but not at
once: the commands of other batches come in between, time passes, and the connection may fail with
some of the commands not sent. -/

namespace EliteEvents

open Text Redis

/-- A call as it is issued. The reset of the visit counts lies ahead of the client's clock. -/
structure IssuedCall where
  call : WriterCall
  nextExpiration : Time
  nextExpiration_pos : 0 < nextExpiration

def IssuedCall.commands (I : Casing) (c : IssuedCall) : List Cmd :=
  DockingWriter.batch I c.nextExpiration c.call

/-- A run of the calls' commands, each at a time of its own, before the reset of the visits. -/
structure Interleaved (I : Casing) (calls : List IssuedCall) (run : List (Time × Cmd)) : Prop where
  order : Interleaving (calls.map (IssuedCall.commands I)) (run.map Prod.snd)
  ahead : ∀ t k deadline, (t, Cmd.expireAt k deadline) ∈ run → t < deadline

/-- The calls that write station and carrier data. -/
inductive DockingCall
  | station (systemName stationName stationType : Str) (utcTimestamp : DateTimeOffset)
  | carrier (carrierId : Str) (utcTimestamp : DateTimeOffset)
  deriving DecidableEq

def DockingCall.call : DockingCall → WriterCall
  | .station s x y t => .stationDocking s x y t
  | .carrier c t => .fleetCarrierDocking c t

/-- A batch under way, with the number of its commands that the server has run. -/
structure Flight where
  docking : DockingCall
  sent : ℕ
  deriving DecidableEq

/-- The commands still to be sent. A docking has none that depends on the reset of the visits. -/
def Flight.rest (I : Casing) (f : Flight) : List Cmd :=
  (DockingWriter.batch I 0 f.docking.call).drop f.sent

/-- A server with batches in flight. Time passes in steps of its own, which drop the keys that lapse, so
the store never holds a lapsed key at `now`. -/
structure WriterWorld where
  now : Time
  store : Store
  flights : List Flight

inductive WriterAction
  | tick (t : Time)
  | submit (d : DockingCall)
  | command (i : ℕ)
  /-- the connection fails: the rest of a batch is never sent -/
  | cut (i : ℕ)
  deriving DecidableEq

namespace WriterWorld

def initial (now : Time) : WriterWorld := ⟨now, ∅, []⟩

def step (I : Casing) (w : WriterWorld) : WriterAction → Option WriterWorld
  | .tick t => if w.now ≤ t then some { w with now := t, store := w.store.purge t } else none
  | .submit d => some { w with flights := w.flights ++ [⟨d, 0⟩] }
  | .command i => do
    let f ← w.flights[i]?
    let c ← (f.rest I).head?
    return { w with store := c.apply w.now w.store,
                    flights := w.flights.set i { f with sent := f.sent + 1 } }
  | .cut i => do
    let _ ← w.flights[i]?
    return { w with flights := w.flights.eraseIdx i }

/-- No batch is in progress. -/
def Quiet (I : Casing) (w : WriterWorld) : Prop := ∀ f ∈ w.flights, f.rest I = []

/-- Reachable by steps each of which meets a condition on the world it is taken in. -/
inductive Reaches (I : Casing) (ok : WriterWorld → WriterAction → Prop) (w : WriterWorld) :
    WriterWorld → Prop
  | refl : Reaches I ok w w
  | step {w₁ w₂ : WriterWorld} (a : WriterAction) (h : Reaches I ok w w₁) (hok : ok w₁ a)
      (hs : w₁.step I a = some w₂) : Reaches I ok w w₂

end WriterWorld

end EliteEvents

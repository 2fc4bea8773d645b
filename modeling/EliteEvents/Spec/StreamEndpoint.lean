import Mathlib.Data.List.DropRight
import EliteEvents.Spec.LiveEventHub

/-! `/api/stream`: what one connection of the live ticker is sent, write by write. -/

namespace EliteEvents

open Text

namespace StreamEndpoint

def cr : UInt16 := 0x0D
def lf : UInt16 := 0x0A

/-- `string.TrimEnd('\r')` -/
def trimEnd (line : Str) : Str := line.rdropWhile (· = cr)

/-- `FormatFrame`: the JSON as the unnamed event, then the HTML as the `ticker` event, with one
`data:` line per line of markup. -/
def formatFrame (frame : TickerFrame) : Str :=
  lit "data: " ++ frame.json ++ lit "\n\n" ++
    lit "event: ticker\n" ++
    (frame.html.splitOn lf).flatMap (fun line => lit "data: " ++ trimEnd line ++ lit "\n") ++
    lit "\n"

/-- What is written to the response at once. -/
inductive Payload
  | connected
  | ping
  | frame (f : TickerFrame)
  deriving DecidableEq

def Payload.text : Payload → Str
  | .connected => lit ": connected\n\n"
  | .ping => lit ": ping\n\n"
  | .frame f => formatFrame f

/-- The endpoint's loop. A turn ends with the keep-alive, or with the frames that `TryRead`
gave before the channel was empty again. -/
def payloads (turns : List (Option (List TickerFrame))) : List Payload :=
  .connected :: turns.flatMap fun
    | none => [.ping]
    | some frames => frames.map .frame

/-- The response body: each write is encoded on its own. -/
def body (ps : List Payload) : List UInt8 := ps.flatMap fun p => utf8 p.text

end StreamEndpoint

end EliteEvents

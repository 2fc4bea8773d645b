import EliteEvents.Spec.LiveEventHub

/-! The live feed in the browser: the rows the home page is rendered with, the rows the stream pushes on top of
them, and `ticker.js`, which keeps the list short. A row is the one list item that a frame was rendered to. -/

namespace EliteEvents

open Text

/-- The children of the list `ticker`, and whether the page still says that it waits for events. -/
structure TickerPage where
  rows : List Str
  waiting : Bool

namespace TickerPage

def maxRows : ℕ := 40

/-- `Home.razor`, from what `RecentFrames` gave. -/
def load (recentFrames : List TickerFrame) : TickerPage :=
  ⟨recentFrames.map TickerFrame.html, recentFrames.isEmpty⟩

/-- `removeChild(lastElementChild)` while there are more than `maxRows` rows. -/
def trimRows (rows : List Str) : List Str :=
  if rows.length > maxRows then trimRows rows.dropLast else rows
termination_by rows.length
decreasing_by
  rename_i h
  rw [List.length_dropLast]
  omega

/-- A `ticker` event: htmx puts the markup at the top of the list, then `trim` runs. -/
def onMessage (p : TickerPage) (html : Str) : TickerPage :=
  let rows := trimRows (html :: p.rows)
  ⟨rows, p.waiting && decide (rows.length = 0)⟩

end TickerPage

end EliteEvents

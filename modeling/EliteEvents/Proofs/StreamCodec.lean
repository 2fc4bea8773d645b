import EliteEvents.Lib.EventStream
import EliteEvents.Spec.StreamEndpoint

/-! What a browser decodes from `/api/stream`. The endpoint writes lines; the event-stream
algorithm reads them back, so a frame is followed line by line through the parser. -/

namespace EliteEvents.StreamEndpoint

open Text EventStream

/-- `html.Replace("\r\n", "\n")` -/
def crlfToLf : Str → Str
  | [] => []
  | [u] => [u]
  | u :: v :: s => if u = cr ∧ v = lf then lf :: crlfToLf s else u :: crlfToLf (v :: s)

/-- A CR stands only immediately before an LF. -/
def CrBeforeLf (s : Str) : Prop := ∀ i, s[i]? = some cr → s[i + 1]? = some lf

/-- What the libraries behind a frame give: compact JSON holds no line break, and in the
rendered HTML a CR is part of a CRLF. -/
structure Clean (f : TickerFrame) : Prop where
  json : cr ∉ f.json ∧ lf ∉ f.json
  html : CrBeforeLf f.html

theorem CrBeforeLf.tail {u : UInt16} {s : Str} (h : CrBeforeLf (u :: s)) : CrBeforeLf s :=
  fun i hi => h (i + 1) hi

theorem CrBeforeLf.head {u : UInt16} {s : Str} (h : CrBeforeLf (u :: s)) (hu : u = cr) :
    ∃ t, s = lf :: t := by
  have h0 : s[0]? = some lf := h 0 (by rw [hu]; rfl)
  cases s with
  | nil => cases h0
  | cons v t => exact ⟨t, by cases h0; rfl⟩

theorem crlfToLf_cons {u : UInt16} (hu : u ≠ cr) (s : Str) : crlfToLf (u :: s) = u :: crlfToLf s := by
  cases s with
  | nil => rfl
  | cons v s => rw [crlfToLf, if_neg fun h => hu h.1]

theorem trimEnd_cons {u : UInt16} (hu : u ≠ cr) (s : Str) : trimEnd (u :: s) = u :: trimEnd s := by
  have hdrop : ([u] : Str).dropWhile (· = cr) = [u] := by simp [hu]
  unfold trimEnd List.rdropWhile
  rw [List.reverse_cons, List.dropWhile_append, hdrop]
  split_ifs with h
  · rw [List.isEmpty_iff.mp h]
    rfl
  · rw [List.reverse_append]
    rfl

theorem splitOn_lf_cons (s : Str) : (lf :: s).splitOn lf = [] :: s.splitOn lf := by
  rw [List.splitOn_cons_eq_if_modifyHead, if_pos (beq_self_eq_true lf)]

/-- The markup's lines as the endpoint cuts them: the first line takes every other code unit, and
a CR goes with the LF it stands before. -/
theorem splitOn_cons {u : UInt16} (hu : u ≠ lf) (s : Str) :
    ∃ l ls, s.splitOn lf = l :: ls ∧ (u :: s).splitOn lf = (u :: l) :: ls := by
  obtain ⟨l, ls, hl⟩ := List.exists_cons_of_ne_nil (List.splitOn_ne_nil lf s)
  refine ⟨l, ls, hl, ?_⟩
  rw [List.splitOn_cons_eq_if_modifyHead, if_neg (by simpa using hu), hl, List.modifyHead_cons]

theorem splitOn_crlf (s : Str) : (cr :: lf :: s).splitOn lf = [cr] :: s.splitOn lf := by
  obtain ⟨l, ls, hl, hcons⟩ := splitOn_cons (u := cr) (by decide) (lf :: s)
  rw [splitOn_lf_cons] at hl
  cases hl
  exact hcons

/-- Rejoining the trimmed lines undoes the cut, but for the CRs. -/
theorem join_trimmed {html : Str} (h : CrBeforeLf html) :
    ((html.splitOn lf).map trimEnd).flatMap (· ++ [lf]) = crlfToLf html ++ [lf] := by
  induction html with
  | nil => rfl
  | cons u s ih =>
    have ih := ih h.tail
    by_cases hlf : u = lf
    · subst hlf
      rw [splitOn_lf_cons, List.map_cons, List.flatMap_cons, ih, crlfToLf_cons (by decide)]
      rfl
    by_cases hcr : u = cr
    · obtain ⟨t, rfl⟩ := h.head hcr
      subst hcr
      rw [splitOn_lf_cons, List.map_cons, List.flatMap_cons, crlfToLf_cons (by decide)] at ih
      rw [splitOn_crlf, List.map_cons, List.flatMap_cons, crlfToLf, if_pos ⟨rfl, rfl⟩]
      exact ih
    · obtain ⟨l, ls, hl, hcons⟩ := splitOn_cons hlf s
      rw [hl, List.map_cons, List.flatMap_cons] at ih
      rw [hcons, List.map_cons, List.flatMap_cons, trimEnd_cons hcr, crlfToLf_cons hcr, List.cons_append,
        List.cons_append, List.cons_append, ih]

theorem trimmed_plain {html : Str} (h : CrBeforeLf html) :
    ∀ line ∈ html.splitOn lf, cr ∉ trimEnd line ∧ lf ∉ trimEnd line := by
  induction html with
  | nil => decide
  | cons u s ih =>
    have ih := ih h.tail
    by_cases hlf : u = lf
    · subst hlf
      rw [splitOn_lf_cons, List.forall_mem_cons]
      exact ⟨by decide, ih⟩
    by_cases hcr : u = cr
    · obtain ⟨t, rfl⟩ := h.head hcr
      subst hcr
      rw [splitOn_lf_cons, List.forall_mem_cons] at ih
      rw [splitOn_crlf, List.forall_mem_cons]
      exact ⟨by decide, ih.2⟩
    · obtain ⟨l, ls, hl, hcons⟩ := splitOn_cons hlf s
      rw [hl, List.forall_mem_cons] at ih
      rw [hcons, List.forall_mem_cons, trimEnd_cons hcr, List.mem_cons, List.mem_cons, not_or, not_or]
      exact ⟨⟨⟨Ne.symm hcr, ih.1.1⟩, Ne.symm hlf, ih.1.2⟩, ih.2⟩

/-- A payload as the lines it is written in. -/
def Payload.lines : Payload → List Str
  | .connected => [lit ": connected", []]
  | .ping => [lit ": ping", []]
  | .frame f => [lit "data: " ++ f.json, [], lit "event: ticker"] ++
      ((f.html.splitOn lf).map trimEnd).map (lit "data: " ++ ·) ++ [[]]

theorem text_eq_lines (p : Payload) : p.text = p.lines.flatMap (· ++ [lf]) := by
  have hlf : lit "\n" = [lf] := by decide
  have hlf2 : lit "\n\n" = [lf] ++ [lf] := by decide
  have hticker : lit "event: ticker\n" = lit "event: ticker" ++ [lf] := by decide
  cases p with
  | connected => decide
  | ping => decide
  | frame f =>
    simp only [Payload.text, formatFrame, Payload.lines, hlf, hlf2, hticker, List.flatMap_append,
      List.flatMap_cons, List.flatMap_nil, List.flatMap_map, List.append_assoc, List.nil_append,
      List.append_nil]

theorem scalars_line (l rest : Str) : scalars (l ++ lf :: rest) = scalars l ++ '\n' :: scalars rest := by
  rw [scalars_append l (by decide) rest, scalars_cons_plain (by decide)]
  rfl

theorem scalars_lines (ls : List Str) :
    scalars (ls.flatMap (· ++ [lf])) = (ls.map scalars).flatMap (· ++ ['\n']) := by
  induction ls with
  | nil => rfl
  | cons l ls ih =>
    rw [List.flatMap_cons, List.append_assoc, List.singleton_append, scalars_line, ih, List.map_cons,
      List.flatMap_cons, List.append_assoc, List.singleton_append]

theorem scalars_lit_append (text : String) (s : Str) : scalars (lit text ++ s) = text.toList ++ scalars s :=
  scalars_ofChars_append text.toList s

/-- The characters of the lines of a payload. -/
def Payload.charLines (p : Payload) : List (List Char) := p.lines.map scalars

theorem plainLine_scalars {s : Str} (hcr : cr ∉ s) (hlf : lf ∉ s) : PlainLine (scalars s) :=
  ⟨not_mem_scalars (by decide) hlf, not_mem_scalars (by decide) hcr⟩

theorem charLines_plain {p : Payload} (h : ∀ f, p = .frame f → Clean f) :
    ∀ l ∈ p.charLines, PlainLine l := by
  have hblank : PlainLine [] := ⟨by decide, by decide⟩
  have hdata : ∀ s : Str, cr ∉ s → lf ∉ s → PlainLine (scalars (lit "data: " ++ s)) := by
    intro s hcr hlf
    refine plainLine_scalars ?_ ?_
    · exact fun hm => (List.mem_append.mp hm).elim (by decide) hcr
    · exact fun hm => (List.mem_append.mp hm).elim (by decide) hlf
  unfold Payload.charLines
  cases p with
  | connected | ping =>
    simp only [Payload.lines, List.map_cons, List.map_nil, List.forall_mem_cons]
    exact ⟨plainLine_scalars (by decide) (by decide), hblank, by simp⟩
  | frame f =>
    obtain ⟨⟨hcr, hlf⟩, hhtml⟩ := h f rfl
    simp only [Payload.lines, List.map_append, List.map_cons, List.map_nil, List.map_map,
      List.forall_mem_append, List.forall_mem_cons, List.forall_mem_map]
    refine ⟨⟨⟨hdata _ hcr hlf, hblank, plainLine_scalars (by decide) (by decide), by simp⟩, ?_⟩,
      hblank, by simp⟩
    intro line hline
    obtain ⟨hcr', hlf'⟩ := trimmed_plain hhtml line hline
    exact hdata _ hcr' hlf'

/-- The events of a payload, in characters. -/
def Payload.events : Payload → List EventStream.Event
  | .connected | .ping => []
  | .frame f => [⟨"message".toList, scalars f.json⟩, ⟨"ticker".toList, scalars (crlfToLf f.html)⟩]

/-- Read between two events, a payload adds its own events and buffers nothing. -/
theorem process_payload {p : Payload} (h : ∀ f, p = .frame f → Clean f) {q : Parser} (hq : EventStream.Idle q) :
    p.charLines.foldl Parser.processLine q = { q with dispatched := q.dispatched ++ p.events } := by
  cases p with
  | connected | ping =>
    simp only [Payload.charLines, Payload.lines, List.map_cons, List.map_nil, List.foldl_cons,
      List.foldl_nil, Payload.events, List.append_nil]
    exact (congrArg (Parser.processLine · []) (processLine_comment q _)).trans hq.processLine_blank
  | frame f =>
    obtain ⟨-, hhtml⟩ := h f rfl
    have hlines : Payload.charLines (.frame f) =
        ([scalars f.json].map ("data: ".toList ++ ·) ++ [[]]) ++
          (("event: ".toList ++ "ticker".toList) ::
            ((((f.html.splitOn lf).map trimEnd).map scalars).map ("data: ".toList ++ ·) ++ [[]])) := by
      have hevent : scalars (lit "event: ticker") = "event: ".toList ++ "ticker".toList := by decide
      simp only [Payload.charLines, Payload.lines, List.map_append, List.map_cons, List.map_nil,
        List.map_map, scalars_lit_append, hevent, Function.comp_def, List.cons_append, List.nil_append]
      rfl
    have hdata : (((f.html.splitOn lf).map trimEnd).map scalars).flatMap (· ++ ['\n']) =
        scalars (crlfToLf f.html) ++ ['\n'] := by
      rw [← scalars_lines, join_trimmed hhtml, scalars_line]
      rfl
    have hjson : [scalars f.json].flatMap (· ++ ['\n']) = scalars f.json ++ ['\n'] := by simp
    have hnamed : ("ticker".toList = []) = False := by decide
    rw [hlines, List.foldl_append, process_event hq.data hjson, List.foldl_cons, processLine_event,
      process_event rfl hdata]
    simp only [hq.data, hq.eventType, hnamed, if_true, if_false, List.append_assoc,
      List.singleton_append, Payload.events]

theorem read_payloads {ps : List Payload} (h : ∀ f, .frame f ∈ ps → Clean f) {q : Parser} (hq : EventStream.Idle q) :
    (ps.flatMap fun p => scalars p.text).foldl Parser.next q =
      { q with dispatched := q.dispatched ++ ps.flatMap Payload.events } := by
  induction ps generalizing q with
  | nil => simp
  | cons p ps ih =>
    have hp : ∀ f, p = .frame f → Clean f := fun f hf => h f (hf ▸ List.mem_cons_self)
    rw [List.flatMap_cons, List.foldl_append, text_eq_lines, scalars_lines, ← Payload.charLines,
      read_lines (charLines_plain hp) hq.toReady, process_payload hp hq,
      ih (fun f hf => h f (List.mem_cons_of_mem _ hf)) (hq.dispatched _)]
    simp only [List.flatMap_cons, List.append_assoc]

theorem body_eq (ps : List Payload) :
    body ps = (ps.flatMap fun p => scalars p.text).flatMap String.utf8EncodeChar := by
  rw [body, List.flatMap_assoc]
  rfl

theorem head_body (ps : List Payload) :
    (ps.flatMap fun p => scalars p.text).head? ≠ some (Char.ofNat 0xFEFF) := by
  cases ps with
  | nil => simp
  | cons p ps =>
    have hhead : (scalars p.text).head? = some ':' ∨ (scalars p.text).head? = some 'd' := by
      cases p with
      | connected | ping => exact Or.inl (by decide)
      | frame f =>
        rw [Payload.text, formatFrame]
        simp only [List.append_assoc]
        rw [scalars_lit_append]
        exact Or.inr rfl
    rw [List.flatMap_cons, List.head?_append]
    rcases hhead with h | h
    · rw [h, Option.some_or]
      decide
    · rw [h, Option.some_or]
      decide

theorem parse_body {ps : List Payload} (h : ∀ f, .frame f ∈ ps → Clean f) :
    parse (body ps) = some (ps.flatMap Payload.events) := by
  rw [body_eq, parse_utf8 (head_body ps), read_payloads h idle_init]
  rfl

/-- What a page sees of an event: its type, and its data as a string. -/
def received (e : EventStream.Event) : List Char × Str := (e.type, ofChars e.data)

/-- What the frame was sent for, as UTF-8 carries it. -/
def sent : Payload → List (List Char × Str)
  | .connected | .ping => []
  | .frame f => [("message".toList, wire f.json), ("ticker".toList, wire (crlfToLf f.html))]

/-- The stream decodes to exactly what was sent: one unnamed event and one `ticker` event for
each frame, in order, and none for the comments. -/
theorem stream_decodes (ps : List Payload) (h : ∀ f, .frame f ∈ ps → Clean f) :
    (parse (body ps)).map (·.map received) = some (ps.flatMap sent) := by
  rw [parse_body h, Option.map_some, List.map_flatMap]
  refine congrArg some (List.flatMap_congr fun p _ => ?_)
  cases p with
  | connected | ping => rfl
  | frame f => rfl

/-- Markup with an empty line, a line that starts with a space, one that starts with a colon and
no line break at the end. -/
def markup : TickerFrame := ⟨lit "{}", lit "<li>\r\n\n indented\n:colon</li>"⟩

theorem markup_clean : Clean markup := by
  refine ⟨by decide, ?_⟩
  have hall : ∀ i < markup.html.length, markup.html[i]? = some cr → markup.html[i + 1]? = some lf := by
    decide
  intro i hi
  exact hall i (List.getElem?_eq_some_iff.mp hi).1 hi

theorem stream_decodes_markup :
    (parse (body [.connected, .frame markup, .ping])).map (·.map received) =
      some [("message".toList, lit "{}"),
        ("ticker".toList, lit "<li>\n\n indented\n:colon</li>")] := by
  have hclean : ∀ f, Payload.frame f ∈ [.connected, .frame markup, .ping] → Clean f := by
    intro f hf
    simp only [List.mem_cons, Payload.frame.injEq, reduceCtorEq, List.not_mem_nil, or_false,
      false_or] at hf
    exact hf ▸ markup_clean
  rw [stream_decodes _ hclean]
  decide

/-- A frame whose JSON holds an unpaired surrogate is not decoded to that JSON: UTF-8 has no
such character, and U+FFFD arrives in its place. -/
theorem unpaired_surrogate_replaced : ¬ ∀ f : TickerFrame, Clean f →
    (parse (body [.frame f])).map (·.map received) =
      some [("message".toList, f.json), ("ticker".toList, crlfToLf f.html)] := by
  intro hall
  have hclean : Clean ⟨[0x22, 0xD800, 0x22], []⟩ := ⟨by decide, fun i hi => by simp at hi⟩
  have h := hall _ hclean
  rw [parse_body (by simpa using hclean)] at h
  revert h
  decide

end EliteEvents.StreamEndpoint

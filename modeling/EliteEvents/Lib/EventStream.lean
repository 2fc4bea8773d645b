import EliteEvents.Lib.Text

/-! The event-stream algorithm of the HTML standard: a UTF-8 body, read as lines that end in
LF, CR or CRLF, with the data and event-type buffers carried from line to line. -/

namespace EventStream

structure Event where
  type : List Char
  data : List Char
  deriving DecidableEq

structure Parser where
  /-- the line read so far -/
  line : List Char
  /-- the last character ended a line as CR, and an LF right after it belongs to that line end -/
  cr : Bool
  data : List Char
  eventType : List Char
  lastEventId : List Char
  reconnectionTime : Option ℕ
  dispatched : List Event
  deriving DecidableEq

def Parser.init : Parser := ⟨[], false, [], [], [], none, []⟩

/-! The field names the algorithm knows. -/

def eventField : List Char := "event".toList
def dataField : List Char := "data".toList
def idField : List Char := "id".toList
def retryField : List Char := "retry".toList

namespace Parser

/-- A blank line. An event without a `data` line only clears the event-type buffer. -/
def dispatch (p : Parser) : Parser :=
  if p.data = [] then { p with eventType := [] }
  else
    { p with
      data := []
      eventType := []
      dispatched := p.dispatched ++
        [⟨if p.eventType = [] then "message".toList else p.eventType,
          if p.data.getLast? = some '\n' then p.data.dropLast else p.data⟩] }

def processField (p : Parser) (field value : List Char) : Parser :=
  if field = eventField then { p with eventType := value }
  else if field = dataField then { p with data := p.data ++ value ++ ['\n'] }
  else if field = idField then
    if Char.ofNat 0 ∈ value then p else { p with lastEventId := value }
  else if field = retryField then
    if value.all Char.isDigit && !value.isEmpty then
      { p with reconnectionTime := (String.ofList value).toNat? }
    else p
  else p

/-- The value of a field loses one leading space. -/
def stripSpace : List Char → List Char
  | ' ' :: value => value
  | value => value

def processLine (p : Parser) (line : List Char) : Parser :=
  if line = [] then p.dispatch
  else if line.head? = some ':' then p
  else if ':' ∈ line then
    p.processField (line.takeWhile (· ≠ ':')) (stripSpace (line.dropWhile (· ≠ ':')).tail)
  else p.processField line []

def endLine (p : Parser) (cr : Bool) : Parser :=
  { p.processLine p.line with line := [], cr := cr }

def next (p : Parser) (c : Char) : Parser :=
  if c = '\n' then if p.cr then { p with cr := false } else p.endLine false
  else if c = '\r' then p.endLine true
  else { p with line := p.line ++ [c], cr := false }

end Parser

def stripBom : List Char → List Char
  | c :: cs => if c = Char.ofNat 0xFEFF then cs else c :: cs
  | [] => []

/-- The events a body dispatches. What follows the last blank line is discarded. -/
def parse (body : List UInt8) : Option (List Event) :=
  body.toByteArray.utf8Decode?.map fun cs => ((stripBom cs.toList).foldl Parser.next .init).dispatched

/-- At the start of a line, with no CR pending. -/
structure Ready (p : Parser) : Prop where
  line : p.line = []
  cr : p.cr = false

def PlainLine (l : List Char) : Prop := '\n' ∉ l ∧ '\r' ∉ l

theorem processField_line (p : Parser) (field value : List Char) :
    (p.processField field value).line = p.line ∧ (p.processField field value).cr = p.cr := by
  unfold Parser.processField
  repeat' split
  all_goals exact ⟨rfl, rfl⟩

theorem processLine_line (p : Parser) (l : List Char) :
    (p.processLine l).line = p.line ∧ (p.processLine l).cr = p.cr := by
  unfold Parser.processLine
  split_ifs
  · unfold Parser.dispatch
    split <;> exact ⟨rfl, rfl⟩
  · exact ⟨rfl, rfl⟩
  · exact processField_line p _ _
  · exact processField_line p _ _

theorem Ready.processLine {p : Parser} (h : Ready p) (l : List Char) : Ready (p.processLine l) :=
  ⟨(processLine_line p l).1.trans h.line, (processLine_line p l).2.trans h.cr⟩

private theorem next_plain {l : List Char} (hl : PlainLine l) (p : Parser) (hp : p.cr = false) :
    l.foldl Parser.next p = { p with line := p.line ++ l } := by
  induction l generalizing p with
  | nil => rw [List.foldl_nil, List.append_nil]
  | cons c l ih =>
    obtain ⟨hn, hr⟩ := hl
    rw [List.mem_cons, not_or] at hn hr
    rw [List.foldl_cons, Parser.next, if_neg (Ne.symm hn.1), if_neg (Ne.symm hr.1),
      ih ⟨hn.2, hr.2⟩ _ rfl]
    simp only [hp, List.append_assoc, List.singleton_append]

private theorem processField_buffer (p : Parser) (field value b : List Char) :
    { p with line := b }.processField field value = { p.processField field value with line := b } := by
  unfold Parser.processField
  split_ifs <;> rfl

/-- What a line does is independent of the buffer it was read into. -/
private theorem processLine_buffer (p : Parser) (l b : List Char) :
    { p with line := b }.processLine l = { p.processLine l with line := b } := by
  unfold Parser.processLine
  split_ifs
  · unfold Parser.dispatch
    split <;> rfl
  · rfl
  · exact processField_buffer p _ _ b
  · exact processField_buffer p _ _ b

private theorem next_lf {p : Parser} (hp : p.cr = false) :
    p.next '\n' = { p.processLine p.line with line := [], cr := false } := by
  rw [Parser.next, if_pos rfl, hp]
  rfl

theorem read_line {p : Parser} (hp : Ready p) {l : List Char} (hl : PlainLine l) :
    (l ++ ['\n']).foldl Parser.next p = p.processLine l := by
  have hready := hp.processLine l
  have hbuffered : { p with line := l }.cr = false := hp.cr
  rw [List.foldl_append, next_plain hl p hp.cr, hp.line, List.nil_append, List.foldl_cons,
    List.foldl_nil, next_lf hbuffered, processLine_buffer, ← hready.line, ← hready.cr]

/-- A body of LF-terminated lines is processed line by line. -/
theorem read_lines {ls : List (List Char)} (hls : ∀ l ∈ ls, PlainLine l) {p : Parser} (hp : Ready p) :
    (ls.flatMap (· ++ ['\n'])).foldl Parser.next p = ls.foldl Parser.processLine p := by
  induction ls generalizing p with
  | nil => rfl
  | cons l ls ih =>
    rw [List.flatMap_cons, List.foldl_append, read_line hp (hls l List.mem_cons_self), List.foldl_cons]
    exact ih (fun l' hl' => hls l' (List.mem_cons_of_mem _ hl')) (hp.processLine l)

/-- Between two events: nothing buffered. -/
structure Idle (p : Parser) : Prop extends Ready p where
  data : p.data = []
  eventType : p.eventType = []

theorem idle_init : Idle .init := ⟨⟨rfl, rfl⟩, rfl, rfl⟩

theorem Idle.dispatched {p : Parser} (hp : Idle p) (es : List Event) :
    Idle { p with dispatched := es } :=
  ⟨⟨hp.line, hp.cr⟩, hp.data, hp.eventType⟩

theorem processLine_comment (p : Parser) (l : List Char) : p.processLine (':' :: l) = p := by
  rw [Parser.processLine, if_neg (by simp), if_pos (by simp)]

/-- A named field, with the space that its value then loses. -/
theorem processLine_field (p : Parser) {field : List Char} (hfield : ':' ∉ field) (hne : field ≠ [])
    (v : List Char) : p.processLine (field ++ ':' :: ' ' :: v) = p.processField field v := by
  have hall : ∀ c ∈ field, decide (c ≠ ':') = true := fun c hc =>
    decide_eq_true fun h => hfield (h ▸ hc)
  have htake : (field ++ ':' :: ' ' :: v).takeWhile (· ≠ ':') = field := by
    rw [List.takeWhile_append_of_pos hall, List.takeWhile_cons_of_neg (by decide), List.append_nil]
  have hdrop : (field ++ ':' :: ' ' :: v).dropWhile (· ≠ ':') = ':' :: ' ' :: v := by
    rw [List.dropWhile_append_of_pos hall, List.dropWhile_cons_of_neg (by decide)]
  have hhead : (field ++ ':' :: ' ' :: v).head? ≠ some ':' := by
    obtain ⟨c, rest, rfl⟩ := List.exists_cons_of_ne_nil hne
    intro h
    exact hfield (Option.some.inj h ▸ List.mem_cons_self)
  rw [Parser.processLine, if_neg (List.append_ne_nil_of_left_ne_nil hne _), if_neg hhead,
    if_pos (List.mem_append_right _ List.mem_cons_self), htake, hdrop]
  rfl

theorem processLine_data (p : Parser) (v : List Char) :
    p.processLine ("data: ".toList ++ v) = { p with data := p.data ++ v ++ ['\n'] } := by
  have hsplit : "data: ".toList ++ v = dataField ++ ':' :: ' ' :: v := rfl
  rw [hsplit, processLine_field p (by decide) (by decide), Parser.processField, if_neg (by decide),
    if_pos rfl]

theorem processLine_event (p : Parser) (v : List Char) :
    p.processLine ("event: ".toList ++ v) = { p with eventType := v } := by
  have hsplit : "event: ".toList ++ v = eventField ++ ':' :: ' ' :: v := rfl
  rw [hsplit, processLine_field p (by decide) (by decide), Parser.processField, if_pos rfl]

theorem processLine_datas (p : Parser) (vs : List (List Char)) :
    (vs.map ("data: ".toList ++ ·)).foldl Parser.processLine p =
      { p with data := p.data ++ vs.flatMap (· ++ ['\n']) } := by
  induction vs generalizing p with
  | nil => simp
  | cons v vs ih =>
    rw [List.map_cons, List.foldl_cons, processLine_data, ih]
    simp only [List.flatMap_cons, List.append_assoc]

/-- A blank line after data lines dispatches what they held, without the last LF. -/
theorem processLine_blank {p : Parser} {d : List Char} (hd : p.data = d ++ ['\n']) :
    p.processLine [] = { p with
      data := []
      eventType := []
      dispatched := p.dispatched ++
        [⟨if p.eventType = [] then "message".toList else p.eventType, d⟩] } := by
  rw [Parser.processLine, if_pos rfl, Parser.dispatch, if_neg (by rw [hd]; simp)]
  simp only [hd, List.getLast?_concat, if_true, List.dropLast_concat]

/-- An event: its data lines and a blank line. -/
theorem process_event {p : Parser} (hp : p.data = []) {vs : List (List Char)} {d : List Char}
    (hd : vs.flatMap (· ++ ['\n']) = d ++ ['\n']) :
    (vs.map ("data: ".toList ++ ·) ++ [[]]).foldl Parser.processLine p = { p with
      data := []
      eventType := []
      dispatched := p.dispatched ++
        [⟨if p.eventType = [] then "message".toList else p.eventType, d⟩] } := by
  rw [List.foldl_append, processLine_datas, hp, List.nil_append, hd, List.foldl_cons, List.foldl_nil,
    processLine_blank (d := d) rfl]

theorem Idle.processLine_blank {p : Parser} (hp : Idle p) : p.processLine [] = p := by
  rw [Parser.processLine, if_pos rfl, Parser.dispatch, if_pos hp.data, ← hp.eventType]

/-- A UTF-8 body is read as the characters it encodes. -/
theorem parse_utf8 {cs : List Char} (hbom : cs.head? ≠ some (Char.ofNat 0xFEFF)) :
    parse (cs.flatMap String.utf8EncodeChar) = some ((cs.foldl Parser.next .init).dispatched) := by
  have hdec : (cs.flatMap String.utf8EncodeChar).toByteArray.utf8Decode? = some cs.toArray :=
    List.utf8Decode?_utf8Encode
  have hstrip : stripBom cs = cs := by
    cases cs with
    | nil => rfl
    | cons c cs => rw [stripBom, if_neg fun h => hbom (by rw [h]; rfl)]
  rw [parse, hdec, Option.map_some, List.toList_toArray, hstrip]

end EventStream

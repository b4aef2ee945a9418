import OsAssignments.Library.CString
import OsAssignments.Library.Text
import OsAssignments.HttpServer.Request

/-!
# The grammar of request lines

`http_request_parse` accepts the texts that begin with a request line, and returns the one method
and the one path that the line has. A text ends at its first zero byte and no scan goes past it.
-/

namespace OsAssignments.HttpServer

/-- The parts of a request line: `[A-Z]+`, `[^ \n]+`, and a rest that is empty or set off by a
space. -/
structure LineParts (method path line : List UInt8) : Prop where
  /-- The method is in capital letters. -/
  capital : ∀ byte ∈ method, 65 ≤ byte ∧ byte ≤ 90
  /-- The method is not empty. -/
  named : method ≠ []
  /-- The path has no space and no newline. -/
  pathBytes : ∀ byte ∈ path, byte ≠ 32 ∧ byte ≠ 10
  /-- The path is not empty. -/
  asked : path ≠ []
  /-- The rest has no newline. -/
  lineBytes : ∀ byte ∈ line, byte ≠ 10
  /-- The rest is empty or begins with a space. -/
  apart : line = [] ∨ ∃ rest, line = 32 :: rest

/-- A request line as it is sent. -/
def requestLine (method path line : List UInt8) : List UInt8 :=
  method ++ 32 :: (path ++ line ++ [10])

/-- A text begins with a request line of the given parts. -/
def BeginsWith (text method path line : List UInt8) : Prop :=
  LineParts method path line ∧ requestLine method path line <+: text

/-- The parser accepts the texts of the grammar and no others. -/
structure ParsesLines (bytes : List UInt8) : Prop where
  /-- A request is returned exactly for a request line with its method and its path. -/
  accepts : ∀ request, httpRequestParse bytes = .ok (some request) ↔
    ∃ line, BeginsWith (CString.read bytes) request.method request.path line
  /-- Null is returned exactly for every other text. -/
  rejects : httpRequestParse bytes = .ok none ↔
    ¬ ∃ method path line, BeginsWith (CString.read bytes) method path line
  /-- A text begins with one request line at most. -/
  unique : ∀ method path line method' path' line',
    BeginsWith (CString.read bytes) method path line →
      BeginsWith (CString.read bytes) method' path' line' →
        method = method' ∧ path = path' ∧ line = line'
  /-- The result is the same where the buffer ends with the first zero byte. -/
  bounded : httpRequestParse (CString.read bytes) = httpRequestParse bytes

variable {keep : UInt8 → Bool} {bytes text rest method path line method' path' line' : List UInt8}

/-- A text that begins with a request line, of bytes that are not zero, is accepted. -/
theorem BeginsWith.accepted (begins : BeginsWith (CString.read bytes) method path line) :
    httpRequestParse bytes = .ok (some ⟨method, path⟩) := by
  obtain ⟨parts, front⟩ := begins
  obtain ⟨proper, tail, rfl⟩ := CString.prefix_read.mp front
  have nonzero : ∀ byte ∈ path ++ line, byte ≠ 0 := by
    rintro byte member rfl
    apply proper
    rw [requestLine]
    simp only [List.mem_append, List.mem_cons] at member ⊢
    tauto
  have accepted := @httpRequestParse_line method path line tail
    (fun byte member => by simpa [isCapital] using parts.capital byte member) parts.named
    (fun byte member => by
      simpa [isPathByte] using
        ⟨⟨nonzero byte (List.mem_append_left line member), (parts.pathBytes byte member).1⟩,
          (parts.pathBytes byte member).2⟩)
    parts.asked
    (fun byte member => by
      simpa [isLineByte] using
        ⟨nonzero byte (List.mem_append_right path member), parts.lineBytes byte member⟩)
    parts.apart
  simpa [requestLine] using accepted

/-- Scans of a text that is read from a memory stop at a byte of it, or at the zero byte behind it. -/
theorem advance_cases (ends : keep 0 = false) (rest : List UInt8) :
    advance keep (text ++ 0 :: rest) = some (text, 0 :: rest) ∨
      ∃ left stop right, text = left ++ stop :: right ∧ (∀ byte ∈ left, keep byte = true) ∧
        keep stop = false ∧
        advance keep (text ++ 0 :: rest) = some (left, stop :: (right ++ 0 :: rest)) := by
  rcases Text.cut_cases keep text with ⟨all, _⟩ | ⟨left, stop, right, rfl, kept, stops, _⟩
  · exact .inl (advance_stop all ends)
  · refine .inr ⟨left, stop, right, rfl, kept, stops, ?_⟩
    rw [List.append_assoc, List.cons_append]
    exact advance_stop kept stops

/-- Three scans that end at a space, at a byte that ends a path, and at a newline find the parts of a
request line. -/
theorem lineParts_scanned {stop : UInt8} {behind tail : List UInt8}
    (capital : ∀ byte ∈ method, isCapital byte = true) (named : method ≠ [])
    (pathBytes : ∀ byte ∈ path, isPathByte byte = true) (asked : path ≠ [])
    (stops : isPathByte stop = false) (nonzero : stop ≠ 0)
    (lineBytes : ∀ byte ∈ line, isLineByte byte = true)
    (whole : stop :: behind = line ++ 10 :: tail) : LineParts method path line := by
  have noNewline : ∀ byte ∈ line, byte ≠ 10 := by
    intro byte member
    have kept := lineBytes byte member
    simp [isLineByte] at kept
    exact kept.2
  refine ⟨fun byte member => ?_, named, fun byte member => ?_, asked, noNewline, ?_⟩
  · simpa [isCapital] using capital byte member
  · have kept := pathBytes byte member
    simp [isPathByte] at kept
    exact ⟨kept.1.2, kept.2⟩
  · cases line with
    | nil => exact .inl rfl
    | cons byte rest =>
      right
      have first : stop = byte := (List.cons_eq_cons.mp whole).1
      have notTen := noNewline byte List.mem_cons_self
      rw [← first] at notTen ⊢
      simp [isPathByte, nonzero, notTen] at stops
      exact ⟨rest, by rw [stops]⟩

/-- The parser returns null, or a request of the line that the text begins with. -/
theorem httpRequestParse_cases (memory : bytes ++ [0] = text ++ 0 :: rest) (proper : (0 : UInt8) ∉ text) :
    httpRequestParse bytes = .ok none ∨
      ∃ method path line, httpRequestParse bytes = .ok (some ⟨method, path⟩) ∧
        BeginsWith text method path line := by
  unfold httpRequestParse
  rw [memory]
  rcases @advance_cases isCapital text (by decide) rest with
    scan | ⟨method, space, after, rfl, capital, _, scan⟩
  · left
    simp [scan]
  rw [scan]
  simp only [List.length_eq_zero_iff]
  by_cases named : method = []
  · exact .inl (if_pos named)
  rw [if_neg named]
  by_cases noSpace : space ≠ 32
  · exact .inl (if_pos noSpace)
  rw [if_neg noSpace]
  rcases @advance_cases isPathByte after (by decide) rest with
    scan | ⟨path, stop, behind, rfl, pathBytes, stops, scan⟩
  · left
    simp [scan, advance, isLineByte]
  rw [scan]
  simp only
  by_cases asked : path = []
  · exact .inl (if_pos asked)
  rw [if_neg asked]
  rcases @advance_cases isLineByte (stop :: behind) (by decide) rest with
    scan | ⟨line, newline, tail, whole, lineBytes, ends, scan⟩
  · left
    rw [List.cons_append] at scan
    simp [scan]
  rw [List.cons_append] at scan
  rw [scan]
  simp only
  by_cases noNewline : newline ≠ 10
  · exact .inl (if_pos noNewline)
  rw [if_neg noNewline]
  refine .inr ⟨method, path, line, rfl, ?_, tail, ?_⟩
  · have nonzero : stop ≠ 0 := by
      rintro rfl
      simp at proper
    exact lineParts_scanned capital named pathBytes asked stops nonzero lineBytes
      (not_not.mp noNewline ▸ whole)
  · rw [whole, not_not.mp noSpace, not_not.mp noNewline, requestLine]
    simp

/-- No scan leaves the buffer. -/
theorem httpRequestParse_total (bytes : List UInt8) : httpRequestParse bytes = .ok none ∨
    ∃ method path line, httpRequestParse bytes = .ok (some ⟨method, path⟩) ∧
      BeginsWith (CString.read bytes) method path line := by
  obtain ⟨rest, memory⟩ := CString.read_zero bytes
  exact httpRequestParse_cases memory CString.zero_notMem_read

/-- A request is returned exactly for a request line with its method and its path. -/
theorem httpRequestParse_some (bytes : List UInt8) (request : Request) :
    httpRequestParse bytes = .ok (some request) ↔
      ∃ line, BeginsWith (CString.read bytes) request.method request.path line := by
  constructor
  · intro accepted
    rcases httpRequestParse_total bytes with rejected | ⟨method, path, line, same, begins⟩
    · rw [rejected] at accepted
      cases accepted
    · rw [same] at accepted
      cases accepted
      exact ⟨line, begins⟩
  · rintro ⟨line, begins⟩
    exact begins.accepted

/-- Null is returned exactly for every other text. -/
theorem httpRequestParse_none (bytes : List UInt8) : httpRequestParse bytes = .ok none ↔
    ¬ ∃ method path line, BeginsWith (CString.read bytes) method path line := by
  constructor
  · rintro rejected ⟨method, path, line, begins⟩
    rw [begins.accepted] at rejected
    cases rejected
  · intro other
    rcases httpRequestParse_total bytes with rejected | ⟨method, path, line, _, begins⟩
    · exact rejected
    · exact absurd ⟨method, path, line, begins⟩ other

/-- The request line that a text begins with is unique. -/
theorem BeginsWith.unique (first : BeginsWith (CString.read bytes) method path line)
    (second : BeginsWith (CString.read bytes) method' path' line') :
    method = method' ∧ path = path' ∧ line = line' := by
  have parsed := first.accepted.symm.trans second.accepted
  simp only [Except.ok.injEq, Option.some.injEq, Request.mk.injEq] at parsed
  obtain ⟨rfl, rfl⟩ := parsed
  refine ⟨rfl, rfl, ?_⟩
  obtain ⟨tail, whole⟩ := first.2
  obtain ⟨tail', whole'⟩ := second.2
  have lines : line ++ 10 :: tail = line' ++ 10 :: tail' := by
    simpa [requestLine] using whole.trans whole'.symm
  have inside : ∀ byte ∈ line, decide (byte ≠ 10) = true := fun byte member =>
    decide_eq_true (first.1.lineBytes byte member)
  have inside' : ∀ byte ∈ line', decide (byte ≠ 10) = true := fun byte member =>
    decide_eq_true (second.1.lineBytes byte member)
  exact Text.left_unique inside inside' (by decide) lines

/-- For every buffer the parser accepts exactly the request lines at the front of its text, with
their only parts, and no byte behind the first zero byte is asked for. -/
theorem httpRequestParse_lines (bytes : List UInt8) : ParsesLines bytes where
  accepts := httpRequestParse_some bytes
  rejects := httpRequestParse_none bytes
  unique _ _ _ _ _ _ first second := first.unique second
  bounded := by
    rcases httpRequestParse_total bytes with rejected | ⟨method, path, line, accepted, begins⟩
    · rw [rejected, httpRequestParse_none, CString.read_read, ← httpRequestParse_none, rejected]
    · rw [accepted, httpRequestParse_some, CString.read_read]
      exact ⟨line, begins⟩

end OsAssignments.HttpServer

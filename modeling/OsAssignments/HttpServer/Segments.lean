import OsAssignments.HttpServer.Grammar

/-!
# Requests in segments

A stream arrives at a socket in pieces, and `http_request_parse` calls `read` once. It parses the
first piece. The result does not depend on how the stream is cut as long as no cut falls into the
request line.
-/

namespace OsAssignments.HttpServer

/-- A way to split a stream into the pieces that successive reads deliver. -/
structure Segments (stream : List UInt8) where
  /-- The pieces. -/
  pieces : List (List UInt8)
  /-- Every read delivers something. -/
  nonempty : ∀ piece ∈ pieces, piece ≠ []
  /-- The pieces are the stream. -/
  whole : pieces.flatten = stream

/-- The bytes of the one `read` that `http_request_parse` calls. -/
def Segments.readBuffer {stream : List UInt8} (segments : Segments stream) : List UInt8 :=
  (segments.pieces.headD []).take requestMaxSize

/-- `http_request_parse` of a socket that a stream arrives at in pieces. -/
def Segments.httpRequestParse {stream : List UInt8} (segments : Segments stream) :
    Except Fault (Option Request) :=
  HttpServer.httpRequestParse segments.readBuffer

/-- The first pieces agree on whether they hold the request line that the stream begins with, if it
begins with one. -/
def SameReach {stream : List UInt8} (first second : Segments stream) : Prop :=
  ∀ method path line, BeginsWith (CString.read stream) method path line →
    ((requestLine method path line).length ≤ (first.pieces.headD []).length ↔
      (requestLine method path line).length ≤ (second.pieces.headD []).length)

variable {stream bytes method path line : List UInt8} {first second : Segments stream}

/-- The front of a stream begins with the request line of the stream that it holds whole. -/
theorem beginsWith_front (front : bytes <+: stream) :
    BeginsWith (CString.read bytes) method path line ↔
      BeginsWith (CString.read stream) method path line ∧
        (requestLine method path line).length ≤ bytes.length := by
  unfold BeginsWith
  rw [CString.prefix_read, CString.prefix_read]
  constructor
  · rintro ⟨parts, proper, within⟩
    exact ⟨⟨parts, proper, within.trans front⟩, within.length_le⟩
  · rintro ⟨⟨parts, proper, within⟩, short⟩
    exact ⟨parts, proper, List.prefix_of_prefix_length_le within front short⟩

/-- Of a stream that fits in the buffer the first piece is read whole. -/
theorem Segments.readBuffer_eq (fits : stream.length ≤ requestMaxSize) (segments : Segments stream) :
    segments.readBuffer = segments.pieces.headD [] ∧ segments.pieces.headD [] <+: stream := by
  have front : segments.pieces.headD [] <+: stream := by
    obtain ⟨pieces, _, rfl⟩ := segments
    cases pieces with
    | nil => exact List.prefix_rfl
    | cons piece pieces => exact ⟨pieces.flatten, rfl⟩
  exact ⟨List.take_of_length_le (front.length_le.trans fits), front⟩

/-- A request is returned exactly when the first piece holds its line. -/
theorem Segments.httpRequestParse_some (fits : stream.length ≤ requestMaxSize)
    (segments : Segments stream) (request : Request) :
    segments.httpRequestParse = .ok (some request) ↔
      ∃ line, BeginsWith (CString.read stream) request.method request.path line ∧
        (requestLine request.method request.path line).length ≤ (segments.pieces.headD []).length := by
  have reads := segments.readBuffer_eq fits
  unfold Segments.httpRequestParse
  rw [HttpServer.httpRequestParse_some, reads.1]
  exact exists_congr fun line => beginsWith_front reads.2

/-- First pieces that agree on the request line lead to the same requests. -/
theorem SameReach.some (fits : stream.length ≤ requestMaxSize) (same : SameReach first second)
    (request : Request) : first.httpRequestParse = .ok (some request) ↔
      second.httpRequestParse = .ok (some request) := by
  rw [first.httpRequestParse_some fits, second.httpRequestParse_some fits]
  exact exists_congr fun line => and_congr_right fun begins => same _ _ _ begins

/-- Two ways of splitting a stream are parsed the same exactly when both first pieces hold the whole
request line or neither does. -/
theorem httpRequestParse_segments (fits : stream.length ≤ requestMaxSize)
    (first second : Segments stream) :
    first.httpRequestParse = second.httpRequestParse ↔ SameReach first second := by
  constructor
  · intro same method path line begins
    have reaches : ∀ segments : Segments stream,
        segments.httpRequestParse = .ok (some ⟨method, path⟩) ↔
          (requestLine method path line).length ≤ (segments.pieces.headD []).length := by
      intro segments
      rw [segments.httpRequestParse_some fits]
      constructor
      · rintro ⟨line', begins', reach⟩
        obtain ⟨_, _, rfl⟩ := begins.unique begins'
        exact reach
      · exact fun reach => ⟨line, begins, reach⟩
    rw [← reaches first, ← reaches second, same]
  · intro same
    rcases httpRequestParse_total first.readBuffer with rejected | ⟨method, path, _, accepted, _⟩
    · rcases httpRequestParse_total second.readBuffer with rejected' | ⟨method, path, _, accepted, _⟩
      · exact rejected.trans rejected'.symm
      · exact ((same.some fits ⟨method, path⟩).mpr accepted).trans accepted.symm
    · exact accepted.trans ((same.some fits ⟨method, path⟩).mp accepted).symm

/-- A request line as a browser sends it. -/
def getRoot : List UInt8 := Text.ascii "GET / HTTP/1.0\r\n"

/-- The line in one piece. -/
def wholeLine : Segments getRoot := ⟨[getRoot], by decide, by decide⟩

/-- The line cut behind the method. -/
def cutLine : Segments getRoot := ⟨[getRoot.take 3, getRoot.drop 3], by decide, by decide⟩

/-- The line cut before the newline. -/
def cutEnd : Segments getRoot := ⟨[getRoot.take 15, getRoot.drop 15], by decide, by decide⟩

/-- A request line in one piece is accepted, and is rejected when it is cut. -/
theorem segmentation_matters : ¬ ∀ (stream : List UInt8) (first second : Segments stream),
    stream.length ≤ requestMaxSize → first.httpRequestParse = second.httpRequestParse := by
  intro claim
  have same := claim getRoot wholeLine cutLine (by decide)
  exact absurd same (by decide +kernel)

/-- Two cuts of a line are both rejected, as neither first piece holds it. -/
theorem httpRequestParse_segments_getRoot : SameReach cutLine cutEnd :=
  (httpRequestParse_segments (by decide) cutLine cutEnd).mp (by decide +kernel)

end OsAssignments.HttpServer

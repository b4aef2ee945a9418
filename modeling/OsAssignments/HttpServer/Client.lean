import OsAssignments.Library.Scanning
import OsAssignments.HttpServer.Responses

/-!
# What a client reads

The responses as the other side takes them apart: a status line, header lines up to an empty one,
and the body behind it. What libhttp sends is read back as it was meant, whatever the body is. Of
the file server a client reads one response at most, and that is a success with a content type: the
file asked for where there is one, and never an error.
-/

namespace OsAssignments.HttpServer

open Text

/-- A response as a client reads it. -/
structure Reading where
  /-- The status code. -/
  status : Nat
  /-- The message behind it. -/
  message : List UInt8
  /-- The names and the values of the headers. -/
  headers : List (List UInt8 × List UInt8)
  /-- The body. -/
  body : List UInt8
  deriving DecidableEq, Repr

/-- Read a status line. -/
def readStatus (line : List UInt8) : Option (Nat × List UInt8) :=
  if ascii "HTTP/1.0 " <+: line then
    (find [32] (line.drop (ascii "HTTP/1.0 ").length)).map fun parts => (readDecimal parts.1, parts.2)
  else none

/-- Read header lines up to an empty line. -/
def readHeaders : Nat → List UInt8 → Option (List (List UInt8 × List UInt8) × List UInt8)
  | 0, _ => none
  | fuel + 1, bytes => do
    let (line, rest) ← find [13, 10] bytes
    if line = [] then some ([], rest)
    else
      let header ← find [58, 32] line
      let (headers, body) ← readHeaders fuel rest
      some (header :: headers, body)

/-- Read a response. -/
def readResponse (bytes : List UInt8) : Option Reading := do
  let (line, rest) ← find [13, 10] bytes
  let (status, message) ← readStatus line
  let (headers, body) ← readHeaders (rest.length + 1) rest
  some ⟨status, message, headers, body⟩

/-- A header that is written on one line, its name up to the first colon. -/
structure OneLine (header : String × String) : Prop where
  /-- The name has no line end. -/
  name : 13 ∉ ascii header.1
  /-- Nor a colon. -/
  apart : 58 ∉ ascii header.1
  /-- The value has no line end. -/
  value : 13 ∉ ascii header.2

/-- A success as a client reads it. -/
def Reading.success (contentType : String) (body : List UInt8) : Reading :=
  ⟨200, ascii "OK", [(ascii "Content-type", ascii contentType)], body⟩

variable {fs : FileSystem} {serverFilesDirectory : CString} {line rest bytes body path name : List UInt8}
  {status fuel : Nat} {message : List UInt8} {headers : List (String × String)} {contentType : String}
  {entries : List CString}

/-! ## Lines -/

/-- A line is read up to its end. -/
theorem find_line (inner : 13 ∉ line) : find [13, 10] (line ++ 13 :: 10 :: rest) = some (line, rest) := by
  have here : find [13, 10] (13 :: 10 :: rest) = some ([], rest) := find_here (by simp)
  rw [(absent_of_first inner).find, here]
  simp

/-- A status line is read back. -/
theorem readStatus_statusLine : readStatus
    (ascii "HTTP/1.0 " ++ decimal status ++ ascii " " ++ message) = some (status, message) := by
  have space : ascii " " = [32] := by decide
  have digits : (32 : UInt8) ∉ decimal status := by
    intro member
    have low := (decimal_digits 32 member).1
    revert low
    decide
  have here : find [32] (32 :: message) = some ([], message) := find_here (by simp)
  rw [List.append_assoc, List.append_assoc, space, List.singleton_append, readStatus,
    if_pos (List.prefix_append _ _), List.drop_left, (absent_of_first digits).find, here]
  simp [readDecimal_decimal]

/-- A header line is read back. -/
theorem find_header {header : String × String} (oneLine : OneLine header) :
    find [58, 32] (ascii header.1 ++ ascii ": " ++ ascii header.2) =
      some (ascii header.1, ascii header.2) := by
  have colon : ascii ": " = [58, 32] := by decide
  have here : find [58, 32] ([58, 32] ++ ascii header.2) = some ([], ascii header.2) :=
    find_here (by simp)
  rw [colon, List.append_assoc, (absent_of_first oneLine.apart).find, here]
  simp

/-- Header lines are read back, whatever is behind them. -/
theorem readHeaders_lines (lines : ∀ header ∈ headers, OneLine header) (enough : headers.length < fuel) :
    readHeaders fuel (headers.flatMap (fun header => ascii header.1 ++ ascii ": " ++ ascii header.2 ++
      ascii "\r\n") ++ 13 :: 10 :: body) =
      some (headers.map fun header => (ascii header.1, ascii header.2), body) := by
  have ends : ascii "\r\n" = [13, 10] := by decide
  have colon : ascii ": " = [58, 32] := by decide
  induction headers generalizing fuel with
  | nil =>
    obtain ⟨fuel, rfl⟩ := Nat.exists_eq_succ_of_ne_zero (Nat.ne_of_gt enough)
    have blank : find [13, 10] (13 :: 10 :: body) = some ([], body) := find_here (by simp)
    simp [readHeaders, blank]
  | cons header headers ih =>
    obtain ⟨fuel, rfl⟩ := Nat.exists_eq_succ_of_ne_zero (Nat.ne_of_gt (Nat.zero_lt_of_lt enough))
    obtain ⟨oneLine, others⟩ := List.forall_mem_cons.mp lines
    have inner : 13 ∉ ascii header.1 ++ ascii ": " ++ ascii header.2 := by
      rw [colon]
      simp [oneLine.name, oneLine.value]
    have nonempty : ascii header.1 ++ ascii ": " ++ ascii header.2 ≠ [] := by
      rw [colon]
      simp
    have split : (header :: headers).flatMap (fun header => ascii header.1 ++ ascii ": " ++
        ascii header.2 ++ ascii "\r\n") ++ 13 :: 10 :: body =
        (ascii header.1 ++ ascii ": " ++ ascii header.2) ++ 13 :: 10 ::
          (headers.flatMap (fun header => ascii header.1 ++ ascii ": " ++ ascii header.2 ++
            ascii "\r\n") ++ 13 :: 10 :: body) := by
      rw [List.flatMap_cons, ends]
      simp only [List.append_assoc, List.cons_append, List.nil_append]
    have later := ih others (Nat.lt_of_succ_lt_succ enough)
    rw [split, readHeaders, find_line inner]
    simp only [Option.bind_eq_bind, Option.bind_some]
    rw [if_neg nonempty, find_header oneLine, Option.bind_some, later]
    rfl

/-- Every header has a line of its own. -/
theorem headerLines_length (headers : List (String × String)) :
    headers.length ≤ (headers.flatMap fun header => ascii header.1 ++ ascii ": " ++
      ascii header.2 ++ ascii "\r\n").length := by
  have ends : (ascii "\r\n").length = 2 := by decide
  induction headers with
  | nil => exact Nat.le_refl 0
  | cons header headers ih =>
    rw [List.flatMap_cons, List.length_append, List.length_append, ends, List.length_cons]
    omega

/-- A response is read back. -/
theorem readResponse_response (plain : 13 ∉ message) (lines : ∀ header ∈ headers, OneLine header) :
    readResponse (response status message
      (headers.map fun header => (ascii header.1, ascii header.2)) body) =
      some ⟨status, message, headers.map fun header => (ascii header.1, ascii header.2), body⟩ := by
  have ends : ascii "\r\n" = [13, 10] := by decide
  have inner : 13 ∉ ascii "HTTP/1.0 " ++ decimal status ++ ascii " " ++ message := by
    have front : (13 : UInt8) ∉ ascii "HTTP/1.0 " := by decide
    have space : (13 : UInt8) ∉ ascii " " := by decide
    have digits : (13 : UInt8) ∉ decimal status := by
      intro member
      have low := (decimal_digits 13 member).1
      revert low
      decide
    simp only [List.mem_append, front, space, digits, plain, or_self, not_false_eq_true]
  have split : response status message (headers.map fun header => (ascii header.1, ascii header.2))
      body = (ascii "HTTP/1.0 " ++ decimal status ++ ascii " " ++ message) ++ 13 :: 10 ::
        (headers.flatMap (fun header => ascii header.1 ++ ascii ": " ++ ascii header.2 ++
          ascii "\r\n") ++ 13 :: 10 :: body) := by
    rw [response, statusLine, headerLines, List.flatMap_map, ends]
    simp only [List.append_assoc, List.cons_append, List.nil_append]
  have enough : headers.length < (headers.flatMap (fun header => ascii header.1 ++ ascii ": " ++
      ascii header.2 ++ ascii "\r\n") ++ 13 :: 10 :: body).length + 1 := by
    have bound := headerLines_length headers
    simp only [List.length_append, List.length_cons]
    omega
  rw [readResponse, split, find_line inner]
  simp only [Option.bind_eq_bind, Option.bind_some]
  rw [readStatus_statusLine, Option.bind_some, readHeaders_lines lines enough]
  rfl

/-- No message has a line end. -/
theorem httpGetResponseMessage_plain (statusCode : Nat) :
    13 ∉ ascii (httpGetResponseMessage statusCode) := by
  unfold httpGetResponseMessage
  split <;> decide

/-- What libhttp sends for a status code, headers of one line each and a body is read back as that,
whatever the status code and the body are. -/
theorem libhttp_roundTrip (statusCode : Nat) (data : List UInt8)
    (lines : ∀ header ∈ headers, OneLine header) :
    readResponse (⟨httpStartResponse statusCode ::
        (headers.map (fun header => httpSendHeader header.1 header.2) ++
          [httpEndHeaders, httpSendData data]), none⟩ : Handling).output =
      some ⟨statusCode, ascii (httpGetResponseMessage statusCode),
        headers.map fun header => (ascii header.1, ascii header.2), data⟩ := by
  rw [← readResponse_response (httpGetResponseMessage_plain statusCode) lines]
  congr 1
  simp only [Handling.output, httpStartResponse, httpEndHeaders, httpSendData, response, statusLine,
    headerLines, List.flatMap_cons, List.flatMap_append, List.flatMap_nil, List.flatMap_map,
    httpSendHeader, List.append_assoc, List.append_nil]

/-- A page with its content type is read back. -/
theorem libhttp_roundTrip_page : readResponse (⟨httpStartResponse 404 ::
    ([("Content-type", "text/html")].map (fun header => httpSendHeader header.1 header.2) ++
      [httpEndHeaders, httpSendData (ascii "Nothing\r\n\r\nhere")]), none⟩ : Handling).output =
    some ⟨404, ascii "Not Found", [(ascii "Content-type", ascii "text/html")],
      ascii "Nothing\r\n\r\nhere"⟩ := by
  have oneLine : ∀ header ∈ [("Content-type", "text/html")], OneLine header := by
    intro header member
    rw [List.mem_singleton.mp member]
    exact ⟨by decide, by decide, by decide⟩
  exact libhttp_roundTrip 404 (ascii "Nothing\r\n\r\nhere") oneLine

/-! ## The file server -/

/-- A content type has no line end. -/
theorem httpGetMimeType_plain (fileName : List UInt8) : 13 ∉ ascii (httpGetMimeType fileName) := by
  unfold httpGetMimeType
  split
  · decide
  · repeat' split
    all_goals decide

/-- A success is read as one. -/
theorem readResponse_success (plain : 13 ∉ ascii contentType) :
    readResponse (successResponse contentType body) = some (.success contentType body) := by
  have name : 13 ∉ ascii "Content-type" := by decide
  have apart : 58 ∉ ascii "Content-type" := by decide
  have oneLine : ∀ header ∈ [("Content-type", contentType)], OneLine header := by
    intro header member
    rw [List.mem_singleton.mp member]
    exact ⟨name, apart, plain⟩
  have shape : successResponse contentType body = response 200 (ascii "OK")
      ([("Content-type", contentType)].map fun header => (ascii header.1, ascii header.2)) body := by
    rw [successResponse, List.map_singleton]
  rw [shape, readResponse_response (by decide) oneLine, List.map_singleton, Reading.success]

/-- Nothing has been sent, or one success with a proper content type. -/
def Succeeds (output : List UInt8) : Prop :=
  output = [] ∨ ∃ contentType body, 13 ∉ ascii contentType ∧ output = successResponse contentType body

/-- A file is sent as a success, if it is sent. -/
theorem sendFileByName_succeeds (fs : FileSystem) (path : List UInt8) :
    Succeeds (sendFileByName fs path).output := by
  by_cases read : ∃ content, fs.fopen path = some (some content)
  · obtain ⟨content, read⟩ := read
    exact .inr ⟨_, content, httpGetMimeType_plain path, sendFileByName_read read⟩
  · exact .inl (sendFileByName_unread fun content isContent => read ⟨content, isContent⟩)

/-- Of a directory with an index that fits its buffer the index is sent. -/
theorem serveDirectory_index (opened : fs.opendir path = some entries)
    (present : indexName ∈ entries.map CString.bytes)
    (fits : (fileToSend path).length < pathBufferSize) :
    (serveDirectory fs path).output = (sendFileByName fs (fileToSend path)).output := by
  have sentFine : ((⟨[.opened path], none⟩ : Handling).andThen
      (sendFileByName fs (fileToSend path))).fault = none := by
    rw [Handling.fault_andThen]
    exact sendFileByName_fault
  unfold serveDirectory
  rw [opened]
  simp only [sendIndex_present (fs.distinct path entries opened) present, if_pos fits, if_true,
    Handling.andThen_nothing sentFine, Handling.output_andThen, output_opened, List.nil_append]

/-- Of a directory without an index the listing is sent. -/
theorem serveDirectory_listing (opened : fs.opendir path = some entries)
    (absent : indexName ∉ entries.map CString.bytes) :
    (serveDirectory fs path).output = successResponse "text/html" (listingBody entries) := by
  have openedFine : ((⟨[.opened path], none⟩ : Handling).andThen ⟨[], none⟩).fault = none := rfl
  unfold serveDirectory
  rw [opened]
  simp only [sendIndex_absent absent]
  rw [if_neg Bool.false_ne_true, Handling.output_andThen openedFine,
    (listFilesInDir_opened opened).2]
  rfl

/-- A directory is answered with its index or its listing as a success, if it is answered. -/
theorem serveDirectory_succeeds (fs : FileSystem) (path : List UInt8) :
    Succeeds (serveDirectory fs path).output := by
  cases opened : fs.opendir path with
  | none =>
    unfold serveDirectory
    rw [opened]
    exact .inl rfl
  | some entries =>
    by_cases present : indexName ∈ entries.map CString.bytes
    · by_cases fits : (fileToSend path).length < pathBufferSize
      · rw [serveDirectory_index opened present fits]
        exact sendFileByName_succeeds fs (fileToSend path)
      · unfold serveDirectory
        rw [opened]
        simp only [sendIndex_present (fs.distinct path entries opened) present, if_neg fits]
        exact .inl rfl
    · exact .inr ⟨"text/html", _, by decide, serveDirectory_listing opened present⟩

/-- A request is answered with a success, if it is answered. -/
theorem handleFilesRequest_succeeds (fs : FileSystem) (serverFilesDirectory : CString)
    (bytes : List UInt8) : Succeeds (handleFilesRequest fs serverFilesDirectory bytes).output := by
  unfold handleFilesRequest
  split
  · exact .inl rfl
  · exact .inl rfl
  · rename_i workingPath _
    split
    · exact .inl rfl
    · exact serveDirectory_succeeds fs workingPath
    · exact sendFileByName_succeeds fs workingPath
    · exact .inr ⟨"text/html", _, by decide, (output_success _ _ _).trans rfl⟩

/-- The last such byte of two texts is that of the second, if it has one. -/
theorem strrchr_append (byte : UInt8) (left right : List UInt8) :
    strrchr byte (left ++ right) =
      (strrchr byte right).or ((strrchr byte left).map (· ++ right)) := by
  induction left with
  | nil => cases found : strrchr byte right <;> simp [strrchr, found]
  | cons first left ih =>
    rw [List.cons_append, strrchr, ih]
    cases strrchr byte right with
    | some found => rfl
    | none =>
      rw [strrchr]
      cases strrchr byte left with
      | some found => rfl
      | none => by_cases same : first = byte <;> simp [same]

/-- What stands before a slash does not matter to the content type. -/
theorem httpGetMimeType_last :
    httpGetMimeType (path ++ 47 :: name) = httpGetMimeType name := by
  have slash : strrchr 46 (47 :: name) = strrchr 46 name := by
    rw [strrchr]
    cases strrchr 46 name <;> rfl
  unfold httpGetMimeType
  rw [strrchr_append, slash]
  cases strrchr 46 name with
  | some fileExtension => rfl
  | none =>
    cases strrchr 46 path with
    | none => rfl
    | some front =>
      -- What stands behind the last dot has a slash, as no known extension does.
      have inside : (47 : UInt8) ∈ front ++ 47 :: name := by simp
      have other : ∀ known, (47 : UInt8) ∉ known → front ++ 47 :: name ≠ known := fun known without same =>
        without (same ▸ inside)
      have unknown : ∀ known : String, (47 : UInt8) ∉ ascii known → front ++ 47 :: name ≠ ascii known :=
        fun known => other (ascii known)
      simp only [Option.map_some, Option.none_or]
      rw [if_neg (not_or.mpr ⟨unknown ".html" (by decide), unknown ".htm" (by decide)⟩),
        if_neg (not_or.mpr ⟨unknown ".jpg" (by decide), unknown ".jpeg" (by decide)⟩),
        if_neg (unknown ".png" (by decide)), if_neg (unknown ".css" (by decide)),
        if_neg (unknown ".js" (by decide)), if_neg (unknown ".pdf" (by decide))]

/-- What a client reads of the answer to a request. -/
structure ClientReads (fs : FileSystem) (serverFilesDirectory : CString) (bytes : List UInt8) :
    Prop where
  /-- What it reads is a success. -/
  success : ∀ reading, readResponse (handleFilesRequest fs serverFilesDirectory bytes).output =
    some reading → ∃ contentType body, reading = .success contentType body
  /-- Where it reads nothing, nothing has been sent. -/
  silence : readResponse (handleFilesRequest fs serverFilesDirectory bytes).output = none →
    (handleFilesRequest fs serverFilesDirectory bytes).output = []
  /-- Of a file it reads the content, with the type that the last component of its path tells. -/
  file : ∀ front name content,
    buildWorkingPath serverFilesDirectory bytes = .ok (some (front ++ 47 :: name)) →
    fs.stat (front ++ 47 :: name) = some .regular →
    fs.fopen (front ++ 47 :: name) = some (some content) →
    readResponse (handleFilesRequest fs serverFilesDirectory bytes).output =
      some (.success (httpGetMimeType name) content)
  /-- Of a directory with an index it reads that. -/
  index : ∀ path entries content, buildWorkingPath serverFilesDirectory bytes = .ok (some path) →
    fs.stat path = some .directory → fs.opendir path = some entries →
    indexName ∈ entries.map CString.bytes → (fileToSend path).length < pathBufferSize →
    fs.fopen (fileToSend path) = some (some content) →
    readResponse (handleFilesRequest fs serverFilesDirectory bytes).output =
      some (.success "text/html" content)
  /-- Of another directory it reads a page with a link for every name. -/
  listing : ∀ path entries, buildWorkingPath serverFilesDirectory bytes = .ok (some path) →
    fs.stat path = some .directory → fs.opendir path = some entries →
    indexName ∉ entries.map CString.bytes →
    ∃ page, readResponse (handleFilesRequest fs serverFilesDirectory bytes).output =
      some (.success "text/html" page) ∧ ∀ entry ∈ entries, linkLine entry <:+: page

/-- Whatever a client asks for, it reads a success or nothing: the file, the index or the links where
they can be sent, and never a status that tells of an error. -/
theorem client_reads (fs : FileSystem) (serverFilesDirectory : CString) (bytes : List UInt8) :
    ClientReads fs serverFilesDirectory bytes := by
  have succeeds := handleFilesRequest_succeeds fs serverFilesDirectory bytes
  have nothing : readResponse [] = none := by decide
  constructor
  · intro reading read
    rcases succeeds with silent | ⟨contentType, body, plain, sent⟩
    · rw [silent, nothing] at read
      cases read
    · rw [sent, readResponse_success plain] at read
      exact ⟨contentType, body, (Option.some.inj read).symm⟩
  · intro unread
    rcases succeeds with silent | ⟨contentType, body, plain, sent⟩
    · exact silent
    · rw [sent, readResponse_success plain] at unread
      cases unread
  · intro front name content built mode read
    have sent : (handleFilesRequest fs serverFilesDirectory bytes).output =
        successResponse (httpGetMimeType (front ++ 47 :: name)) content := by
      rw [handleFilesRequest, built]
      simp only [mode]
      exact sendFileByName_read read
    rw [sent, readResponse_success (httpGetMimeType_plain _), httpGetMimeType_last]
  · intro path entries content built mode opened present fits read
    have sent : (handleFilesRequest fs serverFilesDirectory bytes).output =
        successResponse (httpGetMimeType (fileToSend path)) content := by
      rw [handleFilesRequest, built]
      simp only [mode]
      exact (serveDirectory_index opened present fits).trans (sendFileByName_read read)
    have named : httpGetMimeType (fileToSend path) = "text/html" :=
      httpGetMimeType_last.trans (by decide)
    rw [sent, named, readResponse_success (by decide)]
  · intro path entries built mode opened absent
    have sent : (handleFilesRequest fs serverFilesDirectory bytes).output =
        successResponse "text/html" (listingBody entries) := by
      rw [handleFilesRequest, built]
      simp only [mode]
      exact serveDirectory_listing opened absent
    exact ⟨listingBody entries, by rw [sent, readResponse_success (by decide)],
      fun entry member => linkLine_infix member⟩

end OsAssignments.HttpServer

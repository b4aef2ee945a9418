import OsAssignments.HttpServer.Files

/-!
# One response for a request

What the comment at `handle_files_request` promises: the file asked for, the index of a directory,
a list of its files, or an error. The handler keeps the promise for the requests whose target can
be sent. For every other one it sends nothing, sends its error page with the status of a success,
or runs into a fault, so the promise holds for no other request.
-/

namespace OsAssignments.HttpServer

open Text

/-! ## The promise -/

/-- The kinds of responses. -/
inductive Answer
  /-- The bytes of the file with a path. -/
  | file (path content : List UInt8)
  /-- A list of the names in a directory. -/
  | listing (entries : List CString)
  /-- An error. -/
  | error

/-- The file with a path as an answer, or an error when it cannot be read. -/
def answerFile (fs : FileSystem) (path : List UInt8) : Answer :=
  match fs.fopen path with
  | some (some content) => .file path content
  | _ => .error

/-- The answer that the bytes of a request call for. -/
def expectedAnswer (fs : FileSystem) (serverFilesDirectory : CString) (bytes : List UInt8) :
    Answer :=
  match httpRequestParse bytes with
  | .ok (some request) =>
    let path := serverFilesDirectory.bytes ++ request.path
    if request.path.head? = some 47 then
      match fs.stat path with
      | some .regular => answerFile fs path
      | some .directory =>
        match fs.opendir path with
        | none => .error
        | some entries =>
          if indexName ∈ entries.map CString.bytes then answerFile fs (fileToSend path)
          else .listing entries
      | _ => .error
    else .error
  | _ => .error

/-- A status line. -/
def statusLine (status : Nat) (message : List UInt8) : List UInt8 :=
  ascii "HTTP/1.0 " ++ decimal status ++ ascii " " ++ message ++ ascii "\r\n"

/-- Header lines. -/
def headerLines (headers : List (List UInt8 × List UInt8)) : List UInt8 :=
  headers.flatMap fun header => header.1 ++ ascii ": " ++ header.2 ++ ascii "\r\n"

/-- A complete response. -/
def response (status : Nat) (message : List UInt8) (headers : List (List UInt8 × List UInt8))
    (body : List UInt8) : List UInt8 :=
  statusLine status message ++ headerLines headers ++ ascii "\r\n" ++ body

/-- A complete response of a success, with its content type. -/
def successResponse (contentType : String) (body : List UInt8) : List UInt8 :=
  response 200 (ascii "OK") [(ascii "Content-type", ascii contentType)] body

/-- Bytes are one complete response of the kind an answer is of. -/
def Responds : Answer → List UInt8 → Prop
  | .file path content, output => output = successResponse (httpGetMimeType path) content
  | .listing entries, output => ∃ body, output = successResponse "text/html" body ∧
      ∀ entry ∈ entries, linkLine entry <:+: body
  | .error, output => ∃ status message headers body, status ≠ 200 ∧
      output = response status message headers body

/-- A call returns after sending exactly one response, of the kind called for. -/
def Answered (fs : FileSystem) (serverFilesDirectory : CString) (bytes : List UInt8) : Prop :=
  let handling := handleFilesRequest fs serverFilesDirectory bytes
  handling.fault = none ∧ Responds (expectedAnswer fs serverFilesDirectory bytes) handling.output

/-- The request is accepted, its path starts with a slash and fits the buffer behind the served
directory, and the target can be sent: a regular file that can be read, or a directory that can be
opened, with an index, if there is one, whose path fits the buffer and that can be read. -/
def Servable (fs : FileSystem) (serverFilesDirectory : CString) (bytes : List UInt8) : Prop :=
  ∃ request, httpRequestParse bytes = .ok (some request) ∧ request.path.head? = some 47 ∧
    let path := serverFilesDirectory.bytes ++ request.path
    path.length < pathBufferSize ∧
      ((fs.stat path = some .regular ∧ ∃ content, fs.fopen path = some (some content)) ∨
        (fs.stat path = some .directory ∧ ∃ entries, fs.opendir path = some entries ∧
          (indexName ∈ entries.map CString.bytes → (fileToSend path).length < pathBufferSize ∧
            ∃ content, fs.fopen (fileToSend path) = some (some content))))

variable {fs : FileSystem} {serverFilesDirectory entry : CString} {entries : List CString}
  {bytes path content workingPath output : List UInt8} {first next : Handling} {request : Request}
  {answer : Answer}

/-! ## Handlings -/

/-- A fault of the first part is one of the whole. -/
theorem Handling.fault_andThen :
    (first.andThen next).fault = if first.fault.isSome then first.fault else next.fault := by
  unfold andThen
  cases fault : first.fault with
  | none => simp
  | some reason => simpa using fault

/-- Without a fault of the first part, the outputs follow each other. -/
theorem Handling.output_andThen (fine : first.fault = none) :
    (first.andThen next).output = first.output ++ next.output := by
  simp [andThen, fine, output]

/-- A call followed by nothing. -/
theorem Handling.andThen_nothing (fine : first.fault = none) : first.andThen ⟨[], none⟩ = first := by
  obtain ⟨effects, fault⟩ := first
  obtain rfl : fault = none := fine
  simp [andThen]

/-- A success is sent as its status line, its content type and its body. -/
theorem output_success (contentType : String) (effects : List Effect) (fault : Option Fault) :
    (⟨httpStartResponse 200 :: httpSendHeader "Content-type" contentType :: httpEndHeaders :: effects,
      fault⟩ : Handling).output =
      successResponse contentType (⟨effects, fault⟩ : Handling).output := by
  simp [Handling.output, httpStartResponse, httpSendHeader, httpEndHeaders, successResponse,
    response, statusLine, headerLines, httpGetResponseMessage]

/-- A file that can be read is sent in one response. -/
theorem sendFileByName_read (read : fs.fopen path = some (some content)) :
    (sendFileByName fs path).output = successResponse (httpGetMimeType path) content := by
  have sent := output_success (httpGetMimeType path) [httpSendData content] none
  have body : (⟨[httpSendData content], none⟩ : Handling).output = content := by
    simp [Handling.output, httpSendData]
  rw [body] at sent
  unfold sendFileByName
  rw [read]
  exact sent

/-- For a file that cannot be read nothing is sent. -/
theorem sendFileByName_unread (unread : ∀ content, fs.fopen path ≠ some (some content)) :
    (sendFileByName fs path).output = [] := by
  unfold sendFileByName
  split
  · rfl
  · rfl
  · rename_i content read
    exact absurd read (unread content)

/-- Sending a file runs into no fault. -/
theorem sendFileByName_fault : (sendFileByName fs path).fault = none := by
  unfold sendFileByName
  split <;> rfl

/-- A name of proper length fits the buffer for its line. -/
theorem linkLine_fits (short : entry.length ≤ nameMax) :
    (linkLine entry).length < pathBufferSize := by
  have front : (ascii "<br> <a href=\"http://192.168.162.162:8000").length = 41 := by decide
  have middle : (ascii "\"> ").length = 3 := by decide
  have back : (ascii " </a>").length = 5 := by decide
  unfold CString.length nameMax at short
  unfold pathBufferSize linkLine linkPath
  simp only [List.length_append, List.length_cons, front, middle, back]
  omega

/-- Names of proper length are all listed. -/
theorem listEntries_short (short : ∀ entry ∈ entries, entry.length ≤ nameMax) :
    (listEntries entries).fault = none ∧
      (listEntries entries).output = entries.flatMap linkLine := by
  induction entries with
  | nil => exact ⟨rfl, rfl⟩
  | cons entry rest ih =>
    obtain ⟨fine, output⟩ := ih fun other member => short other (List.mem_cons_of_mem entry member)
    rw [listEntries, if_pos (linkLine_fits (short entry List.mem_cons_self))]
    refine ⟨?_, ?_⟩
    · rw [Handling.fault_andThen]
      exact fine
    · rw [Handling.output_andThen rfl, output]
      simp [Handling.output, httpSendData]

/-- The body of a listing. -/
def listingBody (entries : List CString) : List UInt8 :=
  ascii "<!DOCTYPE html>\n" ++ ascii "<html>\n" ++ ascii "<body>\n" ++ entries.flatMap linkLine ++
    ascii "</body>\n" ++ ascii "</html>\n"

/-- A listing has the line of every name. -/
theorem linkLine_infix (member : entry ∈ entries) : linkLine entry <:+: listingBody entries := by
  obtain ⟨before, behind, rfl⟩ := List.append_of_mem member
  refine ⟨ascii "<!DOCTYPE html>\n" ++ ascii "<html>\n" ++ ascii "<body>\n" ++
    before.flatMap linkLine, behind.flatMap linkLine ++ ascii "</body>\n" ++ ascii "</html>\n", ?_⟩
  simp [listingBody]

/-- A directory that can be opened is listed in one response. -/
theorem listFilesInDir_opened (opened : fs.opendir path = some entries) :
    (listFilesInDir fs path).fault = none ∧
      (listFilesInDir fs path).output = successResponse "text/html" (listingBody entries) := by
  obtain ⟨fine, listed⟩ := listEntries_short (fs.short path entries opened)
  have front := output_success "text/html" [httpSendData (ascii "<!DOCTYPE html>\n"),
    httpSendData (ascii "<html>\n"), httpSendData (ascii "<body>\n"), .opened path] none
  simp only [listFilesInDir, opened, List.cons_append, List.nil_append]
  have listedFine : ((⟨httpStartResponse 200 :: httpSendHeader "Content-type" "text/html" ::
      httpEndHeaders :: [httpSendData (ascii "<!DOCTYPE html>\n"), httpSendData (ascii "<html>\n"),
      httpSendData (ascii "<body>\n"), .opened path], none⟩ : Handling).andThen
        (listEntries entries)).fault = none := by
    rw [Handling.fault_andThen]
    exact fine
  refine ⟨?_, ?_⟩
  · rw [Handling.fault_andThen, listedFine]
    rfl
  · rw [Handling.output_andThen listedFine, Handling.output_andThen rfl, front, listed]
    simp [successResponse, response, listingBody, Handling.output, httpSendData]

/-! ## The loop over a directory -/

/-- Without an index in it, the loop does nothing. -/
theorem sendIndex_absent (absent : indexName ∉ entries.map CString.bytes) :
    sendIndex fs workingPath entries = (⟨[], none⟩, false) := by
  induction entries with
  | nil => rfl
  | cons entry rest ih =>
    rw [List.map_cons, List.mem_cons, not_or] at absent
    rw [sendIndex, if_neg (Ne.symm absent.1), ih absent.2]

/-- With an index in it, the loop sends the index once, unless its path overruns the buffer. -/
theorem sendIndex_present (distinct : entries.Nodup)
    (present : indexName ∈ entries.map CString.bytes) :
    sendIndex fs workingPath entries =
      if (fileToSend workingPath).length < pathBufferSize then
        (sendFileByName fs (fileToSend workingPath), true)
      else (⟨[], some .overrun⟩, true) := by
  induction entries with
  | nil => contradiction
  | cons entry rest ih =>
    obtain ⟨fresh, distinct⟩ := List.nodup_cons.mp distinct
    rw [sendIndex]
    by_cases here : entry.bytes = indexName
    · have absent : indexName ∉ rest.map CString.bytes := by
        intro again
        obtain ⟨other, member, same⟩ := List.mem_map.mp again
        have one : other = entry := by
          cases other
          cases entry
          simpa using same.trans here.symm
        exact fresh (one ▸ member)
      rw [if_pos here, sendIndex_absent absent, Handling.andThen_nothing sendFileByName_fault]
    · rw [if_neg here]
      apply ih distinct
      rw [List.map_cons, List.mem_cons] at present
      exact present.resolve_left (Ne.symm here)

/-! ## The handler -/

/-- No output is a response. -/
theorem response_nonempty {status : Nat} {message body : List UInt8}
    {headers : List (List UInt8 × List UInt8)} : response status message headers body ≠ [] := by
  have front : ascii "HTTP/1.0 " ≠ [] := by decide
  simp [response, statusLine, front]

/-- Where an error is called for, sending nothing is no answer. -/
theorem not_responds_nothing : ¬ Responds .error [] := by
  rintro ⟨_, _, _, _, _, same⟩
  exact response_nonempty same.symm

/-- Where an error is called for, a success is no answer. -/
theorem not_responds_success {contentType : String} {body : List UInt8} :
    ¬ Responds .error (successResponse contentType body) := by
  rintro ⟨status, message, headers, rest, failed, same⟩
  have space : ascii " " = [32] := by decide
  simp only [successResponse, response, statusLine, space, List.append_assoc,
    List.cons_append, List.nil_append, List.append_cancel_left_eq] at same
  exact failed (decimal_unique same).symm

/-- The answer to a regular file is sent exactly when the file can be read. -/
theorem responds_sendFile :
    Responds (answerFile fs path) (sendFileByName fs path).output ↔
      ∃ content, fs.fopen path = some (some content) := by
  constructor
  · intro responds
    by_contra unread
    have nothing := sendFileByName_unread fun content read => unread ⟨content, read⟩
    have error : answerFile fs path = .error := by
      unfold answerFile
      split
      · rename_i content read
        exact absurd ⟨content, read⟩ unread
      · rfl
    rw [nothing, error] at responds
    exact not_responds_nothing responds
  · rintro ⟨content, read⟩
    rw [sendFileByName_read read, answerFile, read]
    rfl

/-- Opening a directory sends nothing. -/
theorem output_opened : (⟨[.opened path], none⟩ : Handling).output = [] := rfl

/-- A directory that can be opened is answered for exactly when its index, if it has one, can be
sent. -/
theorem serveDirectory_answers (opened : fs.opendir path = some entries) :
    (serveDirectory fs path).fault = none ∧
        Responds (if indexName ∈ entries.map CString.bytes then answerFile fs (fileToSend path)
          else .listing entries) (serveDirectory fs path).output ↔
      (indexName ∈ entries.map CString.bytes → (fileToSend path).length < pathBufferSize ∧
        ∃ content, fs.fopen (fileToSend path) = some (some content)) := by
  unfold serveDirectory
  rw [opened]
  by_cases present : indexName ∈ entries.map CString.bytes
  · simp only [sendIndex_present (fs.distinct path entries opened) present, present, if_true,
      true_imp_iff]
    by_cases fits : (fileToSend path).length < pathBufferSize
    · have sentFine : ((⟨[.opened path], none⟩ : Handling).andThen
          (sendFileByName fs (fileToSend path))).fault = none := by
        rw [Handling.fault_andThen]
        exact sendFileByName_fault
      simp only [fits, if_true, true_and, Handling.andThen_nothing sentFine, sentFine,
        Handling.output_andThen, output_opened, List.nil_append]
      exact responds_sendFile
    · simp [fits, Handling.fault_andThen]
  · obtain ⟨fine, listed⟩ := listFilesInDir_opened opened
    simp only [sendIndex_absent present, present, if_false, false_imp_iff, iff_true]
    have openedFine : ((⟨[.opened path], none⟩ : Handling).andThen ⟨[], none⟩).fault = none := rfl
    refine ⟨?_, listingBody entries, ?_, fun entry member => linkLine_infix member⟩
    · rw [Handling.fault_andThen, openedFine]
      exact fine
    · rw [if_neg Bool.false_ne_true, Handling.output_andThen openedFine, listed]
      rfl

/-- The handler answers a request with exactly one response of the kind its comment lists for
exactly the requests whose target can be sent. -/
theorem answered_iff_servable : Answered fs serverFilesDirectory bytes ↔
    Servable fs serverFilesDirectory bytes := by
  unfold Answered Servable expectedAnswer handleFilesRequest buildWorkingPath
  cases parsed : httpRequestParse bytes with
  | error fault => simp
  | ok accepted =>
    cases accepted with
    | none => simp
    | some request =>
      simp only [Except.ok.injEq, Option.some.injEq, exists_eq_left']
      by_cases slash : request.path.head? = some 47
      · simp only [slash, if_true, true_and]
        by_cases fits : (serverFilesDirectory.bytes ++ request.path).length < pathBufferSize
        · simp only [fits, if_true, true_and]
          generalize serverFilesDirectory.bytes ++ request.path = path
          cases mode : fs.stat path with
          | none => simp
          | some kind =>
            cases kind with
            | regular =>
              simp only [sendFileByName_fault, true_and, responds_sendFile]
              simp
            | directory =>
              cases opened : fs.opendir path with
              | none => simp [serveDirectory, opened]
              | some entries =>
                simp only [serveDirectory_answers opened]
                simp
            | other =>
              have sent : send404.output = successResponse "text/html"
                  (ascii "<center><h1>http Error 404.</h1><hr><p>File not found.</p></center>") :=
                (output_success _ _ _).trans (by simp [Handling.output, httpSendData])
              simp [sent, not_responds_success]
        · simp only [fits, if_false, false_and, iff_false]
          exact fun answered => absurd answered.1 (by simp)
      · have nothing : (⟨[], none⟩ : Handling).output = [] := rfl
        simp [slash, nothing, not_responds_nothing]

/-- A file system in which no call succeeds. -/
def emptyFileSystem : FileSystem := .withoutDirectories (fun _ => none) (fun _ => none)

/-- A request for a path that does not exist is not answered: the handler branches on a mode that
`stat` has not stored. -/
theorem missing_unanswered : ¬ ∀ (fs : FileSystem) (serverFilesDirectory : CString)
    (bytes : List UInt8), Answered fs serverFilesDirectory bytes := by
  intro claim
  have answered := claim emptyFileSystem ⟨ascii "www", by decide⟩ (ascii "GET /missing HTTP/1.0\r\n")
  have fault : (handleFilesRequest emptyFileSystem ⟨ascii "www", by decide⟩
      (ascii "GET /missing HTTP/1.0\r\n")).fault = some .uninitialised := by decide
  exact absurd (fault.symm.trans answered.1) (by decide)

end OsAssignments.HttpServer

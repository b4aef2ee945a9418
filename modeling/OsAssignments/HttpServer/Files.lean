import OsAssignments.HttpServer.Request
import OsAssignments.Library.CString
import OsAssignments.Library.Text

/-!
# Serving files

`handle_files_request` with the functions it calls, over a file system that answers `stat`,
`opendir` and `fopen` for each path. What a call does is the list of what it opens and gives to
`write`, up to its end or to the point where C leaves it undefined.

Two things are assumed. An open file has the size that `fseek` and `ftell` find and is read in one
`fread`, so none is like those of `/proc`, whose size is not that of what is read from them. And a
client is sent all that is given to `write`: the body is below 2 GiB, and the connection is not reset.
-/

namespace OsAssignments.HttpServer

open Text

/-! ## The file system -/

/-- What `st_mode` says of a file. -/
inductive Mode
  /-- `S_ISREG`. -/
  | regular
  /-- `S_ISDIR`. -/
  | directory
  /-- Any other kind of file. -/
  | other
  deriving DecidableEq, Repr

/-- `NAME_MAX`. -/
def nameMax : Nat := 255

/-- The answers of the file system. -/
structure FileSystem where
  /-- `stat`: the mode, or nothing when the call fails. -/
  stat : List UInt8 → Option Mode
  /-- `opendir` and `readdir`: the names in the directory, or nothing when it cannot be opened. -/
  opendir : List UInt8 → Option (List CString)
  /-- `fopen`, `fseek`, `ftell`, `malloc` and `fread`: nothing when the file cannot be opened, and
  otherwise its bytes, when a buffer for them can be had. -/
  fopen : List UInt8 → Option (Option (List UInt8))
  /-- The names in a directory are distinct. -/
  distinct : ∀ path entries, opendir path = some entries → entries.Nodup
  /-- A name is not empty and has no slash. -/
  proper : ∀ path entries, opendir path = some entries →
    ∀ name ∈ entries, name.bytes ≠ [] ∧ 47 ∉ name.bytes
  /-- No name is longer than `NAME_MAX`. -/
  short : ∀ path entries, opendir path = some entries → ∀ name ∈ entries, name.length ≤ nameMax

/-- A file system in which no directory can be opened. -/
def FileSystem.withoutDirectories (stat : List UInt8 → Option Mode)
    (fopen : List UInt8 → Option (Option (List UInt8))) : FileSystem where
  stat := stat
  opendir := fun _ => none
  fopen := fopen
  distinct := fun _ _ opened => nomatch opened
  proper := fun _ _ opened => nomatch opened
  short := fun _ _ opened => nomatch opened

/-! ## What a call does -/

/-- An effect of the server. -/
inductive Effect
  /-- A file or a directory is opened. -/
  | opened (path : List UInt8)
  /-- Bytes are written to the socket. -/
  | sent (bytes : List UInt8)
  deriving DecidableEq, Repr

/-- What a call does: its effects, and the fault it runs into after them. -/
structure Handling where
  /-- The effects, in order. -/
  effects : List Effect
  /-- The fault, if there is one. -/
  fault : Option Fault := none
  deriving DecidableEq, Repr

namespace Handling

/-- A call that is followed by another one unless it runs into a fault. -/
def andThen (first next : Handling) : Handling :=
  match first.fault with
  | some _ => first
  | none => ⟨first.effects ++ next.effects, next.fault⟩

/-- All bytes sent, one after another. -/
def output (handling : Handling) : List UInt8 :=
  handling.effects.flatMap fun effect =>
    match effect with
    | .sent bytes => bytes
    | .opened _ => []

/-- The paths of everything opened. -/
def openedPaths (handling : Handling) : List (List UInt8) :=
  handling.effects.filterMap fun effect =>
    match effect with
    | .sent _ => none
    | .opened path => some path

end Handling

/-! ## Sending -/

/-- `http_get_response_message`. -/
def httpGetResponseMessage : Nat → String
  | 100 => "Continue"
  | 200 => "OK"
  | 301 => "Moved Permanently"
  | 302 => "Found"
  | 304 => "Not Modified"
  | 400 => "Bad Request"
  | 401 => "Unauthorized"
  | 403 => "Forbidden"
  | 404 => "Not Found"
  | 405 => "Method Not Allowed"
  | _ => "Internal Server Error"

/-- `http_start_response`. -/
def httpStartResponse (statusCode : Nat) : Effect :=
  .sent (ascii "HTTP/1.0 " ++ decimal statusCode ++ ascii " " ++
    ascii (httpGetResponseMessage statusCode) ++ ascii "\r\n")

/-- `http_send_header`. -/
def httpSendHeader (key value : String) : Effect :=
  .sent (ascii key ++ ascii ": " ++ ascii value ++ ascii "\r\n")

/-- `http_end_headers`. -/
def httpEndHeaders : Effect := .sent (ascii "\r\n")

/-- `http_send_data`, and `http_send_string` of a string with these bytes. -/
def httpSendData (data : List UInt8) : Effect := .sent data

/-- `strrchr`: the text from the last such byte on. -/
def strrchr (byte : UInt8) : List UInt8 → Option (List UInt8)
  | [] => none
  | first :: rest =>
    match strrchr byte rest with
    | some found => some found
    | none => if first = byte then some (first :: rest) else none

/-- `http_get_mime_type`. -/
def httpGetMimeType (fileName : List UInt8) : String :=
  match strrchr 46 fileName with
  | none => "text/plain"
  | some fileExtension =>
    if fileExtension = ascii ".html" ∨ fileExtension = ascii ".htm" then "text/html"
    else if fileExtension = ascii ".jpg" ∨ fileExtension = ascii ".jpeg" then "image/jpeg"
    else if fileExtension = ascii ".png" then "image/png"
    else if fileExtension = ascii ".css" then "text/css"
    else if fileExtension = ascii ".js" then "application/javascript"
    else if fileExtension = ascii ".pdf" then "application/pdf"
    else "text/plain"

/-! ## The handler -/

/-- The size of `working_path`, `file_to_send` and `send_buf`. -/
def pathBufferSize : Nat := 2048

/-- `send_file_by_name`. -/
def sendFileByName (fs : FileSystem) (fname : List UInt8) : Handling :=
  match fs.fopen fname with
  | none => ⟨[], none⟩
  | some none => ⟨[.opened fname], none⟩
  | some (some buffer) =>
    ⟨[.opened fname, httpStartResponse 200, httpSendHeader "Content-type" (httpGetMimeType fname),
      httpEndHeaders, httpSendData buffer], none⟩

/-- The path of the link that is sent for a name. -/
def linkPath (name : CString) : List UInt8 := 47 :: name.bytes

/-- The line that is sent for a name. -/
def linkLine (name : CString) : List UInt8 :=
  ascii "<br> <a href=\"http://192.168.162.162:8000" ++ linkPath name ++ ascii "\"> " ++
    name.bytes ++ ascii " </a>"

/-- The loop of `list_files_in_dir`. -/
def listEntries : List CString → Handling
  | [] => ⟨[], none⟩
  | entry :: rest =>
    if (linkLine entry).length < pathBufferSize then
      (⟨[httpSendData (linkLine entry)], none⟩ : Handling).andThen (listEntries rest)
    else ⟨[], some .overrun⟩

/-- `list_files_in_dir`. -/
def listFilesInDir (fs : FileSystem) (dirName : List UInt8) : Handling :=
  let front := [httpStartResponse 200, httpSendHeader "Content-type" "text/html", httpEndHeaders,
    httpSendData (ascii "<!DOCTYPE html>\n"), httpSendData (ascii "<html>\n"),
    httpSendData (ascii "<body>\n")]
  match fs.opendir dirName with
  | none => ⟨front, some .nullPointer⟩
  | some entries =>
    ((⟨front ++ [.opened dirName], none⟩ : Handling).andThen (listEntries entries)).andThen
      ⟨[httpSendData (ascii "</body>\n"), httpSendData (ascii "</html>\n")], none⟩

/-- `send_404`. -/
def send404 : Handling :=
  ⟨[httpStartResponse 200, httpSendHeader "Content-type" "text/html", httpEndHeaders,
    httpSendData (ascii "<center><h1>http Error 404.</h1><hr><p>File not found.</p></center>")], none⟩

/-- "index.html". -/
def indexName : List UInt8 := ascii "index.html"

/-- The string put in `file_to_send`. -/
def fileToSend (workingPath : List UInt8) : List UInt8 := workingPath ++ 47 :: indexName

/-- The loop over the directory in `handle_files_request`, with the variable `found` after it. -/
def sendIndex (fs : FileSystem) (workingPath : List UInt8) : List CString → Handling × Bool
  | [] => (⟨[], none⟩, false)
  | entry :: rest =>
    if entry.bytes = indexName then
      if (fileToSend workingPath).length < pathBufferSize then
        ((sendFileByName fs (fileToSend workingPath)).andThen (sendIndex fs workingPath rest).1, true)
      else (⟨[], some .overrun⟩, true)
    else sendIndex fs workingPath rest

/-- The branch of `handle_files_request` for a directory. -/
def serveDirectory (fs : FileSystem) (workingPath : List UInt8) : Handling :=
  match fs.opendir workingPath with
  | none => ⟨[], some .nullPointer⟩
  | some entries =>
    let scanned := sendIndex fs workingPath entries
    ((⟨[.opened workingPath], none⟩ : Handling).andThen scanned.1).andThen
      (if scanned.2 then ⟨[], none⟩ else listFilesInDir fs workingPath)

/-- The string that `handle_files_request` puts in `working_path` for the bytes of a request, when
the path asked for starts with a slash. -/
def buildWorkingPath (serverFilesDirectory : CString) (bytes : List UInt8) :
    Except Fault (Option (List UInt8)) :=
  match httpRequestParse bytes with
  | .error fault => .error fault
  | .ok none => .error .nullPointer
  | .ok (some request) =>
    if request.path.head? = some 47 then
      let workingPath := serverFilesDirectory.bytes ++ request.path
      if workingPath.length < pathBufferSize then .ok (some workingPath) else .error .overrun
    else .ok none

/-- `handle_files_request` for the bytes that `read` returns from the client. -/
def handleFilesRequest (fs : FileSystem) (serverFilesDirectory : CString) (bytes : List UInt8) :
    Handling :=
  match buildWorkingPath serverFilesDirectory bytes with
  | .error fault => ⟨[], some fault⟩
  | .ok none => ⟨[], none⟩
  | .ok (some workingPath) =>
    match fs.stat workingPath with
    | none => ⟨[], some .uninitialised⟩
    | some .directory => serveDirectory fs workingPath
    | some .regular => sendFileByName fs workingPath
    | some .other => send404

end OsAssignments.HttpServer

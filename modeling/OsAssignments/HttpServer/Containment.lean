import OsAssignments.HttpServer.PathBounds
import OsAssignments.Library.PathWalk

/-!
# Staying inside the served directory

Paths are resolved name by name, without symbolic links. The handler puts the path asked for behind
the served directory as it is, so what it opens lies under that directory exactly when the path, in
its normal form, does not step up out of it or goes back in by the names it has left. A path that overruns
a buffer is not kept anywhere: what the handler opens then is anyone's guess.
-/

namespace OsAssignments.HttpServer

open PathWalk Text

/-- A name that leads nowhere else: none between two slashes, or a dot. -/
def staysName (name : List UInt8) : Bool := name = [] || name = [46]

/-- The name of the parent. -/
def upName (name : List UInt8) : Bool := name = [46, 46]

/-- The names between the slashes of a path. -/
def components (path : List UInt8) : List (List UInt8) := path.splitOn 47

/-- The place a path leads to in a process with the given working directory. -/
def resolve (cwd : List (List UInt8)) (path : List UInt8) : List (List UInt8) :=
  walk staysName upName (if path.head? = some 47 then [] else cwd) (components path)

/-- The place of the served directory, with the slash behind it that every path asked for brings. -/
def served (cwd : List (List UInt8)) (serverFilesDirectory : CString) : List (List UInt8) :=
  resolve cwd (serverFilesDirectory.bytes ++ [47])

/-- The handler opens what is asked for: the path starts with a slash and fits the buffer, and
names a regular file or a directory that can be opened. -/
def Opens (fs : FileSystem) (serverFilesDirectory : CString) (request : Request) : Prop :=
  let path := serverFilesDirectory.bytes ++ request.path
  request.path.head? = some 47 ∧ path.length < pathBufferSize ∧
    ((fs.stat path = some .regular ∧ fs.fopen path ≠ none) ∨
      (fs.stat path = some .directory ∧ fs.opendir path ≠ none))

/-- The path asked for fits its buffer behind the served directory, and so does the path of an index in
it. -/
structure PathFits (fs : FileSystem) (serverFilesDirectory : CString) (request : Request) : Prop where
  /-- It fits `working_path`. -/
  working : (serverFilesDirectory.bytes ++ request.path).length < pathBufferSize
  /-- The index fits `file_to_send`. -/
  index : fs.stat (serverFilesDirectory.bytes ++ request.path) = some .directory →
    ∀ entries, fs.opendir (serverFilesDirectory.bytes ++ request.path) = some entries →
      indexName ∈ entries.map CString.bytes →
        (fileToSend (serverFilesDirectory.bytes ++ request.path)).length < pathBufferSize

/-- Everything that the handler opens resolves to a place under the served directory, and it does not
overrun a buffer, behind which C leaves open what it opens. -/
structure Confined (cwd : List (List UInt8)) (fs : FileSystem) (serverFilesDirectory : CString)
    (bytes : List UInt8) : Prop where
  /-- No buffer is overrun. -/
  kept : (handleFilesRequest fs serverFilesDirectory bytes).fault ≠ some .overrun
  /-- What is opened lies under the directory. -/
  inside : ∀ path ∈ (handleFilesRequest fs serverFilesDirectory bytes).openedPaths,
    served cwd serverFilesDirectory <+: resolve cwd path

/-- The normal form of the path asked for has no step up that its names do not take back. -/
def StaysInside (cwd : List (List UInt8)) (serverFilesDirectory : CString) (request : Request) :
    Prop :=
  let root := served cwd serverFilesDirectory
  let normal := normalize staysName upName (components request.path)
  root.drop (root.length - normal.ups) <+: normal.names

variable {fs : FileSystem} {cwd : List (List UInt8)} {serverFilesDirectory : CString}
  {root path rest bytes workingPath : List UInt8} {entries : List CString} {request : Request}
  {first next : Handling}

/-! ## Resolution -/

/-- What comes behind a slash is walked from the place before it. -/
theorem resolve_append :
    resolve cwd (root ++ 47 :: rest) =
      walk staysName upName (resolve cwd (root ++ [47])) (components rest) := by
  have head : (root ++ 47 :: rest).head? = (root ++ [47]).head? := by cases root <;> rfl
  have front : components (root ++ [47]) = components root ++ [[]] :=
    List.splitOn_append_cons_self root []
  have whole : components (root ++ 47 :: rest) = components root ++ components rest :=
    List.splitOn_append_cons_self root rest
  unfold resolve
  rw [head, front, whole, walk_append, walk_append]
  rfl

/-- A slash behind a path changes nothing. -/
theorem resolve_slash (nonempty : root ≠ []) : resolve cwd (root ++ [47]) = resolve cwd root := by
  have head : (root ++ [47]).head? = root.head? := by
    cases root with
    | nil => contradiction
    | cons byte rest => rfl
  have front : components (root ++ [47]) = components root ++ [[]] :=
    List.splitOn_append_cons_self root []
  unfold resolve
  rw [head, front, walk_append]
  rfl

/-- The served directory is the one that its path leads to. -/
theorem served_eq (nonempty : serverFilesDirectory.bytes ≠ []) :
    served cwd serverFilesDirectory = resolve cwd serverFilesDirectory.bytes :=
  resolve_slash nonempty

/-- A working path leads under the served directory exactly when the path asked for stays inside. -/
theorem inside_iff (slash : request.path.head? = some 47) :
    served cwd serverFilesDirectory <+: resolve cwd (serverFilesDirectory.bytes ++ request.path) ↔
      StaysInside cwd serverFilesDirectory request := by
  obtain ⟨rest, asked⟩ : ∃ rest, request.path = 47 :: rest := List.head?_eq_some_iff.mp slash
  have names : components (47 :: rest) = [] :: components rest :=
    List.splitOn_append_cons_self [] rest
  have normal : normalize staysName upName (components request.path) =
      normalize staysName upName (components rest) := by
    rw [asked, names]
    rfl
  unfold StaysInside
  rw [normal, asked, resolve_append, walk_eq_normalize]
  exact Normal.below_iff

/-- The index of a directory lies in it. -/
theorem resolve_fileToSend (nonempty : workingPath ≠ []) :
    resolve cwd (fileToSend workingPath) = resolve cwd workingPath ++ [indexName] := by
  have name : components indexName = [indexName] := List.splitOn_eq_singleton (by decide)
  have down : staysName indexName = false ∧ upName indexName = false := by decide
  rw [fileToSend, resolve_append, name, resolve_slash nonempty]
  exact step_down down.1 down.2

/-! ## What is opened -/

/-- What the first part opens is opened by the whole. -/
theorem Handling.mem_openedPaths_left (opened : path ∈ first.openedPaths) :
    path ∈ (first.andThen next).openedPaths := by
  unfold andThen
  split
  · exact opened
  · unfold openedPaths at *
    rw [List.filterMap_append]
    exact List.mem_append_left _ opened

/-- What the whole opens is opened by one of its parts. -/
theorem Handling.mem_openedPaths (opened : path ∈ (first.andThen next).openedPaths) :
    path ∈ first.openedPaths ∨ path ∈ next.openedPaths := by
  unfold andThen at opened
  split at opened
  · exact .inl opened
  · unfold openedPaths at *
    rw [List.filterMap_append] at opened
    exact List.mem_append.mp opened

/-- Sending a file opens no other. -/
theorem sendFileByName_opens (opened : path ∈ (sendFileByName fs root).openedPaths) :
    path = root ∧ fs.fopen root ≠ none := by
  unfold sendFileByName at opened
  split at opened
  · contradiction
  · rename_i found
    exact ⟨List.mem_singleton.mp opened, by simp [found]⟩
  · rename_i found
    exact ⟨List.mem_singleton.mp opened, by simp [found]⟩

/-- A file that can be opened is opened to be sent. -/
theorem sendFileByName_opened (found : fs.fopen root ≠ none) :
    root ∈ (sendFileByName fs root).openedPaths := by
  unfold sendFileByName
  split
  · contradiction
  · exact List.mem_singleton_self root
  · exact List.mem_singleton_self root

/-- Listing names opens nothing. -/
theorem listEntries_opens : (listEntries entries).openedPaths = [] := by
  induction entries with
  | nil => rfl
  | cons entry rest ih =>
    rw [listEntries]
    split
    · apply List.eq_nil_iff_forall_not_mem.mpr
      intro path opened
      rcases Handling.mem_openedPaths opened with here | later
      · contradiction
      · rw [ih] at later
        contradiction
    · rfl

/-- Listing a directory opens that directory only. -/
theorem listFilesInDir_opens (opened : path ∈ (listFilesInDir fs root).openedPaths) :
    path = root := by
  unfold listFilesInDir at opened
  split at opened
  · contradiction
  · rcases Handling.mem_openedPaths opened with front | back
    · rcases Handling.mem_openedPaths front with front | entries
      · exact List.mem_singleton.mp front
      · rw [listEntries_opens] at entries
        contradiction
    · contradiction

/-- The loop over a directory opens its index only. -/
theorem sendIndex_opens (opened : path ∈ (sendIndex fs root entries).1.openedPaths) :
    path = fileToSend root := by
  induction entries with
  | nil => contradiction
  | cons entry rest ih =>
    rw [sendIndex] at opened
    split at opened
    · split at opened
      · rcases Handling.mem_openedPaths opened with here | later
        · exact (sendFileByName_opens here).1
        · exact ih later
      · contradiction
    · exact ih opened

/-- In a directory that can be opened, that directory and its index are all that is opened. -/
theorem serveDirectory_opens (found : fs.opendir root = some entries) :
    root ∈ (serveDirectory fs root).openedPaths ∧
      ∀ path ∈ (serveDirectory fs root).openedPaths, path = root ∨ path = fileToSend root := by
  unfold serveDirectory
  rw [found]
  constructor
  · exact Handling.mem_openedPaths_left (Handling.mem_openedPaths_left (List.mem_singleton_self root))
  · intro path opened
    rcases Handling.mem_openedPaths opened with front | back
    · rcases Handling.mem_openedPaths front with here | scanned
      · exact .inl (List.mem_singleton.mp here)
      · exact .inr (sendIndex_opens scanned)
    · split at back
      · contradiction
      · exact .inl (listFilesInDir_opens back)

/-- What the handler opens: the working path and at most the index in it, or nothing. -/
theorem handleFilesRequest_opens (accepted : httpRequestParse bytes = .ok (some request)) :
    let handling := handleFilesRequest fs serverFilesDirectory bytes
    let path := serverFilesDirectory.bytes ++ request.path
    (Opens fs serverFilesDirectory request → path ∈ handling.openedPaths) ∧
      ∀ opened ∈ handling.openedPaths, Opens fs serverFilesDirectory request ∧
        (opened = path ∨ opened = fileToSend path) := by
  unfold handleFilesRequest buildWorkingPath Opens
  simp only [accepted]
  by_cases slash : request.path.head? = some 47
  · simp only [slash, if_true, true_and]
    by_cases fits : (serverFilesDirectory.bytes ++ request.path).length < pathBufferSize
    · simp only [fits, if_true, true_and]
      generalize serverFilesDirectory.bytes ++ request.path = path
      cases mode : fs.stat path with
      | none => simp [Handling.openedPaths]
      | some kind =>
        cases kind with
        | regular =>
          refine ⟨fun opens => ?_, fun opened inside => ?_⟩
          · exact sendFileByName_opened (by simpa using opens)
          · obtain ⟨same, found⟩ := sendFileByName_opens inside
            exact ⟨.inl ⟨rfl, found⟩, .inl same⟩
        | directory =>
          cases found : fs.opendir path with
          | none => simp [serveDirectory, found, Handling.openedPaths]
          | some entries =>
            obtain ⟨first, others⟩ := serveDirectory_opens found
            exact ⟨fun _ => first, fun opened inside =>
              ⟨.inr ⟨rfl, by simp⟩, others opened inside⟩⟩
        | other => simp [send404, Handling.openedPaths, httpStartResponse, httpSendHeader,
            httpEndHeaders, httpSendData]
    · simp only [fits, if_false, false_and, false_imp_iff, true_and]
      exact fun opened inside => absurd inside List.not_mem_nil
  · simp only [slash, if_false, false_and, false_imp_iff, true_and]
    exact fun opened inside => absurd inside List.not_mem_nil

/-- Everything that the handler opens for an accepted request lies under the served directory
exactly when nothing is opened or the path asked for stays inside. -/
theorem opened_inside_iff (cwd : List (List UInt8)) (fs : FileSystem)
    (serverFilesDirectory : CString) (accepted : httpRequestParse bytes = .ok (some request)) :
    (∀ path ∈ (handleFilesRequest fs serverFilesDirectory bytes).openedPaths,
      served cwd serverFilesDirectory <+: resolve cwd path) ↔
    (Opens fs serverFilesDirectory request → StaysInside cwd serverFilesDirectory request) := by
  obtain ⟨first, others⟩ := @handleFilesRequest_opens fs serverFilesDirectory bytes request accepted
  constructor
  · intro inside opens
    exact (inside_iff opens.1).mp (inside _ (first opens))
  · intro stays path opened
    obtain ⟨opens, place⟩ := others path opened
    have here := (inside_iff opens.1).mpr (stays opens)
    have nonempty : serverFilesDirectory.bytes ++ request.path ≠ [] := by
      intro none
      have slash := opens.1
      rw [(List.append_eq_nil_iff.mp none).2] at slash
      contradiction
    rcases place with rfl | rfl
    · exact here
    · rw [resolve_fileToSend nonempty]
      exact here.trans (List.prefix_append _ _)

/-- Everything that the handler opens for an accepted request lies under the served directory, and no
buffer is overrun, exactly when the path asked for does not start with a slash, or it fits its buffer
behind the served directory, as does the path of an index in it, and nothing is opened or the path
stays inside. -/
theorem opens_inside_iff (cwd : List (List UInt8)) (fs : FileSystem)
    (serverFilesDirectory : CString) (accepted : httpRequestParse bytes = .ok (some request)) :
    Confined cwd fs serverFilesDirectory bytes ↔
      (request.path.head? = some 47 → PathFits fs serverFilesDirectory request ∧
        (Opens fs serverFilesDirectory request → StaysInside cwd serverFilesDirectory request)) := by
  have kept : (handleFilesRequest fs serverFilesDirectory bytes).fault ≠ some .overrun ↔
      CompositionsFit fs serverFilesDirectory bytes :=
    (not_congr (overrun_iff accepted)).trans not_not
  have inside := opened_inside_iff cwd fs serverFilesDirectory accepted
  constructor
  · rintro ⟨fine, under⟩ slash
    obtain ⟨fits, index⟩ := (compositions_accepted accepted slash).mp (kept.mp fine)
    exact ⟨⟨fits, index⟩, inside.mp under⟩
  · intro parts
    by_cases slash : request.path.head? = some 47
    · obtain ⟨⟨fits, index⟩, stays⟩ := parts slash
      exact ⟨kept.mpr ((compositions_accepted accepted slash).mpr ⟨fits, index⟩), inside.mpr stays⟩
    · have nothing : ¬ Opens fs serverFilesDirectory request := fun opens => slash opens.1
      refine ⟨?_, inside.mpr fun opens => absurd opens nothing⟩
      rw [handleFilesRequest, buildWorkingPath, accepted]
      simp [slash]

/-- A file system with a file in the directory "www" and one beside it. -/
def secretFileSystem : FileSystem :=
  .withoutDirectories
    (fun path =>
      if path = ascii "www/b/../a" ∨ path = ascii "www/../secret" then some .regular else none)
    (fun path =>
      if path = ascii "www/b/../a" ∨ path = ascii "www/../secret" then some (some [120]) else none)

/-- A path with two dots leads out of the served directory. -/
theorem dots_escape : ¬ ∀ (cwd : List (List UInt8)) (fs : FileSystem)
    (serverFilesDirectory : CString) (bytes : List UInt8) (request : Request),
    httpRequestParse bytes = .ok (some request) →
    ∀ path ∈ (handleFilesRequest fs serverFilesDirectory bytes).openedPaths,
      served cwd serverFilesDirectory <+: resolve cwd path := by
  intro claim
  have inside := claim [ascii "srv"] secretFileSystem ⟨ascii "www", by decide⟩
    (ascii "GET /../secret HTTP/1.0\r\n") ⟨ascii "GET", ascii "/../secret"⟩ (by decide)
    (ascii "www/../secret") (by decide)
  revert inside
  decide

/-- A path with dots that stays inside opens its file inside. -/
theorem opens_inside_secret :
    (handleFilesRequest secretFileSystem ⟨ascii "www", by decide⟩
      (ascii "GET /b/../a HTTP/1.0\r\n")).openedPaths = [ascii "www/b/../a"] ∧
    Confined [ascii "srv"] secretFileSystem ⟨ascii "www", by decide⟩
      (ascii "GET /b/../a HTTP/1.0\r\n") := by
  have accepted : httpRequestParse (ascii "GET /b/../a HTTP/1.0\r\n") =
      .ok (some ⟨ascii "GET", ascii "/b/../a"⟩) := by decide
  have regular : secretFileSystem.stat (ascii "www/b/../a") = some .regular := by decide
  refine ⟨by decide, (opens_inside_iff [ascii "srv"] secretFileSystem ⟨ascii "www", by decide⟩
    accepted).mpr fun _ => ⟨⟨by decide, fun directory => ?_⟩, fun _ => by unfold StaysInside; decide⟩⟩
  exact absurd (regular.symm.trans directory) (by decide)

end OsAssignments.HttpServer

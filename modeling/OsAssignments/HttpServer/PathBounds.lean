import OsAssignments.HttpServer.Responses

/-!
# The path buffers of the file server

The strings that `handle_files_request` and `list_files_in_dir` compose with `sprintf` in their
buffers of 2048 bytes. The parser accepts a path of any length that one `read` returns, and nobody
looks at its length again: `working_path` and `file_to_send` are enough for short paths only. The
line sent for a name in a directory always fits, because names are short.
-/

namespace OsAssignments.HttpServer

open Text

/-- The buffers that strings are composed in. -/
inductive PathBuffer
  /-- `working_path`. -/
  | workingPath
  /-- `file_to_send`. -/
  | fileToSend
  /-- `send_buf`. -/
  | sendBuf
  deriving DecidableEq, Repr

/-- A string composed in a buffer. -/
structure Composition where
  /-- The buffer. -/
  buffer : PathBuffer
  /-- The string, without the zero byte behind it. -/
  text : List UInt8
  deriving DecidableEq, Repr

/-- The string and the zero byte behind it fit the buffer. -/
def Composition.Fits (composition : Composition) : Prop :=
  composition.text.length + 1 ≤ pathBufferSize

/-- What is composed for a directory: the path of its index whenever the loop comes to one, and
without an index the lines of a listing. -/
def directoryCompositions (workingPath : List UInt8) (entries : List CString) : List Composition :=
  let index := entries.filter fun entry => entry.bytes = indexName
  index.map (fun _ => ⟨.fileToSend, fileToSend workingPath⟩) ++
    if index = [] then entries.map fun entry => ⟨.sendBuf, linkLine entry⟩ else []

/-- What is composed for the bytes of a request. -/
def compositions (fs : FileSystem) (serverFilesDirectory : CString) (bytes : List UInt8) :
    List Composition :=
  match httpRequestParse bytes with
  | .ok (some request) =>
    if request.path.head? = some 47 then
      let workingPath := serverFilesDirectory.bytes ++ request.path
      ⟨.workingPath, workingPath⟩ ::
        match fs.stat workingPath, fs.opendir workingPath with
        | some .directory, some entries => directoryCompositions workingPath entries
        | _, _ => []
    else []
  | _ => []

/-- Whatever is composed for the bytes of a request fits its buffer. -/
def CompositionsFit (fs : FileSystem) (serverFilesDirectory : CString) (bytes : List UInt8) : Prop :=
  ∀ composition ∈ compositions fs serverFilesDirectory bytes, composition.Fits

variable {fs : FileSystem} {serverFilesDirectory : CString} {entries : List CString}
  {bytes workingPath : List UInt8} {request : Request}

/-- What is composed for a directory fits unless it has an index whose path does not. -/
theorem directoryCompositions_fit
    (short : ∀ entry ∈ entries, entry.length ≤ nameMax) :
    (∀ composition ∈ directoryCompositions workingPath entries, composition.Fits) ↔
      (indexName ∈ entries.map CString.bytes → (fileToSend workingPath).length < pathBufferSize) := by
  have present : indexName ∈ entries.map CString.bytes ↔
      (entries.filter fun entry => entry.bytes = indexName) ≠ [] := by
    rw [ne_eq, List.filter_eq_nil_iff, List.mem_map]
    simp
  rw [directoryCompositions, List.forall_mem_append, present]
  cases found : entries.filter fun entry => entry.bytes = indexName with
  | nil =>
    have listed : ∀ composition ∈ entries.map fun entry => (⟨.sendBuf, linkLine entry⟩ : Composition),
        composition.Fits := by
      intro composition member
      obtain ⟨entry, inside, rfl⟩ := List.mem_map.mp member
      exact linkLine_fits (short entry inside)
    simpa using listed
  | cons entry rest =>
    simp only [List.map_cons, List.forall_mem_cons, List.forall_mem_map, Composition.Fits]
    simp only [Nat.lt_iff_add_one_le, ne_eq, reduceCtorEq, not_false_eq_true, if_false, true_imp_iff,
      List.not_mem_nil, false_imp_iff, implies_true, and_true]
    exact ⟨fun fits => fits.1, fun fits => ⟨fits, fun _ _ => fits⟩⟩

/-- The length of the path of an index. -/
theorem length_fileToSend : (fileToSend workingPath).length = workingPath.length + 11 := by
  rw [fileToSend, List.length_append]
  rfl

/-- What is composed for an accepted request with a path that starts with a slash. -/
theorem compositions_accepted (accepted : httpRequestParse bytes = .ok (some request))
    (slash : request.path.head? = some 47) :
    (∀ composition ∈ compositions fs serverFilesDirectory bytes, composition.Fits) ↔
      (serverFilesDirectory.bytes ++ request.path).length < pathBufferSize ∧
        (fs.stat (serverFilesDirectory.bytes ++ request.path) = some .directory →
          ∀ entries, fs.opendir (serverFilesDirectory.bytes ++ request.path) = some entries →
            indexName ∈ entries.map CString.bytes →
              (fileToSend (serverFilesDirectory.bytes ++ request.path)).length < pathBufferSize) := by
  have first : ∀ path, (⟨.workingPath, path⟩ : Composition).Fits ↔ path.length < pathBufferSize :=
    fun _ => Iff.rfl
  rw [compositions, accepted]
  simp only [slash, if_true, List.forall_mem_cons, first]
  generalize serverFilesDirectory.bytes ++ request.path = path
  apply and_congr_right
  intro _
  split
  · rename_i entries isDirectory opened
    simp only [isDirectory, opened, true_imp_iff, Option.some.injEq, forall_eq']
    exact directoryCompositions_fit (fs.short path entries opened)
  · rename_i other
    constructor
    · intro _ isDirectory entries opened
      exact (other entries isDirectory opened).elim
    · intro _ _ member
      cases member

/-- A directory that can be opened overruns a buffer when it has an index whose path does not fit. -/
theorem serveDirectory_overrun_iff (opened : fs.opendir workingPath = some entries) :
    (serveDirectory fs workingPath).fault = some .overrun ↔
      indexName ∈ entries.map CString.bytes ∧
        ¬ (fileToSend workingPath).length < pathBufferSize := by
  unfold serveDirectory
  rw [opened]
  by_cases present : indexName ∈ entries.map CString.bytes
  · simp only [sendIndex_present (fs.distinct workingPath entries opened) present, present, true_and]
    by_cases fits : (fileToSend workingPath).length < pathBufferSize
    · simp [fits, Handling.fault_andThen, sendFileByName_fault]
    · simp [fits, Handling.fault_andThen]
  · have listed := (listFilesInDir_opened opened).1
    simp [sendIndex_absent present, present, Handling.fault_andThen, listed]

/-- A request that is accepted overruns a buffer exactly when something composed for it does not
fit. -/
theorem overrun_iff (accepted : httpRequestParse bytes = .ok (some request)) :
    (handleFilesRequest fs serverFilesDirectory bytes).fault = some .overrun ↔
      ¬ CompositionsFit fs serverFilesDirectory bytes := by
  unfold CompositionsFit
  by_cases slash : request.path.head? = some 47
  · rw [compositions_accepted accepted slash, handleFilesRequest, buildWorkingPath, accepted]
    simp only [slash, if_true]
    generalize serverFilesDirectory.bytes ++ request.path = path
    by_cases fits : path.length < pathBufferSize
    · simp only [fits, if_true, true_and]
      cases mode : fs.stat path with
      | none => simp
      | some kind =>
        cases kind with
        | regular => simp [sendFileByName_fault]
        | other => simp [send404]
        | directory =>
          cases opened : fs.opendir path with
          | none => simp [serveDirectory, opened]
          | some entries =>
            simp only [serveDirectory_overrun_iff opened, true_imp_iff, Option.some.injEq,
              forall_eq', Classical.not_imp]
    · simp [fits]
  · have nothing : compositions fs serverFilesDirectory bytes = [] := by
      rw [compositions, accepted]
      exact if_neg slash
    rw [nothing, handleFilesRequest, buildWorkingPath, accepted]
    simp [slash]

/-- Whatever is composed for a request fits its buffer if and only if, when the path asked for
starts with a slash, it fits `working_path` behind the served directory, and, when that is a
directory with an index, so does the path with the eleven bytes of the index in `file_to_send`. -/
theorem compositionsFit_iff : CompositionsFit fs serverFilesDirectory bytes ↔
    ∀ request, httpRequestParse bytes = .ok (some request) → request.path.head? = some 47 →
      serverFilesDirectory.length + request.path.length < pathBufferSize ∧
        (fs.stat (serverFilesDirectory.bytes ++ request.path) = some .directory →
          ∀ entries, fs.opendir (serverFilesDirectory.bytes ++ request.path) = some entries →
            indexName ∈ entries.map CString.bytes →
              serverFilesDirectory.length + request.path.length + 11 < pathBufferSize) := by
  have lengths : ∀ request : Request, (serverFilesDirectory.bytes ++ request.path).length =
      serverFilesDirectory.length + request.path.length := fun _ => List.length_append
  constructor
  · intro fit request accepted slash
    have parts := (compositions_accepted accepted slash).mp fit
    rw [length_fileToSend, lengths] at parts
    exact parts
  · intro parts
    by_cases used : ∃ request, httpRequestParse bytes = .ok (some request) ∧
        request.path.head? = some 47
    · obtain ⟨request, accepted, slash⟩ := used
      apply (compositions_accepted accepted slash).mpr
      rw [length_fileToSend, lengths]
      exact parts request accepted slash
    · have nothing : compositions fs serverFilesDirectory bytes = [] := by
        rw [compositions]
        split
        · rename_i request accepted
          exact if_neg fun slash => used ⟨request, accepted, slash⟩
        · rfl
      intro composition member
      rw [nothing] at member
      cases member

/-- A path of 2048 bytes. -/
def longPath : List UInt8 := 47 :: List.replicate 2047 97

/-- A request for the path is accepted, and the path behind the served directory overruns
`working_path`. -/
theorem longPath_overruns : ¬ ∀ (fs : FileSystem) (serverFilesDirectory : CString)
    (bytes : List UInt8) (request : Request), bytes.length ≤ requestMaxSize →
      httpRequestParse bytes = .ok (some request) →
        CompositionsFit fs serverFilesDirectory bytes := by
  intro all
  have method : ∀ byte ∈ ascii "GET", isCapital byte = true := List.all_eq_true.mp (by decide)
  have line : ∀ byte ∈ ascii " HTTP/1.0", isLineByte byte = true := List.all_eq_true.mp (by decide)
  have path : ∀ byte ∈ longPath, isPathByte byte = true := by
    intro byte member
    rcases List.mem_cons.mp member with rfl | inside
    · rfl
    · rw [List.eq_of_mem_replicate inside]
      rfl
  have accepted := @httpRequestParse_line (ascii "GET") longPath (ascii " HTTP/1.0") [] method
    (by decide) path (List.cons_ne_nil _ _) line (.inr ⟨ascii "HTTP/1.0", rfl⟩)
  have short : (ascii "GET" ++ 32 :: (longPath ++ ascii " HTTP/1.0" ++ [10])).length ≤
      requestMaxSize := by
    simp only [longPath, List.length_append, List.length_cons, List.length_replicate]
    decide
  have fit := (compositions_accepted accepted rfl).mp
    (all emptyFileSystem ⟨ascii "www", by decide⟩ _ _ short accepted)
  have long : ¬ (ascii "www" ++ longPath).length < pathBufferSize := by
    simp only [longPath, List.length_append, List.length_cons, List.length_replicate]
    decide
  exact long fit.1

end OsAssignments.HttpServer

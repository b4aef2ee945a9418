import OsAssignments.Shell.CommandLine

/-!
# The search along PATH

`resolve_path` composes a file name for one directory after another, up to the first file that can
be opened. The search comes to a result exactly when `PATH` and the names composed on the way fit
their arrays and the search ends inside the array of directories; the result is then the first
file that can be opened, or the name itself. A file that is found cannot be used: its name is gone when
`resolve_path` has returned.
-/

namespace OsAssignments.Shell

open Text

/-- The file of a name in a directory. -/
def inDir (inputString dir : List UInt8) : List UInt8 := dir ++ 47 :: inputString

/-- The files up to the first one that can be opened. -/
def tried (fopen : List UInt8 → Bool) : List (List UInt8) → List (List UInt8)
  | [] => []
  | file :: rest => if fopen file then [file] else file :: tried fopen rest

/-- The files of a name that `resolve_path` may look for: in what separators leave of `PATH`. -/
def pathFiles (path inputString : List UInt8) : List (List UInt8) :=
  (tokens isSeparator path).map (inDir inputString)

/-- Those that are in the array of directories. -/
def arrayFiles (path inputString : List UInt8) : List (List UInt8) :=
  (pathFiles path inputString).take maxToks

/-- A search that stays in its arrays: `PATH` and the names composed fit, and a null pointer or a
file that can be opened ends the search in the array of directories. -/
structure SearchStays (fopen : List UInt8 → Bool) (path inputString : List UInt8) : Prop where
  /-- `PATH` fits. -/
  fits : path.length < bufferSize
  /-- The names composed fit. -/
  files : ∀ file ∈ tried fopen (arrayFiles path inputString), file.length < bufferSize
  /-- The search ends. -/
  ends : (tokens isSeparator path).length < maxToks ∨
    ∃ file ∈ arrayFiles path inputString, fopen file = true

/-- A search that finds nothing, in its arrays: `PATH` and the names composed for all of its directories
fit, it has fewer directories than the array has slots, and none of the files can be opened. -/
structure Unfound (fopen : List UInt8 → Bool) (path inputString : List UInt8) : Prop where
  /-- `PATH` fits. -/
  fits : path.length < bufferSize
  /-- The names composed fit. -/
  files : ∀ file ∈ pathFiles path inputString, file.length < bufferSize
  /-- A null pointer follows the directories. -/
  few : (tokens isSeparator path).length < maxToks
  /-- No file can be opened. -/
  refused : ∀ file ∈ pathFiles path inputString, fopen file = false

variable {env : Environment} {table : Descriptors} {inputString path file : List UInt8}
  {fopen : List UInt8 → Bool} {files dirs : List (List UInt8)}
  {toks : List (Option (List UInt8))}

/-- Nothing is tried behind a file that can be opened. -/
theorem tried_opens (opens : fopen file = true) : tried fopen (file :: files) = [file] := if_pos opens

/-- The next file is tried behind one that cannot be opened. -/
theorem tried_refused (refused : fopen file = false) :
    tried fopen (file :: files) = file :: tried fopen files := by
  rw [tried, refused]
  rfl

/-- The directories of an array are tried up to the first with a file that can be opened, and the
slots behind them when there is none. -/
theorem searchDirs_append :
    searchDirs fopen inputString (dirs.map some ++ toks) =
      if ∀ file ∈ tried fopen (dirs.map (inDir inputString)), file.length < bufferSize then
        match (dirs.map (inDir inputString)).find? fopen with
        | some file => .ok (some file)
        | none => searchDirs fopen inputString toks
      else .error .overrun := by
  induction dirs with
  | nil => simp [tried]
  | cons dir dirs ih =>
    have turn : searchDirs fopen inputString ((dir :: dirs).map some ++ toks) =
        if bufferSize ≤ (inDir inputString dir).length then .error .overrun
        else if fopen (inDir inputString dir) then .ok (some (inDir inputString dir))
        else searchDirs fopen inputString (dirs.map some ++ toks) := rfl
    rw [turn, List.map_cons, List.find?_cons]
    cases opens : fopen (inDir inputString dir) with
    | true =>
      rw [tried_opens opens, if_pos rfl]
      simp only [List.mem_singleton, forall_eq]
      by_cases tooLong : bufferSize ≤ (inDir inputString dir).length
      · rw [if_pos tooLong, if_neg (Nat.not_lt.mpr tooLong)]
      · rw [if_neg tooLong, if_pos (Nat.not_le.mp tooLong)]
    | false =>
      rw [tried_refused opens, ih]
      simp only [List.forall_mem_cons, Bool.false_eq_true, if_false]
      by_cases tooLong : bufferSize ≤ (inDir inputString dir).length
      · rw [if_pos tooLong, if_neg fun fit => Nat.not_lt.mpr tooLong fit.1]
      · have short := Nat.not_le.mp tooLong
        simp only [if_neg tooLong, short, true_and]

/-- The slots behind the directories end the search, if there are any. -/
theorem searchDirs_free (count : Nat) :
    searchDirs fopen inputString (List.replicate count none) =
      if count = 0 then .error .overrun else .ok none := by
  cases count <;> rfl

/-- The files of the directories in the array. -/
theorem map_take_dirs (path inputString : List UInt8) :
    ((tokens isSeparator path).take maxToks).map (inDir inputString) = arrayFiles path inputString :=
  List.map_take

/-- The array has room for all directories when they are fewer than its slots. -/
theorem arrayFiles_few (few : (tokens isSeparator path).length < maxToks) :
    arrayFiles path inputString = pathFiles path inputString := by
  rw [arrayFiles, List.take_of_length_le]
  rw [pathFiles, List.length_map]
  exact Nat.le_of_lt few

/-- A slot is left behind the directories exactly when they are fewer than the slots. -/
theorem free_slot_iff : 0 < maxToks - ((tokens isSeparator path).take maxToks).length ↔
    (tokens isSeparator path).length < maxToks := by
  rw [List.length_take]
  omega

/-- A search that can end in the first files finds what a search through all files does. -/
theorem find_arrayFiles (ends : (tokens isSeparator path).length < maxToks ∨
    ∃ file ∈ arrayFiles path inputString, fopen file = true) :
    (arrayFiles path inputString).find? fopen = (pathFiles path inputString).find? fopen := by
  rcases ends with few | ⟨file, member, opens⟩
  · rw [arrayFiles_few few]
  · have some : ((arrayFiles path inputString).find? fopen).isSome :=
      List.find?_isSome.mpr ⟨file, member, opens⟩
    obtain ⟨found, same⟩ := Option.isSome_iff_exists.mp some
    rw [same]
    exact (List.IsPrefix.find?_eq_some (List.take_prefix _ _) same).symm

/-- The search through the array of directories. -/
theorem searchDirs_getToks {result : Option (List UInt8)} :
    searchDirs fopen inputString (getToks path) = .ok result ↔
      (∀ file ∈ tried fopen (arrayFiles path inputString), file.length < bufferSize) ∧
        ((tokens isSeparator path).length < maxToks ∨
          ∃ file ∈ arrayFiles path inputString, fopen file = true) ∧
        result = (pathFiles path inputString).find? fopen := by
  rw [getToks, searchDirs_append, map_take_dirs, searchDirs_free]
  by_cases fit : ∀ file ∈ tried fopen (arrayFiles path inputString), file.length < bufferSize
  · rw [if_pos fit]
    cases found : (arrayFiles path inputString).find? fopen with
    | some file =>
      have ends : (tokens isSeparator path).length < maxToks ∨
          ∃ file ∈ arrayFiles path inputString, fopen file = true :=
        .inr ⟨file, List.mem_of_find?_eq_some found, List.find?_some found⟩
      rw [← find_arrayFiles ends, found]
      simp only [Except.ok.injEq]
      exact ⟨fun same => ⟨fit, ends, same.symm⟩, fun parts => parts.2.2.symm⟩
    | none =>
      have refused : ¬ ∃ file ∈ arrayFiles path inputString, fopen file = true := by
        rintro ⟨file, member, opens⟩
        exact List.find?_eq_none.mp found file member opens
      by_cases few : (tokens isSeparator path).length < maxToks
      · rw [← find_arrayFiles (.inl few), found]
        simp only [if_neg (free_slot_iff.mpr few).ne', Except.ok.injEq]
        exact ⟨fun same => ⟨fit, .inl few, same.symm⟩, fun parts => parts.2.2.symm⟩
      · simp only [if_pos (Nat.eq_zero_of_not_pos (mt free_slot_iff.mp few))]
        refine ⟨fun failed => ?_, fun parts => ?_⟩
        · cases failed
        · exact absurd parts.2.1 (not_or.mpr ⟨few, refused⟩)
  · rw [if_neg fit]
    refine ⟨fun failed => ?_, fun parts => absurd parts.1 fit⟩
    cases failed

/-- When `resolve_path` comes to a result, and which one. -/
theorem resolvePath_ok_iff {result : Option (List UInt8)} :
    resolvePath env table inputString = .ok result ↔
      ∃ path ∈ env.path, SearchStays (table.fopen env) (CString.read path) inputString ∧
        result = (pathFiles (CString.read path) inputString).find? (table.fopen env) := by
  rw [resolvePath]
  cases env.path with
  | none => simp
  | some path =>
    simp only [Option.mem_def, Option.some.injEq, exists_eq_left']
    by_cases tooLong : bufferSize ≤ (CString.read path).length
    · rw [if_pos tooLong]
      refine ⟨fun failed => ?_, fun parts => absurd parts.1.fits (Nat.not_lt.mpr tooLong)⟩
      cases failed
    · rw [if_neg tooLong, searchDirs_getToks]
      exact ⟨fun parts => ⟨⟨Nat.not_le.mp tooLong, parts.1, parts.2.1⟩, parts.2.2⟩,
        fun parts => ⟨parts.1.files, parts.1.ends, parts.2⟩⟩

/-- All files are tried when none can be opened. -/
theorem tried_of_refused (refused : ∀ file ∈ files, fopen file = false) : tried fopen files = files := by
  induction files with
  | nil => rfl
  | cons file files ih =>
    obtain ⟨here, later⟩ := List.forall_mem_cons.mp refused
    rw [tried_refused here, ih later]

/-- A search that finds nothing is one that stays in its arrays and ends without a file. -/
theorem unfound_iff : Unfound fopen path inputString ↔
    SearchStays fopen path inputString ∧ (pathFiles path inputString).find? fopen = none := by
  constructor
  · intro unfound
    refine ⟨⟨unfound.fits, ?_, .inl unfound.few⟩, List.find?_eq_none.mpr ?_⟩
    · rw [arrayFiles_few unfound.few, tried_of_refused unfound.refused]
      exact unfound.files
    · intro file member
      exact Bool.eq_false_iff.mp (unfound.refused file member)
  · rintro ⟨stays, none⟩
    have refused : ∀ file ∈ pathFiles path inputString, fopen file = false := fun file member =>
      Bool.eq_false_iff.mpr (List.find?_eq_none.mp none file member)
    have few : (tokens isSeparator path).length < maxToks := by
      rcases stays.ends with few | ⟨file, member, opens⟩
      · exact few
      · rw [refused file (List.mem_of_mem_take member)] at opens
        cases opens
    have files := stays.files
    rw [arrayFiles_few few, tried_of_refused refused] at files
    exact ⟨stays.fits, files, few, refused⟩

/-- `resolve_path` returns the address of the word exactly when the search finds nothing. -/
theorem resolvePath_none_iff : resolvePath env table inputString = .ok none ↔
    ∃ path ∈ env.path, Unfound (table.fopen env) (CString.read path) inputString := by
  rw [resolvePath_ok_iff]
  simp only [unfound_iff, eq_comm]

end OsAssignments.Shell

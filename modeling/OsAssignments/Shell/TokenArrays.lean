import OsAssignments.Shell.PathSearch

/-!
# Arrays of words

`getToks` stops at `MAXTOKS` words, and the loops that read its arrays stop at a null pointer alone.
An array is read to its end exactly when it has fewer words than slots, and nothing makes a line
or `PATH` have so few: a line that `freadln` returns can hold several hundred words. What a process is
made of is told whole here: where `create_process` comes to its end, the arguments are the words.
-/

namespace OsAssignments.Shell

open Text

/-! ## The lines that are read -/

/-- `MAXLINE`. -/
def maxLine : Nat := 1024

/-- The bytes that `fgets` takes: up to a newline, and fewer than the size of its buffer. -/
def fgets (size : Nat) (ifile : List UInt8) : List UInt8 :=
  let room := ifile.take (size - 1)
  room.take ((room.takeWhile (· ≠ 10)).length + 1)

/-- `freadln`: the line, unless the file has ended, and what is left of the file. -/
def freadln (ifile : List UInt8) : Option (List UInt8) × List UInt8 :=
  match fgets maxLine ifile with
  | [] => (none, ifile)
  | byte :: line => (some (CString.read (byte :: line)), ifile.drop (line.length + 1))

/-! ## Complete arrays -/

/-- What is left of a line for its words, behind the passes for the redirections. -/
def wordsPart (below : UInt8) (inputString : List UInt8) : List UInt8 :=
  (cutLine below inputString .input).2

/-- The array of an input has all its words in order and a null pointer behind them. -/
structure Complete (input : List UInt8) : Prop where
  /-- The array has `MAXTOKS` slots. -/
  slots : (getToks input).length = maxToks
  /-- All words are in it, and a null pointer follows. -/
  ends : ∃ free, getToks input = (tokens isSeparator input).map some ++ none :: free

/-- The slot at which the counting loop of `create_process` stops. -/
def countStop (toks : List (Option (List UInt8))) : Nat := toks.findIdx Option.isNone

/-- The slot at which the loop of `resolve_path` stops: the null pointer, or a directory that has
a file of the name. -/
def searchStop (fopen : List UInt8 → Bool) (inputString : List UInt8)
    (toks : List (Option (List UInt8))) : Nat :=
  toks.findIdx fun slot => slot.all fun dir => fopen (dir ++ 47 :: inputString)

/-- The arrays made for a command line hold what the loops that read them rely on, and `argv` receives
every word. `PATH` is split for a line with a first word. -/
structure ArraysComplete (env : Environment) (table : Descriptors) (inputString : List UInt8) :
    Prop where
  /-- The array of the line is complete. -/
  line : Complete (wordsPart env.below inputString)
  /-- The array of `PATH` is complete. -/
  path : tokens isSeparator (wordsPart env.below inputString) ≠ [] →
    ∀ path ∈ env.path, Complete (CString.read path)
  /-- The words of the line are counted inside the array. -/
  counted : countStop (getToks (wordsPart env.below inputString)) < maxToks
  /-- Directories are tried inside the array, whatever file is looked for and can be opened. -/
  searched : tokens isSeparator (wordsPart env.below inputString) ≠ [] →
    ∀ path ∈ env.path, ∀ fopen word, searchStop fopen word (getToks (CString.read path)) < maxToks
  /-- All words are read from the array. -/
  words : untilNull (getToks (wordsPart env.below inputString)) =
    .ok (tokens isSeparator (wordsPart env.below inputString))
  /-- A process is made that has an argument for every word, and the words behind the first one as they
  stand. -/
  arguments : ∃ process after, createProcess env table inputString = (.ok process, after) ∧
    process.argc = (tokens isSeparator (wordsPart env.below inputString)).length ∧
      process.argv.length = process.argc ∧
      process.argv.tail = (tokens isSeparator (wordsPart env.below inputString)).tail

variable {env : Environment} {table : Descriptors} {inputString input : List UInt8}
  {toks : List (Option (List UInt8))} {process : Process}

/-! ## The loops -/

/-- Words are read from an array exactly when it is complete, and then all of them. -/
theorem untilNull_iff {words : List (List UInt8)} : untilNull (getToks input) = .ok words ↔
    (tokens isSeparator input).length < maxToks ∧ words = tokens isSeparator input := by
  have full : ∀ words : List (List UInt8), untilNull (words.map some) = .error .overrun := by
    intro words
    induction words with
    | nil => rfl
    | cons word words ih =>
      rw [List.map_cons, untilNull, ih]
      rfl
  by_cases few : (tokens isSeparator input).length < maxToks
  · rw [untilNull_getToks few, Except.ok.injEq]
    exact ⟨fun same => ⟨few, same.symm⟩, fun parts => parts.2.symm⟩
  · refine ⟨fun read => ?_, fun parts => absurd parts.1 few⟩
    have none : maxToks - ((tokens isSeparator input).take maxToks).length = 0 :=
      Nat.eq_zero_of_not_pos (mt free_slot_iff.mp few)
    rw [getToks, none, List.replicate_zero, List.append_nil, full] at read
    cases read

/-- An array has as many slots as `getToks` allocates. -/
theorem getToks_length : (getToks input).length = maxToks := by
  have most : ((tokens isSeparator input).take maxToks).length ≤ maxToks := List.length_take_le _ _
  rw [getToks, List.length_append, List.length_map, List.length_replicate]
  omega

/-- An array is complete exactly when there are fewer words than slots. -/
theorem complete_iff : Complete input ↔ (tokens isSeparator input).length < maxToks := by
  constructor
  · intro complete
    obtain ⟨free, whole⟩ := complete.ends
    have slots := complete.slots
    rw [whole, List.length_append, List.length_map, List.length_cons] at slots
    omega
  · exact fun few => ⟨getToks_length, getToks_few few⟩

/-- The null pointer of a complete array. -/
theorem Complete.null_mem (complete : Complete input) : none ∈ getToks input := by
  obtain ⟨free, whole⟩ := complete.ends
  rw [whole]
  exact List.mem_append_right _ List.mem_cons_self

/-- A loop that stops at the null pointer at the latest stops in a complete array. -/
theorem Complete.stops (complete : Complete input) {stop : Option (List UInt8) → Bool}
    (null : stop none = true) : (getToks input).findIdx stop < maxToks := by
  rw [← @getToks_length input]
  exact List.findIdx_lt_length_of_exists ⟨none, complete.null_mem, null⟩

/-! ## The process of a line -/

/-- The descriptors behind the passes for the redirections. -/
def passed (env : Environment) (table : Descriptors) (inputString : List UInt8) : Descriptors :=
  openTargets env table fun stream => (cutLine env.below inputString stream).1

/-- The process that a line is made, with its arguments. -/
def processOf (env : Environment) (table : Descriptors) (inputString : List UInt8)
    (argv : List (List UInt8)) : Process :=
  let target := fun stream => (cutLine env.below inputString stream).1
  let error := openTarget env table .error (target .error)
  let output := openTarget env error.2 .output (target .output)
  { argv, argc := argv.length, pid := 0, completed := false, stopped := false
    background := (takeAmpersand env.below (CString.read inputString)).1, status := none
    stdin := (openTarget env output.2 .input (target .input)).1, stdout := output.1
    stderr := error.1, next := null, prev := null }

/-- What it takes to make a process of a line. -/
structure Makeable (env : Environment) (table : Descriptors) (inputString : List UInt8) : Prop where
  /-- The line fits `local_s`. -/
  fits : (CString.read inputString).length < bufferSize
  /-- A null pointer follows its words. -/
  few : (tokens isSeparator (wordsPart env.below inputString)).length < maxToks
  /-- `PATH` is set, and the search for the first word finds nothing in it. -/
  unfound : ∀ word ∈ (tokens isSeparator (wordsPart env.below inputString)).head?,
    ∃ path ∈ env.path,
      Unfound ((passed env table inputString).fopen env) (CString.read path) word
  /-- The block of each word has room for the zero byte. -/
  room : ∀ word ∈ tokens isSeparator (wordsPart env.below inputString),
    word.length < env.usable word.length

/-- A line that fits its array is made a process of the words read from the array, or fails as they
do. -/
theorem createProcess_fits (fits : (CString.read inputString).length < bufferSize) :
    createProcess env table inputString =
      (((untilNull (getToks (wordsPart env.below inputString))).bind
        (makeArgv env (passed env table inputString))).map (processOf env table inputString),
        passed env table inputString) := by
  rw [createProcess, if_neg (by omega)]
  rfl

/-- A line that a process is made of fits its array. -/
theorem fits_of_made (made : (createProcess env table inputString).1 = .ok process) :
    (CString.read inputString).length < bufferSize := by
  by_contra tooLong
  rw [createProcess, if_pos (by omega)] at made
  cases made

/-- When a process is made of a line, and which one: its arguments are the words. -/
theorem createProcess_ok_iff : (createProcess env table inputString).1 = .ok process ↔
    Makeable env table inputString ∧ process =
      processOf env table inputString (tokens isSeparator (wordsPart env.below inputString)) := by
  constructor
  · intro made
    have fits := fits_of_made made
    rw [createProcess_fits fits] at made
    cases words : untilNull (getToks (wordsPart env.below inputString)) with
    | error fault =>
      rw [words] at made
      cases made
    | ok words' =>
      obtain ⟨few, rfl⟩ := untilNull_iff.mp words
      rw [words, Except.bind] at made
      cases argv : makeArgv env (passed env table inputString)
          (tokens isSeparator (wordsPart env.below inputString)) with
      | error fault =>
        rw [argv] at made
        cases made
      | ok argv' =>
        rw [argv] at made
        obtain ⟨resolved, room, rfl⟩ := makeArgv_ok_iff.mp argv
        refine ⟨⟨fits, few, fun word first => ?_, room⟩, (Except.ok.inj made).symm⟩
        exact resolvePath_none_iff.mp (resolved word first)
  · rintro ⟨makeable, rfl⟩
    have argv := makeArgv_ok_iff.mpr
      ⟨fun word first => resolvePath_none_iff.mpr (makeable.unfound word first), makeable.room, rfl⟩
    rw [createProcess_fits makeable.fits, untilNull_getToks makeable.few]
    simp only [Except.bind, argv, Except.map]

/-! ## When the arrays are complete -/

/-- The arrays made for a command line hold what the loops that read them rely on, and `argv` receives
every word, if and only if a process can be made of the line. -/
theorem arraysComplete_iff : ArraysComplete env table inputString ↔
    (CString.read inputString).length < bufferSize ∧
      (tokens isSeparator (wordsPart env.below inputString)).length < maxToks ∧
      (∀ word ∈ (tokens isSeparator (wordsPart env.below inputString)).head?, ∃ path ∈ env.path,
        Unfound ((passed env table inputString).fopen env) (CString.read path) word) ∧
      ∀ word ∈ tokens isSeparator (wordsPart env.below inputString),
        word.length < env.usable word.length := by
  constructor
  · intro complete
    obtain ⟨process, after, made, _⟩ := complete.arguments
    obtain ⟨makeable, _⟩ := createProcess_ok_iff.mp (congrArg Prod.fst made)
    exact ⟨makeable.fits, makeable.few, makeable.unfound, makeable.room⟩
  · rintro ⟨fits, few, unfound, room⟩
    have made := createProcess_ok_iff.mpr ⟨⟨fits, few, unfound, room⟩, rfl⟩
    have line := complete_iff.mpr few
    have path : tokens isSeparator (wordsPart env.below inputString) ≠ [] →
        ∀ path ∈ env.path, Complete (CString.read path) := by
      intro some path isPath
      obtain ⟨word, rest, words⟩ := List.exists_cons_of_ne_nil some
      rw [words] at unfound
      obtain ⟨path', isPath', search⟩ := unfound word rfl
      obtain rfl := Option.mem_unique isPath isPath'
      exact complete_iff.mpr search.few
    exact ⟨line, path, line.stops rfl, fun some dirs isPath _ _ => (path some dirs isPath).stops rfl,
      untilNull_getToks few, _, _, Prod.ext made rfl, rfl, rfl, rfl⟩

/-- A hundred words on a line. -/
def hundredWords : List UInt8 := (List.replicate 100 (ascii "a ")).flatten ++ ascii "\n"

/-- A line of a hundred words is read, and its array has no null pointer. -/
theorem hundredWords_unterminated : ¬ ∀ (ifile line rest : List UInt8) (env : Environment)
    (table : Descriptors), freadln ifile = (some line, rest) → ArraysComplete env table line := by
  intro all
  have read : freadln hundredWords = (some hundredWords, []) := by decide +kernel
  have many : (tokens isSeparator (wordsPart 0 hundredWords)).length = maxToks := by decide +kernel
  have few := complete_iff.mp (all _ _ _ binEnvironment standardDescriptors read).line
  exact Nat.lt_irrefl _ (many ▸ few)

end OsAssignments.Shell

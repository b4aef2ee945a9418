import Mathlib.Data.Finset.Insert
import OsAssignments.Library.CString
import OsAssignments.Library.Scanning

/-!
# Reading a command line

`create_process` of the shell with the functions it calls. The line is copied to `local_s` and
worked on there: an ampersand is taken away, then the three redirections are cut out of it one
after another, each overwritten with spaces, and what is left is split into words. The files are
opened while the line is being read; the first word is looked for along `PATH`.

When `resolve_path` finds a file it returns the address of its own variable `file`, which is gone when
`create_process` reads it. The words are copied with `strcpy` to blocks of the length of the word, without
a byte for the end of the string; how much room a block really has is up to `malloc`, which always
succeeds. Either way C leaves open what happens.
-/

namespace OsAssignments.Shell

open Text

/-- The ways the shell does what C leaves undefined. -/
inductive Fault
  /-- A null pointer is followed. -/
  | nullPointer
  /-- An array or a block is overrun. -/
  | overrun
  /-- A variable of a function that has returned is read. -/
  | dangling
  deriving DecidableEq, Repr

/-! ## Processes -/

/-- What `waitpid` stores about a child. -/
inductive Status
  /-- `WIFEXITED`, with the exit code. -/
  | exited (code : Nat)
  /-- `WIFSIGNALED`, with the signal. -/
  | signaled (signal : Nat)
  /-- `WIFSTOPPED`, with the signal. -/
  | stopped (signal : Nat)
  deriving DecidableEq, Repr

/-- The null pointer. -/
def null : Nat := 0

/-- `struct process`, without the terminal modes. -/
structure Process where
  /-- `argv`, up to the null pointer that ends it. -/
  argv : List (List UInt8)
  /-- `argc`. -/
  argc : Nat
  /-- `pid`. -/
  pid : Int
  /-- `completed`. -/
  completed : Bool
  /-- `stopped`. -/
  stopped : Bool
  /-- `background`. -/
  background : Bool
  /-- `status`, once something has been stored there. -/
  status : Option Status
  /-- `stdin`. -/
  stdin : Int
  /-- `stdout`. -/
  stdout : Int
  /-- `stderr`. -/
  stderr : Int
  /-- `next`. -/
  next : Nat
  /-- `prev`. -/
  prev : Nat
  deriving DecidableEq, Repr

/-! ## Files -/

/-- The flags a file is opened with. -/
inductive OpenMode
  /-- `O_RDONLY`. -/
  | readOnly
  /-- `O_WRONLY|O_CREAT`, with mode 0666. -/
  | writeCreate
  deriving DecidableEq, Repr

/-- What the shell finds while it reads one line. -/
structure Environment where
  /-- `getenv("PATH")`. -/
  path : Option (List UInt8)
  /-- Whether `fopen(name, "r")` is not refused for the sake of the file. -/
  readable : List UInt8 → Bool
  /-- Whether `open` is not refused for the sake of the file. -/
  permits : List UInt8 → OpenMode → Bool
  /-- The number of descriptors the process may have. -/
  limit : Nat
  /-- The byte of the stack that is read and written in front of `local_s`. -/
  below : UInt8
  /-- The room in the block that `malloc` returns for a number of bytes. -/
  usable : Nat → Nat

/-- A call of `open`. -/
structure Call where
  /-- The file named. -/
  path : List UInt8
  /-- The flags. -/
  mode : OpenMode
  /-- The descriptor returned, or −1. -/
  reply : Int
  deriving DecidableEq, Repr

/-- The descriptors of the shell. -/
structure Descriptors where
  /-- Those that are open. -/
  opened : Finset Nat
  /-- The calls of `open` made so far. -/
  calls : List Call

namespace Descriptors

/-- The lowest descriptor that is not in use. -/
def unused (table : Descriptors) (limit : Nat) : Option Nat :=
  (List.range limit).find? (· ∉ table.opened)

/-- `open`. -/
def open_ (env : Environment) (table : Descriptors) (path : List UInt8) (mode : OpenMode) :
    Int × Descriptors :=
  match if env.permits path mode then table.unused env.limit else none with
  | some fd => (fd, ⟨insert fd table.opened, table.calls ++ [⟨path, mode, fd⟩]⟩)
  | none => (-1, ⟨table.opened, table.calls ++ [⟨path, mode, -1⟩]⟩)

/-- Whether `fopen(name, "r")` succeeds; the file is closed at once. -/
def fopen (env : Environment) (table : Descriptors) (name : List UInt8) : Bool :=
  env.readable name && (table.unused env.limit).isSome

end Descriptors

/-! ## Words -/

/-- `trimwhitespace`. -/
def trimwhitespace (str : List UInt8) : List UInt8 := trim isspace str

/-- A byte of `TOKseparator`. -/
def isSeparator (byte : UInt8) : Bool := byte = 32 || byte = 10 || byte = 58

/-- `MAXTOKS`. -/
def maxToks : Nat := 100

/-- `getToks`: an array of `MAXTOKS` pointers, null behind the words found. -/
def getToks (line : List UInt8) : List (Option (List UInt8)) :=
  let toks := (tokens isSeparator line).take maxToks
  toks.map some ++ List.replicate (maxToks - toks.length) none

/-- The words of an array up to the null pointer. -/
def untilNull : List (Option (List UInt8)) → Except Fault (List (List UInt8))
  | [] => .error .overrun
  | none :: _ => .ok []
  | some word :: rest => (untilNull rest).map (word :: ·)

/-! ## The search along `PATH` -/

/-- The size of the character arrays of `create_process` and `resolve_path`. -/
def bufferSize : Nat := 1000

/-- The loop of `resolve_path`: the first directory that has a file of the name, with that name. -/
def searchDirs (fopen : List UInt8 → Bool) (inputString : List UInt8) :
    List (Option (List UInt8)) → Except Fault (Option (List UInt8))
  | [] => .error .overrun
  | none :: _ => .ok none
  | some dir :: rest =>
    let file := dir ++ 47 :: inputString
    if bufferSize ≤ file.length then .error .overrun
    else if fopen file then .ok (some file)
    else searchDirs fopen inputString rest

/-- `resolve_path`: what its variable `file` holds when it returns the address of it, and nothing when it
returns the address of the word. -/
def resolvePath (env : Environment) (table : Descriptors) (inputString : List UInt8) :
    Except Fault (Option (List UInt8)) :=
  match env.path with
  | none => .error .nullPointer
  | some path =>
    let path := CString.read path
    if bufferSize ≤ path.length then .error .overrun
    else searchDirs (table.fopen env) inputString (getToks path)

/-- The string that `strlen` and `strcpy` read at the address that `resolve_path` returns for a word. -/
def readName (word : List UInt8) : Option (List UInt8) → Except Fault (List UInt8)
  | some _ => .error .dangling
  | none => .ok word

/-! ## Redirections -/

/-- The streams that a command line redirects. -/
inductive Stream
  /-- `stderr`, after `2>`. -/
  | error
  /-- `stdout`, after `>`. -/
  | output
  /-- `stdin`, after `<`. -/
  | input
  deriving DecidableEq, Repr

namespace Stream

/-- What a redirection of the stream starts with. -/
def mark : Stream → List UInt8
  | error => ascii "2>"
  | output => ascii ">"
  | input => ascii "<"

/-- The bytes that end the name of the file, besides the end of the line. -/
def stops : Stream → List UInt8
  | error => ascii "<>"
  | output => ascii "<2"
  | input => ascii ">2"

/-- A byte that is copied to the name of the file. -/
def copies (stream : Stream) (byte : UInt8) : Bool := byte ∉ stream.stops && byte ≠ 10

/-- The descriptor of the stream when it is not redirected. -/
def standard : Stream → Int
  | error => 2
  | output => 1
  | input => 0

/-- The flags the file is opened with. -/
def mode : Stream → OpenMode
  | error => .writeCreate
  | output => .writeCreate
  | input => .readOnly

end Stream

/-- Cut the redirection of a stream out of the line, overwriting it with spaces. -/
def cutTarget (stream : Stream) (localS : List UInt8) : Option (List UInt8) × List UInt8 :=
  match find stream.mark localS with
  | none => (none, localS)
  | some (before, behind) =>
    let name := behind.takeWhile stream.copies
    (some (trimwhitespace name), before ++
      List.replicate (stream.mark.length + name.length) 32 ++ behind.drop name.length)

/-- Open the file a stream is redirected to. -/
def openTarget (env : Environment) (table : Descriptors) (stream : Stream) :
    Option (List UInt8) → Int × Descriptors
  | none => (stream.standard, table)
  | some path => table.open_ env path stream.mode

/-! ## The process -/

/-- The loop that copies the words to blocks of their own: the bytes of each, and a zero byte behind
them. -/
def copyWords (usable : Nat → Nat) : List (List UInt8) → Except Fault (List (List UInt8))
  | [] => .ok []
  | word :: rest =>
    if word.length < usable word.length then (copyWords usable rest).map (word :: ·)
    else .error .overrun

/-- `argv`, of the words of the line. -/
def makeArgv (env : Environment) (table : Descriptors) :
    List (List UInt8) → Except Fault (List (List UInt8))
  | [] => .ok []
  | word :: rest =>
    ((resolvePath env table word).bind (readName word)).bind fun name =>
      copyWords env.usable (name :: rest)

/-- The byte before the last one of the line. -/
def lastButOne (below : UInt8) (localS : List UInt8) : UInt8 :=
  if 2 ≤ localS.length then localS.getD (localS.length - 2) 0 else below

/-- Take away the ampersand before the end of the line, if there is one. -/
def takeAmpersand (below : UInt8) (localS : List UInt8) : Bool × List UInt8 :=
  if lastButOne below localS = 38 then
    (true, if 2 ≤ localS.length then localS.set (localS.length - 2) 32 else localS)
  else (false, localS)

/-- `create_process`, with the descriptors it leaves behind. -/
def createProcess (env : Environment) (table : Descriptors) (inputString : List UInt8) :
    Except Fault Process × Descriptors :=
  let localS := CString.read inputString
  if bufferSize ≤ localS.length then (.error .overrun, table)
  else
    let (background, localS) := takeAmpersand env.below localS
    let (pe, localS) := cutTarget .error localS
    let (stderr, table) := openTarget env table .error pe
    let (po, localS) := cutTarget .output localS
    let (stdout, table) := openTarget env table .output po
    let (pi, localS) := cutTarget .input localS
    let (stdin, table) := openTarget env table .input pi
    let argv := (untilNull (getToks localS)).bind (makeArgv env table)
    (argv.map fun argv =>
      { argv, argc := argv.length, pid := 0, completed := false, stopped := false, background
        status := none, stdin, stdout, stderr, next := null, prev := null }, table)

/-! ## Words of a line -/

/-- An array is read up to the first null pointer. -/
theorem untilNull_append (words : List (List UInt8)) (rest : List (Option (List UInt8))) :
    untilNull (words.map some ++ none :: rest) = .ok words := by
  induction words with
  | nil => rfl
  | cons word words ih =>
    rw [List.map_cons, List.cons_append, untilNull, ih]
    rfl

/-- Fewer words than the array has room for are followed in it by a null pointer. -/
theorem getToks_few {line : List UInt8} (few : (tokens isSeparator line).length < maxToks) :
    ∃ free, getToks line = (tokens isSeparator line).map some ++ none :: free := by
  obtain ⟨count, room⟩ := Nat.exists_eq_add_of_lt few
  have left : maxToks - (tokens isSeparator line).length = count + 1 := by omega
  refine ⟨List.replicate count none, ?_⟩
  rw [getToks, List.take_of_length_le (Nat.le_of_lt few), left, List.replicate_succ]

/-- Fewer words than the array has room for are all read from it. -/
theorem untilNull_getToks {line : List UInt8} (few : (tokens isSeparator line).length < maxToks) :
    untilNull (getToks line) = .ok (tokens isSeparator line) := by
  obtain ⟨free, whole⟩ := getToks_few few
  rw [whole, untilNull_append]

/-! ## Arguments -/

/-- The words are copied exactly when each of their blocks has room for the zero byte. -/
theorem copyWords_ok_iff {usable : Nat → Nat} {words argv : List (List UInt8)} :
    copyWords usable words = .ok argv ↔
      (∀ word ∈ words, word.length < usable word.length) ∧ argv = words := by
  induction words generalizing argv with
  | nil => simp [copyWords, eq_comm]
  | cons word rest ih =>
    rw [copyWords, List.forall_mem_cons]
    by_cases room : word.length < usable word.length
    · simp only [room, if_true, true_and]
      cases copied : copyWords usable rest with
      | error fault =>
        refine iff_of_false (by simp [Except.map]) fun both => ?_
        rw [ih.mpr ⟨both.1, rfl⟩] at copied
        cases copied
      | ok copies =>
        obtain ⟨rooms, rfl⟩ := ih.mp copied
        simp only [Except.map, Except.ok.injEq]
        exact ⟨fun same => ⟨rooms, same.symm⟩, fun both => both.2.symm⟩
    · simp [room]

/-- The arguments are the words, where they can be made at all: no file of the first word is found
along `PATH`, and each word's block has room for the zero byte. -/
theorem makeArgv_ok_iff {env : Environment} {table : Descriptors} {words argv : List (List UInt8)} :
    makeArgv env table words = .ok argv ↔
      (∀ word ∈ words.head?, resolvePath env table word = .ok none) ∧
        (∀ word ∈ words, word.length < env.usable word.length) ∧ argv = words := by
  cases words with
  | nil => simp [makeArgv, eq_comm]
  | cons word rest =>
    simp only [makeArgv, List.head?_cons, Option.mem_def, Option.some.injEq, forall_eq']
    cases resolved : resolvePath env table word with
    | error fault => simp [Except.bind]
    | ok file =>
      cases file with
      | some file => simp [Except.bind, readName]
      | none =>
        simp only [Except.bind, readName, true_and]
        exact copyWords_ok_iff

/-! ## What is opened -/

/-- What the line is cut into by the pass for a stream, after the passes before it. -/
def cutLine (below : UInt8) (inputString : List UInt8) (stream : Stream) :
    Option (List UInt8) × List UInt8 :=
  let error := cutTarget .error (takeAmpersand below (CString.read inputString)).2
  let output := cutTarget .output error.2
  let input := cutTarget .input output.2
  match stream with
  | .error => error
  | .output => output
  | .input => input

/-- Open the files that the streams are redirected to, in the order of the passes. -/
def openTargets (env : Environment) (table : Descriptors) (target : Stream → Option (List UInt8)) :
    Descriptors :=
  let table := (openTarget env table .error (target .error)).2
  let table := (openTarget env table .output (target .output)).2
  (openTarget env table .input (target .input)).2

variable {env : Environment} {table : Descriptors} {inputString : List UInt8}

/-- A line that fits its array opens what its passes cut out of it. -/
theorem createProcess_opens (fits : (CString.read inputString).length < bufferSize) :
    (createProcess env table inputString).2 =
      openTargets env table fun stream => (cutLine env.below inputString stream).1 := by
  rw [createProcess, if_neg (by omega)]
  rfl

/-- The files named in the calls of `open` are the targets, one after another. -/
theorem openTargets_calls (target : Stream → Option (List UInt8)) :
    (openTargets env table target).calls.map Call.path = table.calls.map Call.path ++
      ((target .error).toList ++ (target .output).toList ++ (target .input).toList) := by
  have one : ∀ (table : Descriptors) (stream : Stream) (path : Option (List UInt8)),
      (openTarget env table stream path).2.calls.map Call.path =
        table.calls.map Call.path ++ path.toList := by
    intro table stream path
    cases path with
    | none => simp [openTarget]
    | some path =>
      rw [openTarget, Descriptors.open_]
      split <;> simp
  rw [openTargets, one, one, one, List.append_assoc, List.append_assoc, List.append_assoc]

/-- A system with the program `/bin/ls`, in which every file can be opened. The blocks of `malloc` have
room for 24 bytes, 40, 56 and so on. -/
def binEnvironment : Environment where
  path := some (ascii "/bin")
  readable := fun file => file = ascii "/bin/ls"
  permits := fun _ _ => true
  limit := 16
  below := 0
  usable := fun size => max 24 ((size + 7) / 16 * 16 + 8)

/-- The descriptors a shell starts with. -/
def standardDescriptors : Descriptors := ⟨{0, 1, 2}, []⟩

end OsAssignments.Shell

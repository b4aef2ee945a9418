import OsAssignments.Library.Pieces
import OsAssignments.Shell.Jobs
import OsAssignments.Shell.RoundTrip
import OsAssignments.Shell.TokenArrays

/-!
# Scripts

The shell with a file for its standard input. `freadln` takes the file apart into lines, longer ones
in several pieces, and loses nothing but what stands behind an end of string. Since the input is no
terminal, the loop of `shell` makes a process of each line and adds it to the list, and that is all:
the files for the redirections are opened, and nothing is ever run, marked or purged.
-/

namespace OsAssignments.Shell

open LinkedList Text Transition

/-! ## Lines -/

/-- `fgets` reads a piece. -/
theorem fgets_eq (ifile : List UInt8) :
    fgets maxLine ifile = piece (fun byte => byte = 10) (maxLine - 1) ifile := by
  simp [fgets, piece]

/-- A piece in front of a file is read, up to an end of string in it. -/
theorem freadln_piece {front rest : List UInt8}
    (isPiece : IsPiece (fun byte => byte = 10) (maxLine - 1) front)
    (ends : rest = [] ∨ Full (fun byte => byte = 10) (maxLine - 1) front) :
    freadln (front ++ rest) = (some (CString.read front), rest) := by
  obtain ⟨byte, line, rfl⟩ := List.exists_cons_of_ne_nil isPiece.nonempty
  have taken := isPiece.read ends
  rw [freadln, fgets_eq, taken]
  simp

/-- A file that is not empty has a line. -/
theorem exists_freadln {ifile : List UInt8} (nonempty : ifile ≠ []) :
    ∃ front rest, ifile = front ++ rest ∧ IsPiece (fun byte => byte = 10) (maxLine - 1) front ∧
      (rest = [] ∨ Full (fun byte => byte = 10) (maxLine - 1) front) ∧
      freadln ifile = (some (CString.read front), rest) := by
  have positive : 0 < maxLine - 1 := by decide
  obtain ⟨front, rest, rfl, isPiece, ends⟩ := exists_piece positive nonempty
  exact ⟨front, rest, rfl, isPiece, ends, freadln_piece isPiece ends⟩

/-- Reading a line shortens the file. -/
theorem freadln_shorter {ifile line rest : List UInt8} (read : freadln ifile = (some line, rest)) :
    rest.length < ifile.length := by
  have nonempty : ifile ≠ [] := by
    rintro rfl
    cases read
  obtain ⟨front, rest', rfl, isPiece, _, taken⟩ := exists_freadln nonempty
  obtain ⟨-, rfl⟩ := Prod.mk.inj (taken.symm.trans read)
  rw [List.length_append]
  have some := List.length_pos_of_ne_nil isPiece.nonempty
  omega

/-- The lines that the loop of `shell` reads from a file, up to the one where `freadln` returns a null
pointer. -/
def readLines (ifile : List UInt8) : List (List UInt8) :=
  match _read : freadln ifile with
  | (none, _) => []
  | (some line, rest) => line :: readLines rest
termination_by ifile.length
decreasing_by exact freadln_shorter _read

/-- There is nothing in an empty file. -/
theorem readLines_nil : readLines [] = [] := by
  rw [readLines.eq_def]
  rfl

/-- Behind a line the others are read. -/
theorem readLines_some {ifile line rest : List UInt8} (read : freadln ifile = (some line, rest)) :
    readLines ifile = line :: readLines rest := by
  rw [readLines.eq_def]
  split
  · rename_i none
    rw [read] at none
    cases none
  · rename_i some
    rw [read] at some
    cases some
    rfl

/-- The pieces of a file are read as its lines. -/
theorem readLines_pieces {pieces : List (List UInt8)}
    (arePieces : ArePieces (fun byte => byte = 10) (maxLine - 1) pieces) :
    readLines pieces.flatten = pieces.map CString.read := by
  induction pieces with
  | nil => exact readLines_nil
  | cons piece rest ih =>
    obtain ⟨isPiece, ends, others⟩ := arePieces
    have behind : rest.flatten = [] ∨ Full (fun byte => byte = 10) (maxLine - 1) piece := by
      rcases ends with rfl | full
      · exact .inl rfl
      · exact .inr full
    rw [List.flatten_cons, readLines_some (freadln_piece isPiece behind), ih others, List.map_cons]

/-- Every file consists of pieces. -/
theorem exists_pieces (ifile : List UInt8) : ∃ pieces, ifile = pieces.flatten ∧
    ArePieces (fun byte => byte = 10) (maxLine - 1) pieces := by
  induction length : ifile.length using Nat.strong_induction_on generalizing ifile with
  | _ length ih =>
    by_cases none : ifile = []
    · exact ⟨[], none, trivial⟩
    obtain ⟨front, rest, rfl, isPiece, ends, read⟩ := exists_freadln none
    obtain ⟨pieces, rfl, arePieces⟩ := ih _ (length ▸ freadln_shorter read) rest rfl
    refine ⟨front :: pieces, rfl, isPiece, ?_, arePieces⟩
    rcases ends with empty | full
    · left
      cases pieces with
      | nil => rfl
      | cons first others =>
        have some := arePieces.1.nonempty
        exact absurd (List.append_eq_nil_iff.mp empty).1 some
    · exact .inr full

/-- There is one way to take a file apart into pieces. -/
theorem existsUnique_pieces (ifile : List UInt8) : ∃! pieces, ifile = pieces.flatten ∧
    ArePieces (fun byte => byte = 10) (maxLine - 1) pieces := by
  obtain ⟨pieces, whole, arePieces⟩ := exists_pieces ifile
  refine ⟨pieces, ⟨whole, arePieces⟩, ?_⟩
  rintro others ⟨whole', areOthers⟩
  exact areOthers.eq arePieces (whole'.symm.trans whole)

/-- The lines read from a file are those of the pieces it consists of: each has at most `MAXLINE - 1`
bytes and no newline but at its end, and each but the last ends with a newline or is as long as can
be. What a line loses is what stands in its piece behind an end of string. -/
theorem readLines_iff (ifile : List UInt8) (lines : List (List UInt8)) :
    readLines ifile = lines ↔ ∃ pieces, ifile = pieces.flatten ∧
      ArePieces (fun byte => byte = 10) (maxLine - 1) pieces ∧ lines = pieces.map CString.read := by
  constructor
  · rintro rfl
    obtain ⟨pieces, rfl, arePieces⟩ := exists_pieces ifile
    exact ⟨pieces, rfl, arePieces, readLines_pieces arePieces⟩
  · rintro ⟨pieces, rfl, arePieces, rfl⟩
    exact readLines_pieces arePieces

/-! ## Turns -/

/-- A line with what the system has for it. -/
structure Turn where
  /-- The file system, and what else the line depends on. -/
  env : Environment
  /-- The line. -/
  inputString : List UInt8
  /-- The address that `malloc` returns. -/
  p : Nat

/-- The loop of `shell` for one line when standard input is no terminal. -/
def Session.batch (session : Session) (turn : Turn) : Option Session :=
  (session.readLine turn.env turn.inputString turn.p).map fun session =>
    { session with control := .prompt }

/-- A line is taken from a file. -/
def BatchStep (session : Session) (turn : Turn) (after : Session) : Prop :=
  session.batch turn = some after

/-- What the lines of a run leave in the shell. -/
structure Gathered (start : Session) (jobs : List Nat) (run : List (Turn × Session)) : Prop where
  /-- The list has an entry for each line, behind those that it had. -/
  listed : Listed (final start run).store
    (start.firstProcess :: (jobs ++ run.map fun move => move.1.p))
  /-- The entries that it had are as they were. -/
  kept : ∀ p ∈ start.firstProcess :: jobs,
    ((final start run).store p).content = (start.store p).content
  /-- An entry is the process that its line is made, with the files that the lines before it have
  left open. -/
  entries : ∀ index move, run[index]? = some move → ∃ process,
    createProcess move.1.env (final start (run.take index)).descriptors move.1.inputString =
      (.ok process, move.2.descriptors) ∧
    ((final start run).store move.1.p).content = process.content
  /-- No child is forked or waited for. -/
  children : (final start run).children = start.children
  /-- No process is signalled and the terminal is left alone. -/
  effects : (final start run).effects = start.effects
  /-- The list begins where it began. -/
  first : (final start run).firstProcess = start.firstProcess

variable {start session after : Session} {jobs : List Nat} {run : List (Turn × Session)} {turn : Turn}
  {commands : List Command}

/-- A line adds its process to the list. -/
theorem BatchStep.adds (listed : Listed session.store (session.firstProcess :: jobs))
    (taken : BatchStep session turn after) : ∃ process,
      createProcess turn.env session.descriptors turn.inputString = (.ok process, after.descriptors) ∧
      Listed after.store (session.firstProcess :: (jobs ++ [turn.p])) ∧
      (∀ p ∈ session.firstProcess :: jobs, (after.store p).content = (session.store p).content) ∧
      (after.store turn.p).content = process.content ∧ after.children = session.children ∧
      after.effects = session.effects ∧ after.firstProcess = session.firstProcess := by
  obtain ⟨prepared, read, rfl⟩ := Option.map_eq_some_iff.mp taken
  obtain ⟨process, descriptors, store', created, fresh, listed', same, rfl⟩ := listed.readLine read
  refine ⟨process, created, listed', ?_, ?_, rfl, rfl, rfl⟩
  · intro p member
    have apart : p ≠ turn.p := fun here => fresh (here ▸ member)
    exact (same p).trans (by rw [Store.modify_other apart])
  · exact (same turn.p).trans (by rw [Store.modify_same])

/-- The lines of a run add their processes to the list. -/
theorem gathered_of_run (listed : Listed start.store (start.firstProcess :: jobs))
    (steps : IsRun BatchStep start run) : Gathered start jobs run := by
  induction run generalizing start jobs with
  | nil =>
    refine ⟨?_, fun _ _ => rfl, fun index move found => ?_, rfl, rfl, rfl⟩
    · rw [List.map_nil, List.append_nil]
      exact listed
    · rw [List.getElem?_nil] at found
      cases found
  | cons move rest ih =>
    obtain ⟨turn, after⟩ := move
    obtain ⟨process, created, listed', kept, own, children, effects, first⟩ :=
      BatchStep.adds listed steps.1
    rw [← first] at listed'
    obtain ⟨listed'', kept'', entries, children'', effects'', first''⟩ := ih listed' steps.2
    refine ⟨?_, ?_, ?_, children''.trans children, effects''.trans effects, first''.trans first⟩
    · rw [first, List.append_assoc] at listed''
      exact listed''
    · intro p member
      refine (kept'' p ?_).trans (kept p member)
      rw [first, ← List.cons_append]
      exact List.mem_append_left _ member
    · intro index move found
      cases index with
      | zero =>
        obtain rfl := Option.some.inj found
        refine ⟨process, created, (kept'' turn.p ?_).trans own⟩
        exact List.mem_cons_of_mem _ (List.mem_append_right _ List.mem_cons_self)
      | succ index => exact entries index move found

/-! ## Printed scripts -/

/-- What a script leaves in the shell. -/
structure ScriptRead (start : Session) (commands : List Command) (run : List (Turn × Session)) :
    Prop where
  /-- There is a line for each command. -/
  length : run.length = commands.length
  /-- The list is the sentinel and an entry for each command. -/
  listed : Listed (final start run).store (start.firstProcess :: run.map fun move => move.1.p)
  /-- An entry is the process that its command describes, with the files of the commands before it
  open, and leaves its own open. -/
  entries : ∀ (index : Nat) (move : Turn × Session) (command : Command), run[index]? = some move →
    commands[index]? = some command →
      let table := (final start (run.take index)).descriptors
      ((final start run).store move.1.p).content =
          (command.process move.1.env table command.program.bytes).content ∧
        move.2.descriptors = openTargets move.1.env table command.target
  /-- No child is forked or waited for. -/
  children : (final start run).children = start.children
  /-- No process is signalled and the terminal is left alone. -/
  effects : (final start run).effects = start.effects

/-- Nothing that is printed in front of the ampersand ends the line. -/
theorem Command.body_calm (command : Command) :
    ∀ byte ∈ command.wordText ++ command.clauses.flatMap Clause.print, byte ≠ 10 := by
  have word : ∀ byte, isWordByte byte = true → byte ≠ 10 := fun byte inside =>
    (isWordByte_ne inside).2.1
  intro byte member
  cases List.mem_append.mp member with
  | inl first => exact word byte (printWords_inside _ _ byte first)
  | inr printed =>
    obtain ⟨clause, _, inner⟩ := List.mem_flatMap.mp printed
    cases List.mem_append.mp inner with
    | inl mark =>
      revert mark
      cases clause.stream <;> simp +contextual [or_imp]
    | inr target => exact word byte (clause.target.inside byte target)

/-- The line of a command is a piece that ends with a newline. -/
theorem Command.isPiece (command : Command) :
    IsPiece (fun byte => byte = 10) (maxLine - 1) command.print ∧
      Full (fun byte => byte = 10) (maxLine - 1) command.print := by
  obtain ⟨front, whole, calm⟩ : ∃ front, command.print = front ++ [10] ∧ 10 ∉ front := by
    refine ⟨command.wordText ++ command.clauses.flatMap Clause.print ++
      printAmpersand command.ampersand, ?_, ?_⟩
    · simp [print, wordText]
    · intro member
      rcases List.mem_append.mp member with body | ending
      · exact (command.body_calm 10 body) rfl
      · revert ending
        cases command.ampersand <;> simp [printAmpersand]
  have short := command.short
  have bytes : command.print.length < bufferSize := short
  rw [whole] at bytes ⊢
  refine ⟨⟨by simp, ?_, ?_⟩, .inr ⟨10, by simp, by decide⟩⟩
  · unfold bufferSize at bytes
    unfold maxLine
    omega
  · rw [List.dropLast_concat]
    intro byte member
    exact decide_eq_false fun same => calm (same ▸ member)

/-- The lines of a script are the lines of its commands. -/
theorem readLines_script (commands : List Command) :
    readLines (commands.map Command.print).flatten = commands.map Command.print := by
  have arePieces : ArePieces (fun byte => byte = 10) (maxLine - 1) (commands.map Command.print) := by
    induction commands with
    | nil => trivial
    | cons command rest ih => exact ⟨command.isPiece.1, .inr command.isPiece.2, ih⟩
  rw [readLines_pieces arePieces, List.map_map]
  exact List.map_congr_left fun command _ => command.read_print

/-- A script that the shell is given as its input is read back, command by command, and not one of its
commands is run. -/
theorem script_reads (initial : Initial start) (avoid : ∀ command ∈ commands, command.NamesAvoidTwo)
    (steps : IsRun BatchStep start run)
    (reads : (run.map fun move => move.1.inputString) =
      readLines (commands.map Command.print).flatten) : ScriptRead start commands run := by
  rw [readLines_script] at reads
  obtain ⟨listed, _, entries, children, effects, _⟩ := gathered_of_run initial.listed steps
  refine ⟨?_, listed, ?_, children, effects⟩
  · have lengths := congrArg List.length reads
    rwa [List.length_map, List.length_map] at lengths
  · intro index move command found isCommand
    obtain ⟨process, created, content⟩ := entries index move found
    have line : move.1.inputString = command.print := by
      have same := congrArg (·[index]?) reads
      simp only [List.getElem?_map, found, isCommand, Option.map_some, Option.some.injEq] at same
      exact same
    rw [line] at created
    obtain ⟨_, rfl, opened⟩ := (command.createProcess_of_avoid move.1.env _
      (avoid command (List.mem_of_getElem? isCommand))).mp created
    exact ⟨content, opened⟩

/-- The commands `/bin/ls -l > out` and `/bin/ls in &`. -/
def twoCommands : List Command :=
  [{ program := lsWord
     arguments := [⟨ascii "-l", by decide, List.all_eq_true.mp (by decide)⟩]
     clauses := [⟨.output, ⟨ascii "out", by decide, List.all_eq_true.mp (by decide)⟩⟩]
     ampersand := none
     few := by decide
     distinct := List.nodup_singleton _
     short := by decide },
   { program := lsWord
     arguments := [⟨ascii "in", by decide, List.all_eq_true.mp (by decide)⟩]
     clauses := []
     ampersand := some 1
     few := by decide
     distinct := List.nodup_nil
     short := by decide }]

/-- A shell that reads the two commands from a file. -/
def scriptRun : List (Turn × Session) :=
  trace Session.batch freshSession
    [⟨binEnvironment, ascii "/bin/ls -l > out\n", 8192⟩, ⟨binEnvironment, ascii "/bin/ls in &\n", 12288⟩]

/-- The script of the two commands is read back. -/
theorem script_reads_scriptRun : ScriptRead freshSession twoCommands scriptRun := by
  have lines : (scriptRun.map fun move => move.1.inputString) = twoCommands.map Command.print := by
    decide +kernel
  refine script_reads freshSession_initial ?_ (isRun_trace (fun _ _ _ taken => taken) _ _) ?_
  · unfold Command.NamesAvoidTwo
    decide
  · rw [readLines_script]
    exact lines

end OsAssignments.Shell

import OsAssignments.Shell.Jobs
import OsAssignments.Shell.PathSearch

/-!
# Builtins and programs

`create_process` resolves the first word of a line along `PATH` before `shell` looks the name up in
`cmd_table`. Where a file is found the name that it was found under is gone when it is read, for a builtin
as for a program; and `PATH` is split like a command line, at spaces and newlines too, so that a file may
be missed. A first word is looked up as it should be exactly when a process can be made of the line, with
nothing found, and for a program nothing was missed.
-/

namespace OsAssignments.Shell

open Text

/-- The directories of `PATH`, if it is set: what stands between its colons. An empty part names
none. -/
def pathDirs (env : Environment) : List (List UInt8) :=
  match env.path with
  | none => []
  | some path => tokens (· = 58) (CString.read path)

/-- Whether the file of a word in a directory can be opened. -/
def opensIn (env : Environment) (table : Descriptors) (word dir : List UInt8) : Bool :=
  table.fopen env (inDir word dir)

/-- The program that a word names: its file in the first directory in which it can be opened, or
the word itself. -/
def programOf (env : Environment) (table : Descriptors) (word : List UInt8) : List UInt8 :=
  match (pathDirs env).find? (opensIn env table word) with
  | some dir => inDir word dir
  | none => word

/-- The first word of a line is looked up as it should be: for the name of a builtin `shell` finds
the builtin, and any other word is made the program it names. -/
def LooksUp (env : Environment) (table : Descriptors) (inputString : List UInt8) : Prop :=
  ∀ word ∈ (tokens isSeparator (wordsPart env.below inputString)).head?,
    ∃ process, (createProcess env table inputString).1 = .ok process ∧
      match lookup (some word) with
      | some builtin => lookup process.argv.head? = some builtin
      | none => process.argv.head? = some (programOf env (passed env table inputString) word)

variable {env : Environment} {table : Descriptors} {inputString word : List UInt8}
  {builtin : Builtin}

/-- A session with a consistent list runs the builtin that the first word of the line read names,
when the word is looked up as it should be. -/
theorem LooksUp.runs {session after : Session} {jobs : List Nat} {p : Nat}
    (consistent : Consistent session.store session.firstProcess session.children jobs)
    (read : session.readLine env inputString p = some after)
    (looksUp : LooksUp env session.descriptors inputString)
    (first : word ∈ (tokens isSeparator (wordsPart env.below inputString)).head?)
    (named : lookup (some word) = some builtin) :
    after.step .builtin = after.runBuiltin builtin p := by
  obtain ⟨invariant, control⟩ := consistent.readLine read
  have found := invariant.holds
  unfold TableHolds at found
  rw [control] at found
  obtain ⟨process, made, wanted⟩ := looksUp word first
  rw [named] at wanted
  obtain ⟨process', descriptors, store', created, _, _, same, rfl⟩ := consistent.listed.readLine read
  obtain rfl := Except.ok.inj (made.symm.trans (congrArg Prod.fst created))
  have argv := (Process.content_eq (same p)).1
  rw [Store.modify_same] at argv
  have isBuiltin : lookup (store' p).argv.head? = some builtin := by
    rw [argv]
    exact wanted
  unfold Session.step
  rw [control]
  simp only [found, Option.bind_some, isBuiltin]

end OsAssignments.Shell

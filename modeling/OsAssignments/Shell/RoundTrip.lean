import Mathlib.Data.List.Nodup
import OsAssignments.Shell.PathSearch

/-!
# Printed command lines

Commands made of words, redirections in any order, and an ampersand are printed as lines, which
`create_process` then reads. Each of its passes finds the redirection it is for, since the passes
before it have left spaces where the other marks that contain its own stood. The name it copies
ends where another redirection or the line does; but the passes for standard output and standard
input end it at the digit 2 as well, for the sake of a `2>` that the first pass has taken away.
So a command is read back exactly when those two names are without that digit and the process can be
made: the program is not found along `PATH`, and the blocks for its words have room for them.
-/

namespace OsAssignments.Shell

open Text

/-! ## Commands -/

/-- A byte that is no end of string, no white space, and none of `:`, `<`, `>` and `&`. -/
def isPlain (byte : UInt8) : Bool :=
  byte ≠ 0 && !isspace byte && byte ≠ 58 && byte ≠ 60 && byte ≠ 62 && byte ≠ 38

/-- A word of a command. -/
structure Word where
  /-- The bytes. -/
  bytes : List UInt8
  /-- There are some. -/
  nonempty : bytes ≠ []
  /-- Each is plain. -/
  plain : ∀ byte ∈ bytes, isPlain byte = true

/-- A redirection. -/
structure Clause where
  /-- The stream redirected. -/
  stream : Stream
  /-- The file it is redirected to. -/
  target : Word

/-- A redirection as it is printed, set off by a space. -/
def Clause.print (clause : Clause) : List UInt8 :=
  32 :: clause.stream.mark ++ 32 :: clause.target.bytes

/-- The words as they are printed. -/
def printWords (program : Word) (arguments : List Word) : List UInt8 :=
  program.bytes ++ (arguments.map Word.bytes).flatMap (32 :: ·)

/-- An ampersand as it is printed, behind some spaces. -/
def printAmpersand : Option Nat → List UInt8
  | none => []
  | some gap => List.replicate gap 32 ++ [38]

/-- A command that fits the arrays of the shell. -/
structure Command where
  /-- The first word. -/
  program : Word
  /-- The other words. -/
  arguments : List Word
  /-- The redirections, in the order they are printed. -/
  clauses : List Clause
  /-- The number of spaces in front of the ampersand, if there is one. -/
  ampersand : Option Nat
  /-- There are fewer than 100 words. -/
  few : arguments.length + 1 < maxToks
  /-- No stream is redirected twice. -/
  distinct : (clauses.map Clause.stream).Nodup
  /-- The line is shorter than 1000 bytes. -/
  short : (printWords program arguments ++ clauses.flatMap Clause.print ++
    (printAmpersand ampersand ++ [10])).length < bufferSize

namespace Command

/-- The line of a command. -/
def print (command : Command) : List UInt8 :=
  printWords command.program command.arguments ++ command.clauses.flatMap Clause.print ++
    (printAmpersand command.ampersand ++ [10])

/-- The file a stream is redirected to. -/
def target (command : Command) (stream : Stream) : Option (List UInt8) :=
  (command.clauses.find? (·.stream = stream)).map (·.target.bytes)

/-- The process that a command describes, with the name of its program. -/
def process (env : Environment) (table : Descriptors) (command : Command) (name : List UInt8) :
    Process :=
  let error := openTarget env table .error (command.target .error)
  let output := openTarget env error.2 .output (command.target .output)
  let input := openTarget env output.2 .input (command.target .input)
  { argv := name :: command.arguments.map Word.bytes, argc := command.arguments.length + 1
    pid := 0, completed := false, stopped := false, background := command.ampersand.isSome
    status := none, stdin := input.1, stdout := output.1, stderr := error.1
    next := null, prev := null }

/-- Reading the line of a command opens the files it names and no others, and makes the process
it describes, with what its first word is resolved to. -/
def RoundTrips (env : Environment) (table : Descriptors) (command : Command) : Prop :=
  ∃ resolved, resolvePath env (openTargets env table command.target) command.program.bytes =
      .ok resolved ∧
    createProcess env table command.print =
      (.ok (command.process env table (resolved.getD command.program.bytes)),
        openTargets env table command.target)

/-- The files for standard output and standard input are named without the digit 2. -/
def NamesAvoidTwo (command : Command) : Prop :=
  ∀ clause ∈ command.clauses, clause.stream ≠ .error → 50 ∉ clause.target.bytes

/-- What it takes to make the process of a command: `PATH` is set, the search for the program finds
nothing in it, and the block of each word has room for the zero byte. -/
structure Makes (env : Environment) (table : Descriptors) (command : Command) : Prop where
  /-- The search. -/
  unfound : ∃ path ∈ env.path, Unfound ((openTargets env table command.target).fopen env)
    (CString.read path) command.program.bytes
  /-- The blocks. -/
  room : ∀ word ∈ command.program :: command.arguments,
    word.bytes.length < env.usable word.bytes.length

end Command

/-! ## Marks -/

variable {stream : Stream} {clause : Clause} {clauses left right : List Clause} {passes blanks : Nat}
  {words rest text : List UInt8} {byte : UInt8}

@[simp]
theorem mark_error : Stream.mark .error = [50, 62] := rfl

@[simp]
theorem mark_output : Stream.mark .output = [62] := rfl

@[simp]
theorem mark_input : Stream.mark .input = [60] := rfl

/-- A byte of words: a space or a plain one. -/
def isWordByte (byte : UInt8) : Bool := byte = 32 || isPlain byte

/-- The bytes of words are none that the passes look for. -/
theorem isWordByte_ne (inside : isWordByte byte = true) :
    byte ≠ 0 ∧ byte ≠ 10 ∧ byte ≠ 38 ∧ byte ≠ 60 ∧ byte ≠ 62 := by
  refine ⟨?_, ?_, ?_, ?_, ?_⟩ <;>
  · rintro rfl
    revert inside
    decide

/-- The bytes of a word and of the space before it are bytes of words. -/
theorem Word.inside (word : Word) : ∀ byte ∈ 32 :: word.bytes, isWordByte byte = true := by
  intro byte member
  cases List.mem_cons.mp member with
  | inl space => simp [space, isWordByte]
  | inr inner => simp [isWordByte, word.plain byte inner]

/-- The printed words are made of bytes of words. -/
theorem printWords_inside (program : Word) (arguments : List Word) :
    ∀ byte ∈ printWords program arguments, isWordByte byte = true := by
  intro byte member
  cases List.mem_append.mp member with
  | inl first => exact program.inside byte (List.mem_cons_of_mem 32 first)
  | inr others =>
    obtain ⟨word, listed, inner⟩ := List.mem_flatMap.mp others
    obtain ⟨argument, _, rfl⟩ := List.mem_map.mp listed
    exact argument.inside byte inner

/-- No mark starts in words that no `>` follows. -/
theorem absent_words (inside : ∀ byte ∈ text, isWordByte byte = true) (calm : rest.head? ≠ some 62) :
    Absent stream.mark text rest := by
  have notLess : 60 ∉ text := fun member => (isWordByte_ne (inside 60 member)).2.2.2.1 rfl
  have notGreater : 62 ∉ text := fun member => (isWordByte_ne (inside 62 member)).2.2.2.2 rfl
  cases stream with
  | error => exact absent_of_second notGreater calm
  | output => exact absent_of_first notGreater
  | input => exact absent_of_first notLess

/-! ## The line after some passes -/

/-- The place of a stream among the passes. -/
def Stream.pass : Stream → Nat
  | .error => 0
  | .output => 1
  | .input => 2

/-- Each stream has a pass of its own. -/
theorem Stream.pass_injective : Function.Injective Stream.pass := by
  intro stream other same
  revert same
  cases stream <;> cases other <;> decide

/-- A redirection after some passes: spaces once its own is over. -/
def Clause.after (passes : Nat) (clause : Clause) : List UInt8 :=
  if passes ≤ clause.stream.pass then clause.print else List.replicate clause.print.length 32

/-- The redirections after some passes. -/
def textAfter (passes : Nat) (clauses : List Clause) : List UInt8 := clauses.flatMap (·.after passes)

/-- The end of the line, without the ampersand. -/
def lineEnd (blanks : Nat) : List UInt8 := List.replicate blanks 32 ++ [10]

/-- The line after some passes. -/
def lineAfter (passes : Nat) (words : List UInt8) (clauses : List Clause) (blanks : Nat) :
    List UInt8 := words ++ (textAfter passes clauses ++ lineEnd blanks)

@[simp]
theorem textAfter_nil : textAfter passes [] = [] := rfl

@[simp]
theorem textAfter_cons :
    textAfter passes (clause :: clauses) = clause.after passes ++ textAfter passes clauses := rfl

@[simp]
theorem textAfter_append :
    textAfter passes (left ++ right) = textAfter passes left ++ textAfter passes right :=
  List.flatMap_append

/-- A redirection begins with a space, overwritten or not. -/
theorem Clause.after_space (passes : Nat) (clause : Clause) : ∃ rest, clause.after passes = 32 :: rest := by
  unfold Clause.after
  split
  · exact ⟨_, rfl⟩
  · exact ⟨List.replicate (clause.stream.mark ++ 32 :: clause.target.bytes).length 32, rfl⟩

/-- Redirections are not followed by a `>` when the text behind them does not begin with one. -/
theorem calm_textAfter (calm : rest.head? ≠ some 62) :
    (textAfter passes clauses ++ rest).head? ≠ some 62 := by
  cases clauses with
  | nil => exact calm
  | cons clause clauses =>
    obtain ⟨inner, begins⟩ := clause.after_space passes
    rw [textAfter_cons, begins]
    exact fun same => absurd (Option.some.inj same) (by decide)

/-- The end of the line does not begin with a `>`. -/
theorem calm_lineEnd : (lineEnd blanks).head? ≠ some 62 := by
  cases blanks with
  | zero => decide
  | succ blanks =>
    rw [lineEnd, List.replicate_succ]
    exact fun same => absurd (Option.some.inj same) (by decide)

/-- A pass leaves the redirections of other streams as they are. -/
theorem textAfter_next (others : ∀ clause ∈ clauses, clause.stream ≠ stream) :
    textAfter (stream.pass + 1) clauses = textAfter stream.pass clauses := by
  induction clauses with
  | nil => rfl
  | cons clause clauses ih =>
    have apart : clause.stream.pass ≠ stream.pass := fun same =>
      others clause List.mem_cons_self (Stream.pass_injective same)
    have tail := ih fun other member => others other (List.mem_cons_of_mem clause member)
    rw [textAfter_cons, textAfter_cons, tail, Clause.after, Clause.after]
    by_cases later : stream.pass ≤ clause.stream.pass
    · rw [if_pos later, if_pos (by omega)]
    · rw [if_neg later, if_neg (by omega)]

/-- In a pass, the mark of its stream does not start in a redirection of another one. -/
theorem absent_after (other : clause.stream ≠ stream) (calm : rest.head? ≠ some 62) :
    Absent stream.mark (clause.after stream.pass) rest := by
  unfold Clause.after
  split
  · rename_i later
    have front : ∀ behind, Absent stream.mark (32 :: clause.stream.mark) behind := by
      intro behind
      -- Later marks do not have the first byte of an earlier one.
      revert other later
      cases stream <;> cases clause.stream <;> intro other later
      case error.output => exact absent_of_first (by decide)
      case error.input => exact absent_of_first (by decide)
      case output.input => exact absent_of_first (by decide)
      all_goals first | exact absurd rfl other | exact absurd later (by decide)
    exact (front _).append (absent_words clause.target.inside calm)
  · apply absent_words _ calm
    intro byte member
    rw [List.eq_of_mem_replicate member]
    decide

/-- In a pass, the mark of its stream does not start in redirections of others. -/
theorem absent_textAfter (others : ∀ clause ∈ clauses, clause.stream ≠ stream)
    (calm : rest.head? ≠ some 62) : Absent stream.mark (textAfter stream.pass clauses) rest := by
  induction clauses with
  | nil => exact absent_nil
  | cons clause clauses ih =>
    have tail := ih fun other member => others other (List.mem_cons_of_mem clause member)
    exact (absent_after (others clause List.mem_cons_self) (calm_textAfter calm)).append tail

/-- In a pass, the name copied goes on over spaces until something ends it. -/
theorem stop_textAfter (blanks : Nat) (others : ∀ clause ∈ clauses, clause.stream ≠ stream) :
    ∃ count stop rest, textAfter stream.pass clauses ++ lineEnd blanks =
      List.replicate count 32 ++ stop :: rest ∧ stream.copies stop = false := by
  induction clauses with
  | nil => exact ⟨blanks, 10, [], rfl, by cases stream <;> decide⟩
  | cons clause clauses ih =>
    have other := others clause List.mem_cons_self
    rw [textAfter_cons, Clause.after]
    split
    · rename_i later
      have ends : ∃ stop more, clause.stream.mark = stop :: more ∧ stream.copies stop = false := by
        revert other later
        cases stream <;> cases clause.stream <;> intro other later
        case error.output => exact ⟨62, [], rfl, by decide⟩
        case error.input => exact ⟨60, [], rfl, by decide⟩
        case output.input => exact ⟨60, [], rfl, by decide⟩
        all_goals first | exact absurd rfl other | exact absurd later (by decide)
      obtain ⟨stop, more, begins, stops⟩ := ends
      rw [Clause.print, begins]
      exact ⟨1, stop, _, rfl, stops⟩
    · obtain ⟨count, stop, behind, same, stops⟩ :=
        ih fun other member => others other (List.mem_cons_of_mem clause member)
      refine ⟨clause.print.length + count, stop, behind, ?_, stops⟩
      rw [List.append_assoc, same, List.replicate_add, List.append_assoc]

/-! ## One pass -/

/-- A pass whose stream is not redirected changes nothing. -/
theorem cutTarget_absent (inside : ∀ byte ∈ words, isWordByte byte = true)
    (others : ∀ clause ∈ clauses, clause.stream ≠ stream) :
    cutTarget stream (lineAfter stream.pass words clauses blanks) =
      (none, lineAfter (stream.pass + 1) words clauses blanks) := by
  have calm : (textAfter stream.pass clauses ++ lineEnd blanks).head? ≠ some 62 :=
    calm_textAfter calm_lineEnd
  have ending : Absent stream.mark (lineEnd blanks) [] := by
    intro tail ends nonempty stands
    rw [List.append_nil] at stands
    have bytes : ∀ byte ∈ stream.mark, byte = 32 ∨ byte = 10 := by
      intro byte member
      cases List.mem_append.mp (ends.subset (stands.subset member)) with
      | inl blank => exact .inl (List.eq_of_mem_replicate blank)
      | inr last => exact .inr (List.mem_singleton.mp last)
    revert bytes
    cases stream <;> decide
  have absent : Absent stream.mark (lineAfter stream.pass words clauses blanks) [] := by
    apply Absent.append
    · rw [List.append_nil]
      exact absent_words inside calm
    · apply Absent.append _ ending
      rw [List.append_nil]
      exact absent_textAfter others calm_lineEnd
  have missing : find stream.mark (lineAfter stream.pass words clauses blanks) = none := by
    have searched := absent.find
    rw [List.append_nil] at searched
    rw [searched]
    cases stream <;> rfl
  have same : lineAfter (stream.pass + 1) words clauses blanks =
      lineAfter stream.pass words clauses blanks := by
    rw [lineAfter, textAfter_next others, lineAfter]
  rw [cutTarget, missing, same]

/-- A pass cuts its redirection out from behind the mark. -/
theorem cutTarget_present (inside : ∀ byte ∈ words, isWordByte byte = true)
    (others : ∀ other ∈ left, other.stream ≠ clause.stream) :
    cutTarget clause.stream (lineAfter clause.stream.pass words (left ++ clause :: right) blanks) =
      let behind := 32 :: clause.target.bytes ++
        (textAfter clause.stream.pass right ++ lineEnd blanks)
      let name := behind.takeWhile clause.stream.copies
      (some (trimwhitespace name), words ++ textAfter clause.stream.pass left ++ [32] ++
        List.replicate (clause.stream.mark.length + name.length) 32 ++ behind.drop name.length) := by
  have line : lineAfter clause.stream.pass words (left ++ clause :: right) blanks =
      words ++ (textAfter clause.stream.pass left ++ ([32] ++ (clause.stream.mark ++
        (32 :: clause.target.bytes ++ (textAfter clause.stream.pass right ++ lineEnd blanks))))) := by
    rw [lineAfter, textAfter_append, textAfter_cons, Clause.after, if_pos (Nat.le_refl _),
      Clause.print]
    simp
  have absent : Absent clause.stream.mark (words ++ (textAfter clause.stream.pass left ++ [32]))
      (clause.stream.mark ++ (32 :: clause.target.bytes ++
        (textAfter clause.stream.pass right ++ lineEnd blanks))) := by
    have space : ∀ behind, ([32] ++ behind : List UInt8).head? ≠ some 62 := fun _ same =>
      absurd (Option.some.inj same) (by decide)
    apply Absent.append
    · rw [List.append_assoc]
      exact absent_words inside (calm_textAfter (space _))
    · apply Absent.append
      · exact absent_textAfter others (space _)
      · cases clause.stream <;> exact absent_of_first (by decide)
  have proper : clause.stream.mark ≠ [] := by cases clause.stream <;> decide
  have found := absent.find
  rw [find_here proper, Option.map_some, List.append_nil] at found
  have searched : find clause.stream.mark
      (lineAfter clause.stream.pass words (left ++ clause :: right) blanks) =
        some (words ++ (textAfter clause.stream.pass left ++ [32]), 32 :: clause.target.bytes ++
          (textAfter clause.stream.pass right ++ lineEnd blanks)) := by
    rw [line, ← found]
    simp
  rw [cutTarget, searched]
  simp

/-- A byte of words is copied to the name, unless it is a 2 and the stream is not `stderr`. -/
theorem copies_inside (inside : isWordByte byte = true) (whole : stream = .error ∨ byte ≠ 50) :
    stream.copies byte = true := by
  obtain ⟨_, notEnd, _, notLess, notGreater⟩ := isWordByte_ne inside
  cases stream with
  | error => simp [Stream.copies, Stream.stops, ascii, notEnd, notLess, notGreater]
  | output =>
    have notTwo : byte ≠ 50 := whole.resolve_left (by decide)
    simp [Stream.copies, Stream.stops, ascii, notEnd, notLess, notTwo]
  | input =>
    have notTwo : byte ≠ 50 := whole.resolve_left (by decide)
    simp [Stream.copies, Stream.stops, ascii, notEnd, notGreater, notTwo]

/-- Trimming leaves a word. -/
theorem trimwhitespace_word (word : Word) (count : Nat) :
    trimwhitespace (32 :: word.bytes ++ List.replicate count 32) = word.bytes := by
  have inside : ∀ byte ∈ word.bytes, isspace byte = false := by
    intro byte member
    have plain := word.plain byte member
    simp only [isPlain, Bool.and_eq_true, Bool.not_eq_true'] at plain
    exact plain.1.1.1.1.2
  have spaces : ∀ byte ∈ List.replicate count (32 : UInt8), isspace byte = true := by
    intro byte member
    rw [List.eq_of_mem_replicate member]
    decide
  have trimmed := @trim_word _ [32] (List.replicate count 32) word.bytes isspace (by simp [isspace])
    word.nonempty inside spaces
  rwa [List.singleton_append] at trimmed

/-- A pass reads the name of its file whole, unless the 2 in it stands in the way. -/
theorem cutTarget_whole (inside : ∀ byte ∈ words, isWordByte byte = true)
    (before : ∀ other ∈ left, other.stream ≠ clause.stream)
    (behind : ∀ other ∈ right, other.stream ≠ clause.stream)
    (whole : clause.stream = .error ∨ 50 ∉ clause.target.bytes) :
    cutTarget clause.stream (lineAfter clause.stream.pass words (left ++ clause :: right) blanks) =
      (some clause.target.bytes,
        lineAfter (clause.stream.pass + 1) words (left ++ clause :: right) blanks) := by
  obtain ⟨count, stop, rest, follows, stops⟩ := stop_textAfter blanks behind
  have copied : ∀ byte ∈ 32 :: clause.target.bytes ++ List.replicate count 32,
      clause.stream.copies byte = true := by
    intro byte member
    cases List.mem_append.mp member with
    | inl inner =>
      apply copies_inside (clause.target.inside byte inner)
      apply whole.imp_right
      rintro without rfl
      cases List.mem_cons.mp inner with
      | inl space => exact absurd space (by decide)
      | inr two => exact without two
    | inr blank =>
      rw [List.eq_of_mem_replicate blank]
      exact copies_inside (by decide) (.inr (by decide))
  have name := @takeWhile_stop _ _ _ rest stop copied stops
  have spaced : clause.after (clause.stream.pass + 1) =
      [32] ++ List.replicate (clause.stream.mark.length + (1 + clause.target.bytes.length)) 32 := by
    rw [Clause.after, if_neg (by omega), Clause.print, List.singleton_append, ← List.replicate_succ]
    congr 1
    simp only [List.length_append, List.length_cons]
    omega
  rw [cutTarget_present inside before]
  simp only [follows]
  rw [← List.append_assoc, name, trimwhitespace_word, List.drop_left, lineAfter, textAfter_append,
    textAfter_cons, textAfter_next before, textAfter_next behind, spaced, List.append_assoc _ _ (lineEnd _),
    List.append_assoc _ _ (lineEnd _), follows]
  have length : clause.stream.mark.length + (32 :: clause.target.bytes ++ List.replicate count 32).length =
      clause.stream.mark.length + (1 + clause.target.bytes.length) + count := by
    simp only [List.length_append, List.length_cons, List.length_replicate]
    omega
  rw [length, List.replicate_add (clause.stream.mark.length + _) count]
  simp only [List.append_assoc]

/-- Where a 2 stands in the way, a pass reads another name. -/
theorem cutTarget_broken (inside : ∀ byte ∈ words, isWordByte byte = true)
    (before : ∀ other ∈ left, other.stream ≠ clause.stream) (broken : clause.stream ≠ .error)
    (two : 50 ∈ clause.target.bytes) :
    ∃ name, (cutTarget clause.stream (lineAfter clause.stream.pass words (left ++ clause :: right)
      blanks)).1 = some name ∧ name ≠ clause.target.bytes := by
  rw [cutTarget_present inside before]
  refine ⟨_, rfl, ?_⟩
  intro same
  rw [← same] at two
  have copied := List.mem_takeWhile_imp (trim_subset two)
  revert broken copied
  cases clause.stream <;> decide

/-! ## All passes -/

namespace Command

variable {env : Environment} {table : Descriptors}

/-- The words of a command as they are printed. -/
def wordText (command : Command) : List UInt8 := printWords command.program command.arguments

/-- The number of spaces that the ampersand leaves behind. -/
def spaces (command : Command) : Nat := (printAmpersand command.ampersand).length

/-- The line of a command after some passes. -/
def lineAfter (command : Command) (passes : Nat) : List UInt8 :=
  Shell.lineAfter passes command.wordText command.clauses command.spaces

/-- A redirection stands between redirections of other streams. -/
theorem around (command : Command) (member : clause ∈ command.clauses) :
    ∃ left right, command.clauses = left ++ clause :: right ∧
      (∀ other ∈ left, other.stream ≠ clause.stream) ∧
      (∀ other ∈ right, other.stream ≠ clause.stream) ∧
      command.target clause.stream = some clause.target.bytes := by
  obtain ⟨left, right, split⟩ := List.mem_iff_append.mp member
  have distinct := command.distinct
  rw [split, List.map_append, List.map_cons, List.nodup_middle, ← List.map_append] at distinct
  have others : ∀ other ∈ left ++ right, other.stream ≠ clause.stream := fun other inner same =>
    (List.nodup_cons.mp distinct).1 (same ▸ List.mem_map_of_mem inner)
  have before : ∀ other ∈ left, other.stream ≠ clause.stream := fun other inner =>
    others other (List.mem_append_left right inner)
  refine ⟨left, right, split, before, fun other inner =>
    others other (List.mem_append_right left inner), ?_⟩
  have none : left.find? (fun other => decide (other.stream = clause.stream)) = none := by
    simpa using before
  rw [target, split, List.find?_append, none, List.find?_cons_of_pos (by simp)]
  rfl

/-- A pass in whose way no 2 stands cuts out what the command names. -/
theorem cut_whole (command : Command)
    (whole : ∀ clause ∈ command.clauses, clause.stream = stream →
      stream = .error ∨ 50 ∉ clause.target.bytes) :
    cutTarget stream (command.lineAfter stream.pass) =
      (command.target stream, command.lineAfter (stream.pass + 1)) := by
  have inside : ∀ byte ∈ command.wordText, isWordByte byte = true :=
    printWords_inside command.program command.arguments
  by_cases redirected : ∃ clause ∈ command.clauses, clause.stream = stream
  · obtain ⟨clause, member, rfl⟩ := redirected
    obtain ⟨left, right, split, before, behind, target⟩ := command.around member
    rw [lineAfter, split, cutTarget_whole inside before behind (whole clause member rfl), ← split,
      ← target, lineAfter]
  · have others : ∀ clause ∈ command.clauses, clause.stream ≠ stream := fun clause member same =>
      redirected ⟨clause, member, same⟩
    have none : command.clauses.find? (fun clause => decide (clause.stream = stream)) = none := by
      simpa using others
    rw [lineAfter, cutTarget_absent inside others, target, none, lineAfter]
    rfl

/-- A pass in whose way a 2 stands cuts out another name than the command's. -/
theorem cut_broken (command : Command) (member : clause ∈ command.clauses)
    (broken : clause.stream ≠ .error) (two : 50 ∈ clause.target.bytes) :
    ∃ name named, (cutTarget clause.stream (command.lineAfter clause.stream.pass)).1 = some name ∧
      command.target clause.stream = some named ∧ name ≠ named := by
  have inside := printWords_inside command.program command.arguments
  obtain ⟨left, right, split, before, _, target⟩ := command.around member
  obtain ⟨name, cut, other⟩ := @cutTarget_broken _ left right command.spaces command.wordText inside
    before broken two
  refine ⟨name, clause.target.bytes, ?_, target, other⟩
  rw [lineAfter, split]
  exact cut

/-- Before the ampersand and the end of the line, nothing is an ampersand or ends a string. -/
theorem body_bytes (command : Command) :
    ∀ byte ∈ command.wordText ++ command.clauses.flatMap Clause.print, byte ≠ 0 ∧ byte ≠ 38 := by
  have word : ∀ byte, isWordByte byte = true → byte ≠ 0 ∧ byte ≠ 38 := fun byte inside =>
    ⟨(isWordByte_ne inside).1, (isWordByte_ne inside).2.2.1⟩
  intro byte member
  cases List.mem_append.mp member with
  | inl first => exact word byte (printWords_inside _ _ byte first)
  | inr printed =>
    obtain ⟨clause, _, inner⟩ := List.mem_flatMap.mp printed
    cases List.mem_append.mp inner with
    | inl mark =>
      revert mark
      cases clause.stream <;> simp +contextual [or_imp]
    | inr target => exact word byte (clause.target.inside byte target)

/-- The line has no byte that ends a string. -/
theorem read_print (command : Command) : CString.read command.print = command.print := by
  have proper : ∀ byte ∈ command.print, decide (byte ≠ 0) = true := by
    intro byte member
    rw [decide_eq_true_eq]
    cases List.mem_append.mp member with
    | inl body => exact (command.body_bytes byte body).1
    | inr ending =>
      revert ending
      cases command.ampersand with
      | none => simp +contextual [printAmpersand]
      | some gap => simp +contextual [printAmpersand, or_imp]
  exact List.takeWhile_eq_self_iff.mpr proper

/-- The ampersand is seen exactly when there is one, and spaces are left in its place. -/
theorem takeAmpersand_print (below : UInt8) (command : Command) :
    takeAmpersand below command.print = (command.ampersand.isSome, command.lineAfter 0) := by
  have first : textAfter 0 command.clauses = command.clauses.flatMap Clause.print := by
    apply List.flatMap_congr
    intro clause _
    rw [Clause.after, if_pos (Nat.zero_le _)]
  have seen : ∀ (text : List UInt8) (byte : UInt8), lastButOne below (text ++ [byte, 10]) = byte := by
    intro text byte
    simp [lastButOne]
  rw [print, lineAfter, Shell.lineAfter, first, spaces, lineEnd]
  cases ampersand : command.ampersand with
  | none =>
    have nonempty : command.wordText ++ command.clauses.flatMap Clause.print ≠ [] := fun empty =>
      command.program.nonempty (List.append_eq_nil_iff.mp (List.append_eq_nil_iff.mp empty).1).1
    have bytes := command.body_bytes
    obtain ⟨text, byte, body⟩ := (List.eq_nil_or_concat _).resolve_left nonempty
    rw [body] at bytes
    have notAmpersand : byte ≠ 38 := (bytes byte (by simp)).2
    have line : printWords command.program command.arguments ++
        command.clauses.flatMap Clause.print ++ (printAmpersand none ++ [10]) = text ++ [byte, 10] := by
      rw [← wordText, body]
      simp [printAmpersand]
    rw [line, takeAmpersand, seen, if_neg notAmpersand, ← line]
    simp [printAmpersand, wordText]
  | some gap =>
    have line : printWords command.program command.arguments ++
        command.clauses.flatMap Clause.print ++ (printAmpersand (some gap) ++ [10]) =
          (command.wordText ++ command.clauses.flatMap Clause.print ++ List.replicate gap 32) ++
            [38, 10] := by
      simp [printAmpersand, wordText]
    have long : ∀ text : List UInt8, 2 ≤ (text ++ [38, 10]).length := by simp
    have set : ∀ text : List UInt8, (text ++ [38, 10]).set ((text ++ [38, 10]).length - 2) 32 =
        text ++ [32, 10] := by simp
    rw [line, takeAmpersand, seen, if_pos rfl, if_pos (long _), set, printAmpersand]
    simp [List.replicate_succ']

/-! ## Reading a command back -/

/-- What the passes leave of the line are the words. -/
theorem tokens_line (command : Command) :
    tokens isSeparator (command.lineAfter 3) =
      command.program.bytes :: command.arguments.map Word.bytes := by
  have blank : ∀ byte ∈ textAfter 3 command.clauses, byte = 32 := by
    intro byte member
    obtain ⟨clause, _, inner⟩ := List.mem_flatMap.mp member
    have past : ¬ 3 ≤ clause.stream.pass := by cases clause.stream <;> decide
    rw [Clause.after, if_neg past] at inner
    exact List.eq_of_mem_replicate inner
  have separators : ∀ byte ∈ textAfter 3 command.clauses ++ lineEnd command.spaces,
      isSeparator byte = true := by
    intro byte member
    rcases List.mem_append.mp member with printed | ending
    · rw [blank byte printed]
      decide
    · rcases List.mem_append.mp ending with space | newline
      · rw [List.eq_of_mem_replicate space]
        decide
      · rw [List.mem_singleton.mp newline]
        decide
  have inside : ∀ word : Word, ∀ byte ∈ word.bytes, isSeparator byte = false := by
    intro word byte member
    have plain := word.plain byte member
    have space : byte ≠ 32 := by
      rintro rfl
      revert plain
      decide
    have newline := (isWordByte_ne (word.inside byte (List.mem_cons_of_mem 32 member))).2.1
    have colon : byte ≠ 58 := by
      rintro rfl
      revert plain
      decide
    simp [isSeparator, space, newline, colon]
  obtain ⟨stop, rest, ending⟩ : ∃ stop rest,
      textAfter 3 command.clauses ++ lineEnd command.spaces = stop :: rest := by
    apply List.exists_cons_of_ne_nil
    simp [lineEnd]
  rw [ending] at separators
  have words : tokens isSeparator (((command.program :: command.arguments).map Word.bytes).flatMap
      (32 :: ·) ++ stop :: rest) =
        (command.program :: command.arguments).map Word.bytes ++ tokens isSeparator rest := by
    apply tokens_words
    · intro bytes member
      obtain ⟨word, _, rfl⟩ := List.mem_map.mp member
      exact word.nonempty
    · intro bytes member
      obtain ⟨word, _, rfl⟩ := List.mem_map.mp member
      exact inside word
    · decide
    · exact separators stop List.mem_cons_self
  rw [tokens_separators fun byte member => separators byte (List.mem_cons_of_mem stop member),
    List.append_nil, List.map_cons, List.flatMap_cons, List.cons_append, List.cons_append,
    tokens_separator (by decide)] at words
  rw [lineAfter, Shell.lineAfter, ending, wordText, printWords]
  exact words

/-- The line of a command fits its array. -/
theorem fits (command : Command) : (CString.read command.print).length < bufferSize := by
  rw [read_print]
  exact command.short

/-- The first pass reads what the command names. -/
theorem cutLine_error (below : UInt8) (command : Command) :
    cutLine below command.print .error = (command.target .error, command.lineAfter 1) := by
  rw [cutLine, read_print, takeAmpersand_print]
  exact command.cut_whole fun _ _ _ => .inl rfl

/-- The second pass cuts the line that the first one leaves. -/
theorem cutLine_output (below : UInt8) (command : Command) :
    cutLine below command.print .output = cutTarget .output (command.lineAfter 1) := by
  have first := command.cutLine_error below
  rw [cutLine] at first
  rw [cutLine, first]

/-- The third pass cuts the line that the second one leaves, when no 2 stands in its way. -/
theorem cutLine_input (below : UInt8) (command : Command)
    (whole : ∀ clause ∈ command.clauses, clause.stream = .output → 50 ∉ clause.target.bytes) :
    cutLine below command.print .input = cutTarget .input (command.lineAfter 2) := by
  have second := command.cutLine_output below
  rw [show cutTarget .output (command.lineAfter 1) = (command.target .output, command.lineAfter 2) from
    command.cut_whole fun clause member same => .inr (whole clause member same), cutLine] at second
  rw [cutLine, second]

/-- The passes over the line of a command whose names avoid the digit cut out what it names. -/
theorem cutLine_target (below : UInt8) (command : Command) (avoid : command.NamesAvoidTwo)
    (stream : Stream) : (cutLine below command.print stream).1 = command.target stream := by
  have whole : ∀ other, ∀ clause ∈ command.clauses, clause.stream = other →
      other = .error ∨ 50 ∉ clause.target.bytes := by
    rintro other clause member rfl
    by_cases error : clause.stream = .error
    · exact .inl error
    · exact .inr (avoid clause member error)
  cases stream with
  | error => rw [cutLine_error]
  | output =>
    rw [cutLine_output, show cutTarget .output (command.lineAfter 1) = _ from
      command.cut_whole (whole .output)]
  | input =>
    have output : ∀ clause ∈ command.clauses, clause.stream = .output → 50 ∉ clause.target.bytes :=
      fun clause member same => (whole .output clause member same).resolve_left (by decide)
    rw [cutLine_input below command output, show cutTarget .input (command.lineAfter 2) = _ from
      command.cut_whole (whole .input)]

/-- The line of a command whose names avoid the digit is read as the command says, up to its
arguments. -/
theorem createProcess_print (env : Environment) (table : Descriptors) (command : Command)
    (avoid : command.NamesAvoidTwo) : createProcess env table command.print =
      ((makeArgv env (openTargets env table command.target)
        (command.program.bytes :: command.arguments.map Word.bytes)).map fun argv =>
          { command.process env table command.program.bytes with argv, argc := argv.length },
        openTargets env table command.target) := by
  have few : (tokens isSeparator (command.lineAfter 3)).length < maxToks := by
    rw [tokens_line]
    simpa using command.few
  have first : cutTarget .error (command.lineAfter 0) = (command.target .error, command.lineAfter 1) :=
    command.cut_whole fun _ _ _ => .inl rfl
  have second : cutTarget .output (command.lineAfter 1) =
      (command.target .output, command.lineAfter 2) :=
    command.cut_whole fun clause member same =>
      .inr (avoid clause member (by rw [same]; decide))
  have third : cutTarget .input (command.lineAfter 2) = (command.target .input, command.lineAfter 3) :=
    command.cut_whole fun clause member same =>
      .inr (avoid clause member (by rw [same]; decide))
  have read := untilNull_getToks few
  rw [tokens_line] at read
  have fits := command.fits
  rw [createProcess, if_neg (by omega), read_print, takeAmpersand_print]
  simp only [first, second, third, read]
  rfl

/-- The arguments of a command can be made exactly when its process can, and they are its words. -/
theorem makeArgv_words {argv : List (List UInt8)} (env : Environment) (table : Descriptors)
    (command : Command) :
    makeArgv env (openTargets env table command.target)
        (command.program.bytes :: command.arguments.map Word.bytes) = .ok argv ↔
      command.Makes env table ∧ argv = command.program.bytes :: command.arguments.map Word.bytes := by
  rw [makeArgv_ok_iff]
  simp only [List.head?_cons, Option.mem_def, Option.some.injEq, forall_eq', List.forall_mem_cons,
    List.forall_mem_map, resolvePath_none_iff]
  constructor
  · rintro ⟨unfound, room, same⟩
    exact ⟨⟨unfound, List.forall_mem_cons.mpr room⟩, same⟩
  · rintro ⟨⟨unfound, room⟩, same⟩
    exact ⟨unfound, List.forall_mem_cons.mp room, same⟩

/-- A command whose names avoid the digit is read back as its process when that can be made. -/
theorem createProcess_of_avoid (env : Environment) (table : Descriptors) (command : Command)
    (avoid : command.NamesAvoidTwo) {process : Process} {after : Descriptors} :
    createProcess env table command.print = (.ok process, after) ↔
      command.Makes env table ∧ process = command.process env table command.program.bytes ∧
        after = openTargets env table command.target := by
  rw [command.createProcess_print env table avoid, Prod.mk.injEq]
  have argc : (command.program.bytes :: command.arguments.map Word.bytes).length =
      command.arguments.length + 1 := by
    rw [List.length_cons, List.length_map]
  constructor
  · rintro ⟨made, rfl⟩
    cases argv : makeArgv env (openTargets env table command.target)
        (command.program.bytes :: command.arguments.map Word.bytes) with
    | error fault =>
      rw [argv] at made
      cases made
    | ok argv' =>
      obtain ⟨makes, rfl⟩ := (command.makeArgv_words env table).mp argv
      rw [argv] at made
      refine ⟨makes, ?_, rfl⟩
      rw [← Except.ok.inj made]
      simp only [argc, Command.process]
  · rintro ⟨makes, rfl, rfl⟩
    rw [(command.makeArgv_words env table).mpr ⟨makes, rfl⟩]
    refine ⟨?_, rfl⟩
    rw [Except.map, argc]
    rfl

/-- A command that is read back has names that avoid the digit. -/
theorem RoundTrips.avoid {env : Environment} {table : Descriptors} {command : Command}
    (roundTrips : command.RoundTrips env table) : command.NamesAvoidTwo := by
  have opened : openTargets env table (fun stream => (cutLine env.below command.print stream).1) =
      openTargets env table command.target := by
    obtain ⟨_, _, read⟩ := roundTrips
    rw [← createProcess_opens command.fits, read]
  -- The calls of `open` tell the names apart.
  have calls := congrArg (fun table => table.calls.map Call.path) opened
  rw [openTargets_calls, openTargets_calls, List.append_cancel_left_eq, cutLine_error,
    cutLine_output, List.append_assoc, List.append_assoc, List.append_cancel_left_eq] at calls
  have output : ∀ clause ∈ command.clauses, clause.stream = .output → 50 ∉ clause.target.bytes := by
    intro clause member same two
    have broken : clause.stream ≠ .error := by
      rw [same]
      decide
    obtain ⟨name, named, cut, target, other⟩ := command.cut_broken member broken two
    rw [same] at cut target
    rw [show (cutTarget .output (command.lineAfter 1)).1 = some name from cut, target] at calls
    exact other (List.cons_eq_cons.mp calls).1
  have second : cutTarget .output (command.lineAfter 1) =
      (command.target .output, command.lineAfter 2) :=
    command.cut_whole fun clause member same => .inr (output clause member same)
  rw [second, command.cutLine_input env.below output, List.append_cancel_left_eq] at calls
  intro clause member notError two
  cases same : clause.stream with
  | error => exact notError same
  | output => exact output clause member same two
  | input =>
    obtain ⟨name, named, cut, target, other⟩ := command.cut_broken member notError two
    rw [same] at cut target
    rw [show (cutTarget .input (command.lineAfter 2)).1 = some name from cut, target] at calls
    exact other (List.cons_eq_cons.mp calls).1

/-- Reading the line of a command opens exactly the named files for exactly the named streams and
makes exactly the described process if and only if the names of the files for standard output and
standard input are without the digit 2, the program is not found along `PATH`, and the blocks for the
words have room for them. -/
theorem roundTrips_iff (env : Environment) (table : Descriptors) (command : Command) :
    command.RoundTrips env table ↔ command.NamesAvoidTwo ∧ command.Makes env table := by
  constructor
  · intro roundTrips
    have avoid := roundTrips.avoid
    obtain ⟨_, _, read⟩ := roundTrips
    exact ⟨avoid, ((command.createProcess_of_avoid env table avoid).mp read).1⟩
  · rintro ⟨avoid, makes⟩
    exact ⟨none, resolvePath_none_iff.mpr makes.unfound,
      (command.createProcess_of_avoid env table avoid).mpr ⟨makes, rfl, rfl⟩⟩

end Command

/-- The word "/bin/ls". -/
def lsWord : Word := ⟨ascii "/bin/ls", by decide, List.all_eq_true.mp (by decide)⟩

/-- The command `/bin/ls > out2`. -/
def listToOut2 : Command where
  program := lsWord
  arguments := []
  clauses := [⟨.output, ⟨ascii "out2", by decide, List.all_eq_true.mp (by decide)⟩⟩]
  ampersand := none
  few := by decide
  distinct := by simp
  short := by decide

/-- `/bin/ls > out2` opens another file than the one named. -/
theorem out2_misread : ¬ ∀ (env : Environment) (table : Descriptors) (command : Command),
    command.RoundTrips env table := by
  intro claim
  obtain ⟨_, _, read⟩ := claim binEnvironment standardDescriptors listToOut2
  have opened := congrArg (fun made => made.2.calls.map Call.path) read
  simp only at opened
  revert opened
  decide

end OsAssignments.Shell

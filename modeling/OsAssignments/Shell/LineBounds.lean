import OsAssignments.Shell.TokenArrays

/-!
# The arrays of a command line

What `create_process` and `resolve_path` use of their arrays of 1000 bytes. The line is copied to
`local_s` without a look at its length, the byte before its last one is looked at even when there
is none, and the directories of `PATH` are composed with the word as they come. Where no null pointer
ends them, what stands behind their array is followed and copied to `file_buf` like a directory. The
redirections are safe: what is copied to the other arrays is shorter than the line.
-/

namespace OsAssignments.Shell

open Text

/-! ## Uses -/

/-- The arrays of `create_process` and `resolve_path`. -/
inductive Buffer
  /-- `local_s`. -/
  | localS
  /-- `se`, `so` or `si`. -/
  | target (stream : Stream)
  /-- `path`. -/
  | path
  /-- `file_buf`. -/
  | fileBuf
  /-- `file`. -/
  | file
  /-- The array of pointers to the directories, whose slots are copied to `file_buf`. -/
  | pathDirs
  deriving DecidableEq, Repr

/-- The size of an array. -/
def Buffer.size : Buffer → Nat
  | .pathDirs => maxToks
  | _ => bufferSize

/-- A use of an array: all indices from the first to the last. -/
structure Use where
  /-- The array. -/
  buffer : Buffer
  /-- The first index. -/
  first : Int
  /-- The last index. -/
  last : Int
  deriving DecidableEq, Repr

/-- A use of indices that the array has. -/
def Use.Within (use : Use) : Prop := 0 ≤ use.first ∧ use.last < use.buffer.size

instance (use : Use) : Decidable use.Within := inferInstanceAs (Decidable (_ ∧ _))

/-- The uses of the pass for a stream: `strstr` reads the line, the loop overwrites the mark and the
name up to the byte that ends it, and the name is copied, ended by a zero byte and trimmed. -/
def passUses (stream : Stream) (localS : List UInt8) : List Use :=
  ⟨.localS, 0, localS.length⟩ ::
    match find stream.mark localS with
    | none => []
    | some (before, behind) =>
      let name := behind.takeWhile stream.copies
      [⟨.localS, before.length, before.length + stream.mark.length + name.length⟩,
        ⟨.target stream, 0, name.length⟩]

/-- The uses of the loop of `resolve_path`, for the slots of the array of directories from the first one
left on: behind the last slot the loop reads on. -/
def searchUses (fopen : List UInt8 → Bool) (inputString : List UInt8) (slot : Nat) :
    List (Option (List UInt8)) → List Use
  | [] => [⟨.pathDirs, slot, slot⟩]
  | none :: _ => [⟨.pathDirs, slot, slot⟩]
  | some dir :: rest =>
    [⟨.pathDirs, slot, slot⟩, ⟨.fileBuf, 0, dir.length⟩,
        ⟨.file, 0, (inDir inputString dir).length⟩] ++
      if fopen (inDir inputString dir) then [] else searchUses fopen inputString (slot + 1) rest

/-- The uses of `resolve_path`. -/
def resolveUses (env : Environment) (table : Descriptors) (inputString : List UInt8) : List Use :=
  match env.path with
  | none => []
  | some path =>
    let path := CString.read path
    ⟨.path, 0, path.length⟩ :: searchUses (table.fopen env) inputString 0 (getToks path)

/-- The uses of `create_process`: the line is copied and its last byte but one looked at, the
redirections are cut out, what is left is split, and the first word is resolved. -/
def createProcessUses (env : Environment) (table : Descriptors) (inputString : List UInt8) :
    List Use :=
  let localS := CString.read inputString
  let words := wordsPart env.below inputString
  [⟨.localS, 0, localS.length⟩, ⟨.localS, localS.length - 2, localS.length - 2⟩] ++
    passUses .error (takeAmpersand env.below localS).2 ++
    passUses .output (cutLine env.below inputString .error).2 ++
    passUses .input (cutLine env.below inputString .output).2 ++
    ⟨.localS, 0, words.length⟩ ::
      match (tokens isSeparator words).head? with
      | none => []
      | some word => resolveUses env (passed env table inputString) word

/-- `create_process` stays in its arrays. -/
def StaysWithin (env : Environment) (table : Descriptors) (inputString : List UInt8) : Prop :=
  ∀ use ∈ createProcessUses env table inputString, use.Within

variable {env : Environment} {table : Descriptors} {inputString localS path word : List UInt8}
  {fopen : List UInt8 → Bool} {dirs : List (List UInt8)} {stream : Stream}

/-- A use from the start stays in the array exactly when its last index does. -/
theorem within_start {buffer : Buffer} {last : Nat} :
    (⟨buffer, 0, last⟩ : Use).Within ↔ last < buffer.size := by
  unfold Use.Within
  simp only
  omega

/-- The use of a slot stays in the array of directories when the array has it. -/
theorem within_slot {slot : Nat} : (⟨.pathDirs, slot, slot⟩ : Use).Within ↔ slot < maxToks := by
  unfold Use.Within Buffer.size
  simp only
  omega

/-! ## The line -/

/-- Taking an ampersand away keeps the length of the line. -/
theorem length_takeAmpersand (below : UInt8) :
    (takeAmpersand below localS).2.length = localS.length := by
  unfold takeAmpersand
  split
  · split
    · rw [List.length_set]
    · rfl
  · rfl

/-- Cutting a redirection out keeps the length of the line. -/
theorem length_cutTarget : (cutTarget stream localS).2.length = localS.length := by
  unfold cutTarget
  cases found : find stream.mark localS with
  | none => rfl
  | some parts =>
    obtain ⟨before, behind⟩ := parts
    have whole := congrArg List.length (find_parts found)
    have shorter := (List.takeWhile_prefix (l := behind) stream.copies).length_le
    simp only [List.length_append] at whole
    simp only [List.length_append, List.length_replicate, List.length_drop]
    omega

/-- The passes keep the length of the line. -/
theorem length_cutLine (below : UInt8) :
    (cutLine below inputString stream).2.length = (CString.read inputString).length := by
  cases stream <;> simp only [cutLine, length_cutTarget, length_takeAmpersand]

/-- A pass over a line that fits its array stays in all of them. -/
theorem passUses_within (fits : localS.length < bufferSize) :
    ∀ use ∈ passUses stream localS, use.Within := by
  intro use member
  have line : (⟨.localS, 0, localS.length⟩ : Use).Within := within_start.mpr fits
  rw [passUses] at member
  cases found : find stream.mark localS with
  | none =>
    rw [found] at member
    rw [List.mem_singleton.mp member]
    exact line
  | some parts =>
    obtain ⟨before, behind⟩ := parts
    have whole := congrArg List.length (find_parts found)
    have shorter := (List.takeWhile_prefix (l := behind) stream.copies).length_le
    simp only [List.length_append] at whole
    rw [found] at member
    simp only [List.mem_cons, List.not_mem_nil, or_false] at member
    rcases member with rfl | rfl | rfl
    · exact line
    · constructor
      · exact Int.natCast_nonneg _
      · simp only [Buffer.size]
        omega
    · have short : (behind.takeWhile stream.copies).length < bufferSize := by omega
      exact within_start.mpr short

/-! ## The search -/

/-- The uses for one directory stay in the arrays exactly when its slot is there and the name composed
fits. -/
theorem turn_within {dir : List UInt8} {slot : Nat} :
    (∀ use ∈ [(⟨.pathDirs, slot, slot⟩ : Use), ⟨.fileBuf, 0, dir.length⟩,
        ⟨.file, 0, (inDir word dir).length⟩], use.Within) ↔
      slot < maxToks ∧ (inDir word dir).length < bufferSize := by
  have shorter : dir.length ≤ (inDir word dir).length := by
    rw [inDir, List.length_append]
    omega
  rw [List.forall_mem_cons, List.forall_mem_cons, List.forall_mem_singleton, within_slot,
    within_start, within_start]
  simp only [Buffer.size]
  omega

/-- A search stays in its arrays exactly when the names composed on the way fit and a free slot or a
file that can be opened ends it. -/
theorem searchUses_within_iff {slot : Nat} (count : Nat) (whole : slot + dirs.length + count = maxToks) :
    (∀ use ∈ searchUses fopen word slot (dirs.map some ++ List.replicate count none), use.Within) ↔
      (∀ file ∈ tried fopen (dirs.map (inDir word)), file.length < bufferSize) ∧
        (0 < count ∨ ∃ file ∈ dirs.map (inDir word), fopen file = true) := by
  induction dirs generalizing slot with
  | nil =>
    rw [List.length_nil] at whole
    have free : slot < maxToks ↔ 0 < count := by omega
    cases count <;> simp [searchUses, tried, List.replicate_succ, within_slot, free]
  | cons dir dirs ih =>
    rw [List.length_cons] at whole
    have inside : slot < maxToks := by omega
    rw [List.map_cons, List.cons_append, searchUses, List.forall_mem_append, turn_within, List.map_cons]
    cases opens : fopen (inDir word dir) with
    | true => simp [tried_opens opens, inside, opens]
    | false =>
      have rest := @ih (slot + 1) (by omega)
      rw [tried_refused opens, List.forall_mem_cons]
      simp only [Bool.false_eq_true, if_false, rest, inside, true_and, List.exists_mem_cons_iff, opens,
        false_or, and_assoc]

/-- `resolve_path` stays in its arrays exactly when the search of a `PATH` that is set does. -/
theorem resolveUses_within_iff : (∀ use ∈ resolveUses env table word, use.Within) ↔
    ∀ path ∈ env.path, SearchStays (table.fopen env) (CString.read path) word := by
  rw [resolveUses]
  cases env.path with
  | none => simp
  | some path =>
    have most : ((tokens isSeparator (CString.read path)).take maxToks).length ≤ maxToks :=
      List.length_take_le _ _
    simp only [Option.mem_def, Option.some.injEq, forall_eq', List.forall_mem_cons, within_start]
    rw [getToks, searchUses_within_iff _ (by omega), map_take_dirs, free_slot_iff]
    exact ⟨fun parts => ⟨parts.1, parts.2.1, parts.2.2⟩, fun stays => ⟨stays.fits, stays.files, stays.ends⟩⟩

/-! ## When the arrays are enough -/

/-- `create_process` stays in its arrays exactly when the line has two bytes at least and fits, and
the search for its first word stays in them. -/
theorem createProcessUses_within_iff : StaysWithin env table inputString ↔
    2 ≤ (CString.read inputString).length ∧ (CString.read inputString).length < bufferSize ∧
      ∀ word ∈ (tokens isSeparator (wordsPart env.below inputString)).head?,
        ∀ use ∈ resolveUses env (passed env table inputString) word, use.Within := by
  have words : (wordsPart env.below inputString).length = (CString.read inputString).length :=
    length_cutLine env.below
  have resolves : (∀ use ∈ (match (tokens isSeparator (wordsPart env.below inputString)).head? with
      | none => []
      | some word => resolveUses env (passed env table inputString) word), use.Within) ↔
      ∀ word ∈ (tokens isSeparator (wordsPart env.below inputString)).head?,
        ∀ use ∈ resolveUses env (passed env table inputString) word, use.Within := by
    cases (tokens isSeparator (wordsPart env.below inputString)).head? <;> simp
  have last : (⟨.localS, (CString.read inputString).length - 2,
      (CString.read inputString).length - 2⟩ : Use).Within ↔
      2 ≤ (CString.read inputString).length ∧
        (CString.read inputString).length < bufferSize + 2 := by
    unfold Use.Within Buffer.size
    simp only
    omega
  rw [StaysWithin, createProcessUses]
  simp only [List.forall_mem_append, List.forall_mem_cons, within_start, last, words, resolves]
  constructor
  · rintro ⟨⟨⟨⟨⟨fits, two, _⟩, _⟩, _⟩, _⟩, _, resolved⟩
    exact ⟨two.1, fits, resolved⟩
  · rintro ⟨two, fits, resolved⟩
    have error := @passUses_within (takeAmpersand env.below (CString.read inputString)).2 .error
      (by rwa [length_takeAmpersand])
    have output := @passUses_within (cutLine env.below inputString .error).2 .output
      (by rwa [length_cutLine])
    have input := @passUses_within (cutLine env.below inputString .output).2 .input
      (by rwa [length_cutLine])
    exact ⟨⟨⟨⟨⟨fits, ⟨two, by omega⟩, by simp⟩, error⟩, output⟩, input⟩, fits, resolved⟩

/-- `create_process` stays in its arrays if and only if the line has two bytes at least and fits,
and, when there is a word to resolve and `PATH` is set, `PATH` and the names composed up to the first
file that can be opened fit, and such a file or a null pointer ends the search in the array of
directories. -/
theorem staysWithin_iff : StaysWithin env table inputString ↔
    2 ≤ (CString.read inputString).length ∧ (CString.read inputString).length < bufferSize ∧
      ∀ word ∈ (tokens isSeparator (wordsPart env.below inputString)).head?, ∀ path ∈ env.path,
        SearchStays ((passed env table inputString).fopen env) (CString.read path) word := by
  rw [createProcessUses_within_iff]
  apply and_congr_right
  intro _
  apply and_congr_right
  intro _
  apply forall₂_congr
  intro word _
  exact resolveUses_within_iff

/-- The byte before the last one of an empty line is looked for in front of its array. -/
theorem emptyLine_leaves : ¬ ∀ (ifile line rest : List UInt8) (env : Environment)
    (table : Descriptors), freadln ifile = (some line, rest) → StaysWithin env table line := by
  intro all
  have read : freadln (ascii "\n") = (some (ascii "\n"), []) := by decide
  have within := all _ _ _ binEnvironment standardDescriptors read ⟨.localS, -1, -1⟩ (by decide +kernel)
  exact absurd within (by decide)

end OsAssignments.Shell

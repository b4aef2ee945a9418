import Mathlib.Data.List.TakeWhile
import OsAssignments.HttpServer.Containment

/-!
# Links of a listing

A listing links each name with a slash before it, as if every directory were the served one, and a
request for the link is cut at the first space or line end. The working path it leads to is that of
the name for the served directory itself, and for names that are not cut.
-/

namespace OsAssignments.HttpServer

open PathWalk Text

/-- The bytes of a request for a path: a method, the path, and anything else of the line. -/
def requestFor (method path line tail : List UInt8) : List UInt8 :=
  method ++ 32 :: (path ++ line ++ 10 :: tail)

/-- A method and the part of a line behind the path, as a client may send them. -/
structure Sendable (method line : List UInt8) : Prop where
  /-- The method is in capital letters. -/
  capital : ∀ byte ∈ method, isCapital byte = true
  /-- It is not empty. -/
  named : method ≠ []
  /-- The rest of the line stays on the line. -/
  lineBytes : ∀ byte ∈ line, isLineByte byte = true
  /-- It is set off by a space. -/
  apart : line = [] ∨ ∃ rest, line = 32 :: rest

/-- What the parser leaves of a name. -/
def cutName (name : CString) : List UInt8 := name.bytes.takeWhile isPathByte

/-- A request for the link of a name leads the handler to a working path of the same place as the
name in the directory that is listed. -/
def LinksBack (cwd : List (List UInt8)) (serverFilesDirectory : CString)
    (dir : List UInt8) (name : CString) (method line tail : List UInt8) : Prop :=
  ∃ workingPath,
    buildWorkingPath serverFilesDirectory (requestFor method (linkPath name) line tail) =
      .ok (some workingPath) ∧
    resolve cwd workingPath = resolve cwd (dir ++ 47 :: name.bytes)

/-- The name has no space and no line end, its path fits the buffer behind the served directory,
and the directory listed is the served one, or the name is that of the parent and both directories
have the top for theirs. -/
def LinkFits (cwd : List (List UInt8)) (serverFilesDirectory : CString) (dir : List UInt8)
    (name : CString) : Prop :=
  (∀ byte ∈ name.bytes, byte ≠ 32 ∧ byte ≠ 10) ∧
    (serverFilesDirectory.bytes ++ linkPath name).length < pathBufferSize ∧
    (resolve cwd dir = served cwd serverFilesDirectory ∨
      (name.bytes = [46, 46] ∧ served cwd serverFilesDirectory = [] ∧
        (resolve cwd dir).length ≤ 1))

variable {fs : FileSystem} {cwd : List (List UInt8)} {serverFilesDirectory name : CString}
  {dir path front method line tail : List UInt8} {entries : List CString} {request : Request}

/-- A request for a path with anything in it is accepted for the part up to a space or line end. -/
theorem httpRequestParse_cut (capital : ∀ byte ∈ method, isCapital byte = true)
    (named : method ≠ []) (proper : 0 ∉ front) (asked : front.takeWhile isPathByte ≠ []) :
    httpRequestParse (method ++ 32 :: (front ++ 10 :: tail)) =
      .ok (some ⟨method, front.takeWhile isPathByte⟩) := by
  rcases cut_cases isPathByte front with ⟨all, whole⟩ | ⟨path, stop, rest, rfl, inside, ends, cut⟩
  · rw [whole] at asked ⊢
    have accepted := @httpRequestParse_line method front [] tail capital named all asked (by simp)
      (.inl rfl)
    rw [List.append_nil] at accepted
    exact accepted
  · rw [cut] at asked ⊢
    have properStop : stop ≠ 0 := fun zero => proper (by simp [zero])
    have properRest : 0 ∉ rest := fun zero => proper (by simp [zero])
    by_cases lineEnd : stop = 10
    · -- The path is cut at a line end, which ends the request line.
      have accepted := @httpRequestParse_line method path [] (rest ++ 10 :: tail) capital named
        inside asked (by simp) (.inl rfl)
      rw [List.append_nil] at accepted
      rw [lineEnd, List.append_assoc]
      exact accepted
    · have space : stop = 32 := by
        unfold isPathByte at ends
        simpa [properStop, lineEnd] using ends
      -- What follows the space is anything up to the next line end.
      rcases cut_cases isLineByte rest with ⟨all, _⟩ | ⟨line, stop', rest', rfl, inside', ends', _⟩
      · have accepted := @httpRequestParse_line method path (32 :: rest) tail capital named inside
          asked (List.forall_mem_cons.mpr ⟨by decide, all⟩) (.inr ⟨rest, rfl⟩)
        rw [space]
        exact accepted
      · have properStop' : stop' ≠ 0 := fun zero => properRest (by simp [zero])
        have lineEnd' : stop' = 10 := by
          unfold isLineByte at ends'
          simpa [properStop'] using ends'
        have accepted := @httpRequestParse_line method path (32 :: line) (rest' ++ 10 :: tail) capital
          named inside asked (List.forall_mem_cons.mpr ⟨by decide, inside'⟩) (.inr ⟨line, rfl⟩)
        rw [space, lineEnd']
        simpa using accepted

/-- The path that the parser leaves of a link does not depend on the rest of the line. -/
theorem takeWhile_link (sendable : Sendable method line) :
    (linkPath name ++ line).takeWhile isPathByte = 47 :: cutName name := by
  have slash : isPathByte 47 = true := by decide
  rw [linkPath, List.cons_append, List.takeWhile_cons_of_pos slash, cutName]
  apply congrArg (47 :: ·)
  rcases cut_cases isPathByte name.bytes with ⟨all, whole⟩ | ⟨path, stop, rest, same, inside, ends, cut⟩
  · rw [whole, List.takeWhile_append_of_pos all]
    rcases sendable.apart with rfl | ⟨rest, rfl⟩
    · simp
    · simp [isPathByte]
  · rw [cut, same, List.append_assoc]
    exact takeWhile_stop inside ends

/-- A request for a link is accepted for the link up to a space or line end of the name. -/
theorem httpRequestParse_link (sendable : Sendable method line) :
    httpRequestParse (requestFor method (linkPath name) line tail) =
      .ok (some ⟨method, 47 :: cutName name⟩) := by
  have proper : 0 ∉ linkPath name ++ line := by
    intro member
    rcases List.mem_append.mp member with inPath | inLine
    · rcases List.mem_cons.mp inPath with slash | inName
      · exact absurd slash (by decide)
      · exact name.proper inName
    · exact absurd (sendable.lineBytes 0 inLine) (by decide)
  have cut : (linkPath name ++ line).takeWhile isPathByte = 47 :: cutName name :=
    takeWhile_link sendable
  have accepted := @httpRequestParse_cut (linkPath name ++ line) method tail sendable.capital
    sendable.named proper (by rw [cut]; simp)
  rw [cut] at accepted
  exact accepted

/-- The working path of a request for a link. -/
theorem buildWorkingPath_link (sendable : Sendable method line) :
    buildWorkingPath serverFilesDirectory (requestFor method (linkPath name) line tail) =
      if (serverFilesDirectory.bytes ++ 47 :: cutName name).length < pathBufferSize then
        .ok (some (serverFilesDirectory.bytes ++ 47 :: cutName name))
      else .error .overrun := by
  rw [buildWorkingPath, httpRequestParse_link sendable]
  rfl

/-- A name is left whole exactly when it has no space and no line end. -/
theorem cutName_eq_iff :
    cutName name = name.bytes ↔ ∀ byte ∈ name.bytes, byte ≠ 32 ∧ byte ≠ 10 := by
  rw [cutName, List.takeWhile_eq_self_iff]
  constructor
  · intro kept byte member
    have isKept := kept byte member
    unfold isPathByte at isKept
    simp only [Bool.and_eq_true, decide_eq_true_eq] at isKept
    exact ⟨isKept.1.2, isKept.2⟩
  · intro apart byte member
    have proper : byte ≠ 0 := fun zero => name.proper (zero ▸ member)
    simp [isPathByte, proper, apart byte member]

/-- A name behind a slash is one step from the place before it. -/
theorem resolve_name {entry : List UInt8} (noSlash : 47 ∉ entry) :
    resolve cwd (dir ++ 47 :: entry) =
      step staysName upName (resolve cwd (dir ++ [47])) entry := by
  rw [resolve_append, components, List.splitOn_eq_singleton noSlash]
  rfl

/-- A name that is cut is none of those made of dots. -/
theorem plain_of_cut (nonempty : name.bytes ≠ []) (parted : cutName name ≠ name.bytes) :
    staysName name.bytes = false ∧ upName name.bytes = false := by
  have cut : ∃ byte ∈ name.bytes, byte = 32 ∨ byte = 10 := by
    by_contra none
    apply parted
    apply cutName_eq_iff.mpr
    intro byte inside
    exact ⟨fun space => none ⟨byte, inside, .inl space⟩, fun lineEnd => none ⟨byte, inside, .inr lineEnd⟩⟩
  obtain ⟨byte, inside, ends⟩ := cut
  have dots : ∀ names : List UInt8, (∀ other ∈ names, other = 46) → name.bytes ≠ names := by
    intro names all equal
    have dot := all byte (equal ▸ inside)
    rw [dot] at ends
    revert ends
    decide
  constructor
  · simp [staysName, nonempty, dots [46] (by simp)]
  · simp [upName, dots [46, 46] (by simp)]

/-- A link leads back exactly when its working path fits in the buffer and what is left of the name
leads from the served directory to where the name leads from the directory listed. -/
theorem linksBack_step (cwd : List (List UInt8)) (serverFilesDirectory : CString)
    (sendable : Sendable method line) (tail : List UInt8) (noSlash : 47 ∉ name.bytes)
    (reached : dir ≠ []) :
    LinksBack cwd serverFilesDirectory dir name method line tail ↔
      (serverFilesDirectory.bytes ++ 47 :: cutName name).length < pathBufferSize ∧
        step staysName upName (served cwd serverFilesDirectory) (cutName name) =
          step staysName upName (resolve cwd dir) name.bytes := by
  have noSlash' : 47 ∉ cutName name := fun slash =>
    noSlash ((List.takeWhile_subset isPathByte) slash)
  unfold LinksBack
  rw [buildWorkingPath_link sendable, resolve_name noSlash, resolve_slash reached, served,
    ← resolve_name noSlash']
  by_cases fits : (serverFilesDirectory.bytes ++ 47 :: cutName name).length < pathBufferSize
  · simp only [fits, if_true, true_and, Except.ok.injEq, Option.some.injEq, exists_eq_left']
  · simp only [fits, if_false, false_and, reduceCtorEq, exists_const]

/-- In a directory that is reached under the served one, the link of a name leads back to the name
for exactly the names and directories for which the link fits. -/
theorem linksBack_iff (cwd : List (List UInt8)) (serverFilesDirectory : CString)
    (asked : path.head? = some 47)
    (below : served cwd serverFilesDirectory <+: resolve cwd (serverFilesDirectory.bytes ++ path))
    (listed : fs.opendir (serverFilesDirectory.bytes ++ path) = some entries)
    (member : name ∈ entries) (sendable : Sendable method line) (tail : List UInt8) :
    LinksBack cwd serverFilesDirectory (serverFilesDirectory.bytes ++ path) name method line tail ↔
      LinkFits cwd serverFilesDirectory (serverFilesDirectory.bytes ++ path) name := by
  obtain ⟨nonempty, noSlash⟩ := fs.proper _ entries listed name member
  have reached : serverFilesDirectory.bytes ++ path ≠ [] := by
    intro none
    rw [(List.append_eq_nil_iff.mp none).2] at asked
    contradiction
  rw [linksBack_step cwd serverFilesDirectory sendable tail noSlash reached]
  unfold LinkFits
  rw [← cutName_eq_iff]
  by_cases whole : cutName name = name.bytes
  · have parent : (staysName name.bytes = false ∧ upName name.bytes = true) ↔
        name.bytes = [46, 46] := by
      constructor
      · intro up
        exact of_decide_eq_true up.2
      · intro up
        rw [up]
        decide
    rw [whole, step_eq_iff below, ← parent, linkPath, and_assoc]
    exact ⟨fun links => ⟨rfl, links⟩, And.right⟩
  · obtain ⟨goes, down⟩ := plain_of_cut nonempty whole
    constructor
    · exact fun links => absurd links.2 (step_ne below goes down whole)
    · exact fun links => absurd links.1 whole

/-- The name "a". -/
def nameA : CString := ⟨ascii "a", by decide⟩

/-- The directory "www". -/
def wwwDirectory : CString := ⟨ascii "www", by decide⟩

/-- A file system in which the directories "www" and "www/sub" have a file "a" each. -/
def nestedFileSystem : FileSystem where
  stat := fun path => if path = ascii "www/" ∨ path = ascii "www/sub" then some .directory else none
  opendir := fun path =>
    if path = ascii "www/" ∨ path = ascii "www/sub" then some [nameA] else none
  fopen := fun _ => none
  distinct := by
    intro path entries opened
    split at opened
    · cases opened
      decide
    · contradiction
  proper := by
    intro path entries opened
    split at opened
    · cases opened
      decide
    · contradiction
  short := by
    intro path entries opened
    split at opened
    · cases opened
      decide
    · contradiction

/-- Requests with the method GET. -/
theorem sendable_get : Sendable (ascii "GET") (ascii " HTTP/1.0") :=
  ⟨List.all_eq_true.mp (by decide), by decide, List.all_eq_true.mp (by decide),
    .inr ⟨ascii "HTTP/1.0", by decide⟩⟩

/-- The link of a file in a directory below the served one leads to the served one instead. -/
theorem linksBack_nested : ¬ ∀ (cwd : List (List UInt8)) (serverFilesDirectory : CString)
    (path : List UInt8) (fs : FileSystem) (entries : List CString) (name : CString)
    (method line tail : List UInt8), path.head? = some 47 →
    served cwd serverFilesDirectory <+: resolve cwd (serverFilesDirectory.bytes ++ path) →
    fs.opendir (serverFilesDirectory.bytes ++ path) = some entries → name ∈ entries →
    Sendable method line →
    LinksBack cwd serverFilesDirectory (serverFilesDirectory.bytes ++ path) name method line tail := by
  intro claim
  obtain ⟨workingPath, built, same⟩ := claim [ascii "srv"] wwwDirectory (ascii "/sub")
    nestedFileSystem [nameA] nameA (ascii "GET") (ascii " HTTP/1.0") [] (by decide) (by decide)
    (by decide) (by decide) sendable_get
  have path : buildWorkingPath wwwDirectory (requestFor (ascii "GET") (linkPath nameA)
      (ascii " HTTP/1.0") []) = .ok (some (ascii "www/a")) := by decide
  rw [path] at built
  cases built
  revert same
  decide

/-- The link of a file in the served directory leads back to it. -/
theorem linksBack_served : LinksBack [ascii "srv"] wwwDirectory (wwwDirectory.bytes ++ ascii "/") nameA
    (ascii "GET") (ascii " HTTP/1.0") [] :=
  (linksBack_iff [ascii "srv"] wwwDirectory (by decide) (by decide)
    (show nestedFileSystem.opendir (wwwDirectory.bytes ++ ascii "/") = some [nameA] by decide)
    List.mem_cons_self sendable_get []).mpr
    ⟨by simp [nameA, ascii], by decide, .inl (by decide)⟩

end OsAssignments.HttpServer

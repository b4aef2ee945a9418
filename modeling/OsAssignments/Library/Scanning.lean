import Mathlib.Data.List.DropRight
import OsAssignments.Library.Text

/-!
# Searching, trimming and splitting text

Three things done to a text: finding the first place where a mark stands, taking away what it
begins and ends with, and cutting it into the words between separators. A mark is found where it
stands when no earlier place can be the start of one, and that is decided piece by piece.
-/

namespace Text

variable {α : Type}

/-! ## Searching -/

/-- The text before and after the first place where a mark stands. -/
def find [DecidableEq α] (mark : List α) : List α → Option (List α × List α)
  | [] => if mark = [] then some ([], []) else none
  | byte :: rest =>
    if mark <+: byte :: rest then some ([], (byte :: rest).drop mark.length)
    else (find mark rest).map fun parts => (byte :: parts.1, parts.2)

/-- No place in a text, read with what follows it, is the start of a mark. -/
def Absent (mark left rest : List α) : Prop :=
  ∀ tail, tail <:+ left → tail ≠ [] → ¬ mark <+: tail ++ rest

variable {mark left right rest text word : List α} {byte first second stop : α} {space sep : α → Bool}
  {words : List (List α)}

/-- A mark is found where it stands. -/
theorem find_here [DecidableEq α] (proper : mark ≠ []) : find mark (mark ++ rest) = some ([], rest) := by
  cases whole : mark ++ rest with
  | nil => exact absurd (List.append_eq_nil_iff.mp whole).1 proper
  | cons byte tail =>
    have stands : mark <+: byte :: tail := ⟨rest, whole⟩
    rw [find, if_pos stands, ← whole, List.drop_left]

/-- The text is what is found before and after the mark with the mark between. -/
theorem find_parts [DecidableEq α] {before behind : List α}
    (found : find mark text = some (before, behind)) : text = before ++ mark ++ behind := by
  induction text generalizing before with
  | nil =>
    rw [find] at found
    split at found
    · rename_i empty
      cases found
      rw [empty]
      rfl
    · cases found
  | cons byte text ih =>
    rw [find] at found
    split at found
    · rename_i stands
      cases found
      exact (List.prefix_iff_eq_append.mp stands).symm
    · obtain ⟨⟨front, back⟩, later, same⟩ := Option.map_eq_some_iff.mp found
      cases same
      rw [ih later]
      rfl

/-- The search goes on behind a text in which no mark starts. -/
theorem Absent.find [DecidableEq α] (absent : Absent mark left rest) :
    find mark (left ++ rest) = (find mark rest).map fun parts => (left ++ parts.1, parts.2) := by
  induction left with
  | nil => simp
  | cons byte left ih =>
    have notHere : ¬ mark <+: byte :: (left ++ rest) :=
      absent (byte :: left) List.suffix_rfl (List.cons_ne_nil byte left)
    have later : Absent mark left rest := fun tail ends =>
      absent tail (ends.trans (List.suffix_cons byte left))
    rw [List.cons_append, Text.find, if_neg notHere, ih later, Option.map_map]
    rfl

/-- No mark starts in an empty text. -/
theorem absent_nil : Absent mark [] rest := fun _ ends nonempty =>
  absurd (List.suffix_nil.mp ends) nonempty

/-- No mark starts in a text when none starts in its parts. -/
theorem Absent.append (front : Absent mark left (right ++ rest)) (back : Absent mark right rest) :
    Absent mark (left ++ right) rest := by
  intro tail ends nonempty
  obtain ⟨before, whole⟩ := ends
  rcases List.append_eq_append_iff.mp whole with ⟨within, rfl, rfl⟩ | ⟨within, rfl, tailIs⟩
  · by_cases empty : within = []
    · rw [empty, List.nil_append]
      rw [empty, List.nil_append] at nonempty
      exact back right List.suffix_rfl nonempty
    · rw [List.append_assoc]
      exact front within (List.suffix_append before within) empty
  · exact back tail ⟨within, tailIs.symm⟩ nonempty

/-- No mark starts in a text without its first byte. -/
theorem absent_of_first (without : first ∉ left) : Absent (first :: mark) left rest := by
  intro tail ends nonempty stands
  cases tail with
  | nil => exact nonempty rfl
  | cons byte tail =>
    rw [List.cons_append, List.cons_prefix_cons] at stands
    exact without (ends.subset (stands.1 ▸ List.mem_cons_self))

/-- No mark of two bytes starts in a text that the second one is not in and does not follow. -/
theorem absent_of_second (without : second ∉ left) (apart : rest.head? ≠ some second) :
    Absent [first, second] left rest := by
  intro tail ends nonempty stands
  cases tail with
  | nil => exact nonempty rfl
  | cons byte tail =>
    rw [List.cons_append, List.cons_prefix_cons] at stands
    obtain ⟨more, whole⟩ := stands.2
    cases tail with
    | nil =>
      apply apart
      rw [← List.nil_append rest, ← whole]
      rfl
    | cons other tail =>
      have same : second = other := (List.cons_eq_cons.mp whole).1
      exact without (ends.subset (same ▸ List.mem_cons_of_mem byte List.mem_cons_self))

/-! ## Trimming -/

/-- A text without the spaces it begins and ends with. -/
def trim (space : α → Bool) (text : List α) : List α := (text.dropWhile space).rdropWhile space

/-- Trimming adds nothing. -/
theorem trim_subset : trim space text ⊆ text := fun _ member =>
  (List.dropWhile_sublist space).subset ((List.rdropWhile_prefix space _).subset member)

/-- A word is what trimming leaves of it and the spaces around it. -/
theorem trim_word (before : ∀ byte ∈ left, space byte = true) (nonempty : word ≠ [])
    (inside : ∀ byte ∈ word, space byte = false) (behind : ∀ byte ∈ right, space byte = true) :
    trim space (left ++ word ++ right) = word := by
  have front : (left ++ word ++ right).dropWhile space = word ++ right := by
    cases word with
    | nil => exact absurd rfl nonempty
    | cons byte word =>
      rw [List.append_assoc, List.dropWhile_append_of_pos before, List.cons_append,
        List.dropWhile_cons_of_neg (by simp [inside byte])]
  rw [trim, front, List.rdropWhile, List.reverse_append,
    List.dropWhile_append_of_pos fun byte member => behind byte (List.mem_reverse.mp member)]
  cases ends : word.reverse with
  | nil => exact absurd (List.reverse_eq_nil_iff.mp ends) nonempty
  | cons byte front =>
    have member : byte ∈ word := List.mem_reverse.mp (ends ▸ List.mem_cons_self)
    rw [List.dropWhile_cons_of_neg (by simp [inside byte member]), ← ends, List.reverse_reverse]

/-! ## Splitting -/

/-- The words of a text: its longest parts without a separator that are not empty. -/
def tokens (sep : α → Bool) (text : List α) : List (List α) :=
  (text.splitOnP sep).filter (· ≠ [])

/-- A separator in front adds no word. -/
theorem tokens_separator (separates : sep byte = true) : tokens sep (byte :: text) = tokens sep text := by
  have split := List.splitOnP_append_cons [] text separates
  rw [List.nil_append] at split
  rw [tokens, split, List.splitOnP_nil, List.filter_append]
  rfl

/-- A text of separators has no words. -/
theorem tokens_separators (all : ∀ byte ∈ text, sep byte = true) : tokens sep text = [] := by
  induction text with
  | nil => simp [tokens]
  | cons byte text ih =>
    rw [tokens_separator (all byte List.mem_cons_self)]
    exact ih fun other member => all other (List.mem_cons_of_mem byte member)

/-- A text is split at a word that a separator follows. -/
theorem tokens_word (nonempty : word ≠ []) (inside : ∀ byte ∈ word, sep byte = false)
    (separates : sep stop = true) : tokens sep (word ++ stop :: rest) = word :: tokens sep rest := by
  rw [tokens, List.splitOnP_append_cons_of_forall_mem inside stop separates,
    List.filter_cons_of_pos (by simpa using nonempty)]
  rfl

/-- The words of words set off by a separator each, before more text that a separator begins. -/
theorem tokens_words (nonempty : ∀ word ∈ words, word ≠ [])
    (inside : ∀ word ∈ words, ∀ byte ∈ word, sep byte = false) (separates : sep byte = true)
    (ends : sep stop = true) :
    tokens sep (words.flatMap (byte :: ·) ++ stop :: rest) = words ++ tokens sep rest := by
  induction words with
  | nil => simp [tokens_separator ends]
  | cons word words ih =>
    have tail := ih (fun other member => nonempty other (List.mem_cons_of_mem word member))
      (fun other member => inside other (List.mem_cons_of_mem word member))
    have wordNonempty := nonempty word List.mem_cons_self
    have wordInside := inside word List.mem_cons_self
    rw [List.flatMap_cons, List.cons_append, List.cons_append, tokens_separator separates,
      List.append_assoc]
    cases words with
    | nil => simp [tokens_word wordNonempty wordInside ends]
    | cons other words =>
      rw [List.flatMap_cons, List.cons_append, List.cons_append,
        tokens_word wordNonempty wordInside separates, List.cons_append]
      rw [List.flatMap_cons, List.cons_append, List.cons_append, tokens_separator separates] at tail
      rw [tail]

end Text

import Mathlib.Data.List.Basic
import Mathlib.Data.List.TakeWhile

/-!
# Reading a text piece by piece

A reader that takes a text apart from its front, each piece up to a byte where it stops or up to a
limit, whichever comes first. The pieces of a text are told by what they look like: a list of pieces
is the one that is read exactly when each of them could be, and all but the last could not be longer.
-/

namespace Text

variable {α : Type} (stop : α → Bool) (limit : Nat)

/-- The first piece of a text. -/
def piece (text : List α) : List α :=
  let room := text.take limit
  room.take ((room.takeWhile fun byte => !stop byte).length + 1)

/-- What may be read in one piece: some bytes within the limit, with no stop before the last. -/
structure IsPiece (text : List α) : Prop where
  /-- There are some bytes. -/
  nonempty : text ≠ []
  /-- They are within the limit. -/
  short : text.length ≤ limit
  /-- Only the last one may be a stop. -/
  inner : ∀ byte ∈ text.dropLast, stop byte = false

/-- A piece that cannot be longer: it ends with a stop or at the limit. -/
def Full (text : List α) : Prop := text.length = limit ∨ ∃ byte ∈ text.getLast?, stop byte = true

/-- The pieces that a text is read in. -/
def ArePieces : List (List α) → Prop
  | [] => True
  | piece :: rest => IsPiece stop limit piece ∧ (rest = [] ∨ Full stop limit piece) ∧ ArePieces rest

variable {stop limit} {text rest : List α} {byte : α} {pieces : List (List α)}

/-- A text without a stop is a piece as far as the limit. -/
theorem piece_open (calm : ∀ byte ∈ text, stop byte = false) : piece stop limit text = text.take limit := by
  have whole : (text.take limit).takeWhile (fun byte => !stop byte) = text.take limit := by
    rw [List.takeWhile_eq_self_iff]
    intro byte member
    rw [calm byte (List.mem_of_mem_take member)]
    rfl
  rw [piece, whole, List.take_of_length_le (Nat.le_succ _)]

/-- A piece ends with the first stop within the limit. -/
theorem piece_stop (calm : ∀ byte ∈ text, stop byte = false) (stops : stop byte = true)
    (short : text.length < limit) : piece stop limit (text ++ byte :: rest) = text ++ [byte] := by
  obtain ⟨room, enough⟩ : ∃ room, limit - text.length = room + 1 :=
    ⟨limit - text.length - 1, by omega⟩
  have front : (text ++ byte :: rest).take limit = text ++ byte :: rest.take room := by
    rw [List.take_append, List.take_of_length_le (Nat.le_of_lt short), enough, List.take_succ_cons]
  have before : (text ++ byte :: rest.take room).takeWhile (fun byte => !stop byte) = text := by
    rw [List.takeWhile_append_of_pos fun byte member => by rw [calm byte member]; rfl,
      List.takeWhile_cons_of_neg (by simp [stops]), List.append_nil]
  rw [piece, front, before, List.take_append, List.take_of_length_le (Nat.le_succ _),
    Nat.add_sub_cancel_left]
  rfl

/-- A piece that is full, or behind which the text ends, is read as it stands. -/
theorem IsPiece.read (isPiece : IsPiece stop limit text) (ends : rest = [] ∨ Full stop limit text) :
    piece stop limit (text ++ rest) = text := by
  obtain ⟨nonempty, short, inner⟩ := isPiece
  obtain ⟨front, last, rfl⟩ := (List.eq_nil_or_concat' text).resolve_left nonempty
  rw [List.dropLast_concat] at inner
  rw [List.length_append, List.length_singleton] at short
  cases stops : stop last with
  | true =>
    rw [List.append_assoc, List.singleton_append]
    exact piece_stop inner stops short
  | false =>
    have calm : ∀ byte ∈ front ++ [last], stop byte = false := by
      intro byte member
      rcases List.mem_append.mp member with early | late
      · exact inner byte early
      · rw [List.mem_singleton.mp late, stops]
    rcases ends with rfl | full | ⟨byte, isLast, isStop⟩
    · rw [List.append_nil, piece_open calm, List.take_of_length_le (by simpa using short)]
    · -- The limit is reached, and the bytes behind it are not looked at.
      have room : (front ++ [last] ++ rest).take limit = front ++ [last] := by
        rw [List.take_append, ← full, List.take_length, Nat.sub_self, List.take_zero,
          List.append_nil]
      have whole := @piece_open _ stop limit _ calm
      rw [piece, room]
      rw [piece, List.take_of_length_le (Nat.le_of_eq full)] at whole
      exact whole
    · rw [List.getLast?_concat, Option.mem_some_iff] at isLast
      rw [← isLast, stops] at isStop
      contradiction

/-- Two lists of pieces of one text are the same: each piece is the one that is read next. -/
theorem ArePieces.eq {others : List (List α)} (arePieces : ArePieces stop limit pieces)
    (areOthers : ArePieces stop limit others) (same : pieces.flatten = others.flatten) :
    pieces = others := by
  have first : ∀ {front : List α} {rest : List (List α)}, ArePieces stop limit (front :: rest) →
      piece stop limit (front :: rest).flatten = front := by
    rintro front rest ⟨isPiece, ends, _⟩
    rw [List.flatten_cons]
    refine isPiece.read (ends.imp_left ?_)
    rintro rfl
    rfl
  induction pieces generalizing others with
  | nil =>
    cases others with
    | nil => rfl
    | cons other others =>
      rw [List.flatten_nil, List.flatten_cons] at same
      exact absurd (List.append_eq_nil_iff.mp same.symm).1 areOthers.1.nonempty
  | cons front rest ih =>
    cases others with
    | nil =>
      rw [List.flatten_nil, List.flatten_cons] at same
      exact absurd (List.append_eq_nil_iff.mp same).1 arePieces.1.nonempty
    | cons other others =>
      have here : front = other := by
        rw [← first arePieces, same, first areOthers]
      rw [here, List.flatten_cons, List.flatten_cons, List.append_cancel_left_eq] at same
      rw [here, ih arePieces.2.2 areOthers.2.2 same]

/-- A text that is not empty begins with a piece, which is full unless it is the whole text. -/
theorem exists_piece (positive : 0 < limit) (nonempty : text ≠ []) :
    ∃ front rest, text = front ++ rest ∧ IsPiece stop limit front ∧
      (rest = [] ∨ Full stop limit front) := by
  induction text generalizing limit with
  | nil => contradiction
  | cons byte text ih =>
    have alone : IsPiece stop limit [byte] := ⟨List.cons_ne_nil _ _, positive, by simp⟩
    by_cases stops : stop byte = true
    · exact ⟨[byte], text, rfl, alone, .inr (.inr ⟨byte, rfl, stops⟩)⟩
    by_cases single : limit = 1
    · exact ⟨[byte], text, rfl, alone, .inr (.inl single.symm)⟩
    by_cases none : text = []
    · exact ⟨[byte], [], by rw [none]; rfl, alone, .inl rfl⟩
    obtain ⟨front, rest, rfl, ⟨some, short, inner⟩, ends⟩ :=
      @ih (limit - 1) (by omega) none
    obtain ⟨first, others, rfl⟩ := List.exists_cons_of_ne_nil some
    refine ⟨byte :: first :: others, rest, rfl, ⟨List.cons_ne_nil _ _, ?_, ?_⟩, ends.imp_right ?_⟩
    · rw [List.length_cons]
      omega
    · intro other member
      rw [List.dropLast_cons_cons] at member
      rcases List.mem_cons.mp member with rfl | later
      · exact Bool.eq_false_iff.mpr stops
      · exact inner other later
    · rintro (full | ⟨last, isLast, isStop⟩)
      · left
        rw [List.length_cons]
        omega
      · exact .inr ⟨last, by rw [List.getLast?_cons_cons]; exact isLast, isStop⟩

end Text

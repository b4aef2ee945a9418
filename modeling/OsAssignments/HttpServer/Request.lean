import Mathlib.Data.List.Basic

/-!
# Requests

`http_request_parse` of libhttp, over the bytes that one `read` has put in its buffer and the zero
byte behind them. Scanning is bounded by the buffer: a scan that would leave it is a fault. A
request is a line of a method in capital letters, a space, a path up to the next space or line
end, and anything else up to a line end.
-/

namespace OsAssignments.HttpServer

/-- The ways the server does what C leaves undefined. -/
inductive Fault
  /-- A null pointer is followed. -/
  | nullPointer
  /-- A variable is used that nothing was stored in. -/
  | uninitialised
  /-- An array is overrun. -/
  | overrun
  deriving DecidableEq, Repr

/-- `LIBHTTP_REQUEST_MAX_SIZE`. -/
def requestMaxSize : Nat := 8192

/-- `struct http_request`. -/
structure Request where
  /-- `method`. -/
  method : List UInt8
  /-- `path`. -/
  path : List UInt8
  deriving DecidableEq, Repr

/-- Advance `read_end` over bytes to be kept: those bytes and the rest of the buffer, unless the
buffer ends first. -/
def advance (keep : UInt8 → Bool) : List UInt8 → Option (List UInt8 × List UInt8)
  | [] => none
  | byte :: rest =>
    if keep byte then (advance keep rest).map fun scanned => (byte :: scanned.1, scanned.2)
    else some ([], byte :: rest)

/-- `[A-Z]`. -/
def isCapital (byte : UInt8) : Bool := 65 ≤ byte && byte ≤ 90

/-- `[^ \n]`, up to the end of the string. -/
def isPathByte (byte : UInt8) : Bool := byte ≠ 0 && byte ≠ 32 && byte ≠ 10

/-- `.`, up to the end of the string. -/
def isLineByte (byte : UInt8) : Bool := byte ≠ 0 && byte ≠ 10

/-- `http_request_parse` of the bytes read: the request, or null. -/
def httpRequestParse (bytes : List UInt8) : Except Fault (Option Request) :=
  match advance isCapital (bytes ++ [0]) with
  | some (method, byte :: rest) =>
    if method.length = 0 then .ok none
    else if byte ≠ 32 then .ok none
    else
      match advance isPathByte rest with
      | some (path, rest) =>
        if path.length = 0 then .ok none
        else
          match advance isLineByte rest with
          | some (_, byte :: _) => if byte ≠ 10 then .ok none else .ok (some ⟨method, path⟩)
          | _ => .error .overrun
      | none => .error .overrun
  | _ => .error .overrun

variable {keep : UInt8 → Bool} {left rest method path line tail : List UInt8} {byte stop : UInt8}

/-- A scan stops at the first byte that is not kept. -/
theorem advance_stop (kept : ∀ byte ∈ left, keep byte = true) (ends : keep stop = false) :
    advance keep (left ++ stop :: rest) = some (left, stop :: rest) := by
  induction left with
  | nil => simp [advance, ends]
  | cons byte left ih =>
    have tail := ih fun other member => kept other (List.mem_cons_of_mem byte member)
    simp [advance, kept byte List.mem_cons_self, tail]

/-- A line with a method, a path and anything behind a space is accepted. -/
theorem httpRequestParse_line (capital : ∀ byte ∈ method, isCapital byte = true)
    (named : method ≠ []) (pathBytes : ∀ byte ∈ path, isPathByte byte = true) (asked : path ≠ [])
    (lineBytes : ∀ byte ∈ line, isLineByte byte = true)
    (apart : line = [] ∨ ∃ rest, line = 32 :: rest) :
    httpRequestParse (method ++ 32 :: (path ++ line ++ 10 :: tail)) = .ok (some ⟨method, path⟩) := by
  have methodScan : advance isCapital (method ++ 32 :: (path ++ line ++ 10 :: tail) ++ [0]) =
      some (method, 32 :: (path ++ line ++ 10 :: (tail ++ [0]))) := by
    have scanned := @advance_stop _ method (path ++ line ++ 10 :: (tail ++ [0])) 32 capital (by decide)
    simpa using scanned
  have pathScan : advance isPathByte (path ++ line ++ 10 :: (tail ++ [0])) =
      some (path, line ++ 10 :: (tail ++ [0])) := by
    rcases apart with rfl | ⟨rest, rfl⟩
    · have scanned := @advance_stop _ path (tail ++ [0]) 10 pathBytes (by decide)
      simpa using scanned
    · have scanned := @advance_stop _ path (rest ++ 10 :: (tail ++ [0])) 32 pathBytes (by decide)
      simpa using scanned
  have lineScan : advance isLineByte (line ++ 10 :: (tail ++ [0])) =
      some (line, 10 :: (tail ++ [0])) := advance_stop lineBytes (by decide)
  unfold httpRequestParse
  rw [methodScan]
  simp only
  rw [pathScan]
  simp [lineScan, named, asked]

end OsAssignments.HttpServer

import Mathlib.Logic.Function.Basic
import OsAssignments.Library.ByteMemory
import OsAssignments.Library.Transition
import OsAssignments.HttpServer.Request

/-!
# The proxy relay

The loop of `handle_proxy_request`, one system call at a time: `select` picks a socket to read,
with the client before the remote, and `proxy_request` reads a chunk into a new buffer and writes it
to the other socket once. What was read from each socket and written to it is kept beside the
state of the code. A short write is not repeated, so the streams stay intact for exactly the runs
in which no socket is read again after one.
-/

namespace OsAssignments.HttpServer

open ByteMemory Transition

/-- The two sockets of a relay. -/
inductive Side
  /-- `fd`, the socket of the client. -/
  | client
  /-- `*socket_number_proxy`, the socket of the proxy target. -/
  | remote
  deriving DecidableEq, Repr

/-- The socket that the bytes of a socket are sent to. -/
def Side.other : Side → Side
  | .client => .remote
  | .remote => .client

/-- Where the code is. -/
inductive Phase
  /-- At `select`. -/
  | select
  /-- In `proxy_request` for a socket, at `malloc`. -/
  | allocate (source : Side)
  /-- At `read`, with the bytes from `read_buffer` on. -/
  | read (source : Side) (buffer : ByteMemory)
  /-- At `write`, with `bytes_read` and the bytes from `read_buffer` on. -/
  | write (source : Side) (bytesRead : Int) (buffer : ByteMemory)
  /-- Behind the loop, at `close` of a socket. -/
  | close (socket : Side)
  /-- The process has exited. -/
  | exited

/-- The state of a relay. -/
structure Relay where
  /-- Where the code is. -/
  phase : Phase
  /-- The variable `bytes_sent` of the loop. -/
  bytesSent : Int
  /-- The bytes read from each socket so far. -/
  readFrom : Side → List UInt8
  /-- The bytes written to each socket so far. -/
  writtenTo : Side → List UInt8
  /-- Whether a write of bytes of a socket has been short. -/
  short : Side → Bool

/-- What a system call replies. -/
inductive Reply
  /-- `select`: −1, or whether the client and the remote are ready, which neither is in time out. -/
  | select (ready : Option (Bool × Bool))
  /-- `malloc`: null, or what memory holds from the new buffer on. -/
  | malloc (buffer : Option ByteMemory)
  /-- `read`: −1, or the bytes read, which are none at the end of the file. -/
  | read (bytes : Option (List UInt8))
  /-- `write`: −1, or the number of bytes written. -/
  | write (count : Option Nat)
  /-- `close`: whether it succeeds. -/
  | close (succeeds : Bool)

/-- A relay whose sockets have just been connected. -/
def Relay.connected : Relay where
  phase := .select
  bytesSent := 0
  readFrom := fun _ => []
  writtenTo := fun _ => []
  short := fun _ => false

/-- The end of a round of the loop, which is left when `bytes_sent` is negative. -/
def Relay.endRound (relay : Relay) : Relay :=
  { relay with phase := if relay.bytesSent < 0 then .close .client else .select }

/-- A chunk is read into the buffer. -/
def Relay.take (relay : Relay) (source : Side) (buffer : ByteMemory) (bytes : List UInt8) : Relay :=
  { relay with
    phase := .write source bytes.length (buffer.store 0 bytes)
    readFrom := Function.update relay.readFrom source (relay.readFrom source ++ bytes) }

/-- Bytes of the buffer are written. -/
def Relay.send (relay : Relay) (source : Side) (bytesRead : Int) (buffer : ByteMemory)
    (count : Nat) : Relay :=
  { relay with
    bytesSent := Int.bmod count (2 ^ 32)
    writtenTo := Function.update relay.writtenTo source.other
      (relay.writtenTo source.other ++ buffer.load 0 count)
    short := Function.update relay.short source
      (relay.short source || decide ((count : Int) < bytesRead)) }

/-- The relay after the call it is at, when the reply is one that the call can give. After a read
that failed, `write` is asked for as many bytes as a `size_t` can count. -/
def Relay.next (relay : Relay) (reply : Reply) : Option Relay :=
  match relay.phase, reply with
  | .select, .select none => some relay.endRound
  | .select, .select (some (clientReady, remoteReady)) =>
    if clientReady then some { relay with phase := .allocate .client }
    else if remoteReady then some { relay with phase := .allocate .remote }
    else some relay.endRound
  | .allocate _, .malloc none => some { relay with phase := .exited }
  | .allocate source, .malloc (some buffer) => some { relay with phase := .read source buffer }
  | .read source buffer, .read none => some { relay with phase := .write source (-1) buffer }
  | .read source buffer, .read (some bytes) =>
    if bytes.length ≤ requestMaxSize then some (relay.take source buffer bytes) else none
  | .write _ _ _, .write none => some ({ relay with bytesSent := -1 } : Relay).endRound
  | .write source bytesRead buffer, .write (some count) =>
    if (count : Int) ≤ bytesRead % 2 ^ 64 then
      some (relay.send source bytesRead buffer count).endRound
    else none
  | .close .client, .close true => some { relay with phase := .close .remote }
  | .close _, .close _ => some { relay with phase := .exited }
  | _, _ => none

/-- A call of the relay with its reply. -/
def Relay.Step (relay : Relay) (reply : Reply) (after : Relay) : Prop := relay.next reply = some after

/-- What a call does to the relay, one constructor for each of its outcomes. -/
inductive Relay.Call (relay : Relay) : Reply → Relay → Prop
  /-- `select` fails or times out. -/
  | idle (ready : Option (Bool × Bool)) (phase : relay.phase = .select) :
    Call relay (.select ready) relay.endRound
  /-- A socket is picked. -/
  | picks (ready : Option (Bool × Bool)) (source : Side) (phase : relay.phase = .select) :
    Call relay (.select ready) { relay with phase := .allocate source }
  /-- No memory is left, and the process exits. -/
  | exhausted (source : Side) (phase : relay.phase = .allocate source) :
    Call relay (.malloc none) { relay with phase := .exited }
  /-- A buffer is allocated. -/
  | allocates (source : Side) (buffer : ByteMemory) (phase : relay.phase = .allocate source) :
    Call relay (.malloc (some buffer)) { relay with phase := .read source buffer }
  /-- The read fails. -/
  | readFails (source : Side) (buffer : ByteMemory) (phase : relay.phase = .read source buffer) :
    Call relay (.read none) { relay with phase := .write source (-1) buffer }
  /-- A chunk is read. -/
  | reads (source : Side) (buffer : ByteMemory) (bytes : List UInt8)
      (phase : relay.phase = .read source buffer) (fits : bytes.length ≤ requestMaxSize) :
    Call relay (.read (some bytes)) (relay.take source buffer bytes)
  /-- The write fails. -/
  | writeFails (source : Side) (bytesRead : Int) (buffer : ByteMemory)
      (phase : relay.phase = .write source bytesRead buffer) :
    Call relay (.write none) ({ relay with bytesSent := -1 } : Relay).endRound
  /-- Some bytes are written. -/
  | writes (source : Side) (bytesRead : Int) (buffer : ByteMemory) (count : Nat)
      (phase : relay.phase = .write source bytesRead buffer)
      (asked : (count : Int) ≤ bytesRead % 2 ^ 64) :
    Call relay (.write (some count)) (relay.send source bytesRead buffer count).endRound
  /-- The socket of the client is closed. -/
  | closes (phase : relay.phase = .close .client) :
    Call relay (.close true) { relay with phase := .close .remote }
  /-- The second socket is closed, or the first one could not be, and the process exits. -/
  | exits (socket : Side) (succeeds : Bool) (phase : relay.phase = .close socket)
      (last : socket = .remote ∨ succeeds = false) :
    Call relay (.close succeeds) { relay with phase := .exited }

/-- Both streams are preserved so far. -/
structure Faithful (relay : Relay) : Prop where
  /-- What was written to a socket is a prefix of what was read from the other. -/
  inOrder : ∀ source : Side, relay.writtenTo source.other <+: relay.readFrom source
  /-- Before the next chunk is read from a socket, all chunks read from it have been forwarded. -/
  complete : ∀ source buffer, relay.phase = .read source buffer →
    relay.writtenTo source.other = relay.readFrom source

/-- No chunk is read from a socket after a short write of its bytes, and a write after a read that
failed writes nothing. -/
def Unbroken (relay : Relay) (reply : Reply) (_ : Relay) : Prop :=
  match relay.phase, reply with
  | .allocate source, .malloc (some _) => relay.short source = false
  | .write _ bytesRead _, .write (some count) => 0 ≤ bytesRead ∨ count = 0
  | _, _ => True

/-- What is known of the bytes of a socket between two rounds: all of them have been written, or
the last write of them was short. -/
def Settled (relay : Relay) (source : Side) : Prop :=
  if relay.short source then
    relay.writtenTo source.other <+: relay.readFrom source ∧
      relay.writtenTo source.other ≠ relay.readFrom source
  else relay.writtenTo source.other = relay.readFrom source

/-- What is known of the bytes of a socket while a chunk of it waits to be written. -/
structure Waiting (relay : Relay) (source : Side) (bytesRead : Int) (buffer : ByteMemory) : Prop where
  /-- The earlier chunks have been written. -/
  intact : relay.short source = false
  /-- The read failed, or its chunk is in the buffer. -/
  chunk : (bytesRead = -1 ∧ relay.writtenTo source.other = relay.readFrom source) ∨
    ∃ bytes, bytesRead = bytes.length ∧ buffer.load 0 bytes.length = bytes ∧
      relay.readFrom source = relay.writtenTo source.other ++ bytes

/-- The invariant of the relay. -/
def Relay.Balanced (relay : Relay) : Prop :=
  match relay.phase with
  | .select | .allocate _ => ∀ side, Settled relay side
  | .read source _ => relay.short source = false ∧ ∀ side, Settled relay side
  | .write source bytesRead buffer =>
    Waiting relay source bytesRead buffer ∧ Settled relay source.other
  | .close _ | .exited => ∀ side : Side, relay.writtenTo side.other <+: relay.readFrom side

variable {relay after : Relay} {source side : Side} {reply : Reply} {buffer : ByteMemory}
  {bytesRead : Int} {bytes : List UInt8} {count : Nat} {run : List (Reply × Relay)}

/-! ## The invariant -/

@[simp]
theorem Side.other_other (side : Side) : side.other.other = side := by cases side <;> rfl

/-- A socket is not the other one. -/
theorem Side.other_ne (side : Side) : side.other ≠ side := by cases side <;> decide

/-- A socket is the source of a chunk or the other one. -/
theorem Side.eq_or_other (source side : Side) : side = source ∨ side = source.other := by
  cases source <;> cases side <;> decide

/-- Settled bytes are written in order. -/
theorem Settled.inOrder (settled : Settled relay side) :
    relay.writtenTo side.other <+: relay.readFrom side := by
  unfold Settled at settled
  split at settled
  · exact settled.1
  · exact settled ▸ List.prefix_rfl

/-- Settled bytes without a short write have all been written. -/
theorem Settled.complete (settled : Settled relay side) (intact : relay.short side = false) :
    relay.writtenTo side.other = relay.readFrom side := by
  rw [Settled, intact] at settled
  exact settled

/-- After a short write some bytes are missing. -/
theorem Settled.missing (settled : Settled relay side) (broken : relay.short side ≠ false) :
    relay.writtenTo side.other ≠ relay.readFrom side := by
  rw [Settled, Bool.eq_true_of_not_eq_false broken] at settled
  exact settled.2

/-- The bytes of a chunk that waits follow those written. -/
theorem Waiting.inOrder (waiting : Waiting relay source bytesRead buffer) :
    relay.writtenTo source.other <+: relay.readFrom source := by
  rcases waiting.chunk with ⟨_, equal⟩ | ⟨bytes, _, _, split⟩
  · exact equal ▸ List.prefix_rfl
  · exact split ▸ List.prefix_append _ _

/-- While a chunk waits, both streams are in order. -/
theorem Waiting.allInOrder (waiting : Waiting relay source bytesRead buffer)
    (settled : Settled relay source.other) (side : Side) :
    relay.writtenTo side.other <+: relay.readFrom side := by
  rcases source.eq_or_other side with rfl | rfl
  · exact waiting.inOrder
  · exact settled.inOrder

/-- In a balanced relay both streams are preserved. -/
theorem Relay.Balanced.faithful (balanced : relay.Balanced) : Faithful relay := by
  unfold Balanced at balanced
  constructor
  · intro side
    cases phase : relay.phase with
    | select | allocate _ =>
      rw [phase] at balanced
      exact (balanced side).inOrder
    | read source buffer =>
      rw [phase] at balanced
      exact (balanced.2 side).inOrder
    | write source bytesRead buffer =>
      rw [phase] at balanced
      exact balanced.1.allInOrder balanced.2 side
    | close _ | exited =>
      rw [phase] at balanced
      exact balanced side
  · intro source buffer reading
    rw [reading] at balanced
    exact (balanced.2 source).complete balanced.1

/-- A round that ends with settled bytes leaves a balanced relay. -/
theorem endRound_balanced (settled : ∀ side, Settled relay side) : relay.endRound.Balanced := by
  unfold Relay.endRound Relay.Balanced
  by_cases negative : relay.bytesSent < 0
  · simp only [if_pos negative]
    exact fun side => (settled side).inOrder
  · simp only [if_neg negative]
    exact settled

/-- A chunk just read waits to be written. -/
theorem take_balanced (settled : ∀ side, Settled relay side) (intact : relay.short source = false)
    (bytes : List UInt8) : (relay.take source buffer bytes).Balanced := by
  have equal := (settled source).complete intact
  refine ⟨⟨intact, .inr ⟨bytes, rfl, load_store buffer 0 bytes, ?_⟩⟩, ?_⟩
  · simp only [Relay.take, Function.update_self]
    rw [equal]
  · have kept := settled source.other
    unfold Settled Relay.take at *
    simp only [Function.update_of_ne source.other_ne]
    exact kept

/-- Writing as much of a chunk as was asked for, or less, settles its bytes. -/
theorem send_settled (waiting : Waiting relay source bytesRead buffer)
    (settled : Settled relay source.other) (asked : (count : Int) ≤ bytesRead % 2 ^ 64)
    (unbroken : 0 ≤ bytesRead ∨ count = 0) :
    ∀ side, Settled (relay.send source bytesRead buffer count) side := by
  obtain ⟨intact, chunk⟩ := waiting
  intro side
  rcases source.eq_or_other side with rfl | rfl
  · unfold Settled Relay.send
    simp only [Function.update_self, intact, Bool.false_or]
    rcases chunk with ⟨failed, equal⟩ | ⟨bytes, length, held, split⟩
    · obtain rfl : count = 0 := by omega
      have nothing : buffer.load 0 0 = [] := rfl
      rw [decide_eq_false (by omega), nothing, List.append_nil]
      exact equal
    · have within : count ≤ bytes.length := by omega
      have written : buffer.load 0 count = bytes.take count := by
        rw [← take_load within, held]
      rw [written, split, length]
      by_cases whole : count < bytes.length
      · rw [decide_eq_true (by omega)]
        refine ⟨List.prefix_append_right_inj _ |>.mpr (List.take_prefix _ _), fun same => ?_⟩
        have lengths := congrArg List.length (List.append_cancel_left same)
        rw [List.length_take] at lengths
        omega
      · rw [decide_eq_false (by omega), List.take_of_length_le (by omega)]
        rfl
  · unfold Settled Relay.send at *
    rw [Side.other_other] at settled ⊢
    simp only [Function.update_of_ne source.other_ne, Function.update_of_ne source.other_ne.symm]
    exact settled

/-- Writing anything after a read that failed writes bytes that were never read. -/
theorem send_broken (waiting : Waiting relay source bytesRead buffer)
    (broken : ¬ (0 ≤ bytesRead ∨ count = 0)) :
    ¬ Faithful (relay.send source bytesRead buffer count) := by
  intro faithful
  have inOrder := (faithful.inOrder source).length_le
  rcases waiting.chunk with ⟨_, equal⟩ | ⟨bytes, length, _, _⟩
  · simp only [Relay.send, Function.update_self, List.length_append, length_load, equal] at inOrder
    omega
  · omega

/-- A step of the relay is one of its calls. -/
theorem Relay.Step.call (taken : relay.Step reply after) : relay.Call reply after := by
  unfold Relay.Step Relay.next at taken
  cases phase : relay.phase with
  | select =>
    cases reply with
    | select ready =>
      simp only [phase] at taken
      cases ready with
      | none =>
        obtain rfl := Option.some.inj taken
        exact .idle none phase
      | some ready =>
        simp only at taken
        split at taken
        · obtain rfl := Option.some.inj taken
          exact .picks ready .client phase
        · split at taken
          · obtain rfl := Option.some.inj taken
            exact .picks ready .remote phase
          · obtain rfl := Option.some.inj taken
            exact .idle ready phase
    | _ => simp [phase] at taken
  | allocate source =>
    cases reply with
    | malloc allocated =>
      simp only [phase] at taken
      cases allocated with
      | none =>
        obtain rfl := Option.some.inj taken
        exact .exhausted source phase
      | some buffer =>
        obtain rfl := Option.some.inj taken
        exact .allocates source buffer phase
    | _ => simp [phase] at taken
  | read source buffer =>
    cases reply with
    | read chunk =>
      simp only [phase] at taken
      cases chunk with
      | none =>
        obtain rfl := Option.some.inj taken
        exact .readFails source buffer phase
      | some bytes =>
        obtain ⟨fits, read⟩ := Option.ite_none_right_eq_some.mp taken
        obtain rfl := Option.some.inj read
        exact .reads source buffer bytes phase fits
    | _ => simp [phase] at taken
  | write source bytesRead buffer =>
    cases reply with
    | write written =>
      simp only [phase] at taken
      cases written with
      | none =>
        obtain rfl := Option.some.inj taken
        exact .writeFails source bytesRead buffer phase
      | some count =>
        obtain ⟨asked, sent⟩ := Option.ite_none_right_eq_some.mp taken
        obtain rfl := Option.some.inj sent
        exact .writes source bytesRead buffer count phase asked
    | _ => simp [phase] at taken
  | close socket =>
    cases reply with
    | close succeeds =>
      cases socket with
      | client =>
        cases succeeds with
        | true =>
          simp only [phase, Option.some.injEq] at taken
          subst taken
          exact .closes phase
        | false =>
          simp only [phase, Option.some.injEq] at taken
          subst taken
          exact .exits .client false phase (.inr rfl)
      | remote =>
        simp only [phase, Option.some.injEq] at taken
        subst taken
        exact .exits .remote succeeds phase (.inl rfl)
    | _ => cases socket <;> simp [phase] at taken
  | exited => cases reply <;> simp [phase] at taken

/-- A relay stays balanced by a reply that breaks nothing. -/
theorem Relay.Balanced.next (balanced : relay.Balanced) (taken : relay.Step reply after)
    (unbroken : Unbroken relay reply after) : after.Balanced := by
  unfold Relay.Balanced at balanced
  unfold Unbroken at unbroken
  cases taken.call with
  | idle ready phase =>
    rw [phase] at balanced
    exact endRound_balanced balanced
  | picks ready source phase =>
    rw [phase] at balanced
    exact balanced
  | exhausted source phase =>
    rw [phase] at balanced
    exact fun side => (balanced side).inOrder
  | allocates source buffer phase =>
    rw [phase] at balanced unbroken
    exact ⟨unbroken, balanced⟩
  | readFails source buffer phase =>
    rw [phase] at balanced
    have equal := (balanced.2 source).complete balanced.1
    exact ⟨⟨balanced.1, .inl ⟨rfl, equal⟩⟩, balanced.2 source.other⟩
  | reads source buffer bytes phase =>
    rw [phase] at balanced
    exact take_balanced balanced.2 balanced.1 bytes
  | writeFails source bytesRead buffer phase =>
    -- The loop is left, so the chunk stays unwritten.
    rw [phase] at balanced
    exact balanced.1.allInOrder balanced.2
  | writes source bytesRead buffer count phase asked =>
    rw [phase] at balanced unbroken
    have settled := send_settled balanced.1 balanced.2 asked unbroken
    generalize relay.send source bytesRead buffer count = target at settled ⊢
    exact endRound_balanced settled
  | closes phase | exits _ _ phase =>
    rw [phase] at balanced
    exact balanced

/-- A reply that breaks something leaves a stream that is not preserved. -/
theorem Relay.Balanced.broken (balanced : relay.Balanced) (taken : relay.Step reply after)
    (broken : ¬ Unbroken relay reply after) : ¬ Faithful after := by
  unfold Relay.Balanced at balanced
  unfold Unbroken at broken
  cases taken.call with
  | allocates source buffer phase =>
    rw [phase] at balanced broken
    exact fun faithful => (balanced source).missing broken (faithful.complete source buffer rfl)
  | writes source bytesRead buffer count phase asked =>
    rw [phase] at balanced broken
    intro faithful
    exact send_broken balanced.1 broken ⟨faithful.inOrder, fun _ _ reading => by
      simp [Relay.send, phase] at reading⟩
  | idle _ phase | picks _ _ phase | exhausted _ phase | readFails _ _ phase | reads _ _ _ phase
  | writeFails _ _ _ phase | closes phase | exits _ _ phase =>
    simp [phase] at broken

/-! ## Runs -/

/-- In every run of the relay both streams are preserved at every moment exactly when no socket is
read again after a short write of its bytes and no write after a failed read writes anything. -/
theorem faithful_iff_unbroken (steps : IsRun Relay.Step .connected run) :
    Always Faithful .connected run ↔ Each Unbroken .connected run := by
  have initial : Relay.connected.Balanced := fun _ => rfl
  exact steps.always_iff_each initial (fun _ => Relay.Balanced.faithful)
    (fun _ _ _ balanced taken unbroken => balanced.next taken unbroken)
    (fun _ _ _ balanced taken broken => balanced.broken taken broken)

/-- A replying call is a step. -/
theorem next_step (source : Relay) (reply : Reply) (target : Relay)
    (replied : source.next reply = some target) : source.Step reply target := replied

/-- A request in three bytes, of which the first write takes two, and one more byte. -/
def shortWriteRun : List (Reply × Relay) :=
  trace Relay.next .connected [.select (some (true, false)), .malloc (some fun _ => 0),
    .read (some [71, 69, 84]), .write (some 2), .select (some (true, true)),
    .malloc (some fun _ => 0), .read (some [10]), .write (some 1)]

/-- The short write leaves a hole in the bytes that the remote is sent. -/
theorem shortWrite_hole : ¬ ∀ run, IsRun Relay.Step .connected run →
    Always Faithful .connected run := by
  intro claim
  have always := claim shortWriteRun (isRun_trace next_step _ _)
  have inOrder := always.final.inOrder .client
  have sent : (final .connected shortWriteRun).writtenTo .remote = [71, 69, 10] := by decide
  have read : (final .connected shortWriteRun).readFrom .client = [71, 69, 84, 10] := by decide
  rw [Side.other, sent, read] at inOrder
  revert inOrder
  decide

/-- A request of two bytes and an answer of one, written in full. -/
def answeredRun : List (Reply × Relay) :=
  trace Relay.next .connected [.select (some (true, false)), .malloc (some fun _ => 0),
    .read (some [71, 10]), .write (some 2), .select none, .select (some (false, true)),
    .malloc (some fun _ => 0), .read (some [33]), .write (some 1)]

/-- In that run both streams are preserved. -/
theorem faithful_answeredRun : answeredRun.length = 9 ∧ Always Faithful .connected answeredRun :=
  ⟨by decide, (faithful_iff_unbroken (isRun_trace next_step _ _)).mpr
    ⟨trivial, rfl, trivial, .inl (by decide), trivial, trivial, rfl, trivial, .inl (by decide),
      trivial⟩⟩

end OsAssignments.HttpServer

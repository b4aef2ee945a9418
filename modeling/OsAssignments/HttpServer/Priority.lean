import OsAssignments.HttpServer.Relay

/-!
# The client comes first

`handle_proxy_request` looks at one socket in each round, the client's when both are ready. As long
as the client's is ready every time, which it also is once the client has closed its side and every
read of it finds the end of the file, nothing of the remote is read and nothing reaches the client:
the remote is picked in a round that finds its socket alone ready, and in no other.
-/

namespace OsAssignments.HttpServer

open Transition

/-- `select` fails, times out, or reports the client, perhaps with the remote. -/
def PutsClientFirst (_ : Relay) (reply : Reply) (_ : Relay) : Prop :=
  match reply with
  | .select (some (clientReady, remoteReady)) => remoteReady = true → clientReady = true
  | _ => True

instance (relay after : Relay) (reply : Reply) : Decidable (PutsClientFirst relay reply after) :=
  match reply with
  | .select (some (clientReady, remoteReady)) =>
    inferInstanceAs (Decidable (remoteReady = true → clientReady = true))
  | .select none | .malloc _ | .read _ | .write _ | .close _ => isTrue trivial

/-- The socket that the code reads or writes the bytes of. -/
def Phase.source : Phase → Option Side
  | .allocate source | .read source _ | .write source _ _ => some source
  | .select | .close _ | .exited => none

/-- The bytes of the remote, read and written, are those of a start, and it is not being read. -/
structure Waits (start relay : Relay) : Prop where
  /-- Nothing has been read from it. -/
  read : relay.readFrom .remote = start.readFrom .remote
  /-- Nothing has been written to the client. -/
  written : relay.writtenTo .client = start.writtenTo .client
  /-- It is not its turn. -/
  turn : relay.phase.source ≠ some .remote

variable {start relay after : Relay} {reply : Reply} {run : List (Reply × Relay)}

/-- The remote is picked when its socket alone is ready. -/
theorem picked_remote (phase : relay.phase = .select) (ready : Option (Bool × Bool))
    (taken : relay.Step (.select ready) { relay with phase := .allocate .remote }) :
    ready = some (false, true) := by
  unfold Relay.Step Relay.next at taken
  rw [phase] at taken
  cases ready with
  | none =>
    have phases := congrArg Relay.phase (Option.some.inj taken)
    unfold Relay.endRound at phases
    simp only at phases
    split at phases <;> contradiction
  | some ready =>
    obtain ⟨clientReady, remoteReady⟩ := ready
    simp only at taken
    split at taken
    · have phases := congrArg Relay.phase (Option.some.inj taken)
      cases phases
    · rename_i clientNot
      split at taken
      · rename_i remote
        rw [Bool.eq_false_of_not_eq_true clientNot, remote]
      · have phases := congrArg Relay.phase (Option.some.inj taken)
        unfold Relay.endRound at phases
        simp only at phases
        split at phases <;> contradiction

/-- The end of a round reads and writes nothing. -/
theorem Waits.endRound (read : relay.readFrom .remote = start.readFrom .remote)
    (written : relay.writtenTo .client = start.writtenTo .client) : Waits start relay.endRound := by
  refine ⟨read, written, ?_⟩
  unfold Relay.endRound
  simp only
  split <;> simp [Phase.source]

/-- Where the client is put first, the remote waits. -/
theorem Waits.step (waits : Waits start relay) (taken : relay.Step reply after)
    (first : PutsClientFirst relay reply after) : Waits start after := by
  obtain ⟨read, written, turn⟩ := waits
  -- A chunk that is read or written is one of the client.
  have client : ∀ source, relay.phase.source = some source → source = .client := by
    intro source isSource
    cases source with
    | client => rfl
    | remote => exact absurd isSource turn
  cases taken.call with
  | idle ready phase => exact Waits.endRound read written
  | picks ready source phase =>
    refine ⟨read, written, fun isRemote => ?_⟩
    obtain rfl : source = .remote := Option.some.inj isRemote
    obtain rfl := picked_remote phase ready taken
    exact absurd (first rfl) (by decide)
  | exhausted source phase => exact ⟨read, written, by simp [Phase.source]⟩
  | allocates source buffer phase =>
    obtain rfl := client source (by rw [phase]; rfl)
    exact ⟨read, written, by simp [Phase.source]⟩
  | readFails source buffer phase =>
    obtain rfl := client source (by rw [phase]; rfl)
    exact ⟨read, written, by simp [Phase.source]⟩
  | reads source buffer bytes phase fits =>
    obtain rfl := client source (by rw [phase]; rfl)
    refine ⟨?_, written, by simp [Relay.take, Phase.source]⟩
    have apart : Side.remote ≠ .client := by decide
    simp only [Relay.take, Function.update_of_ne apart]
    exact read
  | writeFails source bytesRead buffer phase => exact Waits.endRound read written
  | writes source bytesRead buffer count phase asked =>
    obtain rfl := client source (by rw [phase]; rfl)
    have apart : Side.client ≠ Side.client.other := by decide
    refine @Waits.endRound start (relay.send .client bytesRead buffer count) read ?_
    simp only [Relay.send, Function.update_of_ne apart]
    exact written
  | closes phase => exact ⟨read, written, by simp [Phase.source]⟩
  | exits socket succeeds phase last => exact ⟨read, written, by simp [Phase.source]⟩

/-- From a round on, for as long as the client is ready whenever the remote is, nothing is read from
the remote and nothing is written to the client, however long that lasts. -/
theorem remote_starves (round : start.phase = .select) (steps : IsRun Relay.Step start run)
    (first : Each PutsClientFirst start run) :
    Always (fun relay => relay.readFrom .remote = start.readFrom .remote ∧
      relay.writtenTo .client = start.writtenTo .client) start run := by
  have begins : Waits start start := ⟨rfl, rfl, by rw [round]; simp [Phase.source]⟩
  have always := steps.always_of_each begins (fun _ _ _ waits taken first => waits.step taken first)
    first
  exact always.imp fun _ waits => ⟨waits.read, waits.written⟩

/-- Three rounds in which both sockets are ready and the client has closed its side. -/
def closedClientRun : List (Reply × Relay) :=
  trace Relay.next .connected [.select (some (true, true)), .malloc (some fun _ => 0),
    .read (some []), .write (some 0), .select (some (true, true)), .malloc (some fun _ => 0),
    .read (some []), .write (some 0), .select (some (true, true))]

/-- What the remote has sent waits. -/
theorem remote_starves_closedClientRun : closedClientRun.length = 9 ∧
    Always (fun relay => relay.readFrom .remote = Relay.connected.readFrom .remote ∧
      relay.writtenTo .client = Relay.connected.writtenTo .client) .connected closedClientRun := by
  have steps : IsRun Relay.Step .connected closedClientRun :=
    isRun_trace (fun _ _ _ taken => taken) _ _
  exact ⟨by decide +kernel, remote_starves rfl steps (by decide +kernel)⟩

end OsAssignments.HttpServer

import OsAssignments.HttpServer.Relay

/-!
# When a peer hangs up

The relay loop is left when `bytes_sent` is negative. At the end of a file `proxy_request` reads
nothing, writes nothing, and returns zero, so the loop goes on. What has been seen of a hang up
and which sockets have been closed is kept beside the relay, and the loop stops as it should for
exactly the runs in which the write after a read of nothing fails.
-/

namespace OsAssignments.HttpServer

open ByteMemory Transition

/-- A relay with what has happened to its sockets. -/
structure Watch where
  /-- The relay. -/
  relay : Relay
  /-- Whether `proxy_request` has seen the end of a file or an error. -/
  hungUp : Bool
  /-- The sockets that `close` has been called for. -/
  closed : Side → Bool

/-- A relay whose sockets have just been connected. -/
def Watch.connected : Watch := ⟨.connected, false, fun _ => false⟩

/-- Whether a reply tells `proxy_request` that a peer has hung up. -/
def Reply.hangsUp : Reply → Bool
  | .read none => true
  | .read (some bytes) => bytes.isEmpty
  | .write none => true
  | _ => false

/-- The sockets closed after a call that is made in a phase. -/
def closeCalled (closed : Side → Bool) : Phase → Side → Bool
  | .close socket => Function.update closed socket true
  | _ => closed

/-- The relay with what has happened to its sockets after the call it is at. -/
def Watch.next (watch : Watch) (reply : Reply) : Option Watch :=
  (watch.relay.next reply).map fun after =>
    ⟨after, watch.hungUp || reply.hangsUp, closeCalled watch.closed watch.relay.phase⟩

/-- A call of the relay with its reply. -/
def Watch.Step (watch : Watch) (reply : Reply) (after : Watch) : Prop := watch.next reply = some after

/-- Once a peer has hung up, nothing is selected, allocated or read any more, and both sockets have
been closed when the relay ends. -/
def StopsAtHangUp (watch : Watch) : Prop :=
  watch.hungUp = true →
    match watch.relay.phase with
    | .select | .allocate _ | .read _ _ => False
    | .write _ _ _ | .close _ => True
    | .exited => ∀ socket, watch.closed socket = true

/-- What an `int` holds of the number of bytes that `write` returns. -/
def countInt (count : Nat) : Int := Int.bmod count (2 ^ 32)

/-- The write of what was read at the end of a file or in error fails, or its count is negative as
an `int`, and the socket of the client can be closed. -/
def LeavesLoop (watch : Watch) (reply : Reply) (_ : Watch) : Prop :=
  match watch.relay.phase, reply with
  | .write _ bytesRead _, .write (some count) => 0 < bytesRead ∨ countInt count < 0
  | .close .client, .close succeeds => succeeds = true
  | _, _ => True

/-- No socket has been closed. -/
def Watch.Open (watch : Watch) : Prop := ∀ socket, watch.closed socket = false

/-- The invariant of the watched relay: nothing has been seen before a chunk is read, and what was
seen then decides whether there is anything to write. -/
def Watch.Orderly (watch : Watch) : Prop :=
  match watch.relay.phase with
  | .select => watch.Open ∧ watch.hungUp = false ∧ 0 ≤ watch.relay.bytesSent
  | .allocate _ | .read _ _ => watch.Open ∧ watch.hungUp = false
  | .write _ bytesRead _ =>
    watch.Open ∧ (watch.hungUp = true ↔ bytesRead ≤ 0) ∧ bytesRead ≤ requestMaxSize
  | .close .client => watch.Open ∧ watch.hungUp = true
  | .close .remote => watch.hungUp = true ∧ watch.closed .client = true
  | .exited => watch.hungUp = true → ∀ socket, watch.closed socket = true

variable {watch after : Watch} {reply : Reply} {count : Nat} {bytesRead : Int}
  {run : List (Reply × Watch)}

/-- An orderly relay stops at a hang up. -/
theorem Watch.Orderly.stops (orderly : watch.Orderly) : StopsAtHangUp watch := by
  intro hungUp
  unfold Watch.Orderly at orderly
  cases phase : watch.relay.phase with
  | select =>
    rw [phase] at orderly
    exact absurd hungUp (by simp [orderly.2.1])
  | allocate _ | read _ _ =>
    rw [phase] at orderly
    exact absurd hungUp (by simp [orderly.2])
  | write _ _ _ | close _ => trivial
  | exited =>
    rw [phase] at orderly
    exact orderly hungUp

/-- Of a chunk in a buffer no negative count can be written. -/
theorem countInt_written (fits : bytesRead ≤ requestMaxSize) (some : 0 < bytesRead)
    (asked : (count : Int) ≤ bytesRead % 2 ^ 64) : countInt count = count := by
  unfold requestMaxSize at fits
  unfold countInt
  exact Int.bmod_eq_of_le (by omega) (by omega)

/-- What a write leaves in `bytes_sent`. -/
theorem send_bytesSent (relay : Relay) (source : Side) (bytesRead : Int) (buffer : ByteMemory)
    (count : Nat) : (relay.send source bytesRead buffer count).bytesSent = countInt count := by
  unfold Relay.send countInt
  simp only

/-- Where the loop is left when it should be, a write leaves `bytes_sent` negative exactly after a
hang up. -/
theorem send_decides {hungUp : Bool} {relay : Relay} {source : Side} {buffer : ByteMemory}
    (seen : hungUp = true ↔ bytesRead ≤ 0) (fits : bytesRead ≤ requestMaxSize)
    (asked : (count : Int) ≤ bytesRead % 2 ^ 64) (leaves : 0 < bytesRead ∨ countInt count < 0) :
    hungUp = true ↔ (relay.send source bytesRead buffer count).bytesSent < 0 := by
  rw [seen, send_bytesSent]
  constructor
  · intro nothing
    exact leaves.resolve_left (not_lt.mpr nothing)
  · intro negative
    by_contra something
    rw [countInt_written fits (not_le.mp something) asked] at negative
    omega

/-- Where a round of the loop ends. -/
theorem endRound_phase (relay : Relay) :
    relay.endRound.phase = if relay.bytesSent < 0 then .close .client else .select := rfl

/-- A step of the watched relay is a call of the relay, which the rest is kept beside. -/
theorem Watch.Step.call (taken : watch.Step reply after) : watch.relay.Call reply after.relay ∧
    after.hungUp = (watch.hungUp || reply.hangsUp) ∧
    after.closed = closeCalled watch.closed watch.relay.phase := by
  obtain ⟨relay, replied, rfl⟩ := Option.map_eq_some_iff.mp taken
  exact ⟨Relay.Step.call replied, rfl, rfl⟩

/-- A round that ends a loop exactly when a hang up has been seen leaves an orderly relay. -/
theorem endRound_orderly {relay : Relay} {hungUp : Bool} {closed : Side → Bool}
    (untouched : ∀ socket, closed socket = false) (decides : hungUp = true ↔ relay.bytesSent < 0) :
    Watch.Orderly ⟨relay.endRound, hungUp, closed⟩ := by
  unfold Watch.Orderly
  rw [endRound_phase]
  by_cases negative : relay.bytesSent < 0
  · simp only [if_pos negative]
    exact ⟨untouched, decides.mpr negative⟩
  · simp only [if_neg negative]
    exact ⟨untouched, Bool.eq_false_iff.mpr (mt decides.mp negative), not_lt.mp negative⟩

/-- A round that does not end the loop goes on after a hang up. -/
theorem endRound_goesOn {relay : Relay} {hungUp : Bool} {closed : Side → Bool} (seen : hungUp = true)
    (goesOn : ¬ relay.bytesSent < 0) : ¬ StopsAtHangUp ⟨relay.endRound, hungUp, closed⟩ := by
  intro stops
  have selects : relay.endRound.phase = .select := by rw [endRound_phase, if_neg goesOn]
  have nothing := stops seen
  simp only [selects] at nothing

/-- An orderly relay stays orderly by a reply that leaves the loop when it should be left. -/
theorem Watch.Orderly.next (orderly : watch.Orderly) (taken : watch.Step reply after)
    (leaves : LeavesLoop watch reply after) : after.Orderly := by
  obtain ⟨call, hungUp, closed⟩ := taken.call
  obtain ⟨relay, flag, sockets⟩ := after
  simp only at call hungUp closed
  subst closed
  unfold Watch.Orderly at orderly
  unfold LeavesLoop at leaves
  cases call with
  | idle ready phase =>
    rw [phase] at orderly ⊢
    have decides : flag = true ↔ watch.relay.bytesSent < 0 := by
      simp [hungUp, orderly.2.1, Reply.hangsUp, orderly.2.2]
    exact endRound_orderly orderly.1 decides
  | picks ready source phase =>
    rw [phase] at orderly ⊢
    exact ⟨orderly.1, by simp [hungUp, orderly.2.1, Reply.hangsUp]⟩
  | exhausted source phase =>
    rw [phase] at orderly ⊢
    intro seen
    simp [hungUp, orderly.2, Reply.hangsUp] at seen
  | allocates source buffer phase =>
    rw [phase] at orderly ⊢
    exact ⟨orderly.1, by simp [hungUp, orderly.2, Reply.hangsUp]⟩
  | readFails source buffer phase =>
    rw [phase] at orderly ⊢
    exact ⟨orderly.1, by simp [hungUp, Reply.hangsUp], by decide⟩
  | reads source buffer bytes phase fits =>
    rw [phase] at orderly ⊢
    exact ⟨orderly.1, by simp [hungUp, orderly.2, Reply.hangsUp], by exact_mod_cast fits⟩
  | writeFails source bytesRead buffer phase =>
    rw [phase] at orderly ⊢
    exact ⟨orderly.1, by simp [hungUp, Reply.hangsUp]⟩
  | writes source bytesRead buffer count phase asked =>
    simp only [phase] at orderly leaves
    rw [phase]
    have same : flag = watch.hungUp := by simp [hungUp, Reply.hangsUp]
    have decides := @send_decides count bytesRead flag watch.relay source buffer
      (same ▸ orderly.2.1) orderly.2.2 asked leaves
    generalize watch.relay.send source bytesRead buffer count = target at decides ⊢
    exact endRound_orderly orderly.1 decides
  | closes phase =>
    rw [phase] at orderly ⊢
    exact ⟨by simp [hungUp, orderly.2], rfl⟩
  | exits socket succeeds phase last =>
    cases socket with
    | client =>
      simp only [phase] at leaves
      cases last with
      | inl remote => cases remote
      | inr fails => exact absurd (fails.symm.trans leaves) (by decide)
    | remote =>
      rw [phase] at orderly ⊢
      intro _ socket
      cases socket with
      | client => exact orderly.2
      | remote => rfl

/-- A reply that does not leave the loop leads to a relay that goes on after a hang up. -/
theorem Watch.Orderly.broken (orderly : watch.Orderly) (taken : watch.Step reply after)
    (stays : ¬ LeavesLoop watch reply after) : ¬ StopsAtHangUp after := by
  obtain ⟨call, hungUp, closed⟩ := taken.call
  obtain ⟨relay, flag, sockets⟩ := after
  simp only at call hungUp closed
  subst closed
  unfold Watch.Orderly at orderly
  unfold LeavesLoop at stays
  cases call with
  | writes source bytesRead buffer count phase asked =>
    simp only [phase, not_or, not_lt] at orderly stays
    apply endRound_goesOn
    · simp [hungUp, orderly.2.1.mpr stays.1]
    · rw [send_bytesSent]
      exact not_lt.mpr stays.2
  | exits socket succeeds phase last =>
    cases socket with
    | client =>
      rw [phase] at orderly ⊢
      intro stops
      have closed := stops (by simp [hungUp, orderly.2]) .remote
      exact absurd ((orderly.1 .remote).symm.trans closed) (by decide)
    | remote => simp [phase] at stays
  | idle _ phase | picks _ _ phase | exhausted _ phase | allocates _ _ phase | readFails _ _ phase
  | reads _ _ _ phase | writeFails _ _ _ phase | closes phase =>
    simp [phase] at stays

/-- In every run of the relay the loop stops at a hang up exactly when the write after each read of
nothing, or in error, leaves `bytes_sent` negative and the socket of the client can be closed. -/
theorem stopsAtHangUp_iff (steps : IsRun Watch.Step .connected run) :
    Always StopsAtHangUp .connected run ↔ Each LeavesLoop .connected run := by
  have initial : Watch.connected.Orderly := ⟨fun _ => rfl, rfl, le_refl 0⟩
  exact steps.always_iff_each initial (fun _ => Watch.Orderly.stops)
    (fun _ _ _ orderly taken leaves => orderly.next taken leaves)
    (fun _ _ _ orderly taken stays => orderly.broken taken stays)

/-- The remote ends its side, which is read and written as nothing. -/
def endOfFileRun : List (Reply × Watch) :=
  trace Watch.next .connected [.select (some (false, true)), .malloc (some fun _ => 0),
    .read (some []), .write (some 0)]

/-- After the end of a file the loop goes on. -/
theorem endOfFile_goesOn : ¬ ∀ run, IsRun Watch.Step .connected run →
    Always StopsAtHangUp .connected run := by
  intro claim
  have always := claim endOfFileRun (isRun_trace (fun _ _ _ replied => replied) _ _)
  exact always.final (by decide)

/-- The remote ends its side, and the client has gone before. -/
def brokenPipeRun : List (Reply × Watch) :=
  trace Watch.next .connected [.select none, .select (some (false, true)), .malloc (some fun _ => 0),
    .read (some []), .write none, .close true, .close true]

/-- In that run the loop stops. -/
theorem stopsAtHangUp_brokenPipeRun : brokenPipeRun.length = 7 ∧
    Always StopsAtHangUp .connected brokenPipeRun :=
  ⟨by decide, (stopsAtHangUp_iff (isRun_trace (fun _ _ _ replied => replied) _ _)).mpr
    ⟨trivial, trivial, trivial, trivial, trivial, rfl, trivial, trivial⟩⟩

end OsAssignments.HttpServer

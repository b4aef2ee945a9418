import Mathlib.Logic.Function.Basic
import Mathlib.Data.List.Nodup
import OsAssignments.Library.Transition

/-!
# The server and its children

The loop of `serve_forever` with the processes it forks, each taking its steps in any order with
the others: the parent accepts a connection, forks, and closes its copy of the socket; the child
closes its copy of the listening socket, runs the request handler on the connection, closes it and
exits. Connections are numbered as they are accepted. A file or a socket that a request handler
opens for itself is left out.

Whatever the order of the steps, the parent has the same descriptors whenever it accepts, every
connection a child was forked for is that child's alone, and it is let go of when the child is done.
No process waits for a child, so the children stay in the system's table of processes.
-/

namespace OsAssignments.HttpServer

open Transition

/-- What a descriptor refers to. -/
inductive Object
  /-- A file that the server was started with. -/
  | inherited (fd : Nat)
  /-- The listening socket. -/
  | listening
  /-- The socket of a connection. -/
  | connection (number : Nat)
  deriving DecidableEq, Repr

/-- The open descriptors of a process. -/
abbrev FileTable := Nat → Option Object

/-- `close`. -/
def FileTable.close (files : FileTable) (fd : Nat) : FileTable := Function.update files fd none

/-- A descriptor is the lowest that is not open. -/
def FileTable.Unused (files : FileTable) (fd : Nat) : Prop :=
  files fd = none ∧ ∀ lower < fd, (files lower).isSome

instance (files : FileTable) (fd : Nat) : Decidable (files.Unused fd) :=
  inferInstanceAs (Decidable (_ ∧ _))

/-- No descriptor is open any more. -/
def FileTable.none : FileTable := fun _ => Option.none

/-- Where the parent is. -/
inductive ParentPhase
  /-- At `accept`. -/
  | accepting
  /-- At `fork`, with `client_socket_number`. -/
  | accepted (clientSocket : Nat)
  /-- At `close(client_socket_number)`, behind a `fork` that succeeded. -/
  | forked (clientSocket : Nat)
  /-- Behind `exit`. -/
  | exited
  deriving DecidableEq, Repr

/-- Where a child is. -/
inductive ChildPhase
  /-- At `close(*socket_number)`. -/
  | forked
  /-- In `request_handler`. -/
  | handling
  /-- At `close(client_socket_number)`. -/
  | handled
  /-- At `exit`. -/
  | closed
  /-- Behind `exit`, or ended in another way, and not waited for. -/
  | exited
  deriving DecidableEq, Repr

/-- A child. -/
structure Child where
  /-- What `fork` returned. -/
  pid : Nat
  /-- `client_socket_number`. -/
  clientSocket : Nat
  /-- The connection that it was forked for. -/
  connection : Nat
  /-- Where it is. -/
  phase : ChildPhase
  /-- Its descriptors. -/
  files : FileTable

/-- The server and its children. -/
structure Server where
  /-- `*socket_number`. -/
  socketNumber : Nat
  /-- Where the parent is. -/
  phase : ParentPhase
  /-- Its descriptors. -/
  files : FileTable
  /-- The children forked so far. -/
  children : List Child
  /-- The number of connections accepted so far. -/
  connections : Nat

/-- What happens next. -/
inductive ServerEvent
  /-- `accept` returns a descriptor or fails. -/
  | accept (reply : Option Nat)
  /-- `fork` returns a pid or fails. -/
  | fork (reply : Option Nat)
  /-- The parent closes its copy of the socket. -/
  | close
  /-- The parent catches `SIGINT`. -/
  | interrupt
  /-- A child goes on; its request handler returns or ends the process. -/
  | run (index : Nat) (ends : Bool)
  /-- A child is ended by a signal or a fault. -/
  | kill (index : Nat)
  deriving DecidableEq, Repr

/-- A process that has ended has no open descriptors. -/
def Child.ended (child : Child) : Child := { child with phase := .exited, files := .none }

/-- The next step of a child. -/
def Child.next (socketNumber : Nat) (ends : Bool) (child : Child) : Option Child :=
  match child.phase with
  | .forked => some { child with phase := .handling, files := child.files.close socketNumber }
  | .handling => some (if ends then child.ended else { child with phase := .handled })
  | .handled => some { child with phase := .closed, files := child.files.close child.clientSocket }
  | .closed => some child.ended
  | .exited => none

/-- The parent has ended. -/
def Server.ended (server : Server) : Server := { server with phase := .exited, files := .none }

/-- One step of the server or of a child, when the event can happen. -/
def Server.next (server : Server) (event : ServerEvent) : Option Server :=
  match event with
  | .accept reply =>
    if server.phase = .accepting then
      match reply with
      | none => some server
      | some fd =>
        if server.files.Unused fd then
          some { server with
            phase := .accepted fd
            files := Function.update server.files fd (some (.connection server.connections))
            connections := server.connections + 1 }
        else none
    else none
  | .fork reply =>
    match server.phase with
    | .accepted clientSocket =>
      match reply with
      | none => some server.ended
      | some pid =>
        if 0 < pid ∧ ∀ child ∈ server.children, child.pid ≠ pid then
          let child : Child :=
            { pid, clientSocket, connection := server.connections - 1, phase := .forked
              files := server.files }
          some { server with phase := .forked clientSocket, children := server.children ++ [child] }
        else none
    | _ => none
  | .close =>
    match server.phase with
    | .forked clientSocket =>
      some { server with phase := .accepting, files := server.files.close clientSocket }
    | _ => none
  | .interrupt => if server.phase = .exited then none else some server.ended
  | .run index ends =>
    match server.children[index]? with
    | some child =>
      (child.next server.socketNumber ends).map fun child =>
        { server with children := server.children.set index child }
    | none => none
  | .kill index =>
    match server.children[index]? with
    | some child =>
      if child.phase = .exited then none
      else some { server with children := server.children.set index child.ended }
    | none => none

/-- A step of the server. -/
def Server.Step (server : Server) (event : ServerEvent) (after : Server) : Prop :=
  server.next event = some after

/-- A server that has just begun to listen. -/
structure Listening (server : Server) : Prop where
  /-- It is about to accept. -/
  phase : server.phase = .accepting
  /-- The listening socket is open. -/
  socket : server.files server.socketNumber = some .listening
  /-- It is open once. -/
  once : ∀ fd, server.files fd = some .listening → fd = server.socketNumber
  /-- No connection is open. -/
  quiet : ∀ fd number, server.files fd ≠ some (.connection number)
  /-- There are no children. -/
  children : server.children = []
  /-- No connection has been accepted. -/
  connections : server.connections = 0

/-- Some process has a connection open. -/
def Server.Holds (server : Server) (number : Nat) : Prop :=
  (∃ fd, server.files fd = some (.connection number)) ∨
    ∃ child ∈ server.children, ∃ fd, child.files fd = some (.connection number)

/-- What a server keeps to. -/
structure Isolates (start server : Server) : Prop where
  /-- Whenever it accepts, the parent has the descriptors that it began with. -/
  waiting : server.phase = .accepting → server.files = start.files
  /-- The children are forked for the connections in their order, one for each. -/
  order : server.children.map Child.connection = List.range server.children.length
  /-- Every connection but the last one accepted has its child. -/
  served : server.connections ≤ server.children.length + 1 ∧
    server.children.length ≤ server.connections
  /-- When it accepts, every connection has. -/
  all : server.phase = .accepting → server.children.length = server.connections
  /-- A child has no connection open but its own, and that one in one place. -/
  own : ∀ child ∈ server.children, ∀ fd number, child.files fd = some (.connection number) →
    number = child.connection ∧ fd = child.clientSocket
  /-- Behind its first step a child does not have the listening socket. -/
  deaf : ∀ child ∈ server.children, child.phase ≠ .forked →
    ∀ fd, child.files fd ≠ some .listening
  /-- Until it is done with it a child has its connection open. -/
  holding : ∀ child ∈ server.children, child.phase = .forked ∨ child.phase = .handling ∨
    child.phase = .handled → child.files child.clientSocket = some (.connection child.connection)
  /-- When the parent accepts, a connection is closed as soon as its child is done with it. -/
  released : server.phase = .accepting → ∀ child ∈ server.children,
    child.phase = .closed ∨ child.phase = .exited → ¬ server.Holds child.connection

variable {start server after : Server} {child child' : Child} {event : ServerEvent}
  {files : FileTable} {fd socketNumber clientSocket number index : Nat} {ends : Bool}

/-! ## Descriptors -/

/-- The descriptors of a child for a connection, by where it is. -/
def childFiles (start : Server) (clientSocket connection : Nat) : ChildPhase → FileTable
  | .forked => Function.update start.files clientSocket (some (.connection connection))
  | .handling | .handled =>
    (FileTable.close (Function.update start.files clientSocket (some (.connection connection)))
      start.socketNumber)
  | .closed =>
    ((FileTable.close (Function.update start.files clientSocket (some (.connection connection)))
      start.socketNumber).close clientSocket)
  | .exited => .none

/-- A child has the descriptors that go with where it is. -/
structure Kept (start : Server) (child : Child) : Prop where
  /-- The socket was not open in the parent at the start. -/
  fresh : start.files child.clientSocket = none
  /-- The descriptors are those. -/
  files : child.files = childFiles start child.clientSocket child.connection child.phase

/-- What the parent has open, by where it is. -/
def Balanced (start server : Server) : Prop :=
  match server.phase with
  | .accepting => server.files = start.files ∧ server.children.length = server.connections
  | .accepted fd => start.files fd = none ∧ server.connections = server.children.length + 1 ∧
      server.files = Function.update start.files fd (some (.connection server.children.length))
  | .forked fd => start.files fd = none ∧ server.children.length = server.connections ∧
      server.files = Function.update start.files fd (some (.connection (server.connections - 1)))
  | .exited => server.files = .none ∧ server.children.length ≤ server.connections ∧
      server.connections ≤ server.children.length + 1

/-- The invariant of the server and its children. -/
structure Running (start server : Server) : Prop where
  /-- The listening socket stays where it is. -/
  socket : server.socketNumber = start.socketNumber
  /-- The parent has the descriptors that go with where it is. -/
  parent : Balanced start server
  /-- The children have the connections in order. -/
  order : server.children.map Child.connection = List.range server.children.length
  /-- So have the children. -/
  children : ∀ child ∈ server.children, Kept start child

/-- A descriptor is open behind a `close` when it is another one that was open. -/
theorem close_eq_some {object : Object} :
    files.close socketNumber fd = some object ↔ fd ≠ socketNumber ∧ files fd = some object := by
  by_cases same : fd = socketNumber
  · simp [FileTable.close, same]
  · simp [FileTable.close, same]

/-- Behind an `accept` the connection is open in one place. -/
theorem update_connection (quiet : ∀ fd number, files fd ≠ some (.connection number))
    {connection : Nat}
    (opened : Function.update files clientSocket (some (.connection connection)) fd =
      some (.connection number)) : number = connection ∧ fd = clientSocket := by
  by_cases same : fd = clientSocket
  · rw [same, Function.update_self, Option.some.injEq, Object.connection.injEq] at opened
    exact ⟨opened.symm, same⟩
  · rw [Function.update_of_ne same] at opened
    exact absurd opened (quiet fd number)

/-- A child has no connection open but its own. -/
theorem Kept.own (kept : Kept start child) (listening : Listening start)
    (opened : child.files fd = some (.connection number)) :
    number = child.connection ∧ fd = child.clientSocket := by
  rw [kept.files] at opened
  cases phase : child.phase with
  | forked =>
    rw [phase] at opened
    exact update_connection listening.quiet opened
  | handling | handled =>
    rw [phase] at opened
    exact update_connection listening.quiet (close_eq_some.mp opened).2
  | closed =>
    rw [phase] at opened
    have inner := (close_eq_some.mp opened).2
    exact update_connection listening.quiet (close_eq_some.mp inner).2
  | exited =>
    rw [phase] at opened
    contradiction

/-- Behind its first step a child does not have the listening socket. -/
theorem Kept.deaf (kept : Kept start child) (listening : Listening start)
    (gone : child.phase ≠ .forked) : child.files fd ≠ some .listening := by
  have once : ∀ {clientSocket connection fd : Nat}, ¬ FileTable.close
      (Function.update start.files clientSocket (some (.connection connection)))
      start.socketNumber fd = some .listening := by
    intro clientSocket connection fd opened
    obtain ⟨other, inner⟩ := close_eq_some.mp opened
    by_cases same : fd = clientSocket
    · rw [same, Function.update_self] at inner
      cases inner
    · rw [Function.update_of_ne same] at inner
      exact other (listening.once fd inner)
  intro opened
  rw [kept.files] at opened
  cases phase : child.phase with
  | forked => exact gone phase
  | handling | handled =>
    rw [phase] at opened
    exact once opened
  | closed =>
    rw [phase] at opened
    exact once (close_eq_some.mp opened).2
  | exited =>
    rw [phase] at opened
    contradiction

/-- Until it is done with it a child has its connection open. -/
theorem Kept.holding (kept : Kept start child) (listening : Listening start)
    (busy : child.phase = .forked ∨ child.phase = .handling ∨ child.phase = .handled) :
    child.files child.clientSocket = some (.connection child.connection) := by
  have other : child.clientSocket ≠ start.socketNumber := by
    intro same
    have fresh := kept.fresh
    rw [same, listening.socket] at fresh
    contradiction
  rw [kept.files]
  rcases busy with phase | phase | phase
  · rw [phase]
    exact Function.update_self _ _ _
  · rw [phase]
    exact close_eq_some.mpr ⟨other, Function.update_self _ _ _⟩
  · rw [phase]
    exact close_eq_some.mpr ⟨other, Function.update_self _ _ _⟩

/-- A child that is done with its connection does not have it open. -/
theorem Kept.done (kept : Kept start child) (listening : Listening start)
    (done : child.phase = .closed ∨ child.phase = .exited) :
    child.files fd ≠ some (.connection number) := by
  intro opened
  have place := (kept.own listening opened).2
  rw [kept.files] at opened
  rcases done with phase | phase
  · rw [phase] at opened
    exact (close_eq_some.mp opened).1 place
  · rw [phase] at opened
    contradiction

/-! ## Steps -/

/-- What a step does to the children: nothing, or a new one comes, or one of them changes. -/
inductive Server.Changes (server after : Server) : ServerEvent → Prop
  /-- The parent goes on. -/
  | keeps {event : ServerEvent} (same : after.children = server.children) : Changes server after event
  /-- A child is forked. -/
  | adds {pid clientSocket : Nat} (phase : server.phase = .accepted clientSocket)
      (same : after.children = server.children ++
        [⟨pid, clientSocket, server.connections - 1, .forked, server.files⟩]) :
      Changes server after (.fork (some pid))
  /-- A child goes on. -/
  | runs {index : Nat} {ends : Bool} {child child' : Child} (there : server.children[index]? = some child)
      (next : child.next server.socketNumber ends = some child')
      (same : after.children = server.children.set index child') : Changes server after (.run index ends)
  /-- A child is ended. -/
  | kills {index : Nat} {child : Child} (there : server.children[index]? = some child)
      (same : after.children = server.children.set index child.ended) :
      Changes server after (.kill index)

/-- Every step changes the children in one of these ways. -/
theorem Server.Step.changes (taken : server.Step event after) : server.Changes after event := by
  unfold Server.Step Server.next at taken
  cases event with
  | accept reply =>
    simp only at taken
    split at taken
    · cases reply with
      | none =>
        obtain rfl := Option.some.inj taken
        exact .keeps rfl
      | some fd =>
        simp only at taken
        split at taken
        · obtain rfl := Option.some.inj taken
          exact .keeps rfl
        · contradiction
    · contradiction
  | fork reply =>
    simp only at taken
    split at taken
    · rename_i clientSocket accepted
      cases reply with
      | none =>
        obtain rfl := Option.some.inj taken
        exact .keeps rfl
      | some pid =>
        simp only at taken
        split at taken
        · obtain rfl := Option.some.inj taken
          exact .adds accepted rfl
        · contradiction
    · contradiction
  | close =>
    simp only at taken
    split at taken
    · obtain rfl := Option.some.inj taken
      exact .keeps rfl
    · contradiction
  | interrupt =>
    simp only at taken
    split at taken
    · contradiction
    · obtain rfl := Option.some.inj taken
      exact .keeps rfl
  | run index ends =>
    simp only at taken
    split at taken
    · rename_i child there
      obtain ⟨child', next, rfl⟩ := Option.map_eq_some_iff.mp taken
      exact .runs there next rfl
    · contradiction
  | kill index =>
    simp only at taken
    split at taken
    · rename_i child there
      split at taken
      · contradiction
      · obtain rfl := Option.some.inj taken
        exact .kills there rfl
    · contradiction

/-- A child that has ended keeps to its descriptors. -/
theorem Kept.ended (kept : Kept start child) : Kept start child.ended := ⟨kept.fresh, rfl⟩

/-- The next step of a child keeps to its descriptors and leaves its connection. -/
theorem Kept.next (kept : Kept start child)
    (taken : child.next start.socketNumber ends = some child') :
    Kept start child' ∧ child'.connection = child.connection := by
  unfold Child.next at taken
  have files := kept.files
  split at taken
  · rename_i phase
    obtain rfl := Option.some.inj taken
    rw [phase] at files
    exact ⟨⟨kept.fresh, congrArg (FileTable.close · start.socketNumber) files⟩, rfl⟩
  · rename_i phase
    obtain rfl := Option.some.inj taken
    cases ends with
    | true => exact ⟨kept.ended, rfl⟩
    | false =>
      rw [phase] at files
      exact ⟨⟨kept.fresh, files⟩, rfl⟩
  · rename_i phase
    obtain rfl := Option.some.inj taken
    rw [phase] at files
    exact ⟨⟨kept.fresh, congrArg (FileTable.close · child.clientSocket) files⟩, rfl⟩
  · obtain rfl := Option.some.inj taken
    exact ⟨kept.ended, rfl⟩
  · contradiction

/-- Where the parent is the same and there are as many children, it has the same open. -/
theorem Balanced.congr (balanced : Balanced start server) (phase : after.phase = server.phase)
    (files : after.files = server.files) (children : after.children.length = server.children.length)
    (connections : after.connections = server.connections) : Balanced start after := by
  unfold Balanced at balanced ⊢
  rw [phase, files, children, connections]
  exact balanced

/-- Every connection but the last one accepted has its child. -/
theorem Balanced.counts (balanced : Balanced start server) :
    server.children.length ≤ server.connections ∧
      server.connections ≤ server.children.length + 1 := by
  unfold Balanced at balanced
  split at balanced
  · omega
  · omega
  · omega
  · exact balanced.2

/-- A parent that has ended has nothing open. -/
theorem Balanced.ended (balanced : Balanced start server) : Balanced start server.ended :=
  ⟨rfl, balanced.counts⟩

/-- A child exchanged for one with the same connection that keeps to its descriptors leaves the
server running. -/
theorem Running.exchange (running : Running start server) (there : server.children[index]? = some child)
    (kept : Kept start child') (same : child'.connection = child.connection) :
    Running start { server with children := server.children.set index child' } := by
  refine ⟨running.socket, running.parent.congr rfl rfl List.length_set rfl, ?_, ?_⟩
  · have whole : (server.children.set index child').map Child.connection =
        server.children.map Child.connection := by
      apply List.ext_getElem?
      intro place
      rw [List.getElem?_map, List.getElem?_map, List.getElem?_set]
      by_cases here : index = place
      · subst here
        obtain ⟨inside, rfl⟩ := List.getElem?_eq_some_iff.mp there
        simp [inside, same]
      · simp [here]
    rw [List.length_set, whole]
    exact running.order
  · intro other member
    rcases List.mem_or_eq_of_mem_set member with old | rfl
    · exact running.children other old
    · exact kept

/-- Every step leaves the server running. -/
theorem Running.step (running : Running start server) (taken : server.Step event after) :
    Running start after := by
  obtain ⟨socket, parent, order, children⟩ := running
  unfold Server.Step Server.next at taken
  cases event with
  | accept reply =>
    simp only at taken
    split at taken
    · rename_i accepting
      rw [Balanced, accepting] at parent
      obtain ⟨files, counts⟩ := parent
      cases reply with
      | none =>
        obtain rfl := Option.some.inj taken
        exact ⟨socket, by rw [Balanced, accepting]; exact ⟨files, counts⟩, order, children⟩
      | some fd =>
        simp only at taken
        split at taken
        · rename_i unused
          obtain rfl := Option.some.inj taken
          refine ⟨socket, ⟨files ▸ unused.1, congrArg (· + 1) counts.symm, ?_⟩, order, children⟩
          simp only [files, counts]
        · contradiction
    · contradiction
  | fork reply =>
    simp only at taken
    split at taken
    · rename_i clientSocket accepted
      cases reply with
      | none =>
        obtain rfl := Option.some.inj taken
        exact ⟨socket, parent.ended, order, children⟩
      | some pid =>
        rw [Balanced, accepted] at parent
        obtain ⟨fresh, counts, files⟩ := parent
        have number : server.connections - 1 = server.children.length := by omega
        simp only at taken
        split at taken
        · obtain rfl := Option.some.inj taken
          refine ⟨socket, ⟨fresh, ?_, ?_⟩, ?_, ?_⟩
          · simp only [List.length_append, List.length_singleton]
            omega
          · simp only [number]
            exact files
          · simp only [List.map_append, List.map_cons, List.map_nil, List.length_append,
              List.length_singleton, List.range_succ, order, number]
          · intro child member
            rcases List.mem_append.mp member with old | new
            · exact children child old
            · obtain rfl := List.mem_singleton.mp new
              refine ⟨fresh, ?_⟩
              rw [number]
              exact files
        · contradiction
    · contradiction
  | close =>
    simp only at taken
    split at taken
    · rename_i clientSocket forked
      rw [Balanced, forked] at parent
      obtain ⟨fresh, counts, files⟩ := parent
      obtain rfl := Option.some.inj taken
      refine ⟨socket, ⟨?_, counts⟩, order, children⟩
      simp only [files, FileTable.close, Function.update_idem]
      rw [← fresh, Function.update_eq_self]
    · contradiction
  | interrupt =>
    simp only at taken
    split at taken
    · contradiction
    · obtain rfl := Option.some.inj taken
      exact ⟨socket, parent.ended, order, children⟩
  | run index ends =>
    simp only at taken
    split at taken
    · rename_i child there
      obtain ⟨child', next, rfl⟩ := Option.map_eq_some_iff.mp taken
      rw [socket] at next
      obtain ⟨kept, same⟩ := (children child (List.mem_of_getElem? there)).next next
      exact Running.exchange ⟨socket, parent, order, children⟩ there kept same
    · contradiction
  | kill index =>
    simp only at taken
    split at taken
    · rename_i child there
      split at taken
      · contradiction
      · obtain rfl := Option.some.inj taken
        have kept := (children child (List.mem_of_getElem? there)).ended
        exact Running.exchange ⟨socket, parent, order, children⟩ there kept rfl
    · contradiction

/-- A server that has just begun to listen is running. -/
theorem Listening.running (listening : Listening start) : Running start start := by
  refine ⟨rfl, ?_, ?_, ?_⟩
  · rw [Balanced, listening.phase, listening.children, listening.connections]
    exact ⟨rfl, rfl⟩
  · rw [listening.children]
    rfl
  · rw [listening.children]
    intro child member
    cases member

/-- However the parent and its children take their steps, the server keeps the connections apart. -/
theorem serveForever_isolates (listening : Listening start)
    (reached : Reachable Server.Step start server) : Isolates start server := by
  obtain ⟨_, parent, order, children⟩ : Running start server :=
    reached.invariant listening.running fun _ _ _ running taken => running.step taken
  have accepting : server.phase = .accepting →
      server.files = start.files ∧ server.children.length = server.connections := by
    intro phase
    rw [Balanced, phase] at parent
    exact parent
  refine ⟨fun phase => (accepting phase).1, order, parent.counts.symm,
    fun phase => (accepting phase).2, fun child member fd number => (children child member).own listening,
    fun child member gone fd => (children child member).deaf listening gone,
    fun child member => (children child member).holding listening, ?_⟩
  rintro phase child member done (⟨fd, opened⟩ | ⟨other, member', fd, opened⟩)
  · rw [(accepting phase).1] at opened
    exact listening.quiet fd child.connection opened
  · -- No two children are forked for one connection.
    have same : other = child := by
      have distinct : (server.children.map Child.connection).Nodup := order ▸ List.nodup_range
      have number := ((children other member').own listening opened).1
      exact List.inj_on_of_nodup_map distinct member' member number.symm
    rw [same] at opened
    exact (children child member).done listening done opened

/-! ## The table of processes -/

/-- A step in a system that has room for so many children, those that have exited included: nothing
waits for them, so they stay in the table of processes. -/
def LimitedStep (limit : Nat) (server : Server) (event : ServerEvent) (after : Server) : Prop :=
  server.Step event after ∧ ∀ pid, event = .fork (some pid) → server.children.length < limit

/-- There are no more children than the system has room for, and the parent keeps to its
descriptors. -/
structure Limited (limit : Nat) (start server : Server) : Prop where
  /-- The server is running. -/
  running : Running start server
  /-- The children have room. -/
  room : server.children.length ≤ limit

/-- Only a `fork` adds a child, and it adds one. -/
theorem Server.Step.children (taken : server.Step event after) :
    after.children.length = server.children.length ∨
      (∃ pid, event = .fork (some pid)) ∧
        after.children.length = server.children.length + 1 := by
  cases taken.changes with
  | keeps same => exact .inl (congrArg List.length same)
  | adds phase same => exact .inr ⟨⟨_, rfl⟩, by rw [same, List.length_append, List.length_singleton]⟩
  | runs there next same => exact .inl (by rw [same, List.length_set])
  | kills there same => exact .inl (by rw [same, List.length_set])

/-- A step keeps the children within the room there is. -/
theorem Limited.step {limit : Nat} (limited : Limited limit start server)
    (taken : LimitedStep limit server event after) : Limited limit start after := by
  refine ⟨limited.running.step taken.1, ?_⟩
  have room := limited.room
  rcases taken.1.children with same | ⟨⟨pid, forks⟩, grown⟩
  · omega
  · have below := taken.2 pid forks
    omega

/-- In a system with room for so many children the server accepts one connection more than that and
then no other, even when all the children have long exited. -/
theorem serveForever_ends {limit : Nat} (listening : Listening start)
    (reached : Reachable (LimitedStep limit) start server) :
    server.connections ≤ limit + 1 ∧ (server.connections = limit + 1 →
      (∃ clientSocket, server.phase = .accepted clientSocket) ∨ server.phase = .exited) := by
  have initial : Limited limit start start :=
    ⟨listening.running, by rw [listening.children]; exact Nat.zero_le limit⟩
  obtain ⟨⟨_, parent, _, _⟩, room⟩ : Limited limit start server :=
    reached.invariant initial fun _ _ _ limited taken => limited.step taken
  have counts := parent.counts
  refine ⟨by omega, fun full => ?_⟩
  cases phase : server.phase with
  | accepting =>
    rw [Balanced, phase] at parent
    omega
  | accepted clientSocket => exact .inl ⟨clientSocket, rfl⟩
  | forked clientSocket =>
    rw [Balanced, phase] at parent
    omega
  | exited => exact .inr rfl

/-! ## Two runs -/

/-- A server that listens on descriptor 3. -/
def listeningServer : Server where
  socketNumber := 3
  phase := .accepting
  files := fun fd => if fd < 3 then some (.inherited fd) else if fd = 3 then some .listening else none
  children := []
  connections := 0

/-- It has just begun to. -/
theorem listeningServer_listening : Listening listeningServer := by
  refine ⟨rfl, rfl, ?_, ?_, rfl, rfl⟩
  · intro fd opened
    unfold listeningServer at opened
    simp only at opened
    split at opened
    · cases opened
    · split at opened
      · assumption
      · cases opened
  · intro fd number opened
    unfold listeningServer at opened
    simp only at opened
    split at opened
    · cases opened
    · split at opened <;> cases opened

/-- Two connections, the first of which is handled while the second is accepted. -/
def twoConnections : List (ServerEvent × Server) :=
  trace Server.next listeningServer [.accept (some 4), .fork (some 200), .run 0 false, .close,
    .accept (some 4), .run 0 false, .fork (some 201), .run 0 false, .close, .run 0 false,
    .accept none, .run 1 true]

/-- The server keeps the two connections apart. -/
theorem serveForever_isolates_twoConnections : twoConnections.length = 12 ∧
    Isolates listeningServer (final listeningServer twoConnections) := by
  have steps : IsRun Server.Step listeningServer twoConnections :=
    isRun_trace (fun _ _ _ taken => taken) _ _
  exact ⟨by decide +kernel, serveForever_isolates listeningServer_listening steps.reachable⟩

/-- A step of a server with room for one child. -/
def Server.limited (server : Server) (event : ServerEvent) : Option Server :=
  match event with
  | .fork (some pid) => if server.children.length < 1 then server.next (.fork (some pid)) else none
  | event => server.next event

/-- The step is one of the limited system. -/
theorem limited_step (source : Server) (event : ServerEvent) (target : Server)
    (performed : source.limited event = some target) : LimitedStep 1 source event target := by
  unfold Server.limited at performed
  split at performed
  · split at performed
    · rename_i below
      exact ⟨performed, fun _ _ => below⟩
    · contradiction
  · rename_i other
    exact ⟨performed, fun pid forks => absurd forks (other pid)⟩

/-- One connection is served to its end, and the next one ends the server. -/
def secondConnection : List (ServerEvent × Server) :=
  trace Server.limited listeningServer [.accept (some 4), .fork (some 200), .close, .run 0 false,
    .run 0 false, .run 0 false, .run 0 false, .accept (some 4), .fork none]

/-- With room for one child two connections are all that the server accepts. -/
theorem serveForever_ends_secondConnection :
    (final listeningServer secondConnection).connections = 2 ∧
      ((final listeningServer secondConnection).connections ≤ 1 + 1 ∧
        ((final listeningServer secondConnection).connections = 1 + 1 →
          (∃ clientSocket, (final listeningServer secondConnection).phase = .accepted clientSocket) ∨
            (final listeningServer secondConnection).phase = .exited)) := by
  have steps : IsRun (LimitedStep 1) listeningServer secondConnection :=
    isRun_trace limited_step _ _
  exact ⟨by decide +kernel, serveForever_ends listeningServer_listening steps.reachable⟩

end OsAssignments.HttpServer

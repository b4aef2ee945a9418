import OsAssignments.HttpServer.Links
import OsAssignments.HttpServer.Serving

/-!
# Conversations

The server with what goes over its connections. A child waits for the request that comes over the socket
it was forked with, and writes what `handle_files_request` sends to that socket, one call after another,
each as soon as its client has made room for it, with the steps of the parent, of the clients and of the
other children in between. A write may transfer fewer bytes than it is given, or none, and nobody looks:
what is left of it is never sent. Every client is sent bytes of the response to its own request alone, in
their order, and without a short write its first part. A child whose client sends its request and takes
what it is sent comes to its end whatever the others do. A child whose handler runs into a fault takes no
step of its own from there on.
-/

namespace OsAssignments.HttpServer

open Transition

/-- How far the handler of a child is. -/
inductive Work
  /-- At `read`. -/
  | reading
  /-- Before what is left. -/
  | sending (left : Handling)
  deriving DecidableEq, Repr

/-- What goes over a connection. -/
structure Line where
  /-- The bytes that the client has been sent. -/
  received : List UInt8
  /-- The request has come, or the end of what the client sends. -/
  asked : Bool
  /-- There is room for the next write. -/
  ready : Bool
  /-- A write has transferred fewer bytes than it was given. -/
  short : Bool

/-- The server, with what its children have to do and what goes over the connections. -/
structure Exchange where
  /-- The server and its children. -/
  server : Server
  /-- The handler of each child. -/
  work : Nat → Work
  /-- The connections. -/
  line : Nat → Line

/-- What happens next. -/
inductive Activity
  /-- A step that does not concern what a handler does. -/
  | server (event : ServerEvent)
  /-- The client of a connection sends its request. -/
  | ask (number : Nat)
  /-- The client of a connection takes what it has been sent. -/
  | take (number : Nat)
  /-- A child reads the request. -/
  | read (index : Nat)
  /-- A child takes the next step of its handler; a `write` transfers so many bytes at most. -/
  | effect (index transferred : Nat)
  deriving DecidableEq, Repr

/-- A handler returns when it has nothing left to do; `handle_files_request` does not exit. -/
def Exchange.permits (exchange : Exchange) : ServerEvent → Bool
  | .run index ends =>
    match exchange.server.children[index]? with
    | some child => child.phase ≠ .handling || exchange.work index = .sending ⟨[], none⟩ && !ends
    | none => false
  | _ => true

/-- A connection behind a `write`. -/
def Line.write (line : Line) (bytes : List UInt8) (transferred : Nat) : Line where
  received := line.received ++ bytes.take transferred
  asked := line.asked
  ready := false
  short := line.short || decide (transferred < bytes.length)

/-- The connections, when a process with these descriptors takes a step of its handler: a `write` waits
for room. -/
def deliver (files : FileTable) (clientSocket transferred : Nat) (line : Nat → Line) :
    Effect → Option (Nat → Line)
  | .opened _ => some line
  | .sent bytes =>
    match files clientSocket with
    | some (.connection number) =>
      if (line number).ready then
        some (Function.update line number ((line number).write bytes transferred))
      else none
    | _ => some line

/-- One step, where `reply` is what `handle_files_request` does with the request that comes over a
connection. -/
def Exchange.next (reply : Nat → Handling) (exchange : Exchange) (activity : Activity) :
    Option Exchange :=
  match activity with
  | .server event =>
    if exchange.permits event then
      (exchange.server.next event).map fun server => { exchange with server }
    else none
  | .ask number =>
    some { exchange with
      line := Function.update exchange.line number { exchange.line number with asked := true } }
  | .take number =>
    some { exchange with
      line := Function.update exchange.line number { exchange.line number with ready := true } }
  | .read index =>
    match exchange.server.children[index]? with
    | some child =>
      match child.phase, exchange.work index, child.files child.clientSocket with
      | .handling, .reading, some (.connection number) =>
        if (exchange.line number).asked then
          some { exchange with work := Function.update exchange.work index (.sending (reply number)) }
        else none
      | _, _, _ => none
    | none => none
  | .effect index transferred =>
    match exchange.server.children[index]? with
    | some child =>
      match child.phase, exchange.work index with
      | .handling, .sending ⟨effect :: left, fault⟩ =>
        (deliver child.files child.clientSocket transferred exchange.line effect).map fun line =>
          { exchange with work := Function.update exchange.work index (.sending ⟨left, fault⟩), line }
      | _, _ => none
    | none => none

/-- A step of the server that serves files out of a directory. What one `read` returns of the bytes that
come over each connection is given, and so is the file system while its request is handled. -/
def Exchange.Step (fs : Nat → FileSystem) (serverFilesDirectory : CString)
    (request : Nat → List UInt8) (exchange : Exchange) (activity : Activity) (after : Exchange) : Prop :=
  exchange.next (fun number => handleFilesRequest (fs number) serverFilesDirectory (request number))
    activity = some after

/-- A connection over which nothing has gone. -/
def Line.idle : Line := ⟨[], false, false, false⟩

/-- A server before its first connection. -/
def Exchange.opening (start : Server) : Exchange := ⟨start, fun _ => .reading, fun _ => .idle⟩

/-- Bytes of a text in their order, and all of them unless something was left out. -/
structure Carries (short : Bool) (bytes whole : List UInt8) : Prop where
  /-- They are of the text. -/
  part : bytes.Sublist whole
  /-- They are all of it. -/
  all : short = false → bytes = whole

/-- The activity is the child's own, or its client's. -/
def Activity.Of (index : Nat) : Activity → Prop
  | .server (.run other _) => other = index
  | .server _ => False
  | .ask other => other = index
  | .take other => other = index
  | .read other => other = index
  | .effect other _ => other = index

/-- A child has come to its end, with the whole response sent unless a write was short before, and the
others are where they were. -/
structure Finished (reply : Nat → Handling) (index : Nat) (exchange ending : Exchange) : Prop where
  /-- The response has been sent. -/
  whole : (exchange.line index).short = false →
    (ending.line index).received = (reply index).output
  /-- The child has exited. -/
  exited : ∃ child, ending.server.children[index]? = some child ∧ child.phase = .exited
  /-- The other clients have what they had. -/
  others : ∀ other ≠ index, ending.line other = exchange.line other
  /-- The other children are as they were. -/
  away : ∀ other ≠ index, ending.server.children[other]? = exchange.server.children[other]?

/-- What a client has been sent, by how far its child is. -/
inductive Stage (reply : Handling) : ChildPhase → Work → Line → Prop
  /-- Nothing, before the handler is called. -/
  | forked {line : Line} (none : line.received = []) : Stage reply .forked .reading line
  /-- Nothing, before the request is read. -/
  | reading {line : Line} (none : line.received = []) : Stage reply .handling .reading line
  /-- What the handler sends but for what is left. -/
  | sending {left : Handling} {line : Line} (fault : left.fault = reply.fault)
      (rest : Carries line.short (line.received ++ left.output) reply.output) :
      Stage reply .handling (.sending left) line
  /-- All of it, when the handler has returned. -/
  | handled {line : Line} (whole : Carries line.short line.received reply.output) :
      Stage reply .handled (.sending ⟨[], none⟩) line
  /-- All of it, when the socket is closed. -/
  | closed {line : Line} (whole : Carries line.short line.received reply.output) :
      Stage reply .closed (.sending ⟨[], none⟩) line
  /-- The first part of it, when the child has ended. -/
  | exited {work : Work} {line : Line} (part : line.received.Sublist reply.output)
      (front : line.short = false → line.received <+: reply.output) : Stage reply .exited work line

/-- The server runs, and every client has been sent its response so far. -/
structure Answering (reply : Nat → Handling) (start : Server) (exchange : Exchange) : Prop where
  /-- The server keeps the connections apart. -/
  running : Running start exchange.server
  /-- Each child is as far as what its client has been sent. -/
  each : ∀ index child, exchange.server.children[index]? = some child →
    Stage (reply index) child.phase (exchange.work index) (exchange.line index)
  /-- Nothing has been done for a connection without a child. -/
  beyond : ∀ index, exchange.server.children.length ≤ index →
    exchange.work index = .reading ∧ (exchange.line index).received = []

variable {reply : Nat → Handling} {start : Server} {exchange after : Exchange} {activity : Activity}
  {child child' : Child} {index number : Nat} {phase : ChildPhase} {work : Work} {line line' : Line}
  {handling left : Handling} {event : ServerEvent} {ends : Bool} {bytes rest text : List UInt8}

/-! ## Stages -/

/-- Some of the bytes of a write leave fewer of the text, and all of them leave it as it was. -/
theorem Carries.write {transferred : Nat}
    (carries : Carries line.short (line.received ++ (bytes ++ rest)) text) :
    Carries (line.write bytes transferred).short ((line.write bytes transferred).received ++ rest)
      text := by
  refine ⟨?_, fun full => ?_⟩
  · rw [Line.write, List.append_assoc]
    have fewer : (bytes.take transferred ++ rest).Sublist (bytes ++ rest) :=
      (List.take_sublist transferred bytes).append_right rest
    exact (fewer.append_left line.received).trans carries.part
  · rw [Line.write, Bool.or_eq_false_iff, decide_eq_false_iff_not] at full
    rw [Line.write, List.take_of_length_le (Nat.not_lt.mp full.2), List.append_assoc]
    exact carries.all full.1

/-- A client has been sent bytes of its response in order, its first part without a short write. -/
theorem Stage.front (stage : Stage handling phase work line) :
    line.received.Sublist handling.output ∧
      (line.short = false → line.received <+: handling.output) := by
  cases stage with
  | forked none | reading none =>
    rw [none]
    exact ⟨List.nil_sublist _, fun _ => List.nil_prefix⟩
  | sending fault rest =>
    exact ⟨(List.sublist_append_left _ _).trans rest.part,
      fun full => rest.all full ▸ List.prefix_append _ _⟩
  | handled whole | closed whole =>
    exact ⟨whole.part, fun full => whole.all full ▸ List.prefix_refl _⟩
  | exited part front => exact ⟨part, front⟩

/-- Where the handler has returned, the client has been sent the whole response. -/
theorem Stage.whole (stage : Stage handling phase work line)
    (done : phase = .handled ∨ phase = .closed) : Carries line.short line.received handling.output := by
  rcases done with rfl | rfl
  · cases stage with
    | handled whole => exact whole
  · cases stage with
    | closed whole => exact whole

/-- What a client does changes nothing of what it has been sent. -/
theorem Stage.congr (stage : Stage handling phase work line) (received : line'.received = line.received)
    (short : line'.short = line.short) : Stage handling phase work line' := by
  cases stage with
  | forked none => exact .forked (received.trans none)
  | reading none => exact .reading (received.trans none)
  | sending fault rest => exact .sending fault (by rw [short, received]; exact rest)
  | handled whole => exact .handled (by rw [short, received]; exact whole)
  | closed whole => exact .closed (by rw [short, received]; exact whole)
  | exited part front =>
    refine .exited (by rw [received]; exact part) fun full => ?_
    rw [received]
    exact front (short ▸ full)

/-- A child that goes on, but not inside its handler, is as far as what its client has been sent. -/
theorem Stage.next (stage : Stage handling child.phase work line) {socketNumber : Nat}
    (taken : child.next socketNumber ends = some child')
    (returns : child.phase = .handling → work = .sending ⟨[], none⟩ ∧ ends = false) :
    Stage handling child'.phase work line := by
  unfold Child.next at taken
  split at taken
  · rename_i phase
    obtain rfl := Option.some.inj taken
    rw [phase] at stage
    cases stage with
    | forked none => exact .reading none
  · rename_i phase
    obtain ⟨rfl, rfl⟩ := returns phase
    obtain rfl := Option.some.inj taken
    rw [phase] at stage
    cases stage with
    | sending fault rest =>
      refine .handled ?_
      rw [← List.append_nil line.received]
      exact rest
  · rename_i phase
    obtain rfl := Option.some.inj taken
    rw [phase] at stage
    cases stage with
    | handled whole => exact .closed whole
  · obtain rfl := Option.some.inj taken
    exact .exited stage.front.1 stage.front.2
  · contradiction

/-! ## Steps -/

/-- The child at a place is the one for the connection of that number. -/
theorem Running.connection {server : Server} (running : Running start server)
    (there : server.children[index]? = some child) : child.connection = index := by
  have mapped : (server.children.map Child.connection)[index]? = some child.connection := by
    rw [List.getElem?_map, there]
    rfl
  rw [running.order] at mapped
  obtain ⟨inside, same⟩ := List.getElem?_eq_some_iff.mp mapped
  rw [List.getElem_range] at same
  exact same.symm

/-- A child in its handler has the connection of its number at its socket. -/
theorem Answering.socket (answering : Answering reply start exchange) (listening : Listening start)
    (there : exchange.server.children[index]? = some child) (phase : child.phase = .handling) :
    child.files child.clientSocket = some (.connection index) := by
  have kept := answering.running.children child (List.mem_of_getElem? there)
  rw [kept.holding listening (.inr (.inl phase)), answering.running.connection there]

/-- A step that does not concern the handlers leaves the clients what they have been sent. -/
theorem Answering.server (answering : Answering reply start exchange) {server : Server}
    (taken : exchange.server.Step event server) (permitted : exchange.permits event = true) :
    Answering reply start { exchange with server } := by
  obtain ⟨running, each, beyond⟩ := answering
  refine ⟨running.step taken, ?_, ?_⟩
  · intro place other there
    cases taken.changes with
    | keeps same => exact each place other (same ▸ there)
    | @adds pid clientSocket accepted same =>
      rw [same] at there
      rcases Nat.lt_or_ge place exchange.server.children.length with old | new
      · rw [List.getElem?_append_left old] at there
        exact each place other there
      · rw [List.getElem?_append_right new] at there
        obtain rfl := List.mem_singleton.mp (List.mem_of_getElem? there)
        obtain ⟨work, none⟩ := beyond place new
        rw [work]
        exact .forked none
    | @runs index ends child child' here next same =>
      rw [same] at there
      by_cases moved : index = place
      · subst moved
        obtain ⟨inside, _⟩ := List.getElem?_eq_some_iff.mp here
        rw [List.getElem?_set_self inside] at there
        obtain rfl := Option.some.inj there
        refine (each index child here).next next ?_
        intro phase
        rw [Exchange.permits, here] at permitted
        simpa [phase] using permitted
      · rw [List.getElem?_set_ne moved] at there
        exact each place other there
    | @kills index child here same =>
      rw [same] at there
      by_cases moved : index = place
      · subst moved
        obtain ⟨inside, _⟩ := List.getElem?_eq_some_iff.mp here
        rw [List.getElem?_set_self inside] at there
        obtain rfl := Option.some.inj there
        exact .exited (each index child here).front.1 (each index child here).front.2
      · rw [List.getElem?_set_ne moved] at there
        exact each place other there
  · intro place outside
    refine beyond place (Nat.le_trans ?_ outside)
    rcases taken.children with same | ⟨_, grown⟩
    · exact Nat.le_of_eq same.symm
    · simp only at grown ⊢
      omega

/-- A change of the handler of one child, and of what goes over its connection. -/
theorem Answering.progress (answering : Answering reply start exchange)
    (there : exchange.server.children[index]? = some child) (work : Work) (line : Line)
    (stage : Stage (reply index) child.phase work line) :
    Answering reply start
      ⟨exchange.server, Function.update exchange.work index work,
        Function.update exchange.line index line⟩ := by
  refine ⟨answering.running, ?_, ?_⟩
  · intro place other here
    by_cases same : place = index
    · subst same
      obtain rfl := Option.some.inj (there.symm.trans here)
      simp only [Function.update_self]
      exact stage
    · simp only [Function.update_of_ne same]
      exact answering.each place other here
  · intro place outside
    have inside := (List.getElem?_eq_some_iff.mp there).1
    have other : place ≠ index := by
      rintro rfl
      exact absurd inside (Nat.not_lt.mpr outside)
    simp only [Function.update_of_ne other]
    exact answering.beyond place outside

/-- A client that asks, or takes what it is sent, leaves everything that has been sent. -/
theorem Answering.client (answering : Answering reply start exchange)
    (received : line.received = (exchange.line number).received)
    (short : line.short = (exchange.line number).short) :
    Answering reply start
      { exchange with line := Function.update exchange.line number line } := by
  refine ⟨answering.running, ?_, ?_⟩
  · intro place child there
    by_cases same : place = number
    · subst same
      simp only [Function.update_self]
      exact (answering.each place child there).congr received short
    · simp only [Function.update_of_ne same]
      exact answering.each place child there
  · intro place outside
    by_cases same : place = number
    · subst same
      simp only [Function.update_self]
      exact ⟨(answering.beyond place outside).1,
        received.trans (answering.beyond place outside).2⟩
    · simp only [Function.update_of_ne same]
      exact answering.beyond place outside

/-- In its handler, a child that has read its request has all of the response to send. -/
theorem Answering.reads (answering : Answering reply start exchange)
    (there : exchange.server.children[index]? = some child) (phase : child.phase = .handling)
    (reading : exchange.work index = .reading) :
    Answering reply start
      { exchange with work := Function.update exchange.work index (.sending (reply index)) } := by
  have stage := answering.each index child there
  rw [phase, reading] at stage
  cases stage with
  | reading none =>
    have all : Carries (exchange.line index).short
        ((exchange.line index).received ++ (reply index).output) (reply index).output := by
      rw [none, List.nil_append]
      exact ⟨List.Sublist.refl _, fun _ => rfl⟩
    have moved := answering.progress there (.sending (reply index)) (exchange.line index)
      (phase ▸ .sending rfl all)
    rw [Function.update_eq_self] at moved
    exact moved

/-- In its handler, a child with something left sends of it to its own client, or goes on. -/
theorem Answering.sends (answering : Answering reply start exchange) (listening : Listening start)
    (there : exchange.server.children[index]? = some child) (phase : child.phase = .handling)
    {effect : Effect} {effects : List Effect} {fault : Option Fault} {transferred : Nat}
    (sending : exchange.work index = .sending ⟨effect :: effects, fault⟩)
    {sent : Nat → Line}
    (goes : deliver child.files child.clientSocket transferred exchange.line effect = some sent) :
    Answering reply start
      ⟨exchange.server, Function.update exchange.work index (.sending ⟨effects, fault⟩), sent⟩ := by
  have socket := answering.socket listening there phase
  have stage := answering.each index child there
  rw [phase, sending] at stage
  cases stage with
  | sending same rest =>
    cases effect with
    | opened path =>
      obtain rfl := Option.some.inj goes
      have moved := answering.progress there (.sending ⟨effects, fault⟩) (exchange.line index)
        (phase ▸ .sending same rest)
      rw [Function.update_eq_self] at moved
      exact moved
    | sent bytes =>
      simp only [deliver, socket] at goes
      split at goes
      · obtain rfl := Option.some.inj goes
        exact answering.progress there _ _ (phase ▸ .sending same (Carries.write rest))
      · contradiction

/-- Every step leaves the clients with their responses so far. -/
theorem Answering.step (answering : Answering reply start exchange) (listening : Listening start)
    (taken : exchange.next reply activity = some after) : Answering reply start after := by
  cases activity with
  | server event =>
    rw [Exchange.next] at taken
    split at taken
    · rename_i permitted
      obtain ⟨server, stepped, rfl⟩ := Option.map_eq_some_iff.mp taken
      exact answering.server stepped permitted
    · contradiction
  | ask number | take number =>
    obtain rfl := Option.some.inj taken
    exact answering.client rfl rfl
  | read index =>
    rw [Exchange.next] at taken
    split at taken
    · rename_i child there
      split at taken
      · rename_i number phase reading open_
        obtain rfl : number = index := by
          have socket := answering.socket listening there phase
          rw [open_] at socket
          simpa using socket
        split at taken
        · obtain rfl := Option.some.inj taken
          exact answering.reads there phase reading
        · contradiction
      · contradiction
    · contradiction
  | effect index transferred =>
    rw [Exchange.next] at taken
    split at taken
    · rename_i child there
      split at taken
      · rename_i phase sending
        obtain ⟨sent, goes, rfl⟩ := Option.map_eq_some_iff.mp taken
        exact answering.sends listening there phase sending goes
      · contradiction
    · contradiction

/-- Before the first connection nobody has been sent anything. -/
theorem Listening.answering (listening : Listening start) :
    Answering reply start (Exchange.opening start) := by
  refine ⟨listening.running, ?_, fun _ _ => ⟨rfl, rfl⟩⟩
  intro index child there
  rw [Exchange.opening, listening.children] at there
  contradiction

/-- A directory `www` with a page and a text. -/
def twoPages : FileSystem :=
  .withoutDirectories (fun _ => some .regular) fun path =>
    if path = Text.ascii "www/a.html" then some (some (Text.ascii "<p>"))
    else if path = Text.ascii "www/b.txt" then some (some (Text.ascii "b"))
    else none

/-- The first client asks for the page, and the second for the text. -/
def askForPages (number : Nat) : List UInt8 :=
  Text.ascii (if number = 0 then "GET /a.html HTTP/1.0\n" else "GET /b.txt HTTP/1.0\n")

/-- Two conversations at once: the first client is sent its status line between the steps in which the
second one's request is read and answered, and only the second child has returned. -/
def twoConversations : List (Activity × Exchange) :=
  trace (Exchange.next fun number => handleFilesRequest twoPages wwwDirectory (askForPages number))
    (Exchange.opening listeningServer) [.server (.accept (some 4)), .server (.fork (some 200)),
      .server .close, .server (.run 0 false), .ask 0, .read 0, .effect 0 0, .server (.accept (some 4)),
      .ask 1, .server (.fork (some 201)), .server (.run 1 false), .read 1, .effect 1 0, .take 1,
      .effect 1 512, .take 0, .effect 0 512, .take 1, .effect 1 512, .take 1, .effect 1 512, .take 1,
      .effect 1 512, .server (.run 1 false), .server .close]

/-- The two conversations are a run. -/
theorem twoConversations_isRun : IsRun (Exchange.Step (fun _ => twoPages) wwwDirectory askForPages)
    (Exchange.opening listeningServer) twoConversations :=
  isRun_trace (fun _ _ _ taken => taken) _ _

/-- A child can be left alone to come to its end. -/
def Finishes (reply : Nat → Handling) (index : Nat) (exchange : Exchange) : Prop :=
  ∃ run : List (Activity × Exchange),
    IsRun (fun source activity target => source.next reply activity = some target) exchange run ∧
      (∀ move ∈ run, move.1.Of index) ∧ Finished reply index exchange (final exchange run)

/-- One step of the child in front of those that bring it to its end. -/
theorem Finishes.before (finishes : Finishes reply index after)
    (taken : exchange.next reply activity = some after) (own : activity.Of index)
    (short : (exchange.line index).short = false → (after.line index).short = false)
    (others : ∀ other ≠ index, after.line other = exchange.line other)
    (away : ∀ other ≠ index,
      after.server.children[other]? = exchange.server.children[other]?) :
    Finishes reply index exchange := by
  obtain ⟨run, steps, owns, whole, exited, others', away'⟩ := finishes
  refine ⟨(activity, after) :: run, ⟨taken, steps⟩, List.forall_mem_cons.mpr ⟨own, owns⟩,
    fun full => whole (short full), exited, ?_, ?_⟩
  · exact fun other apart => (others' other apart).trans (others other apart)
  · exact fun other apart => (away' other apart).trans (away other apart)

/-- Where a child may go on outside its handler, it comes to its end when it does from there. -/
theorem Answering.goesOn (answering : Answering reply start exchange)
    (there : exchange.server.children[index]? = some child)
    (next : child.next exchange.server.socketNumber false = some child')
    (permitted : child.phase = .handling → exchange.work index = .sending ⟨[], none⟩)
    (finishes : ∀ server : Server, server.children[index]? = some child' →
      Answering reply start { exchange with server } → Finishes reply index { exchange with server }) :
    Finishes reply index exchange := by
  have inside := (List.getElem?_eq_some_iff.mp there).1
  have allowed : exchange.permits (.run index false) = true := by
    rw [Exchange.permits, there]
    by_cases phase : child.phase = .handling
    · simp [permitted phase]
    · simp [phase]
  have stepped : exchange.server.next (.run index false) =
      some { exchange.server with children := exchange.server.children.set index child' } := by
    simp only [Server.next, there, next, Option.map_some]
  have taken : exchange.next reply (.server (.run index false)) = some { exchange with
      server := { exchange.server with children := exchange.server.children.set index child' } } := by
    rw [Exchange.next, if_pos allowed, stepped, Option.map_some]
  refine Finishes.before (finishes _ (List.getElem?_set_self inside) ?_) taken rfl id
    (fun _ _ => rfl) fun other apart => List.getElem?_set_ne apart.symm
  exact answering.server stepped allowed

/-- A child that has closed the socket exits. -/
theorem Answering.finishes_closed (answering : Answering reply start exchange)
    (there : exchange.server.children[index]? = some child) (phase : child.phase = .closed) :
    Finishes reply index exchange := by
  have next : child.next exchange.server.socketNumber false = some child.ended := by
    simp only [Child.next, phase]
  have sent := ((answering.each index child there).whole (.inr phase)).all
  refine answering.goesOn there next (fun handling => absurd (phase.symm.trans handling) (by decide)) ?_
  intro server there' _
  exact ⟨[], trivial, fun move member => absurd member List.not_mem_nil,
    ⟨sent, ⟨child.ended, there', rfl⟩, fun _ _ => rfl, fun _ _ => rfl⟩⟩

/-- A child whose handler has returned closes the socket and exits. -/
theorem Answering.finishes_handled (answering : Answering reply start exchange)
    (there : exchange.server.children[index]? = some child) (phase : child.phase = .handled) :
    Finishes reply index exchange := by
  have next : child.next exchange.server.socketNumber false =
      some { child with phase := .closed, files := child.files.close child.clientSocket } := by
    simp only [Child.next, phase]
  refine answering.goesOn there next (fun handling => absurd (phase.symm.trans handling) (by decide)) ?_
  intro server there' answering'
  exact answering'.finishes_closed there' rfl

/-- A child with something left to send sends it as its client takes it, and exits, where no fault is
before it. -/
theorem Answering.finishes_sending (listening : Listening start)
    (answering : Answering reply start exchange)
    (there : exchange.server.children[index]? = some child) (phase : child.phase = .handling)
    (sending : exchange.work index = .sending left) (sound : left.fault = none) :
    Finishes reply index exchange := by
  obtain ⟨effects, fault⟩ := left
  obtain rfl : fault = none := sound
  induction effects generalizing exchange with
  | nil =>
    have next : child.next exchange.server.socketNumber false = some { child with phase := .handled } := by
      simp [Child.next, phase]
    refine answering.goesOn there next (fun _ => sending) ?_
    intro server there' answering'
    exact answering'.finishes_handled there' rfl
  | cons effect effects ih =>
    cases effect with
    | opened path =>
      have opens : deliver child.files child.clientSocket 0 exchange.line (.opened path) =
          some exchange.line := rfl
      have next : exchange.next reply (.effect index 0) = some { exchange with
          work := Function.update exchange.work index (.sending ⟨effects, none⟩) } := by
        simp only [Exchange.next, there, phase, sending, opens, Option.map_some]
      have kept := answering.sends listening there phase sending opens
      exact (ih kept there (Function.update_self _ _ _)).before next rfl id (fun _ _ => rfl)
        fun _ _ => rfl
    | sent bytes =>
      -- The client makes room, and the write transfers all of its bytes.
      let room : Exchange := { exchange with
        line := Function.update exchange.line index { exchange.line index with ready := true } }
      let line := (room.line index).write bytes bytes.length
      have takes : exchange.next reply (.take index) = some room := rfl
      have made : Answering reply start room := answering.client rfl rfl
      have ready : (room.line index).ready = true := by
        simp only [room, Function.update_self]
      have sends : deliver child.files child.clientSocket bytes.length room.line (.sent bytes) =
          some (Function.update room.line index line) := by
        simp only [deliver, answering.socket listening there phase, ready, if_true, line]
      have next : room.next reply (.effect index bytes.length) = some ⟨room.server,
          Function.update room.work index (.sending ⟨effects, none⟩),
          Function.update room.line index line⟩ := by
        simp only [room, Exchange.next, there, phase, sending] at sends ⊢
        rw [sends, Option.map_some]
      have kept := made.sends listening there phase sending sends
      have whole : (room.line index).short = false →
          (Function.update room.line index line index).short = false := by
        intro full
        simp [line, Line.write, full]
      have rest : Finishes reply index room :=
        (ih kept there (Function.update_self _ _ _)).before next rfl whole
          (fun other apart => Function.update_of_ne apart _ _) fun _ _ => rfl
      refine rest.before takes rfl (fun full => ?_)
        (fun other apart => Function.update_of_ne apart _ _) fun _ _ => rfl
      simpa [room] using full

/-- A child in its handler comes to its end. -/
theorem Answering.finishes_handling (listening : Listening start)
    (answering : Answering reply start exchange)
    (there : exchange.server.children[index]? = some child) (phase : child.phase = .handling)
    (sound : (reply index).fault = none) : Finishes reply index exchange := by
  cases work : exchange.work index with
  | reading =>
    -- The client sends its request, and the child reads it.
    let heard : Exchange := { exchange with
      line := Function.update exchange.line index { exchange.line index with asked := true } }
    have asked : (heard.line index).asked = true := by
      simp only [heard, Function.update_self]
    have asks : exchange.next reply (.ask index) = some heard := rfl
    have known : Answering reply start heard := answering.client rfl rfl
    have reads : heard.next reply (.read index) = some { heard with
        work := Function.update heard.work index (.sending (reply index)) } := by
      have socket := answering.socket listening there phase
      simp only [heard, Exchange.next, there, phase, work, socket] at asked ⊢
      rw [asked, if_pos rfl]
    have kept := known.reads there phase work
    have sends := kept.finishes_sending listening there phase (Function.update_self _ _ _) sound
    have rest : Finishes reply index heard :=
      sends.before reads rfl id (fun _ _ => rfl) fun _ _ => rfl
    refine rest.before asks rfl (fun full => ?_)
      (fun other apart => Function.update_of_ne apart _ _) fun _ _ => rfl
    simpa [heard] using full
  | sending left =>
    have stage := answering.each index child there
    rw [phase, work] at stage
    cases stage with
    | sending fault rest =>
      exact answering.finishes_sending listening there phase work (fault.trans sound)

/-- A child that no signal ends, and whose handler runs into no fault, needs no step but its own and
its client's to send its response and exit. -/
theorem serveForever_finishes {fs : Nat → FileSystem} {serverFilesDirectory : CString}
    {request : Nat → List UInt8} (listening : Listening start)
    (reached : Reachable (Exchange.Step fs serverFilesDirectory request) (Exchange.opening start)
      exchange)
    (there : exchange.server.children[index]? = some child) (alive : child.phase ≠ .exited)
    (sound : (handleFilesRequest (fs index) serverFilesDirectory (request index)).fault = none) :
    ∃ run, IsRun (Exchange.Step fs serverFilesDirectory request) exchange run ∧
      (∀ move ∈ run, move.1.Of index) ∧
      Finished (fun number => handleFilesRequest (fs number) serverFilesDirectory (request number))
        index exchange (final exchange run) := by
  have answering : Answering _ start exchange :=
    reached.invariant listening.answering fun _ _ _ answering taken => answering.step listening taken
  cases phase : child.phase with
  | forked =>
    have next : child.next exchange.server.socketNumber false = some { child with
        phase := .handling, files := child.files.close exchange.server.socketNumber } := by
      simp only [Child.next, phase]
    refine answering.goesOn there next
      (fun handling => absurd (phase.symm.trans handling) (by decide)) ?_
    intro server there' answering'
    exact answering'.finishes_handling listening there' rfl sound
  | handling => exact answering.finishes_handling listening there phase sound
  | handled => exact answering.finishes_handled there phase
  | closed => exact answering.finishes_closed there phase
  | exited => exact absurd phase alive

/-- The first child, left alone in the middle of its response, comes to the end of it. -/
theorem serveForever_finishes_twoConversations : ∃ run,
    IsRun (Exchange.Step (fun _ => twoPages) wwwDirectory askForPages)
      (final (Exchange.opening listeningServer) twoConversations) run ∧
      (∀ move ∈ run, move.1.Of 0) ∧
      Finished (fun number => handleFilesRequest twoPages wwwDirectory (askForPages number)) 0
        (final (Exchange.opening listeningServer) twoConversations)
        (final (final (Exchange.opening listeningServer) twoConversations) run) := by
  have phase : ((final (Exchange.opening listeningServer) twoConversations).server.children[0]?).map
      Child.phase = some .handling := by decide +kernel
  obtain ⟨child, there, phase⟩ := Option.map_eq_some_iff.mp phase
  exact serveForever_finishes listeningServer_listening twoConversations_isRun.reachable there
    (by rw [phase]; decide) (by decide +kernel)

end OsAssignments.HttpServer

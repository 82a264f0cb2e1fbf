import MoreCpp.Chat.Protocol
import MoreCpp.Library.Attendance
import MoreCpp.Library.TransitionSystem
import Mathlib.Logic.Function.Basic

/-!
`runboost/chat_server.cpp`: a room and the sessions of its clients. The room and
each session have a strand, a queue of handlers that run one at a time in the
order in which they were posted. A handler of a session is one step; the room's
loop over its sessions and a session's `start` take a step for each post, so that
other strands run in between. Reads and writes complete at any time, with or
without an error.
-/

namespace MoreCpp.Chat.Server

open Library

/-- What a message is, besides its text. -/
inductive Origin where
  | greeting
  | notice
  | broadcast
deriving DecidableEq

structure Message where
  origin : Origin
  text : Bytes

/-- A new connection: the random uuid as text, and the address of the client, if
there is one to be had. Neither is printed with a newline. -/
structure Peer where
  uuid : Bytes
  endpoint : Option Bytes
  uuid_notMem : newline ∉ uuid
  endpoint_notMem : ∀ address, endpoint = some address → newline ∉ address

def guestName (peer : Peer) : Bytes := text "guest-" ++ peer.uuid.take 8

def remoteName (peer : Peer) : Bytes := peer.endpoint.getD (text "unknown")

def joinAnnouncement (peer : Peer) : Bytes :=
  serverLine (guestName peer ++ text " joined from " ++ remoteName peer)

def greeting (name : Bytes) : Message where
  origin := .greeting
  text := serverLine (text "connected as " ++ name ++ text ". Commands: /name <name>, /quit")

def notice : Message where
  origin := .notice
  text := serverLine (text "message too large; closing connection")

/-- Handlers of a session's strand, with what they are called with. -/
inductive Handler where
  | deliver (message : Message)
  /-- The bytes transferred, or an error. -/
  | onRead (result : Option Nat)
  | onWrite (ok : Bool)

/-- Calls on a socket that send or end something. -/
inductive SocketCall where
  | asyncWrite (message : Message)
  | close

/-- A `chat_session`, its strand and its socket. -/
structure Conn where
  peer : Peer
  name : Bytes
  input : Bytes
  outbox : List Message
  stopped : Bool
  strand : List Handler
  /-- Reads and writes that are under way. -/
  reads : Nat
  writes : Nat
  socket : List SocketCall

/-- Handlers of the room's strand. -/
inductive RoomHandler (Session : Type*) where
  | join (session : Session) (announcement : Bytes)
  | leave (session : Session) (announcement : Bytes)
  | broadcast (message : Bytes)

section Session

variable {Session : Type*}

namespace Conn

def new (peer : Peer) : Conn where
  peer := peer
  name := guestName peer
  input := []
  outbox := []
  stopped := false
  strand := []
  reads := 0
  writes := 0
  socket := []

def post (handler : Handler) (c : Conn) : Conn := { c with strand := c.strand ++ [handler] }

def deliver (message : Message) (c : Conn) : Conn := c.post (.deliver message)

def doRead (c : Conn) : Conn := { c with reads := c.reads + 1 }

/-- `none` for the front of an empty outbox. -/
def doWrite (c : Conn) : Option Conn :=
  match c.outbox with
  | [] => none
  | front :: _ =>
      some { c with writes := c.writes + 1, socket := c.socket ++ [.asyncWrite front] }

/-- What a handler leaves, and what it posts to the room. -/
abbrev Outcome (Session : Type*) := Conn × List (RoomHandler Session)

def stop (self : Session) (announcement : Bytes) (c : Conn) : Outcome Session :=
  if c.stopped then (c, [])
  else ({ c with stopped := true, socket := c.socket ++ [.close] }, [.leave self announcement])

def left (c : Conn) : Bytes := serverLine (c.name ++ text " left")

/-- The handler that `deliver` posts. -/
def onDeliver (message : Message) (c : Conn) : Option Conn :=
  if c.stopped then some c
  else
    let c' := { c with outbox := c.outbox ++ [message] }
    if c.outbox.isEmpty then c'.doWrite else some c'

/-- A line that is not too large. -/
def onLine (line : Bytes) (self : Session) (c : Conn) : Outcome Session :=
  if line = [] then (c.doRead, [])
  else if line = text "/quit" then c.stop self c.left
  else if (text "/name ").isPrefixOf line then
    let newName := trim (line.drop (text "/name ").length)
    if newName = [] then (c.doRead, [])
    else (({ c with name := newName }).doRead,
      [.broadcast (serverLine (c.name ++ text " is now " ++ newName))])
  else (c.doRead, [.broadcast (toWireLine (c.name ++ text ": " ++ line))])

def onRead (result : Option Nat) (self : Session) (c : Conn) : Outcome Session :=
  match result with
  | none => c.stop self c.left
  | some bytesTransferred =>
      if maxLineSize < bytesTransferred then
        (c.deliver notice).stop self
          (serverLine (c.name ++ text " was disconnected after sending an oversized message"))
      else
        onLine (trimWireLine (firstLine newline c.input)) self
          { c with input := afterLine newline c.input }

/-- `none` for the front of an empty outbox. -/
def onWrite (ok : Bool) (self : Session) (c : Conn) : Option (Outcome Session) :=
  if ok then
    match c.outbox with
    | [] => none
    | _ :: rest =>
        let c := { c with outbox := rest }
        if rest.isEmpty then some (c, []) else c.doWrite.map (·, [])
  else some (c.stop self c.left)

def run (handler : Handler) (self : Session) (c : Conn) : Option (Outcome Session) :=
  match handler with
  | .deliver message => (c.onDeliver message).map (·, [])
  | .onRead result => some (c.onRead result self)
  | .onWrite ok => c.onWrite ok self

end Conn

section Room

variable [DecidableEq Session]

/-- `sessions_` afterwards, what is broadcast then, and what has happened. -/
def RoomHandler.run (members : List Session) :
    RoomHandler Session → List Session × Option Bytes × List (Event Session Bytes)
  | .join session announcement =>
      (if session ∈ members then members else session :: members, some announcement,
        [.inserted session])
  | .leave session announcement =>
      if session ∈ members then
        (members.erase session, if announcement = [] then none else some announcement,
          [.erased session])
      else (members, none, [])
  | .broadcast message => (members, some message, [])

end Room

/-- What is left of `start` of the session accepted last. -/
inductive Starting where
  | deliver
  | doRead

structure State (Session : Type*) where
  conn : Session → Option Conn
  accepting : Option (Session × Starting)
  members : List Session
  strand : List (RoomHandler Session)
  /-- The loop of `broadcast_now`: the message, and the sessions that do not have it yet. -/
  delivering : Option (Bytes × List Session)
  history : List (Event Session Bytes)

def State.initial (Session : Type*) : State Session :=
  ⟨fun _ => none, none, [], [], none, []⟩

inductive Label (Session : Type*) where
  | accept (session : Session)
  | start (session : Session)
  | readCompletes (session : Session)
  | writeCompletes (session : Session)
  | session (session : Session)
  | room
  | deliver

variable [DecidableEq Session]

def State.setConn (σ : State Session) (s : Session) (c : Conn) : State Session :=
  { σ with conn := Function.update σ.conn s (some c) }

inductive Step : State Session → Label Session → State Session → Prop where
  /-- A session is made, and its `start` posts `join` to the room. -/
  | accept {σ : State Session} (s : Session) (peer : Peer) (hidle : σ.accepting = none)
      (hnew : σ.conn s = none) :
      Step σ (.accept s) { σ.setConn s (Conn.new peer) with
        accepting := some (s, .deliver)
        strand := σ.strand ++ [.join s (joinAnnouncement peer)] }
  | startDeliver {σ : State Session} {s : Session} {c : Conn}
      (hstarting : σ.accepting = some (s, .deliver)) (hc : σ.conn s = some c) :
      Step σ (.start s) { σ.setConn s (c.deliver (greeting c.name)) with
        accepting := some (s, .doRead) }
  | startDoRead {σ : State Session} {s : Session} {c : Conn}
      (hstarting : σ.accepting = some (s, .doRead)) (hc : σ.conn s = some c) :
      Step σ (.start s) { σ.setConn s c.doRead with accepting := none }
  /-- Bytes arrive, with a newline among those not consumed. -/
  | readOk {σ : State Session} {s : Session} {c : Conn} (hc : σ.conn s = some c)
      (hreads : 0 < c.reads) (data : Bytes) (hline : newline ∈ c.input ++ data) :
      Step σ (.readCompletes s) (σ.setConn s (Conn.post
        (.onRead (some ((firstLine newline (c.input ++ data)).length + 1)))
        { c with reads := c.reads - 1, input := c.input ++ data }))
  | readError {σ : State Session} {s : Session} {c : Conn} (hc : σ.conn s = some c)
      (hreads : 0 < c.reads) :
      Step σ (.readCompletes s)
        (σ.setConn s (Conn.post (.onRead none) { c with reads := c.reads - 1 }))
  | write {σ : State Session} {s : Session} {c : Conn} (hc : σ.conn s = some c)
      (hwrites : 0 < c.writes) (ok : Bool) :
      Step σ (.writeCompletes s)
        (σ.setConn s (Conn.post (.onWrite ok) { c with writes := c.writes - 1 }))
  /-- The next handler of a session's strand runs. -/
  | session {σ : State Session} {s : Session} {c : Conn} {handler : Handler}
      {rest : List Handler} {outcome : Conn.Outcome Session} (hc : σ.conn s = some c)
      (hstrand : c.strand = handler :: rest)
      (hrun : Conn.run handler s { c with strand := rest } = some outcome) :
      Step σ (.session s) { σ.setConn s outcome.1 with strand := σ.strand ++ outcome.2 }
  /-- The next handler of the room's strand runs, up to the loop of `broadcast_now`. -/
  | room {σ : State Session} {handler : RoomHandler Session}
      {rest : List (RoomHandler Session)} {members : List Session} {message : Option Bytes}
      {events : List (Event Session Bytes)} (hidle : σ.delivering = none)
      (hstrand : σ.strand = handler :: rest)
      (hrun : handler.run σ.members = (members, message, events))
      (todo : List Session) (htodo : todo.Perm members) :
      Step σ .room { σ with
        strand := rest
        members := members
        delivering := message.map (·, todo)
        history := σ.history ++ events ++ message.toList.map .said }
  | deliver {σ : State Session} {message : Bytes} {s : Session} {todo : List Session} {c : Conn}
      (hdelivering : σ.delivering = some (message, s :: todo)) (hc : σ.conn s = some c) :
      Step σ .deliver { σ.setConn s (c.deliver ⟨.broadcast, message⟩) with
        delivering := some (message, todo) }
  | delivered {σ : State Session} {message : Bytes} (hdelivering : σ.delivering = some (message, [])) :
      Step σ .deliver { σ with delivering := none }

def system (Session : Type*) [DecidableEq Session] : System (State Session) (Label Session) where
  Init σ := σ = State.initial Session
  Step := Step

/-! ### The first client -/

def State.accepted (s : Session) (peer : Peer) : State Session where
  conn := Function.update (fun _ => none) s (some (Conn.new peer))
  accepting := some (s, .deliver)
  members := []
  strand := [.join s (joinAnnouncement peer)]
  delivering := none
  history := []

def State.joined (s : Session) (peer : Peer) : State Session :=
  { State.accepted s peer with
    strand := []
    members := [s]
    delivering := some (joinAnnouncement peer, [s])
    history := [.inserted s, .said (joinAnnouncement peer)] }

theorem reachable_accepted (s : Session) (peer : Peer) :
    (system Session).Reachable (.accepted s peer) :=
  .next (.start rfl) (Step.accept s peer rfl rfl)

theorem reachable_joined (s : Session) (peer : Peer) :
    (system Session).Reachable (.joined s peer) := by
  have hrun : RoomHandler.run [] (.join s (joinAnnouncement peer)) =
      ([s], some (joinAnnouncement peer), [.inserted s]) := rfl
  exact .next (reachable_accepted s peer)
    (@Step.room Session _ (.accepted s peer) _ _ _ _ _ rfl rfl hrun [s] (.refl _))

/-- A client on the same machine. -/
def guest : Peer where
  uuid := text "1b4e28ba-2fa1-11d2-883f-0016d3cca427"
  endpoint := some (text "127.0.0.1:50000")
  uuid_notMem := by decide
  endpoint_notMem := fun _ h => Option.some.inj h ▸ by decide

end Session

end MoreCpp.Chat.Server

import MoreCpp.Chat.Protocol
import MoreCpp.Library.TransitionSystem

/-!
`runboost/chat_client.cpp`: the client, whose handlers run one at a time on its
strand in the order in which they were posted. Calls come from other threads at
any time, and what was started completes at any time, with or without an error.
`io_.stop()` ends the event loop, but handlers the strand has already taken up
still run.
-/

namespace MoreCpp.Chat.Client

open Library

/-- What other threads ask of the client. -/
inductive Call where
  | write (line : Bytes)
  | writeAndClose (line : Bytes)
  | close

/-- The message a call passes on. -/
def Call.message? : Call → Option Bytes
  | .write line | .writeAndClose line => some (toWireLine line)
  | .close => none

/-- Handlers of the strand; `ok` when there was no error. -/
inductive Handler where
  | call (call : Call)
  | onResolve (ok : Bool)
  | onConnect (ok : Bool)
  | onRead (ok : Bool)
  | onWrite (ok : Bool)

inductive SocketCall where
  | asyncWrite (message : Bytes)
  | close

structure ChatClient where
  name : Bytes
  input : Bytes
  outbox : List Bytes
  closed : Bool
  connected : Bool
  closeAfterWrite : Bool
  strand : List Handler
  /-- Operations that are under way. -/
  resolving : Nat
  connecting : Nat
  reads : Nat
  writes : Nat
  socket : List SocketCall
  ioStopped : Bool
  /-- The lines of the server, as they were shown. -/
  shown : List Bytes
  /-- The messages that were written completely, and the calls made. -/
  written : List Bytes
  calls : List Call

namespace ChatClient

/-- After `start`. -/
def initial (name : Bytes) : ChatClient where
  name := name
  input := []
  outbox := []
  closed := false
  connected := false
  closeAfterWrite := false
  strand := []
  resolving := 1
  connecting := 0
  reads := 0
  writes := 0
  socket := []
  ioStopped := false
  shown := []
  written := []
  calls := []

def post (handler : Handler) (c : ChatClient) : ChatClient := { c with strand := c.strand ++ [handler] }

def doRead (c : ChatClient) : ChatClient := { c with reads := c.reads + 1 }

/-- `none` for the front of an empty outbox. -/
def doWrite (c : ChatClient) : Option ChatClient :=
  match c.outbox with
  | [] => none
  | front :: _ =>
      some { c with writes := c.writes + 1, socket := c.socket ++ [.asyncWrite front] }

def closeNow (c : ChatClient) : ChatClient :=
  if c.closed then c
  else { c with closed := true, socket := c.socket ++ [.close], ioStopped := true }

def enqueueWrite (message : Bytes) (c : ChatClient) : Option ChatClient :=
  if c.closed then some c
  else
    let c' := { c with outbox := c.outbox ++ [message] }
    if c.connected && c.outbox.isEmpty then c'.doWrite else some c'

def onCall (call : Call) (c : ChatClient) : Option ChatClient :=
  match call with
  | .write line => c.enqueueWrite (toWireLine line)
  | .writeAndClose line => ({ c with closeAfterWrite := true }).enqueueWrite (toWireLine line)
  | .close => some c.closeNow

def onResolve (ok : Bool) (c : ChatClient) : ChatClient :=
  if ok then { c with connecting := c.connecting + 1 } else { c with ioStopped := true }

/-- The `/name` line, for a name. -/
def nameLines (name : Bytes) : List Bytes :=
  if name = [] then [] else [toWireLine (text "/name " ++ name)]

def onConnect (ok : Bool) (c : ChatClient) : Option ChatClient :=
  if ok then
    let c := { c with connected := true, outbox := nameLines c.name ++ c.outbox }
    if c.outbox.isEmpty then some c.doRead else c.doRead.doWrite
  else some { c with ioStopped := true }

def onRead (ok : Bool) (c : ChatClient) : ChatClient :=
  if ok then
    doRead { c with
      input := afterLine newline c.input
      shown := c.shown ++ [trimWireLine (firstLine newline c.input)] }
  else c.closeNow

/-- `none` for the front of an empty outbox. -/
def onWrite (ok : Bool) (c : ChatClient) : Option ChatClient :=
  if ok then
    match c.outbox with
    | [] => none
    | _ :: rest =>
        let c := { c with outbox := rest }
        if rest.isEmpty then some (if c.closeAfterWrite then c.closeNow else c) else c.doWrite
  else some c.closeNow

def run (handler : Handler) (c : ChatClient) : Option ChatClient :=
  match handler with
  | .call call => c.onCall call
  | .onResolve ok => some (c.onResolve ok)
  | .onConnect ok => c.onConnect ok
  | .onRead ok => some (c.onRead ok)
  | .onWrite ok => c.onWrite ok

end ChatClient

inductive Label where
  | call (call : Call)
  | resolveCompletes (ok : Bool)
  | connectCompletes (ok : Bool)
  | readCompletes (ok : Bool)
  | writeCompletes (ok : Bool)
  | handler

inductive Step : ChatClient → Label → ChatClient → Prop where
  | call {c : ChatClient} (call : Call) :
      Step c (.call call) (ChatClient.post (.call call) { c with calls := c.calls ++ [call] })
  | resolve {c : ChatClient} (hresolving : 0 < c.resolving) (ok : Bool) :
      Step c (.resolveCompletes ok)
        (ChatClient.post (.onResolve ok) { c with resolving := c.resolving - 1 })
  | connect {c : ChatClient} (hconnecting : 0 < c.connecting) (ok : Bool) :
      Step c (.connectCompletes ok)
        (ChatClient.post (.onConnect ok) { c with connecting := c.connecting - 1 })
  /-- Bytes arrive, with a newline among those not consumed. -/
  | readOk {c : ChatClient} (hreads : 0 < c.reads) (data : Bytes)
      (hline : newline ∈ c.input ++ data) :
      Step c (.readCompletes true)
        (ChatClient.post (.onRead true) { c with reads := c.reads - 1, input := c.input ++ data })
  | readError {c : ChatClient} (hreads : 0 < c.reads) :
      Step c (.readCompletes false)
        (ChatClient.post (.onRead false) { c with reads := c.reads - 1 })
  /-- The buffer of a write is the message in front of the outbox. -/
  | writeOk {c : ChatClient} (hwrites : 0 < c.writes) (front : Bytes) (rest : List Bytes)
      (houtbox : c.outbox = front :: rest) :
      Step c (.writeCompletes true) (ChatClient.post (.onWrite true)
        { c with writes := c.writes - 1, written := c.written ++ [front] })
  | writeError {c : ChatClient} (hwrites : 0 < c.writes) :
      Step c (.writeCompletes false)
        (ChatClient.post (.onWrite false) { c with writes := c.writes - 1 })
  /-- The next handler of the strand runs. -/
  | handler {c c' : ChatClient} {handler : Handler} {rest : List Handler}
      (hstrand : c.strand = handler :: rest)
      (hrun : ChatClient.run handler { c with strand := rest } = some c') : Step c .handler c'

/-- A client with a name, from the call of `start` on. -/
def system (name : Bytes) : System ChatClient Label where
  Init c := c = ChatClient.initial name
  Step := Step

/-- No operation ends with an error. -/
def Label.NoError : Label → Prop
  | .call _ | .handler => True
  | .resolveCompletes ok | .connectCompletes ok | .readCompletes ok | .writeCompletes ok =>
      ok = true

/-! ### The program -/

/-- What the input thread is doing: it reads, or it has seen `/quit` or the end of
the input. -/
inductive Input where
  | reading
  | quit
  | ended
deriving DecidableEq

/-- The client and the input thread of `main`. -/
structure Main where
  client : ChatClient
  input : Input
  /-- The lines read so far, `/quit` apart. -/
  lines : List Bytes

def Main.initial (name : Bytes) : Main := ⟨.initial name, .reading, []⟩

inductive MainLabel where
  | line (line : Bytes)
  | quit
  | endOfInput
  | signal
  | client (label : Label)

/-- The call that is made in a step of the client. -/
def Label.call? : Label → Option Call
  | .call asked => some asked
  | _ => none

inductive MainStep : Main → MainLabel → Main → Prop where
  | line {m : Main} {client : ChatClient} (hreading : m.input = .reading) (line : Bytes)
      (hnewline : newline ∉ line) (hline : line ≠ text "/quit")
      (hcall : Step m.client (.call (.write line)) client) :
      MainStep m (.line line) { m with client := client, lines := m.lines ++ [line] }
  | quit {m : Main} {client : ChatClient} (hreading : m.input = .reading)
      (hcall : Step m.client (.call (.writeAndClose (text "/quit"))) client) :
      MainStep m .quit { m with client := client, input := .quit }
  | endOfInput {m : Main} {client : ChatClient} (hreading : m.input = .reading)
      (hcall : Step m.client (.call .close) client) :
      MainStep m .endOfInput { m with client := client, input := .ended }
  /-- `SIGINT` or `SIGTERM`. -/
  | signal {m : Main} {client : ChatClient} (hcall : Step m.client (.call .close) client) :
      MainStep m .signal { m with client := client }
  | client {m : Main} {client : ChatClient} {label : Label} (hlabel : label.call? = none)
      (hstep : Step m.client label client) :
      MainStep m (.client label) { m with client := client }

/-- The program, for the name of a client. -/
def main (name : Bytes) : System Main MainLabel where
  Init m := m = Main.initial name
  Step := MainStep

end MoreCpp.Chat.Client

import MoreCpp.Chat.Client.Effect
import MoreCpp.Library.MessageStream

/-!
The writes of the client. Messages wait in the outbox until there is a
connection, and then go behind the `/name` line; from there on the outbox is a
pipeline of one write at a time. What is enqueued is what the calls asked for, in
their order, until the socket is closed.
-/

namespace MoreCpp.Chat.Client

open Library

def Handler.call? : Handler → Option Call
  | .call asked => some asked
  | _ => none

def Handler.isWrite : Handler → Bool
  | .onWrite _ => true
  | _ => false

/-- On the way to a connection. -/
def Handler.isConnecting : Handler → Bool
  | .onResolve _ | .onConnect _ => true
  | _ => false

def SocketCall.message? : SocketCall → Option Bytes
  | .asyncWrite message => some message
  | .close => none

def messages (calls : List Call) : List Bytes := calls.filterMap Call.message?

namespace ChatClient

/-- Calls whose handlers have not run. -/
def pending (c : ChatClient) : List Call := c.strand.filterMap Handler.call?

/-- Messages whose writes were started. -/
def started (c : ChatClient) : List Bytes := c.socket.filterMap SocketCall.message?

/-- Writes that have ended and whose handlers have not run. -/
def finished (c : ChatClient) : Nat := c.strand.countP Handler.isWrite

def inFlight (c : ChatClient) : Nat := c.writes + c.finished

/-- Ways in which the client is or may still be connected. -/
def attempts (c : ChatClient) : Nat :=
  c.resolving + c.connecting + c.strand.countP Handler.isConnecting + c.connected.toNat

/-- A client before its first handler runs, given what it is without it. -/
def before (handler : Handler) (c : ChatClient) : ChatClient :=
  { c with strand := handler :: c.strand }

theorem eq_before {c : ChatClient} {handler : Handler} {rest : List Handler}
    (hstrand : c.strand = handler :: rest) : c = before handler { c with strand := rest } := by
  rw [before, ← hstrand]

theorem finished_before (handler : Handler) (c : ChatClient) :
    (c.before handler).finished = c.finished + if handler.isWrite then 1 else 0 := by
  rw [finished, before, List.countP_cons]
  rfl

theorem inFlight_before (handler : Handler) (c : ChatClient) :
    (c.before handler).inFlight = c.inFlight + if handler.isWrite then 1 else 0 := by
  rw [inFlight, finished_before, ← Nat.add_assoc]
  rfl

theorem attempts_before (handler : Handler) (c : ChatClient) :
    (c.before handler).attempts = c.attempts + if handler.isConnecting then 1 else 0 := by
  simp only [attempts, before, List.countP_cons]
  omega

theorem pending_before (handler : Handler) (c : ChatClient) :
    (c.before handler).pending = handler.call?.toList ++ c.pending := by
  cases handler <;> rfl

theorem started_concat (c : ChatClient) (call : SocketCall) :
    started { c with socket := c.socket ++ [call] } = c.started ++ call.message?.toList := by
  cases call <;> simp [started, SocketCall.message?]

theorem closeNow_closed (c : ChatClient) : c.closeNow.closed = true := by
  unfold closeNow
  split
  · assumption
  · rfl

theorem closeNow_started (c : ChatClient) : c.closeNow.started = c.started := by
  unfold closeNow
  split
  · rfl
  · exact (started_concat c .close).trans (List.append_nil _)

/-- How far the writes have come, of the messages enqueued so far. -/
inductive Phase (c : ChatClient) (accepted : List Bytes) : Prop where
  | waiting (hconnected : c.connected = false) (hidle : c.inFlight = 0)
      (hstarted : c.started = []) (hwritten : c.written = []) (houtbox : c.outbox = accepted)
  | writing {sent : List Bytes} (hconnected : c.connected = true)
      (hpipeline : Pipeline c.inFlight c.outbox c.started sent (nameLines c.name ++ accepted))
      (hwritten : c.written = sent ++ c.outbox.take c.finished)

namespace Phase

variable {c c' : ChatClient} {accepted : List Bytes} {handler : Handler}

theorem inFlight_le (h : c.Phase accepted) : c.inFlight ≤ 1 := by
  cases h with
  | waiting _ hidle => omega
  | writing _ hpipeline => exact hpipeline.writes_le

theorem written_isPrefix (h : c.Phase accepted) : c.written <+: nameLines c.name ++ accepted := by
  cases h with
  | waiting _ _ _ hwritten =>
      rw [hwritten]
      exact List.nil_prefix
  | writing _ hpipeline hwritten =>
      rw [hwritten, hpipeline.sent_append]
      exact (List.prefix_append_right_inj _).mpr (List.take_prefix _ _)

theorem started_eq_nil (h : c.Phase accepted) (hconnected : c.connected = false) :
    c.started = [] := by
  cases h with
  | waiting _ _ hstarted => exact hstarted
  | writing hopen => exact absurd (hopen.symm.trans hconnected) nofun

theorem outbox_ne_nil (h : c.Phase accepted) (hpos : 0 < c.inFlight) : c.outbox ≠ [] := by
  cases h with
  | waiting _ hidle => omega
  | writing _ hpipeline => exact hpipeline.outbox_ne_nil hpos

/-- No handler reads the front of an empty outbox. -/
theorem run_isSome (h : (c.before handler).Phase accepted) : (run handler c).isSome = true := by
  have henqueue : ∀ (c : ChatClient) message, (c.enqueueWrite message).isSome = true := by
    intro c message
    unfold enqueueWrite
    split
    · rfl
    · cases houtbox : c.outbox <;> simp only [doWrite] <;> split <;> rfl
  cases handler with
  | call call =>
      cases call with
      | write line => exact henqueue _ _
      | writeAndClose line => exact henqueue _ _
      | close => rfl
  | onResolve ok => rfl
  | onConnect ok =>
      cases ok with
      | false => rfl
      | true =>
          simp only [run, onConnect, if_true]
          cases nameLines c.name ++ c.outbox <;> rfl
  | onRead ok => rfl
  | onWrite ok =>
      cases ok with
      | false => rfl
      | true =>
          have hpos : 0 < (c.before (.onWrite true)).inFlight := by
            rw [inFlight_before]
            exact Nat.succ_pos _
          have hne : c.outbox ≠ [] := h.outbox_ne_nil hpos
          obtain ⟨front, rest, houtbox⟩ := List.exists_cons_of_ne_nil hne
          cases rest <;> simp [run, onWrite, doWrite, houtbox]

theorem of_eq (h : c.Phase accepted) (hconnected : c'.connected = c.connected)
    (hname : c'.name = c.name) (houtbox : c'.outbox = c.outbox) (hwrites : c'.writes = c.writes)
    (hfinished : c'.finished = c.finished) (hstarted : c'.started = c.started)
    (hwritten : c'.written = c.written) : c'.Phase accepted := by
  have hinFlight : c'.inFlight = c.inFlight := by rw [inFlight, hwrites, hfinished, inFlight]
  cases h with
  | waiting hopen hidle hstart hnone hout =>
      exact .waiting (hconnected.trans hopen) (hinFlight.trans hidle) (hstarted.trans hstart)
        (hwritten.trans hnone) (houtbox.trans hout)
  | writing hopen hpipeline hdone =>
      rw [← hinFlight, ← houtbox, ← hstarted, ← hname] at hpipeline
      rw [← hwritten, ← houtbox, ← hfinished] at hdone
      exact .writing (hconnected.trans hopen) hpipeline hdone

theorem closeNow (h : c.Phase accepted) : c.closeNow.Phase accepted := by
  obtain ⟨houtbox, hconnected, hname, hstrand, hwrites, hwritten, -⟩ := c.closeNow_eq
  exact h.of_eq hconnected hname houtbox hwrites (by rw [finished, hstrand, finished])
    c.closeNow_started hwritten

theorem post (h : c.Phase accepted) (hhandler : handler.isWrite = false) :
    (c.post handler).Phase accepted := by
  refine h.of_eq rfl rfl rfl rfl ?_ rfl rfl
  simp [finished, ChatClient.post, hhandler]

/-- A handler that ends no write has its turn. -/
theorem of_before (h : (c.before handler).Phase accepted) (hhandler : handler.isWrite = false) :
    c.Phase accepted := by
  refine h.of_eq rfl rfl rfl rfl ?_ rfl rfl
  simp [finished_before, hhandler]

/-- A write completes. -/
theorem writeOk (h : c.Phase accepted) (hwrites : 0 < c.writes) {front : Bytes} {rest : List Bytes}
    (houtbox : c.outbox = front :: rest) :
    (ChatClient.post (.onWrite true)
      { c with writes := c.writes - 1, written := c.written ++ [front] }).Phase accepted := by
  have hfinished : finished (ChatClient.post (.onWrite true)
      { c with writes := c.writes - 1, written := c.written ++ [front] }) = c.finished + 1 := by
    simp [finished, ChatClient.post, Handler.isWrite]
  have hinFlight : inFlight (ChatClient.post (.onWrite true)
      { c with writes := c.writes - 1, written := c.written ++ [front] }) = c.inFlight := by
    rw [inFlight, hfinished, inFlight]
    change c.writes - 1 + (c.finished + 1) = _
    omega
  cases h with
  | waiting _ hidle =>
      rw [inFlight] at hidle
      omega
  | @writing sent hopen hpipeline hwritten =>
      have hle := hpipeline.writes_le
      have hnone : c.finished = 0 := by
        rw [inFlight] at hle
        omega
      refine .writing hopen (hinFlight ▸ hpipeline) ?_
      change c.written ++ [front] = sent ++ c.outbox.take _
      rw [hfinished, hwritten, hnone, houtbox]
      simp

/-- A write is started. -/
theorem pipeline_write {c c' : ChatClient} {message : Bytes} {sent all : List Bytes}
    (hwrites : c'.writes = c.writes + 1) (hstrand : c'.strand = c.strand)
    (hsocket : c'.socket = c.socket ++ [.asyncWrite message])
    (h : Pipeline (c.inFlight + 1) c'.outbox (c.started ++ [message]) sent all) :
    Pipeline c'.inFlight c'.outbox c'.started sent all := by
  have hinFlight : c'.inFlight = c.inFlight + 1 := by
    rw [inFlight, finished, hwrites, hstrand, inFlight, finished]
    omega
  have hstarted : c'.started = c.started ++ [message] := by
    rw [started, hsocket]
    exact started_concat c (.asyncWrite message)
  rwa [hinFlight, hstarted]

/-- A message waits behind others, or for the connection. -/
theorem queued (h : c.Phase accepted) (hwait : c.connected = true → c.outbox ≠ [])
    (message : Bytes) (flag : Bool) :
    ({ c with closeAfterWrite := flag, outbox := c.outbox ++ [message] } : ChatClient).Phase
      (accepted ++ [message]) := by
  cases h with
  | waiting hopen hidle hstarted hwritten houtbox =>
      exact .waiting hopen hidle hstarted hwritten (congrArg (· ++ [message]) houtbox)
  | @writing sent hopen hpipeline hwritten =>
      obtain ⟨front, more, houtbox⟩ := List.exists_cons_of_ne_nil (hwait hopen)
      have hle := hpipeline.writes_le
      rw [houtbox] at hpipeline hwritten
      have hput := hpipeline.put_busy message
      rw [← houtbox, List.append_assoc] at hput
      refine .writing hopen hput ?_
      change c.written = sent ++ (c.outbox ++ [message]).take c.finished
      rw [hwritten, houtbox, List.take_append_of_le_length]
      rw [inFlight] at hle
      rw [List.length_cons]
      omega

/-- A message finds the outbox empty, and its write starts. -/
theorem put (h : c.Phase accepted) (hconnected : c.connected = true) (hidle : c.outbox = [])
    (message : Bytes) (flag : Bool) :
    ({ c with
      closeAfterWrite := flag
      outbox := [message]
      writes := c.writes + 1
      socket := c.socket ++ [.asyncWrite message] } : ChatClient).Phase
      (accepted ++ [message]) := by
  cases h with
  | waiting hopen => exact absurd (hopen.symm.trans hconnected) nofun
  | @writing sent hopen hpipeline hwritten =>
      rw [hidle] at hpipeline hwritten
      have hput := hpipeline.put_idle message
      have hnone : c.finished = 0 := by
        cases hsplit : c.inFlight with
        | zero =>
            rw [inFlight] at hsplit
            omega
        | succ n =>
            rw [hsplit] at hpipeline
            exact absurd rfl (hpipeline.outbox_ne_nil (Nat.succ_pos n))
      rw [List.append_assoc] at hput
      refine .writing hopen (pipeline_write rfl rfl rfl hput) ?_
      change c.written = sent ++ [message].take c.finished
      rw [hwritten, hnone]
      rfl

/-- What waited for the connection goes behind the `/name` line. -/
theorem waiting_eq (h : c.Phase accepted) (hconnected : c.connected = false) :
    c.inFlight = 0 ∧ c.finished = 0 ∧ c.started = [] ∧ c.written = [] ∧ c.outbox = accepted := by
  cases h with
  | waiting _ hidle hstarted hwritten houtbox =>
      refine ⟨hidle, ?_, hstarted, hwritten, houtbox⟩
      rw [inFlight] at hidle
      omega
  | writing hopen => exact absurd (hopen.symm.trans hconnected) nofun

theorem connected (h : c.Phase accepted) (hconnected : c.connected = false)
    (houtbox : nameLines c.name ++ c.outbox = []) :
    ({ c with connected := true, outbox := [], reads := c.reads + 1 } : ChatClient).Phase
      accepted := by
  obtain ⟨hidle, -, hstarted, hwritten, rfl⟩ := h.waiting_eq hconnected
  have hpipeline : Pipeline c.inFlight [] c.started [] (nameLines c.name ++ c.outbox) := by
    rw [hidle, hstarted, houtbox]
    exact .idle []
  refine .writing rfl hpipeline ?_
  rw [List.take_nil]
  exact hwritten

theorem connectedWrites (h : c.Phase accepted) (hconnected : c.connected = false) {front : Bytes}
    {rest : List Bytes} (houtbox : nameLines c.name ++ c.outbox = front :: rest) :
    ({ c with
      connected := true
      outbox := front :: rest
      reads := c.reads + 1
      writes := c.writes + 1
      socket := c.socket ++ [.asyncWrite front] } : ChatClient).Phase accepted := by
  obtain ⟨hidle, hnone, hstarted, hwritten, rfl⟩ := h.waiting_eq hconnected
  have hpipeline : Pipeline (c.inFlight + 1) (front :: rest) (c.started ++ [front]) []
      (nameLines c.name ++ c.outbox) := by
    rw [hidle, hstarted, houtbox]
    exact .busy [] front rest
  refine .writing rfl (pipeline_write rfl rfl rfl hpipeline) ?_
  change c.written = [] ++ (front :: rest).take c.finished
  rw [hwritten, hnone]
  rfl

/-- A write has ended, and its handler has its turn. -/
theorem ended (h : (c.before (.onWrite true)).Phase accepted) :
    c.connected = true ∧ c.finished = 0 ∧ ∃ sent,
      Pipeline (c.inFlight + 1) c.outbox c.started sent (nameLines c.name ++ accepted) ∧
      c.written = sent ++ c.outbox.take 1 := by
  have hle := h.inFlight_le
  rw [inFlight_before] at hle
  have hnone : c.finished = 0 := by
    change c.inFlight + 1 ≤ 1 at hle
    rw [inFlight] at hle
    omega
  cases h with
  | waiting _ hidle =>
      rw [inFlight_before] at hidle
      exact absurd hidle (Nat.succ_ne_zero _)
  | writing hopen hpipeline hwritten =>
      rw [inFlight_before] at hpipeline
      rw [finished_before, hnone] at hwritten
      exact ⟨hopen, hnone, _, hpipeline, hwritten⟩

theorem last (h : (c.before (.onWrite true)).Phase accepted) {message : Bytes}
    (houtbox : c.outbox = [message]) :
    ({ c with outbox := [] } : ChatClient).Phase accepted := by
  obtain ⟨hconnected, -, sent, hpipeline, hwritten⟩ := h.ended
  rw [houtbox] at hpipeline hwritten
  refine .writing hconnected hpipeline.finish_last ?_
  rw [List.take_nil, List.append_nil]
  exact hwritten

theorem next (h : (c.before (.onWrite true)).Phase accepted) {message next : Bytes}
    {rest : List Bytes} (houtbox : c.outbox = message :: next :: rest) :
    ({ c with
      outbox := next :: rest
      writes := c.writes + 1
      socket := c.socket ++ [.asyncWrite next] } : ChatClient).Phase accepted := by
  obtain ⟨hconnected, hnone, sent, hpipeline, hwritten⟩ := h.ended
  rw [houtbox] at hpipeline hwritten
  refine .writing hconnected (pipeline_write rfl rfl rfl hpipeline.finish_next) ?_
  change c.written = sent ++ [message] ++ (next :: rest).take c.finished
  rw [hnone, List.take_zero, List.append_nil]
  exact hwritten

end Phase

/-- Connected, and nothing is left to write. -/
def Drained (c : ChatClient) : Prop := c.connected = true ∧ c.outbox = []

theorem Phase.written_eq {c : ChatClient} {accepted : List Bytes} (h : c.Phase accepted)
    (hdrained : c.Drained) : c.written = nameLines c.name ++ accepted := by
  obtain ⟨hconnected, houtbox⟩ := hdrained
  cases h with
  | waiting hopen => exact absurd (hopen.symm.trans hconnected) nofun
  | writing _ hpipeline hwritten =>
      rw [hpipeline.sent_append, hwritten, houtbox, List.take_nil]

/-- The calls whose handlers have run, and the messages they enqueued. Once the
socket is closed no more are enqueued; without a call of `close` all were written
by then, and the last of them was enqueued by a `write_and_close` or later. -/
structure Served (c : ChatClient) (handled : List Call) (accepted : List Bytes) : Prop where
  calls : c.calls = handled ++ c.pending
  phase : c.Phase accepted
  attempts : c.attempts ≤ 1
  ok : ∀ handler ∈ c.strand, handler.Ok
  opened : c.closed = false → accepted = messages handled ∧ .close ∉ handled
  flagged : c.closeAfterWrite = true → ∃ line, .writeAndClose line ∈ handled
  shut : c.closed = true → ∃ enqueued later, handled = enqueued ++ later ∧
    accepted = messages enqueued ∧ (.close ∈ handled ∨
      (∃ line, .writeAndClose line ∈ enqueued) ∧ c.Drained)

namespace Served

variable {c c' : ChatClient} {handled : List Call} {accepted : List Bytes} {handler : Handler}

theorem initial (name : Bytes) : Served (.initial name) [] [] where
  calls := rfl
  phase := .waiting rfl rfl rfl rfl rfl
  attempts := Nat.le_refl 1
  ok := nofun
  opened _ := ⟨rfl, nofun⟩
  flagged := nofun
  shut := nofun

/-- Something happens that is no call, and the socket stays as it is. -/
theorem quiet (h : Served c handled accepted) (hphase : c'.Phase accepted)
    (hattempts : c'.attempts ≤ 1) (hok : ∀ handler ∈ c'.strand, handler.Ok)
    (hcalls : c'.calls = c.calls) (hpending : c'.pending = c.pending)
    (hclosed : c'.closed = c.closed) (hflag : c'.closeAfterWrite = c.closeAfterWrite)
    (hdrained : c.Drained → c'.Drained) : Served c' handled accepted := by
  refine ⟨by rw [hcalls, hpending, h.calls], hphase, hattempts, hok, fun hopen => ?_,
    fun hset => ?_, fun hshut => ?_⟩
  · exact h.opened (hclosed.symm.trans hopen)
  · exact h.flagged (hflag.symm.trans hset)
  · obtain ⟨enqueued, later, hsplit, haccepted, hwhy⟩ := h.shut (hclosed.symm.trans hshut)
    exact ⟨enqueued, later, hsplit, haccepted, hwhy.imp_right (And.imp_right hdrained)⟩

theorem ok_rest (h : Served (c.before handler) handled accepted) :
    handler.Ok ∧ ∀ handler ∈ c.strand, handler.Ok :=
  ⟨h.ok handler (.head _), fun handler' hmem => h.ok handler' (.tail _ hmem)⟩

/-- A handler that is no call has had its turn, and the socket stays as it is. -/
theorem turn (h : Served (c.before handler) handled accepted) (hcall : handler.call? = none)
    (hphase : c'.Phase accepted) (hattempts : c'.attempts ≤ 1) (hstrand : c'.strand = c.strand)
    (hcalls : c'.calls = c.calls) (hclosed : c'.closed = c.closed)
    (hflag : c'.closeAfterWrite = c.closeAfterWrite) (hdrained : c.Drained → c'.Drained) :
    ∃ accepted', Served c' (handled ++ handler.call?.toList) accepted' := by
  have hpending : c'.pending = (c.before handler).pending := by
    rw [pending_before, hcall, pending, hstrand]
    rfl
  rw [hcall, Option.toList_none, List.append_nil]
  refine ⟨accepted, h.quiet hphase hattempts ?_ hcalls hpending hclosed hflag hdrained⟩
  rw [hstrand]
  exact h.ok_rest.2

/-- A call whose handler has had its turn is among the calls handled. -/
theorem calls_handled {call : Call} (h : Served (c.before (.call call)) handled accepted) :
    c.calls = handled ++ [call] ++ c.pending := by
  rw [List.append_assoc]
  exact h.calls

theorem flagged_call {call : Call} {flag : Bool}
    (h : Served (c.before (.call call)) handled accepted) (hflag : c.Flagged call flag)
    (hset : flag = true) : ∃ line, .writeAndClose line ∈ handled ++ [call] := by
  rcases hflag hset with hbefore | ⟨line, rfl⟩
  · obtain ⟨line, hline⟩ := h.flagged hbefore
    exact ⟨line, List.mem_append_left _ hline⟩
  · exact ⟨line, List.mem_append_right _ (.head _)⟩

theorem attempts_call {call : Call} (h : Served (c.before (.call call)) handled accepted) :
    c.attempts ≤ 1 := by
  have hle := h.attempts
  rw [attempts_before] at hle
  exact hle

/-- The message of a call is enqueued. -/
theorem enqueue {call : Call} {message : Bytes} {flag : Bool}
    (h : Served (c.before (.call call)) handled accepted) (hmessage : call.message? = some message)
    (hflag : c.Flagged call flag) (hopen : c.closed = false)
    (hphase : c'.Phase (accepted ++ [message])) (hattempts : c'.attempts = c.attempts)
    (hstrand : c'.strand = c.strand) (hcalls : c'.calls = c.calls) (hclosed : c'.closed = c.closed)
    (hset : c'.closeAfterWrite = flag) :
    Served c' (handled ++ [call]) (accepted ++ [message]) := by
  refine ⟨?_, hphase, hattempts.trans_le h.attempts_call, ?_, fun _ => ?_, fun hflagged => ?_,
    fun hshut => ?_⟩
  · rw [hcalls, pending, hstrand]
    exact h.calls_handled
  · rw [hstrand]
    exact h.ok_rest.2
  · obtain ⟨haccepted, hclose⟩ := h.opened hopen
    refine ⟨?_, fun hmem => ?_⟩
    · rw [messages, List.filterMap_append, haccepted, messages, List.filterMap_cons_some hmessage,
        List.filterMap_nil]
    · rcases List.mem_append.mp hmem with hold | hnew
      · exact hclose hold
      · rw [← List.mem_singleton.mp hnew] at hmessage
        cases hmessage
  · exact h.flagged_call hflag (hset.symm.trans hflagged)
  · exact absurd (hopen.symm.trans (hclosed.symm.trans hshut)) nofun

/-- A call finds the socket closed. -/
theorem drop {call : Call} {flag : Bool} (h : Served (c.before (.call call)) handled accepted)
    (hflag : c.Flagged call flag) (hclosed : c.closed = true) :
    Served { c with closeAfterWrite := flag } (handled ++ [call]) accepted := by
  refine ⟨h.calls_handled, (h.phase.of_before rfl).of_eq rfl rfl rfl rfl rfl rfl rfl,
    h.attempts_call, h.ok_rest.2, fun hopen => ?_, h.flagged_call hflag, fun _ => ?_⟩
  · exact absurd (hclosed.symm.trans hopen) nofun
  · obtain ⟨enqueued, later, rfl, haccepted, hwhy⟩ := h.shut hclosed
    refine ⟨enqueued, later ++ [call], (List.append_assoc ..), haccepted, ?_⟩
    exact hwhy.imp_left (List.mem_append_left _)

/-- The socket is closed, unless it was. -/
theorem shutDown (hcalls : c.calls = handled ++ c.pending) (hphase : c.Phase accepted)
    (hattempts : c.attempts ≤ 1) (hok : ∀ handler ∈ c.strand, handler.Ok)
    (hflagged : c.closeAfterWrite = true → ∃ line, .writeAndClose line ∈ handled)
    (hshut : ∃ enqueued later, handled = enqueued ++ later ∧ accepted = messages enqueued ∧
      (.close ∈ handled ∨ (∃ line, .writeAndClose line ∈ enqueued) ∧ c.Drained)) :
    Served c.closeNow handled accepted := by
  obtain ⟨houtbox, hconnected, -, hstrand, -, -, hcalls', hresolving, hconnecting, hflag⟩ :=
    c.closeNow_eq
  refine ⟨?_, hphase.closeNow, ?_, ?_, fun hopen => ?_, ?_, fun _ => ?_⟩
  · rw [hcalls', pending, hstrand]
    exact hcalls
  · rw [ChatClient.attempts, hresolving, hconnecting, hstrand, hconnected]
    exact hattempts
  · rw [hstrand]
    exact hok
  · exact absurd (c.closeNow_closed.symm.trans hopen) nofun
  · rw [hflag]
    exact hflagged
  · rw [Drained, hconnected, houtbox]
    exact hshut

theorem close (h : Served (c.before (.call .close)) handled accepted) :
    Served c.closeNow (handled ++ [.close]) accepted := by
  refine shutDown h.calls_handled (h.phase.of_before rfl) h.attempts_call h.ok_rest.2
    (h.flagged_call fun hset => .inl hset) ?_
  have hmem : Call.close ∈ handled ++ [.close] := List.mem_append_right _ (.head _)
  cases hclosed : c.closed with
  | false =>
      obtain ⟨haccepted, -⟩ := h.opened hclosed
      exact ⟨handled, [.close], rfl, haccepted, .inl hmem⟩
  | true =>
      obtain ⟨enqueued, later, rfl, haccepted, -⟩ := h.shut hclosed
      exact ⟨enqueued, later ++ [.close], List.append_assoc .., haccepted, .inl hmem⟩

/-- The last message is written, and a `write_and_close` was handled. -/
theorem lastCloses (h : Served (c.before (.onWrite true)) handled accepted) {message : Bytes}
    (houtbox : c.outbox = [message]) (hflag : c.closeAfterWrite = true) :
    Served ({ c with outbox := [] } : ChatClient).closeNow (handled ++ []) accepted := by
  have hattempts := h.attempts
  rw [attempts_before] at hattempts
  have hphase := h.phase.last houtbox
  have hdrained : ({ c with outbox := [] } : ChatClient).Drained := ⟨h.phase.ended.1, rfl⟩
  rw [List.append_nil]
  refine shutDown h.calls hphase hattempts h.ok_rest.2 h.flagged ?_
  cases hclosed : c.closed with
  | false =>
      obtain ⟨haccepted, -⟩ := h.opened hclosed
      exact ⟨handled, [], (List.append_nil _).symm, haccepted, .inr ⟨h.flagged hflag, hdrained⟩⟩
  | true =>
      obtain ⟨enqueued, later, hsplit, haccepted, hwhy⟩ := h.shut hclosed
      exact ⟨enqueued, later, hsplit, haccepted, hwhy.imp_right (And.imp_right fun _ => hdrained)⟩

/-- The handler of the only attempt to connect. -/
theorem connecting_attempts (hattempts : c.attempts + 1 ≤ 1) :
    c.connected = false ∧
      c.resolving + c.connecting + c.strand.countP Handler.isConnecting + 1 ≤ 1 := by
  cases hconnected : c.connected with
  | false =>
      rw [ChatClient.attempts, hconnected] at hattempts
      exact ⟨rfl, hattempts⟩
  | true =>
      rw [ChatClient.attempts, hconnected] at hattempts
      simp only [Bool.toNat_true] at hattempts
      omega

theorem effect (h : Served (c.before handler) handled accepted) (heffect : Effect c handler c') :
    ∃ accepted', Served c' (handled ++ handler.call?.toList) accepted' := by
  have hattempts := h.attempts
  rw [attempts_before] at hattempts
  cases heffect with
  | dropped call flag hflag hclosed => exact ⟨accepted, h.drop hflag hclosed⟩
  | queued call message flag hmessage hflag hopen hwait =>
      exact ⟨_, h.enqueue hmessage hflag hopen ((h.phase.of_before rfl).queued hwait message flag)
        rfl rfl rfl rfl rfl⟩
  | put call message flag hmessage hflag hopen hconnected hidle =>
      exact ⟨_, h.enqueue hmessage hflag hopen
        ((h.phase.of_before rfl).put hconnected hidle message flag) rfl rfl rfl rfl rfl⟩
  | close => exact ⟨accepted, h.close⟩
  | resolved =>
      refine h.turn rfl ((h.phase.of_before rfl).of_eq rfl rfl rfl rfl rfl rfl rfl) ?_
        rfl rfl rfl rfl id
      simp only [ChatClient.attempts, Handler.isConnecting, if_true] at hattempts ⊢
      omega
  | connected houtbox =>
      obtain ⟨hopen, hmade⟩ := connecting_attempts hattempts
      exact h.turn rfl ((h.phase.of_before rfl).connected hopen houtbox) hmade
        rfl rfl rfl rfl fun hdrained => absurd (hopen.symm.trans hdrained.1) nofun
  | connectedWrites front rest houtbox =>
      obtain ⟨hopen, hmade⟩ := connecting_attempts hattempts
      exact h.turn rfl ((h.phase.of_before rfl).connectedWrites hopen houtbox) hmade
        rfl rfl rfl rfl fun hdrained => absurd (hopen.symm.trans hdrained.1) nofun
  | line input shown =>
      exact h.turn rfl ((h.phase.of_before rfl).of_eq rfl rfl rfl rfl rfl rfl rfl) hattempts
        rfl rfl rfl rfl id
  | last message houtbox hflag =>
      exact h.turn rfl (h.phase.last houtbox) hattempts rfl rfl rfl rfl
        fun hdrained => ⟨hdrained.1, rfl⟩
  | lastCloses message houtbox hflag => exact ⟨accepted, h.lastCloses houtbox hflag⟩
  | next message next rest houtbox =>
      exact h.turn rfl (h.phase.next houtbox) hattempts rfl rfl rfl rfl
        fun hdrained => absurd (houtbox.symm.trans hdrained.2) nofun
  | stops _ herror => exact absurd h.ok_rest.1 herror
  | fails _ herror => exact absurd h.ok_rest.1 herror

theorem accepted_isPrefix (h : Served c handled accepted) : accepted <+: messages handled := by
  cases hclosed : c.closed with
  | false =>
      rw [(h.opened hclosed).1]
  | true =>
      obtain ⟨enqueued, later, rfl, rfl, -⟩ := h.shut hclosed
      rw [messages, messages, List.filterMap_append]
      exact List.prefix_append _ _

/-- A handler is posted that is no call. -/
theorem post (h : Served c handled accepted) (hcall : handler.call? = none) (hok : handler.Ok)
    (hphase : (c'.post handler).Phase accepted) (hstrand : c'.strand = c.strand)
    (hattempts : (c'.post handler).attempts ≤ 1) (hcalls : c'.calls = c.calls)
    (hclosed : c'.closed = c.closed) (hflag : c'.closeAfterWrite = c.closeAfterWrite)
    (hdrained : c.Drained → c'.Drained) : Served (c'.post handler) handled accepted := by
  refine h.quiet hphase hattempts (fun handler' hmem => ?_) hcalls ?_ hclosed hflag hdrained
  · rcases List.mem_append.mp hmem with hold | hnew
    · exact h.ok handler' (hstrand ▸ hold)
    · exact List.mem_singleton.mp hnew ▸ hok
  · rw [pending, pending, ChatClient.post, List.filterMap_append, hstrand,
      List.filterMap_cons_none hcall]
    exact List.append_nil _

theorem call (h : Served c handled accepted) (asked : Call) :
    Served (ChatClient.post (.call asked) { c with calls := c.calls ++ [asked] }) handled
      accepted := by
  refine ⟨?_, ?_, ?_, fun handler hmem => ?_, h.opened, h.flagged, h.shut⟩
  · rw [pending, ChatClient.post, List.filterMap_append]
    change c.calls ++ [asked] = _
    rw [h.calls, List.append_assoc]
    rfl
  · exact (h.phase.post (show (Handler.call asked).isWrite = false from rfl)).of_eq
      rfl rfl rfl rfl rfl rfl rfl
  · refine Eq.trans_le ?_ h.attempts
    simp [ChatClient.attempts, ChatClient.post, Handler.isConnecting]
  · rcases List.mem_append.mp hmem with hold | hnew
    · exact h.ok handler hold
    · exact List.mem_singleton.mp hnew ▸ trivial

theorem step {label : Label} (h : Served c handled accepted) (hstep : Step c label c')
    (hno : label.NoError) : ∃ handled' accepted', Served c' handled' accepted' := by
  have hattempts := h.attempts
  cases hstep with
  | call asked => exact ⟨handled, accepted, h.call asked⟩
  | resolve hresolving ok =>
      refine ⟨handled, accepted, h.post rfl hno ?_ rfl ?_ rfl rfl rfl id⟩
      · exact Phase.post (h.phase.of_eq rfl rfl rfl rfl rfl rfl rfl) rfl
      · simp [ChatClient.attempts, ChatClient.post, Handler.isConnecting] at hattempts ⊢
        omega
  | connect hconnecting ok =>
      refine ⟨handled, accepted, h.post rfl hno ?_ rfl ?_ rfl rfl rfl id⟩
      · exact Phase.post (h.phase.of_eq rfl rfl rfl rfl rfl rfl rfl) rfl
      · simp [ChatClient.attempts, ChatClient.post, Handler.isConnecting] at hattempts ⊢
        omega
  | readOk hreads data hline =>
      refine ⟨handled, accepted, h.post rfl rfl ?_ rfl ?_ rfl rfl rfl id⟩
      · exact Phase.post (h.phase.of_eq rfl rfl rfl rfl rfl rfl rfl) rfl
      · simpa [ChatClient.attempts, ChatClient.post, Handler.isConnecting] using hattempts
  | readError => cases hno
  | writeOk hwrites front rest houtbox =>
      refine ⟨handled, accepted, h.post rfl rfl (h.phase.writeOk hwrites houtbox) rfl ?_
        rfl rfl rfl id⟩
      simpa [ChatClient.attempts, ChatClient.post, Handler.isConnecting] using hattempts
  | writeError => cases hno
  | handler hstrand hrun =>
      rw [eq_before hstrand] at h
      exact ⟨_, h.effect (effect_run hrun)⟩

end Served

end ChatClient

/-- Holds in every run in which no operation fails, whatever else is allowed. -/
theorem served_of_reachable {name : Bytes} {Allowed : ChatClient → Label → Prop}
    (hno : ∀ c label, Allowed c label → label.NoError) {c : ChatClient}
    (hreach : ((system name).restrict Allowed).Reachable c) :
    c.name = name ∧ ∃ handled accepted, ChatClient.Served c handled accepted := by
  refine System.reachable_invariant _
    (fun c => c.name = name ∧ ∃ handled accepted, ChatClient.Served c handled accepted) ?_ ?_ c
    hreach
  · rintro c rfl
    exact ⟨rfl, [], [], .initial name⟩
  · rintro c label c' - ⟨hname, handled, accepted, h⟩ ⟨hstep, hallowed⟩
    exact ⟨hstep.frame.1.trans hname, h.step hstep (hno c label hallowed)⟩

/-- As long as no operation fails the next handler of the strand can run. -/
theorem handler_runs {name : Bytes} {c : ChatClient} {handler : Handler} {rest : List Handler}
    (hreach : ((system name).restrict fun _ label => label.NoError).Reachable c)
    (hstrand : c.strand = handler :: rest) :
    (ChatClient.run handler { c with strand := rest }).isSome = true := by
  obtain ⟨-, handled, accepted, h⟩ := served_of_reachable (fun _ _ hno => hno) hreach
  rw [ChatClient.eq_before hstrand] at h
  exact h.phase.run_isSome

/-- No failure, and no call of `close`. -/
def Label.Undisturbed (label : Label) : Prop := label.NoError ∧ label ≠ .call .close

theorem close_notMem_calls {name : Bytes} {c : ChatClient}
    (hreach : ((system name).restrict fun _ label => label.Undisturbed).Reachable c) :
    .close ∉ c.calls := by
  refine System.reachable_invariant _ (fun c => .close ∉ c.calls) ?_ ?_ c hreach
  · rintro c rfl
    exact List.not_mem_nil
  · rintro c label c' - hnone ⟨hstep, -, hclose⟩
    rw [hstep.frame.2.1]
    intro hmem
    rcases List.mem_append.mp hmem with hold | hnew
    · exact hnone hold
    · cases label with
      | call asked => exact hclose (congrArg Label.call (List.mem_singleton.mp hnew).symm)
      | _ => cases hnew

/-- Without failures and calls of `close`: one write at a time, none before the
connection; what is written is the `/name` line and the lines of the calls, in
their order; and the socket is closed only after a `write_and_close`, when every
message enqueued, by it and by the calls before it, is written. -/
theorem write_pipeline (name : Bytes) (c : ChatClient)
    (hreach : ((system name).restrict fun _ label => label.Undisturbed).Reachable c) :
    c.inFlight ≤ 1 ∧
    (c.connected = false → c.started = []) ∧
    c.written <+: ChatClient.nameLines name ++ messages c.calls ∧
    (c.closed = true → c.outbox = [] ∧ ∃ enqueued later line,
      c.calls = enqueued ++ later ∧ .writeAndClose line ∈ enqueued ∧
        c.written = ChatClient.nameLines name ++ messages enqueued) := by
  obtain ⟨rfl, handled, accepted, h⟩ := served_of_reachable (fun _ _ hquiet => hquiet.1) hreach
  have hnone := close_notMem_calls hreach
  rw [h.calls] at hnone ⊢
  refine ⟨h.phase.inFlight_le, h.phase.started_eq_nil, ?_, fun hclosed => ?_⟩
  · refine h.phase.written_isPrefix.trans ((List.prefix_append_right_inj _).mpr ?_)
    apply h.accepted_isPrefix.trans
    rw [messages, messages, List.filterMap_append]
    exact List.prefix_append _ _
  · obtain ⟨enqueued, later, rfl, rfl, hclose | ⟨⟨line, hline⟩, hdrained⟩⟩ := h.shut hclosed
    · exact absurd (List.mem_append_left _ hclose) hnone
    · exact ⟨hdrained.2, enqueued, later ++ c.pending, line, List.append_assoc .., hline,
        h.phase.written_eq hdrained⟩

/-- `/quit` is entered before there is a connection. -/
theorem reachable_quit : ∃ c,
    ((system []).restrict fun _ label => label.Undisturbed).Reachable c ∧ c.closed = true := by
  have hno : ∀ line, Label.Undisturbed (.call (.writeAndClose line)) := fun _ => ⟨trivial, nofun⟩
  have hstart : ((system []).restrict fun _ label => label.Undisturbed).Reachable (.initial []) :=
    .start rfl
  have hcall := hstart.next ⟨Step.call (.writeAndClose (text "/quit")), hno _⟩
  have henqueue := hcall.next ⟨Step.handler rfl rfl, trivial, nofun⟩
  have hresolve := henqueue.next ⟨Step.resolve Nat.one_pos true, rfl, nofun⟩
  have hresolved := hresolve.next ⟨Step.handler rfl rfl, trivial, nofun⟩
  have hconnect := hresolved.next ⟨Step.connect Nat.one_pos true, rfl, nofun⟩
  have hconnected := hconnect.next ⟨Step.handler rfl rfl, trivial, nofun⟩
  have hwrite := hconnected.next ⟨Step.writeOk Nat.one_pos _ [] rfl, rfl, nofun⟩
  have hclose := hwrite.next ⟨Step.handler rfl rfl, trivial, nofun⟩
  exact ⟨_, hclose, rfl⟩

theorem write_pipeline_quit : ∃ c : ChatClient, c.closed = true ∧
    ∃ enqueued line, .writeAndClose line ∈ enqueued ∧ c.written = messages enqueued := by
  obtain ⟨c, hreach, hclosed⟩ := reachable_quit
  obtain ⟨-, enqueued, -, line, -, hline, hwritten⟩ := (write_pipeline [] c hreach).2.2.2 hclosed
  exact ⟨c, hclosed, enqueued, line, hline, hwritten⟩

end MoreCpp.Chat.Client

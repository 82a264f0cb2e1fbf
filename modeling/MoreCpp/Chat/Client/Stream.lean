import MoreCpp.Chat.Client.Writing

/-!
What goes through the client's socket, whatever fails: the writes started are the first
of the lines to send, and the lines shown are the first of those received.
-/

namespace MoreCpp.Chat.Client

open Library

def Handler.isRead : Handler → Bool
  | .onRead _ => true
  | _ => false

namespace ChatClient

/-! ### Writing -/

/-- How far the writes have come. After one that failed no other starts: the socket
is closed, or the message is still in front of the outbox. -/
inductive Progress (c : ChatClient) (accepted : List Bytes) : Prop where
  | waiting (hconnected : c.connected = false) (hidle : c.inFlight = 0)
      (hstarted : c.started = []) (houtbox : c.outbox = accepted)
  | writing {sent : List Bytes} (hconnected : c.connected = true)
      (hpipeline : Pipeline c.inFlight c.outbox c.started sent (nameLines c.name ++ accepted))
  | halted (hblocked : c.closed = true ∨ c.outbox ≠ []) (hconnected : c.connected = true)
      (hidle : c.inFlight = 0) (hstarted : c.started <+: nameLines c.name ++ accepted)

namespace Progress

variable {c c' : ChatClient} {accepted : List Bytes} {handler : Handler} {ok : Bool}

theorem started_isPrefix (h : c.Progress accepted) :
    c.started <+: nameLines c.name ++ accepted := by
  cases h with
  | waiting _ _ hstarted =>
      rw [hstarted]
      exact List.nil_prefix
  | writing _ hpipeline => exact hpipeline.started_isPrefix
  | halted _ _ _ hstarted => exact hstarted

/-- Nothing happens to the writes. -/
theorem of_eq (h : c.Progress accepted) (hconnected : c'.connected = c.connected)
    (hname : c'.name = c.name) (houtbox : c'.outbox = c.outbox)
    (hinFlight : c'.inFlight = c.inFlight) (hstarted : c'.started = c.started)
    (hclosed : c.closed = true → c'.closed = true) : c'.Progress accepted := by
  cases h with
  | waiting hopen hidle hnone hout =>
      exact .waiting (hconnected.trans hopen) (hinFlight.trans hidle) (hstarted.trans hnone)
        (houtbox.trans hout)
  | writing hopen hpipeline =>
      rw [← hinFlight, ← houtbox, ← hstarted, ← hname] at hpipeline
      exact .writing (hconnected.trans hopen) hpipeline
  | halted hblocked hopen hidle hprefix =>
      refine .halted ?_ (hconnected.trans hopen) (hinFlight.trans hidle) (by rwa [hstarted, hname])
      rw [houtbox]
      exact hblocked.imp_left hclosed

theorem of_before (h : (c.before handler).Progress accepted) (hhandler : handler.isWrite = false) :
    c.Progress accepted := by
  refine h.of_eq rfl rfl rfl ?_ rfl id
  simp [inFlight_before, hhandler]

theorem closeNow (h : c.Progress accepted) : c.closeNow.Progress accepted := by
  obtain ⟨houtbox, hconnected, hname, hstrand, hwrites, -⟩ := c.closeNow_eq
  exact h.of_eq hconnected hname houtbox (by rw [inFlight, finished, hwrites, hstrand]; rfl)
    c.closeNow_started fun _ => c.closeNow_closed

theorem post (h : c.Progress accepted) (hhandler : handler.isWrite = false) :
    (c.post handler).Progress accepted := by
  refine h.of_eq rfl rfl rfl ?_ rfl id
  simp [inFlight, finished, ChatClient.post, hhandler]

/-- A write completes: its handler is waiting instead. -/
theorem write (h : c.Progress accepted) (hwrites : 0 < c.writes) (written : List Bytes) (ok : Bool) :
    (ChatClient.post (.onWrite ok)
      { c with writes := c.writes - 1, written := written }).Progress accepted := by
  refine h.of_eq rfl rfl rfl ?_ rfl id
  simp only [inFlight, finished, ChatClient.post, List.countP_append, List.countP_singleton,
    Handler.isWrite, if_true]
  omega

/-- A write has ended, and its handler has its turn. -/
theorem ended (h : (c.before (.onWrite ok)).Progress accepted) :
    c.connected = true ∧ ∃ sent,
      Pipeline (c.inFlight + 1) c.outbox c.started sent (nameLines c.name ++ accepted) := by
  cases h with
  | waiting _ hidle | halted _ _ hidle =>
      rw [inFlight_before] at hidle
      exact absurd hidle (Nat.succ_ne_zero _)
  | writing hopen hpipeline =>
      rw [inFlight_before] at hpipeline
      exact ⟨hopen, _, hpipeline⟩

theorem last (h : (c.before (.onWrite true)).Progress accepted) {message : Bytes}
    (houtbox : c.outbox = [message]) : Progress { c with outbox := [] } accepted := by
  obtain ⟨hconnected, sent, hpipeline⟩ := h.ended
  rw [houtbox] at hpipeline
  exact .writing hconnected hpipeline.finish_last

theorem next (h : (c.before (.onWrite true)).Progress accepted) {message next : Bytes}
    {rest : List Bytes} (houtbox : c.outbox = message :: next :: rest) :
    Progress { c with
      outbox := next :: rest
      writes := c.writes + 1
      socket := c.socket ++ [.asyncWrite next] } accepted := by
  obtain ⟨hconnected, sent, hpipeline⟩ := h.ended
  rw [houtbox] at hpipeline
  exact .writing hconnected (Phase.pipeline_write rfl rfl rfl hpipeline.finish_next)

/-- A write fails: its message stays in front of the outbox. -/
theorem fail (h : (c.before (.onWrite ok)).Progress accepted) : c.Progress accepted := by
  obtain ⟨hconnected, sent, hpipeline⟩ := h.ended
  have hle := hpipeline.writes_le
  exact .halted (.inr (hpipeline.outbox_ne_nil (Nat.succ_pos _))) hconnected (by omega)
    h.started_isPrefix

/-- A handler has its turn that reports an error. -/
theorem error (h : (c.before handler).Progress accepted) : c.Progress accepted := by
  cases handler with
  | onWrite ok => exact h.fail
  | _ => exact h.of_before rfl

/-- A message waits behind others, or for the connection. -/
theorem queued (h : c.Progress accepted) (hwait : c.connected = true → c.outbox ≠ [])
    (message : Bytes) (flag : Bool) :
    Progress { c with closeAfterWrite := flag, outbox := c.outbox ++ [message] }
      (accepted ++ [message]) := by
  cases h with
  | waiting hopen hidle hstarted houtbox =>
      exact .waiting hopen hidle hstarted (congrArg (· ++ [message]) houtbox)
  | writing hopen hpipeline =>
      obtain ⟨front, more, houtbox⟩ := List.exists_cons_of_ne_nil (hwait hopen)
      rw [houtbox] at hpipeline
      have hput := hpipeline.put_busy message
      rw [← houtbox, List.append_assoc] at hput
      exact .writing hopen hput
  | halted _ hconnected hidle hstarted =>
      refine .halted (.inr (List.append_ne_nil_of_right_ne_nil _ nofun)) hconnected hidle ?_
      rw [← List.append_assoc]
      exact hstarted.trans (List.prefix_append _ _)

/-- A message finds the outbox empty, and so no write that failed; its own starts. -/
theorem put (h : c.Progress accepted) (hopen : c.closed = false) (hconnected : c.connected = true)
    (hidle : c.outbox = []) (message : Bytes) (flag : Bool) :
    Progress { c with
      closeAfterWrite := flag
      outbox := [message]
      writes := c.writes + 1
      socket := c.socket ++ [.asyncWrite message] } (accepted ++ [message]) := by
  cases h with
  | waiting hwaiting => exact absurd (hwaiting.symm.trans hconnected) nofun
  | writing _ hpipeline =>
      rw [hidle] at hpipeline
      have hput := hpipeline.put_idle message
      rw [List.append_assoc] at hput
      exact .writing hconnected (Phase.pipeline_write rfl rfl rfl hput)
  | halted hblocked =>
      obtain hclosed | hne := hblocked
      · exact absurd (hopen.symm.trans hclosed) nofun
      · exact absurd hidle hne

theorem waiting_eq (h : c.Progress accepted) (hconnected : c.connected = false) :
    c.inFlight = 0 ∧ c.started = [] ∧ c.outbox = accepted := by
  cases h with
  | waiting _ hidle hstarted houtbox => exact ⟨hidle, hstarted, houtbox⟩
  | writing hopen | halted _ hopen => exact absurd (hopen.symm.trans hconnected) nofun

theorem connected (h : c.Progress accepted) (hconnected : c.connected = false)
    (houtbox : nameLines c.name ++ c.outbox = []) :
    Progress { c with connected := true, outbox := [], reads := c.reads + 1 } accepted := by
  obtain ⟨hidle, hstarted, rfl⟩ := h.waiting_eq hconnected
  have hpipeline : Pipeline c.inFlight [] c.started [] (nameLines c.name ++ c.outbox) := by
    rw [hidle, hstarted, houtbox]
    exact .idle []
  exact .writing rfl hpipeline

theorem connectedWrites (h : c.Progress accepted) (hconnected : c.connected = false) {front : Bytes}
    {rest : List Bytes} (houtbox : nameLines c.name ++ c.outbox = front :: rest) :
    Progress { c with
      connected := true
      outbox := front :: rest
      reads := c.reads + 1
      writes := c.writes + 1
      socket := c.socket ++ [.asyncWrite front] } accepted := by
  obtain ⟨hidle, hstarted, rfl⟩ := h.waiting_eq hconnected
  have hpipeline : Pipeline (c.inFlight + 1) (front :: rest) (c.started ++ [front]) []
      (nameLines c.name ++ c.outbox) := by
    rw [hidle, hstarted, houtbox]
    exact .busy [] front rest
  exact .writing rfl (Phase.pipeline_write rfl rfl rfl hpipeline)

end Progress

/-- The calls whose handlers have run, and the messages that got into the outbox. -/
structure Sends (c : ChatClient) (handled : List Call) (accepted : List Bytes) : Prop where
  calls : c.calls = handled ++ c.pending
  attempts : c.attempts ≤ 1
  opened : c.closed = false → accepted = messages handled
  inOrder : accepted <+: messages handled
  progress : c.Progress accepted

namespace Sends

variable {c c' : ChatClient} {handled : List Call} {accepted : List Bytes} {handler : Handler}

theorem initial (name : Bytes) : Sends (.initial name) [] [] where
  calls := rfl
  attempts := Nat.le_refl 1
  opened _ := rfl
  inOrder := List.nil_prefix
  progress := .waiting rfl rfl rfl rfl

/-- Something happens that is no call. -/
theorem quiet (h : Sends c handled accepted) (hprogress : c'.Progress accepted)
    (hattempts : c'.attempts ≤ 1) (hcalls : c'.calls = c.calls) (hpending : c'.pending = c.pending)
    (hclosed : c.closed = true → c'.closed = true) : Sends c' handled accepted := by
  refine ⟨by rw [hcalls, hpending, h.calls], hattempts, fun hopen => h.opened ?_, h.inOrder,
    hprogress⟩
  by_contra hshut
  exact absurd (hopen.symm.trans (hclosed (by simpa using hshut))) nofun

/-- A handler that is no call has its turn. -/
theorem turn (h : Sends (c.before handler) handled accepted) (hcall : handler.call? = none)
    (hprogress : c'.Progress accepted) (hattempts : c'.attempts ≤ 1) (hcalls : c'.calls = c.calls)
    (hstrand : c'.strand = c.strand) (hclosed : c.closed = true → c'.closed = true) :
    ∃ accepted', Sends c' (handled ++ handler.call?.toList) accepted' := by
  rw [hcall]
  refine ⟨accepted, ?_⟩
  rw [Option.toList_none, List.append_nil]
  refine h.quiet hprogress hattempts hcalls ?_ hclosed
  rw [pending_before, hcall, pending, hstrand]
  rfl

/-- A call has its turn, and its message gets into the outbox. -/
theorem enqueue {call : Call} {message : Bytes} (h : Sends (c.before (.call call)) handled accepted)
    (hmessage : call.message? = some message) (hopen : c.closed = false)
    (hprogress : c'.Progress (accepted ++ [message])) (hattempts : c'.attempts = c.attempts)
    (hcalls : c'.calls = c.calls) (hstrand : c'.strand = c.strand) :
    Sends c' (handled ++ [call]) (accepted ++ [message]) := by
  have hmessages : messages (handled ++ [call]) = messages handled ++ [message] := by
    simp [messages, hmessage]
  have haccepted : accepted = messages handled := h.opened hopen
  refine ⟨?_, ?_, fun _ => by rw [haccepted, hmessages], ?_, hprogress⟩
  · rw [hcalls, pending, hstrand, List.append_assoc]
    exact h.calls
  · have hbefore := h.attempts
    rw [attempts_before] at hbefore
    rw [hattempts]
    exact Nat.le_of_add_right_le hbefore
  · rw [haccepted, hmessages]

/-- A call has its turn, and nothing gets into the outbox. -/
theorem drop {call : Call} (h : Sends (c.before (.call call)) handled accepted)
    (hprogress : c'.Progress accepted) (hattempts : c'.attempts = c.attempts)
    (hclosed : c'.closed = true) (hcalls : c'.calls = c.calls) (hstrand : c'.strand = c.strand) :
    Sends c' (handled ++ [call]) accepted := by
  refine ⟨?_, ?_, fun hopen => absurd (hopen.symm.trans hclosed) nofun, ?_, hprogress⟩
  · rw [hcalls, pending, hstrand, List.append_assoc]
    exact h.calls
  · have hbefore := h.attempts
    rw [attempts_before] at hbefore
    rw [hattempts]
    exact Nat.le_of_add_right_le hbefore
  · rw [messages, List.filterMap_append]
    exact h.inOrder.trans (List.prefix_append _ _)

theorem closeNow_attempts (c : ChatClient) : c.closeNow.attempts = c.attempts := by
  unfold ChatClient.closeNow
  split <;> rfl

theorem call_of_error (herror : ¬ handler.Ok) : handler.call? = none := by
  cases handler with
  | call => exact absurd trivial herror
  | _ => rfl

theorem effect (h : Sends (c.before handler) handled accepted) (heffect : Effect c handler c') :
    ∃ accepted', Sends c' (handled ++ handler.call?.toList) accepted' := by
  have hattempts := h.attempts
  rw [attempts_before] at hattempts
  cases heffect with
  | dropped call flag hflag hclosed =>
      exact ⟨accepted, h.drop ((h.progress.of_before rfl).of_eq rfl rfl rfl rfl rfl id) rfl
        hclosed rfl rfl⟩
  | queued call message flag hmessage hflag hopen hwait =>
      exact ⟨_, h.enqueue hmessage hopen ((h.progress.of_before rfl).queued hwait message flag) rfl
        rfl rfl⟩
  | put call message flag hmessage hflag hopen hconnected hidle =>
      exact ⟨_, h.enqueue hmessage hopen
        ((h.progress.of_before rfl).put hopen hconnected hidle message flag) rfl rfl rfl⟩
  | close =>
      obtain ⟨-, -, -, hstrand, -, -, hcalls, -⟩ := c.closeNow_eq
      exact ⟨accepted, h.drop (h.progress.of_before rfl).closeNow (closeNow_attempts c)
        c.closeNow_closed hcalls hstrand⟩
  | resolved =>
      refine h.turn rfl ((h.progress.of_before rfl).of_eq rfl rfl rfl rfl rfl id) ?_ rfl rfl id
      simp only [ChatClient.attempts, Handler.isConnecting, if_true] at hattempts ⊢
      omega
  | connected houtbox =>
      obtain ⟨hopen, hmade⟩ := Served.connecting_attempts hattempts
      exact h.turn rfl ((h.progress.of_before rfl).connected hopen houtbox) hmade rfl rfl id
  | connectedWrites front rest houtbox =>
      obtain ⟨hopen, hmade⟩ := Served.connecting_attempts hattempts
      exact h.turn rfl ((h.progress.of_before rfl).connectedWrites hopen houtbox) hmade rfl rfl id
  | line input shown =>
      exact h.turn rfl ((h.progress.of_before rfl).of_eq rfl rfl rfl rfl rfl id) hattempts
        rfl rfl id
  | last message houtbox =>
      exact h.turn rfl (h.progress.last houtbox) hattempts rfl rfl id
  | lastCloses message houtbox =>
      obtain ⟨-, -, -, hstrand, -, -, hcalls, -⟩ := ({ c with outbox := [] } : ChatClient).closeNow_eq
      exact h.turn rfl (h.progress.last houtbox).closeNow ((closeNow_attempts _).trans_le hattempts) hcalls hstrand
        fun _ => closeNow_closed _
  | next message next rest houtbox =>
      exact h.turn rfl (h.progress.next houtbox) hattempts rfl rfl id
  | stops handler herror =>
      refine h.turn (call_of_error herror) (h.progress.error.of_eq rfl rfl rfl rfl rfl id)
        ?_ rfl rfl id
      exact Nat.le_of_add_right_le hattempts
  | fails handler herror =>
      obtain ⟨-, -, -, hstrand, -, -, hcalls, -⟩ := c.closeNow_eq
      exact h.turn (call_of_error herror) h.progress.error.closeNow
        ((closeNow_attempts c).trans_le (Nat.le_of_add_right_le hattempts)) hcalls hstrand
        fun _ => c.closeNow_closed

theorem post (h : Sends c handled accepted) (hcall : handler.call? = none)
    (hprogress : (c'.post handler).Progress accepted) (hstrand : c'.strand = c.strand)
    (hattempts : (c'.post handler).attempts ≤ 1) (hcalls : c'.calls = c.calls)
    (hclosed : c'.closed = c.closed) : Sends (c'.post handler) handled accepted := by
  refine h.quiet hprogress hattempts hcalls ?_ fun hshut => hclosed.trans hshut
  rw [pending, pending, ChatClient.post, List.filterMap_append, hstrand,
    List.filterMap_cons_none hcall]
  exact List.append_nil _

theorem call (h : Sends c handled accepted) (asked : Call) :
    Sends (ChatClient.post (.call asked) { c with calls := c.calls ++ [asked] }) handled
      accepted := by
  refine ⟨?_, ?_, h.opened, h.inOrder, ?_⟩
  · rw [pending, ChatClient.post, List.filterMap_append]
    change c.calls ++ [asked] = _
    rw [h.calls, List.append_assoc]
    rfl
  · refine Eq.trans_le ?_ h.attempts
    simp [ChatClient.attempts, ChatClient.post, Handler.isConnecting]
  · exact (h.progress.post (show (Handler.call asked).isWrite = false from rfl)).of_eq
      rfl rfl rfl rfl rfl id

theorem step {label : Label} (h : Sends c handled accepted) (hstep : Step c label c') :
    ∃ handled' accepted', Sends c' handled' accepted' := by
  have hattempts := h.attempts
  cases hstep with
  | call asked => exact ⟨handled, accepted, h.call asked⟩
  | resolve hresolving ok =>
      refine ⟨handled, accepted, h.post rfl ?_ rfl ?_ rfl rfl⟩
      · exact Progress.post (h.progress.of_eq rfl rfl rfl rfl rfl id) rfl
      · simp [ChatClient.attempts, ChatClient.post, Handler.isConnecting] at hattempts ⊢
        omega
  | connect hconnecting ok =>
      refine ⟨handled, accepted, h.post rfl ?_ rfl ?_ rfl rfl⟩
      · exact Progress.post (h.progress.of_eq rfl rfl rfl rfl rfl id) rfl
      · simp [ChatClient.attempts, ChatClient.post, Handler.isConnecting] at hattempts ⊢
        omega
  | readOk | readError =>
      refine ⟨handled, accepted, h.post rfl ?_ rfl ?_ rfl rfl⟩
      · exact Progress.post (h.progress.of_eq rfl rfl rfl rfl rfl id) rfl
      · simpa [ChatClient.attempts, ChatClient.post, Handler.isConnecting] using hattempts
  | writeOk hwrites front rest houtbox =>
      refine ⟨handled, accepted, h.post rfl (h.progress.write hwrites _ true) rfl ?_ rfl rfl⟩
      simpa [ChatClient.attempts, ChatClient.post, Handler.isConnecting] using hattempts
  | writeError hwrites =>
      refine ⟨handled, accepted, h.post rfl (h.progress.write hwrites c.written false) rfl ?_ rfl rfl⟩
      simpa [ChatClient.attempts, ChatClient.post, Handler.isConnecting] using hattempts
  | handler hstrand hrun =>
      rw [eq_before hstrand] at h
      exact ⟨_, h.effect (effect_run hrun)⟩

end Sends

/-! ### Reading -/

/-- Reads that have ended and whose handlers have not run. -/
def readHandlers (c : ChatClient) : List Handler := c.strand.filter Handler.isRead

theorem readHandlers_before {handler : Handler} (hhandler : handler.isRead = false)
    (c : ChatClient) : (c.before handler).readHandlers = c.readHandlers :=
  List.filter_cons_of_neg (by simp [hhandler])

theorem readHandlers_before_read (ok : Bool) (c : ChatClient) :
    (c.before (.onRead ok)).readHandlers = .onRead ok :: c.readHandlers :=
  List.filter_cons_of_pos rfl

/-- One read at a time once there is a connection, and what was received is shown line
by line. -/
structure Shows (c : ChatClient) (received : Bytes) : Prop where
  reading : ∃ taken, Reads newline received taken c.input ∧ c.shown = taken.map trimWireLine
  turns : c.reads + c.readHandlers.length ≤ c.connected.toNat
  ready : .onRead true ∈ c.readHandlers → newline ∈ c.input

namespace Shows

variable {c c' : ChatClient} {received : Bytes} {handler : Handler}

theorem initial (name : Bytes) : Shows (.initial name) [] where
  reading := ⟨[], .start, rfl⟩
  turns := Nat.le_refl 0
  ready := nofun

/-- Nothing is read. -/
theorem of_eq (h : c.Shows received) (hinput : c'.input = c.input) (hshown : c'.shown = c.shown)
    (hreads : c'.reads = c.reads) (hconnected : c'.connected = c.connected)
    (hhandlers : c'.readHandlers = c.readHandlers) : c'.Shows received := by
  refine ⟨?_, ?_, ?_⟩
  · rw [hinput, hshown]
    exact h.reading
  · rw [hreads, hhandlers, hconnected]
    exact h.turns
  · rw [hhandlers, hinput]
    exact h.ready

theorem closeNow_eq (c : ChatClient) :
    c.closeNow.input = c.input ∧ c.closeNow.shown = c.shown ∧ c.closeNow.reads = c.reads ∧
      c.closeNow.connected = c.connected ∧ c.closeNow.readHandlers = c.readHandlers := by
  unfold ChatClient.closeNow
  split <;> exact ⟨rfl, rfl, rfl, rfl, rfl⟩

theorem closeNow (h : c.Shows received) : c.closeNow.Shows received := by
  obtain ⟨hinput, hshown, hreads, hconnected, hhandlers⟩ := closeNow_eq c
  exact h.of_eq hinput hshown hreads hconnected hhandlers

/-- A handler that ends no read has its turn. -/
theorem of_before (h : (c.before handler).Shows received) (hhandler : handler.isRead = false) :
    c.Shows received :=
  h.of_eq rfl rfl rfl rfl (readHandlers_before hhandler c).symm

/-- The handler of a read has its turn, and no other read is under way. -/
theorem turn {ok : Bool} (h : (c.before (.onRead ok)).Shows received) :
    c.reads = 0 ∧ c.readHandlers = [] ∧ c.connected = true := by
  have hturns := h.turns
  rw [readHandlers_before_read, List.length_cons] at hturns
  change c.reads + _ ≤ c.connected.toNat at hturns
  have hle := c.connected.toNat_le
  refine ⟨by omega, List.eq_nil_of_length_eq_zero (by omega), ?_⟩
  cases hconnected : c.connected with
  | true => rfl
  | false =>
      rw [hconnected, Bool.toNat_false] at hturns
      omega

theorem onRead {ok : Bool} (h : (c.before (.onRead ok)).Shows received) :
    (c.onRead ok).Shows received := by
  obtain ⟨hreads, hhandlers, hconnected⟩ := h.turn
  obtain ⟨taken, hreading, hshown⟩ := h.reading
  cases ok with
  | false =>
      have hidle : c.Shows received := by
        refine ⟨⟨taken, hreading, hshown⟩, ?_, ?_⟩
        · rw [hreads, hhandlers]
          exact Nat.zero_le _
        · rw [hhandlers]
          exact nofun
      exact hidle.closeNow
  | true =>
      have hready : newline ∈ c.input := h.ready (by
        rw [readHandlers_before_read]
        exact .head _)
      refine ⟨⟨_, hreading.take hready, ?_⟩, ?_, ?_⟩
      · change c.shown ++ [trimWireLine (firstLine newline c.input)] = _
        rw [show c.shown = taken.map trimWireLine from hshown, List.map_append, List.map_singleton]
        rfl
      · change c.reads + 1 + c.readHandlers.length ≤ c.connected.toNat
        rw [hreads, hhandlers, hconnected]
        rfl
      · change .onRead true ∈ c.readHandlers → _
        rw [hhandlers]
        exact nofun

/-- The connection is there, and the first read starts. -/
theorem connect {outbox : List Bytes} {writes : Nat} {socket : List SocketCall}
    (h : c.Shows received) (hopen : c.connected = false) :
    Shows { c with
      connected := true
      outbox := outbox
      reads := c.reads + 1
      writes := writes
      socket := socket } received := by
  have hturns := h.turns
  rw [hopen, Bool.toNat_false] at hturns
  refine ⟨h.reading, ?_, h.ready⟩
  change c.reads + 1 + c.readHandlers.length ≤ 1
  omega

theorem effect (h : (c.before handler).Shows received) (hattempts : (c.before handler).attempts ≤ 1)
    (heffect : Effect c handler c') (hhandler : handler.isRead = false) : c'.Shows received := by
  have hbefore := h.of_before hhandler
  rw [attempts_before] at hattempts
  cases heffect with
  | dropped | queued | put | resolved | last | next | stops =>
      exact hbefore.of_eq rfl rfl rfl rfl rfl
  | close | fails => exact hbefore.closeNow
  | lastCloses message houtbox hflag =>
      have hlast : Shows { c with outbox := [] } received := hbefore.of_eq rfl rfl rfl rfl rfl
      exact hlast.closeNow
  | connected houtbox =>
      exact hbefore.connect (Served.connecting_attempts hattempts).1
  | connectedWrites front rest houtbox =>
      exact hbefore.connect (Served.connecting_attempts hattempts).1
  | line => cases hhandler

end Shows

/-! ### What was written stays written -/

theorem closeNow_socket (c : ChatClient) : c.socket <+: c.closeNow.socket := by
  unfold ChatClient.closeNow
  split
  · exact List.prefix_refl _
  · exact List.prefix_append _ _

theorem Effect.socket_isPrefix {c c' : ChatClient} {handler : Handler} (h : Effect c handler c') :
    c.socket <+: c'.socket := by
  cases h with
  | dropped | queued | resolved | connected | line | last | stops => exact List.prefix_refl _
  | put | connectedWrites | next => exact List.prefix_append _ _
  | close | fails => exact c.closeNow_socket
  | lastCloses => exact closeNow_socket { c with outbox := [] }

theorem step_started {c c' : ChatClient} {label : Label} (h : Step c label c') :
    c.started <+: c'.started := by
  cases h with
  | call | resolve | connect | readOk | readError | writeOk | writeError => exact List.prefix_refl _
  | handler hstrand hrun => exact (effect_run hrun).socket_isPrefix.filterMap _

/-- The bytes that arrive with a step. -/
def arrived (c : ChatClient) (label : Label) (c' : ChatClient) : Bytes :=
  match label with
  | .readCompletes _ => c'.input.drop c.input.length
  | .call _ | .resolveCompletes _ | .connectCompletes _ | .writeCompletes _ | .handler => []

namespace Shows

variable {c c' : ChatClient} {received : Bytes}

theorem post {handler : Handler} (h : c.Shows received) (hhandler : handler.isRead = false) :
    (c.post handler).Shows received := by
  refine h.of_eq rfl rfl rfl rfl ?_
  rw [readHandlers, ChatClient.post, List.filter_append, List.filter_cons_of_neg (by simp [hhandler]),
    List.filter_nil, List.append_nil]
  rfl

/-- A read ends, and its handler is posted. -/
theorem read (h : c.Shows received) (hreads : 0 < c.reads) (data : Bytes) {ok : Bool}
    (hready : ok = true → newline ∈ c.input ++ data) :
    Shows (ChatClient.post (.onRead ok) { c with
      reads := c.reads - 1, input := c.input ++ data }) (received ++ data) := by
  have hhandlers : readHandlers (ChatClient.post (.onRead ok) { c with
      reads := c.reads - 1, input := c.input ++ data }) = c.readHandlers ++ [.onRead ok] := by
    rw [readHandlers, ChatClient.post, List.filter_append, List.filter_cons_of_pos rfl,
      List.filter_nil]
    rfl
  obtain ⟨taken, hreading, hshown⟩ := h.reading
  have hturns := h.turns
  have hle := c.connected.toNat_le
  have hnone : c.readHandlers = [] := List.eq_nil_of_length_eq_zero (by omega)
  refine ⟨⟨taken, hreading.receive data, hshown⟩, ?_, fun hmem => ?_⟩
  · rw [hhandlers, hnone]
    change c.reads - 1 + 1 ≤ c.connected.toNat
    omega
  · rw [hhandlers, hnone] at hmem
    obtain heq : .onRead true = Handler.onRead ok := List.mem_singleton.mp hmem
    cases heq
    exact hready rfl

theorem step {label : Label} (h : c.Shows received) (hattempts : c.attempts ≤ 1)
    (hstep : Step c label c') : c'.Shows (received ++ arrived c label c') := by
  cases hstep with
  | call | resolve | connect | writeOk | writeError =>
      rw [arrived, List.append_nil]
      exact (Shows.post h rfl).of_eq rfl rfl rfl rfl rfl
  | readOk hreads data hline =>
      rw [arrived, ChatClient.post, List.drop_left]
      exact h.read hreads data fun _ => hline
  | readError hreads =>
      have hread : Shows (ChatClient.post (.onRead false) _) _ :=
        h.read hreads [] fun hready => absurd hready Bool.false_ne_true
      rw [List.append_nil, List.append_nil] at hread
      rw [arrived, ChatClient.post, List.drop_length, List.append_nil]
      exact hread
  | @handler _ handler rest hstrand hrun =>
      rw [arrived, List.append_nil]
      rw [eq_before hstrand] at h hattempts
      cases hread : handler.isRead with
      | false => exact h.effect hattempts (effect_run hrun) hread
      | true =>
          cases handler with
          | onRead ok => exact Option.some.inj hrun ▸ h.onRead
          | _ => cases hread

end Shows

end ChatClient

/-! ### The program -/

/-- What the input thread sends after the lines. -/
def Input.lastLines : Input → List Bytes
  | .quit => [text "/quit"]
  | .reading | .ended => []

/-- The lines to send. -/
def Main.toSend (m : Main) : List Bytes :=
  ChatClient.nameLines m.client.name ++ (m.lines ++ m.input.lastLines).map toWireLine

/-- The program, given the bytes that have been received. -/
structure Streams (m : Main) (received : Bytes) : Prop where
  sends : ∃ handled accepted, m.client.Sends handled accepted
  calls : messages m.client.calls = (m.lines ++ m.input.lastLines).map toWireLine
  lines : ∀ line ∈ m.lines, newline ∉ line
  shows : m.client.Shows received

/-- The bytes that arrive with a step of the program. -/
def Main.arrived (m : Main) (label : MainLabel) (m' : Main) : Bytes :=
  match label with
  | .client label => m.client.arrived label m'.client
  | .line _ | .quit | .endOfInput | .signal => []

namespace Streams

variable {m m' : Main} {received : Bytes}

theorem initial (name : Bytes) : Streams (.initial name) [] where
  sends := ⟨[], [], .initial name⟩
  calls := rfl
  lines := nofun
  shows := .initial name

/-- The input thread asks for a call. -/
theorem ask {asked : Call} {client : ChatClient} {lines : List Bytes} {input : Input}
    (h : Streams m received) (hcall : Step m.client (.call asked) client)
    (hcalls : (m.lines ++ m.input.lastLines).map toWireLine ++ asked.message?.toList =
      (lines ++ input.lastLines).map toWireLine)
    (hlines : ∀ line ∈ lines, newline ∉ line) : Streams ⟨client, input, lines⟩ received := by
  obtain ⟨handled, accepted, hsends⟩ := h.sends
  refine ⟨hsends.step hcall, ?_, hlines, ?_⟩
  · rw [hcall.frame.2.1, messages, List.filterMap_append]
    change messages m.client.calls ++ [asked].filterMap Call.message? = _
    rw [h.calls, ← hcalls]
    cases asked <;> rfl
  · have hshows := h.shows.step hsends.attempts hcall
    rwa [ChatClient.arrived, List.append_nil] at hshows

theorem step {label : MainLabel} (h : Streams m received) (hstep : MainStep m label m') :
    Streams m' (received ++ m.arrived label m') := by
  obtain ⟨handled, accepted, hsends⟩ := h.sends
  cases hstep with
  | line hreading line hnewline hline hcall =>
      rw [Main.arrived, List.append_nil]
      refine h.ask hcall ?_ fun l hl => ?_
      · simp [hreading, Input.lastLines, Call.message?]
      · rcases List.mem_append.mp hl with hold | hnew
        · exact h.lines l hold
        · exact List.mem_singleton.mp hnew ▸ hnewline
  | quit hreading hcall =>
      rw [Main.arrived, List.append_nil]
      refine h.ask hcall ?_ h.lines
      simp [hreading, Input.lastLines, Call.message?]
  | endOfInput hreading hcall =>
      rw [Main.arrived, List.append_nil]
      refine h.ask hcall ?_ h.lines
      simp [hreading, Input.lastLines, Call.message?]
  | signal hcall =>
      rw [Main.arrived, List.append_nil]
      refine h.ask hcall ?_ h.lines
      simp [Call.message?]
  | @client client label hlabel hstep =>
      refine ⟨hsends.step hstep, ?_, h.lines, h.shows.step hsends.attempts hstep⟩
      change messages client.calls = _
      rw [hstep.frame.2.1, hlabel]
      exact (congrArg messages (List.append_nil _)).trans h.calls

/-- The writes started are the first of the lines to send. -/
theorem started_isPrefix (h : Streams m received) : m.client.started <+: m.toSend := by
  obtain ⟨handled, accepted, hsends⟩ := h.sends
  refine hsends.progress.started_isPrefix.trans ((List.prefix_append_right_inj _).mpr ?_)
  rw [← h.calls, hsends.calls]
  refine hsends.inOrder.trans ?_
  rw [messages, messages, List.filterMap_append]
  exact List.prefix_append _ _

/-- Every line to send has one newline, at its end. -/
theorem framed (h : Streams m received) (hname : newline ∉ m.client.name) :
    ∀ line ∈ m.toSend, Framed newline line := by
  intro line hline
  rcases List.mem_append.mp hline with hline | hline
  · rw [ChatClient.nameLines] at hline
    split at hline
    · cases hline
    · rw [List.mem_singleton.mp hline]
      refine framed_toWireLine fun hmem => ?_
      rcases List.mem_append.mp hmem with hlabel | hname'
      · exact absurd hlabel (by decide)
      · exact hname hname'
  · obtain ⟨line, hmem, rfl⟩ := List.mem_map.mp hline
    refine framed_toWireLine ?_
    rcases List.mem_append.mp hmem with hold | hlast
    · exact h.lines line hold
    · cases hinput : m.input with
      | quit =>
          rw [hinput] at hlast
          rw [List.mem_singleton.mp hlast]
          decide
      | reading | ended =>
          rw [hinput] at hlast
          cases hlast

/-- The lines shown are the first of the lines sent. -/
theorem shown_isPrefix (h : Streams m received) {stream : Bytes} (hreceived : received <+: stream) :
    m.client.shown <+: clientLines stream := by
  obtain ⟨taken, hreading, hshown⟩ := h.shows.reading
  rw [hshown]
  exact (hreading.isPrefix_lines hreceived (Nat.le_refl _)).map trimWireLine

end Streams

/-- A step of the program is one of its client. -/
theorem MainStep.step {m m' : Main} {label : MainLabel} (h : MainStep m label m') :
    ∃ label, Step m.client label m'.client := by
  cases h with
  | line _ _ _ _ hcall | quit _ hcall | endOfInput _ hcall | signal hcall => exact ⟨_, hcall⟩
  | client _ hstep => exact ⟨_, hstep⟩

end MoreCpp.Chat.Client

import MoreCpp.Chat.Client.Model

/-!
What running a handler of the client does, branch by branch.
-/

namespace MoreCpp.Chat.Client

open Library

/-- The handler is run without an error. -/
def Handler.Ok : Handler → Prop
  | .call _ => True
  | .onResolve ok | .onConnect ok | .onRead ok | .onWrite ok => ok = true

namespace ChatClient

/-- `close_after_write_` is set by `write_and_close` only. -/
def Flagged (c : ChatClient) (call : Call) (flag : Bool) : Prop :=
  flag = true → c.closeAfterWrite = true ∨ ∃ line, call = .writeAndClose line

/-- A handler, and what it leaves of the client. -/
inductive Effect (c : ChatClient) : Handler → ChatClient → Prop where
  | dropped (call : Call) (flag : Bool) (hflag : c.Flagged call flag) (hclosed : c.closed = true) :
      Effect c (.call call) { c with closeAfterWrite := flag }
  | queued (call : Call) (message : Bytes) (flag : Bool) (hmessage : call.message? = some message)
      (hflag : c.Flagged call flag) (hopen : c.closed = false)
      (hwait : c.connected = true → c.outbox ≠ []) :
      Effect c (.call call)
        { c with closeAfterWrite := flag, outbox := c.outbox ++ [message] }
  | put (call : Call) (message : Bytes) (flag : Bool) (hmessage : call.message? = some message)
      (hflag : c.Flagged call flag) (hopen : c.closed = false) (hconnected : c.connected = true)
      (hidle : c.outbox = []) :
      Effect c (.call call) { c with
        closeAfterWrite := flag
        outbox := [message]
        writes := c.writes + 1
        socket := c.socket ++ [.asyncWrite message] }
  | close : Effect c (.call .close) c.closeNow
  | resolved : Effect c (.onResolve true) { c with connecting := c.connecting + 1 }
  | connected (houtbox : nameLines c.name ++ c.outbox = []) :
      Effect c (.onConnect true)
        { c with connected := true, outbox := [], reads := c.reads + 1 }
  | connectedWrites (front : Bytes) (rest : List Bytes)
      (houtbox : nameLines c.name ++ c.outbox = front :: rest) :
      Effect c (.onConnect true) { c with
        connected := true
        outbox := front :: rest
        reads := c.reads + 1
        writes := c.writes + 1
        socket := c.socket ++ [.asyncWrite front] }
  | line (input : Bytes) (shown : List Bytes) :
      Effect c (.onRead true) { c with input := input, shown := shown, reads := c.reads + 1 }
  | last (message : Bytes) (houtbox : c.outbox = [message]) (hflag : c.closeAfterWrite = false) :
      Effect c (.onWrite true) { c with outbox := [] }
  | lastCloses (message : Bytes) (houtbox : c.outbox = [message])
      (hflag : c.closeAfterWrite = true) :
      Effect c (.onWrite true) ({ c with outbox := [] }).closeNow
  | next (message next : Bytes) (rest : List Bytes) (houtbox : c.outbox = message :: next :: rest) :
      Effect c (.onWrite true) { c with
        outbox := next :: rest
        writes := c.writes + 1
        socket := c.socket ++ [.asyncWrite next] }
  | stops (handler : Handler) (herror : ¬ handler.Ok) : Effect c handler { c with ioStopped := true }
  | fails (handler : Handler) (herror : ¬ handler.Ok) : Effect c handler c.closeNow

variable {c c' : ChatClient}

theorem effect_enqueueWrite {call : Call} {message : Bytes} {flag : Bool}
    (hmessage : call.message? = some message) (hflag : c.Flagged call flag)
    (h : ({ c with closeAfterWrite := flag } : ChatClient).enqueueWrite message = some c') :
    Effect c (.call call) c' := by
  unfold enqueueWrite at h
  split at h
  · rename_i hclosed
    exact Option.some.inj h ▸ .dropped call flag hflag hclosed
  rename_i hopen
  have hopen : c.closed = false := Bool.eq_false_iff.mpr hopen
  dsimp only at h
  split at h
  · rename_i hwrite
    obtain ⟨hconnected, hempty⟩ := Bool.and_eq_true_iff.mp hwrite
    have hidle := List.isEmpty_iff.mp hempty
    rw [doWrite, hidle] at h
    exact Option.some.inj h ▸ .put call message flag hmessage hflag hopen hconnected hidle
  · rename_i hwait
    refine Option.some.inj h ▸ .queued call message flag hmessage hflag hopen ?_
    intro hconnected hidle
    exact hwait (Bool.and_eq_true_iff.mpr ⟨hconnected, List.isEmpty_iff.mpr hidle⟩)

theorem effect_onCall {call : Call} (h : c.onCall call = some c') : Effect c (.call call) c' := by
  cases call with
  | write line => exact effect_enqueueWrite rfl (fun hset => .inl hset) h
  | writeAndClose line => exact effect_enqueueWrite rfl (fun _ => .inr ⟨line, rfl⟩) h
  | close => exact Option.some.inj h ▸ .close

theorem effect_onConnect {ok : Bool} (h : c.onConnect ok = some c') :
    Effect c (.onConnect ok) c' := by
  cases ok with
  | false => exact Option.some.inj h ▸ .stops _ nofun
  | true =>
      cases houtbox : nameLines c.name ++ c.outbox with
      | nil =>
          simp only [onConnect, if_true, houtbox, List.isEmpty_nil] at h
          exact Option.some.inj h ▸ .connected houtbox
      | cons front rest =>
          simp only [onConnect, if_true, houtbox, List.isEmpty_cons, Bool.false_eq_true, if_false,
            doRead, doWrite] at h
          exact Option.some.inj h ▸ .connectedWrites front rest houtbox

theorem effect_onRead (c : ChatClient) (ok : Bool) : Effect c (.onRead ok) (c.onRead ok) := by
  cases ok with
  | false => exact .fails _ nofun
  | true => exact .line _ _

theorem effect_onWrite {ok : Bool} (h : c.onWrite ok = some c') : Effect c (.onWrite ok) c' := by
  cases ok with
  | false => exact Option.some.inj h ▸ .fails _ nofun
  | true =>
      cases houtbox : c.outbox with
      | nil => simp [onWrite, houtbox] at h
      | cons message rest =>
          cases rest with
          | nil =>
              simp only [onWrite, houtbox, if_true, List.isEmpty_nil] at h
              split at h
              · rename_i hflag
                exact Option.some.inj h ▸ .lastCloses message houtbox hflag
              · rename_i hflag
                exact Option.some.inj h ▸ .last message houtbox (Bool.eq_false_iff.mpr hflag)
          | cons next rest =>
              simp only [onWrite, houtbox, if_true, List.isEmpty_cons, Bool.false_eq_true,
                if_false, doWrite] at h
              exact Option.some.inj h ▸ .next message next rest houtbox

theorem effect_run {handler : Handler} (h : c.run handler = some c') : Effect c handler c' := by
  cases handler with
  | call call => exact effect_onCall h
  | onResolve ok =>
      obtain rfl := Option.some.inj h
      cases ok with
      | false => exact .stops _ nofun
      | true => exact .resolved
  | onConnect ok => exact effect_onConnect h
  | onRead ok => exact Option.some.inj h ▸ effect_onRead c ok
  | onWrite ok => exact effect_onWrite h

/-- What `close_now` leaves alone. -/
theorem closeNow_eq (c : ChatClient) :
    c.closeNow.outbox = c.outbox ∧ c.closeNow.connected = c.connected ∧
      c.closeNow.name = c.name ∧ c.closeNow.strand = c.strand ∧ c.closeNow.writes = c.writes ∧
      c.closeNow.written = c.written ∧ c.closeNow.calls = c.calls ∧
      c.closeNow.resolving = c.resolving ∧ c.closeNow.connecting = c.connecting ∧
      c.closeNow.closeAfterWrite = c.closeAfterWrite := by
  unfold closeNow
  split <;> exact ⟨rfl, rfl, rfl, rfl, rfl, rfl, rfl, rfl, rfl, rfl⟩

theorem Effect.frame {handler : Handler} (h : Effect c handler c') :
    c'.name = c.name ∧ c'.calls = c.calls ∧ c'.written = c.written := by
  have hclose : ∀ d : ChatClient, d.closeNow.name = d.name ∧ d.closeNow.calls = d.calls ∧
      d.closeNow.written = d.written := by
    intro d
    obtain ⟨-, -, hname, -, -, hwritten, hcalls, -⟩ := d.closeNow_eq
    exact ⟨hname, hcalls, hwritten⟩
  cases h with
  | close | lastCloses | fails => exact hclose _
  | dropped | queued | put | resolved | connected | connectedWrites | line | last | next | stops =>
      exact ⟨rfl, rfl, rfl⟩

/-- What closes the socket. -/
theorem Effect.closes {handler : Handler} (h : Effect c handler c') (hopen : c.closed = false)
    (hclosed : c'.closed = true) :
    handler = .call .close ∨ c.closeAfterWrite = true ∨ ¬ handler.Ok := by
  cases h with
  | close => exact .inl rfl
  | lastCloses _ _ hflag => exact .inr (.inl hflag)
  | fails _ herror => exact .inr (.inr herror)
  | dropped | queued | put | resolved | connected | connectedWrites | line | last | next | stops =>
      exact absurd (hopen.symm.trans hclosed) nofun

end ChatClient

theorem Step.frame {c c' : ChatClient} {label : Label} (h : Step c label c') :
    c'.name = c.name ∧ c'.calls = c.calls ++ label.call?.toList ∧ c.written <+: c'.written := by
  cases h with
  | call asked => exact ⟨rfl, rfl, List.prefix_refl _⟩
  | resolve | connect | readOk | readError | writeError =>
      exact ⟨rfl, (List.append_nil _).symm, List.prefix_refl _⟩
  | writeOk => exact ⟨rfl, (List.append_nil _).symm, List.prefix_append _ _⟩
  | handler hstrand hrun =>
      obtain ⟨hname, hcalls, hwritten⟩ := (ChatClient.effect_run hrun).frame
      exact ⟨hname, hcalls.trans (List.append_nil _).symm, hwritten ▸ List.prefix_refl _⟩

end MoreCpp.Chat.Client

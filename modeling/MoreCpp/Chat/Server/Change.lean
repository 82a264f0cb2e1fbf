import MoreCpp.Chat.Server.Model

/-!
What a step can do. Apart from the room's deliveries, a session changes in one
of five ways; for the room, the steps are of five kinds. A predicate on sessions
and one on messages that the changes keep hold in every run.
-/

namespace MoreCpp.Chat.Server

open Library

variable {Session : Type*}

/-- What a handler of the room broadcasts. -/
def RoomHandler.message : RoomHandler Session → Bytes
  | .join _ announcement | .leave _ announcement => announcement
  | .broadcast message => message

namespace Conn

/-- Shut down and closed, once. -/
def closed (c : Conn) : Conn :=
  if c.stopped then c else { c with stopped := true, socket := c.socket ++ [.close] }

theorem stop_fst (self : Session) (announcement : Bytes) (c : Conn) :
    (c.stop self announcement).1 = c.closed := by
  unfold stop closed
  split <;> rfl

/-- A handler, and what it leaves of a session. -/
inductive Effect (c : Conn) : Handler → Conn → Prop where
  | dropped (message : Message) (hstopped : c.stopped = true) : Effect c (.deliver message) c
  | queued (message : Message) (hrunning : c.stopped = false) (hbusy : c.outbox ≠ []) :
      Effect c (.deliver message) { c with outbox := c.outbox ++ [message] }
  | put (message : Message) (hrunning : c.stopped = false) (hidle : c.outbox = []) :
      Effect c (.deliver message) { c with
        outbox := [message]
        writes := c.writes + 1
        socket := c.socket ++ [.asyncWrite message] }
  | line (result : Option Nat) (name input : Bytes) :
      Effect c (.onRead result)
        { c with name := name, input := input, reads := c.reads + 1 }
  | oversized (n : Nat) (hlarge : maxLineSize < n) :
      Effect c (.onRead (some n)) (c.deliver notice).closed
  | readStops (result : Option Nat) (input : Bytes) :
      Effect c (.onRead result) ({ c with input := input }).closed
  | last (message : Message) (houtbox : c.outbox = [message]) :
      Effect c (.onWrite true) { c with outbox := [] }
  | next (message next : Message) (rest : List Message)
      (houtbox : c.outbox = message :: next :: rest) :
      Effect c (.onWrite true) { c with
        outbox := next :: rest
        writes := c.writes + 1
        socket := c.socket ++ [.asyncWrite next] }
  | writeStops : Effect c (.onWrite false) c.closed

variable {c : Conn} {self : Session} {outcome : Outcome Session}

theorem effect_deliver {message : Message} {c' : Conn} (h : c.onDeliver message = some c') :
    Effect c (.deliver message) c' := by
  unfold onDeliver at h
  split at h
  · rename_i hstopped
    exact Option.some.inj h ▸ .dropped message hstopped
  rename_i hrunning
  have hrunning := Bool.eq_false_iff.mpr hrunning
  dsimp only at h
  split at h
  · rename_i hempty
    have hidle := List.isEmpty_iff.mp hempty
    rw [doWrite, hidle] at h
    exact Option.some.inj h ▸ .put message hrunning hidle
  · rename_i hbusy
    exact Option.some.inj h ▸ .queued message hrunning fun hidle =>
      hbusy (List.isEmpty_iff.mpr hidle)

theorem effect_line (result : Option Nat) (line input : Bytes) (self : Session) :
    Effect c (.onRead result) (onLine line self { c with input := input }).1 := by
  unfold onLine
  split
  · exact .line result c.name input
  split
  · rw [stop_fst]
    exact .readStops result input
  split
  · dsimp only
    split
    · exact .line result c.name input
    · exact .line result _ input
  · exact .line result c.name input

theorem effect_onRead (result : Option Nat) (self : Session) :
    Effect c (.onRead result) (c.onRead result self).1 := by
  unfold onRead
  split
  · rw [stop_fst]
    exact .readStops none c.input
  · split
    · rename_i hlarge
      rw [stop_fst]
      exact .oversized _ hlarge
    · exact effect_line _ _ _ self

theorem effect_onWrite {ok : Bool} (h : c.onWrite ok self = some outcome) :
    Effect c (.onWrite ok) outcome.1 := by
  cases ok with
  | false =>
      obtain rfl := Option.some.inj h
      rw [stop_fst]
      exact .writeStops
  | true =>
      cases houtbox : c.outbox with
      | nil => simp [onWrite, houtbox] at h
      | cons message rest =>
          cases rest with
          | nil =>
              simp only [onWrite, houtbox, List.isEmpty_nil, if_pos] at h
              exact Option.some.inj h ▸ .last message houtbox
          | cons next rest =>
              simp only [onWrite, houtbox, if_pos, List.isEmpty_cons, Bool.false_eq_true,
                if_false, doWrite, Option.map_some] at h
              exact Option.some.inj h ▸ .next message next rest houtbox

theorem effect_run {handler : Handler} (h : c.run handler self = some outcome) :
    Effect c handler outcome.1 := by
  cases handler with
  | deliver message =>
      obtain ⟨c', hdeliver, rfl⟩ := Option.map_eq_some_iff.mp h
      exact effect_deliver hdeliver
  | onRead result => exact Option.some.inj h ▸ effect_onRead result self
  | onWrite ok => exact effect_onWrite h

/-- The name before and after a handler, and what the handler posts to the room. -/
inductive Speech (self : Session) (name : Bytes) : Bytes → List (RoomHandler Session) → Prop where
  | silent : Speech self name name []
  | left : Speech self name name [.leave self (serverLine (name ++ text " left"))]
  | oversized : Speech self name name [.leave self
      (serverLine (name ++ text " was disconnected after sending an oversized message"))]
  | renamed (newName : Bytes) (hnew : newline ∉ newName) :
      Speech self name newName [.broadcast (serverLine (name ++ text " is now " ++ newName))]
  | said (line : Bytes) (hline : newline ∉ line) :
      Speech self name name [.broadcast (toWireLine (name ++ text ": " ++ line))]

theorem speech_left (self : Session) (c : Conn) :
    Speech self c.name (c.stop self c.left).1.name (c.stop self c.left).2 := by
  unfold stop
  split
  · exact .silent
  · exact .left

theorem speech_line {line : Bytes} (hline : newline ∉ line) (self : Session) (c : Conn) :
    Speech self c.name (c.onLine line self).1.name (c.onLine line self).2 := by
  unfold onLine
  split
  · exact .silent
  split
  · exact speech_left self c
  split
  · dsimp only
    split
    · exact .silent
    · -- the new name is a part of the line
      exact .renamed _ (notMem_trim fun hmem => hline (List.mem_of_mem_drop hmem))
  · exact .said line hline

theorem speech_onRead (result : Option Nat) (self : Session) (c : Conn) :
    Speech self c.name (c.onRead result self).1.name (c.onRead result self).2 := by
  unfold onRead
  split
  · exact speech_left self c
  · split
    · unfold stop
      split
      · exact .silent
      · exact .oversized
    · exact speech_line (notMem_trimWireLine (notMem_firstLine _)) self
        { c with input := afterLine newline c.input }

theorem name_of_doWrite {c' : Conn} (h : c.doWrite = some c') : c'.name = c.name := by
  unfold doWrite at h
  split at h
  · cases h
  · exact Option.some.inj h ▸ rfl

theorem name_of_onDeliver {message : Message} {c' : Conn} (h : c.onDeliver message = some c') :
    c'.name = c.name := by
  unfold onDeliver at h
  split at h
  · exact Option.some.inj h ▸ rfl
  dsimp only at h
  split at h
  · have hname := name_of_doWrite h
    exact hname
  · exact Option.some.inj h ▸ rfl

theorem speech_onWrite {ok : Bool} (h : c.onWrite ok self = some outcome) :
    Speech self c.name outcome.1.name outcome.2 := by
  unfold onWrite at h
  split at h
  · split at h
    · cases h
    · dsimp only at h
      split at h
      · exact Option.some.inj h ▸ .silent
      · obtain ⟨c', hwrite, rfl⟩ := Option.map_eq_some_iff.mp h
        have hname := name_of_doWrite hwrite
        dsimp only at hname
        rw [hname]
        exact .silent
  · exact Option.some.inj h ▸ speech_left self c

theorem speech_run {handler : Handler} (h : c.run handler self = some outcome) :
    Speech self c.name outcome.1.name outcome.2 := by
  cases handler with
  | deliver message =>
      obtain ⟨c', hdeliver, rfl⟩ := Option.map_eq_some_iff.mp h
      rw [name_of_onDeliver hdeliver]
      exact .silent
  | onRead result => exact Option.some.inj h ▸ speech_onRead result self c
  | onWrite ok => exact speech_onWrite h

/-- What else than a delivery of the room happens to a session, and what it
posts to the room. -/
inductive Change (self : Session) (c : Conn) : Conn → List (RoomHandler Session) → Prop where
  | greet : Change self c (c.deliver (greeting c.name)) []
  | doRead : Change self c c.doRead []
  | read (result : Option Nat) (input : Bytes) :
      Change self c (post (.onRead result) { c with reads := c.reads - 1, input := input }) []
  | write (ok : Bool) (hwrites : 0 < c.writes) :
      Change self c (post (.onWrite ok) { c with writes := c.writes - 1 }) []
  | run {handler : Handler} {rest : List Handler} {outcome : Outcome Session}
      (hstrand : c.strand = handler :: rest)
      (hrun : Conn.run handler self { c with strand := rest } = some outcome) :
      Change self c outcome.1 outcome.2

theorem closed_socket (c : Conn) : c.socket <+: c.closed.socket := by
  unfold Conn.closed
  split
  · exact List.prefix_refl _
  · exact List.prefix_append _ _

theorem Effect.socket_isPrefix {c c' : Conn} {handler : Handler}
    (h : Conn.Effect c handler c') : c.socket <+: c'.socket := by
  cases h with
  | dropped | queued | line | last => exact List.prefix_refl _
  | put | next => exact List.prefix_append _ _
  | oversized => exact (c.deliver notice).closed_socket
  | readStops result input => exact Conn.closed_socket { c with input := input }
  | writeStops => exact c.closed_socket

theorem Change.socket_isPrefix {self : Session} {c c' : Conn}
    {posts : List (RoomHandler Session)} (h : Conn.Change self c c' posts) :
    c.socket <+: c'.socket := by
  cases h with
  | greet | doRead | read | write => exact List.prefix_refl _
  | run _ hrun => exact (Conn.effect_run hrun).socket_isPrefix

end Conn

variable [DecidableEq Session]

/-- The steps, as the room sees them. -/
inductive Move (σ : State Session) : State Session → Prop where
  | accept (s : Session) (peer : Peer) (hnew : σ.conn s = none) :
      Move σ { σ.setConn s (Conn.new peer) with
        accepting := some (s, .deliver)
        strand := σ.strand ++ [.join s (joinAnnouncement peer)] }
  | session (s : Session) (c c' : Conn) (posts : List (RoomHandler Session))
      (accepting : Option (Session × Starting)) (hc : σ.conn s = some c)
      (hchange : Conn.Change s c c' posts) :
      Move σ { σ.setConn s c' with accepting := accepting, strand := σ.strand ++ posts }
  | room (handler : RoomHandler Session) (rest : List (RoomHandler Session))
      (members : List Session) (message : Option Bytes) (events : List (Event Session Bytes))
      (todo : List Session) (hidle : σ.delivering = none) (hstrand : σ.strand = handler :: rest)
      (hrun : handler.run σ.members = (members, message, events)) (htodo : todo.Perm members) :
      Move σ { σ with
        strand := rest
        members := members
        delivering := message.map (·, todo)
        history := σ.history ++ events ++ message.toList.map .said }
  | deliver (message : Bytes) (s : Session) (todo : List Session) (c : Conn)
      (hdelivering : σ.delivering = some (message, s :: todo)) (hc : σ.conn s = some c) :
      Move σ { σ.setConn s (c.deliver ⟨.broadcast, message⟩) with
        delivering := some (message, todo) }
  | delivered (message : Bytes) (hdelivering : σ.delivering = some (message, [])) :
      Move σ { σ with delivering := none }

theorem Step.move {σ σ' : State Session} {label : Label Session} (h : Step σ label σ') :
    Move σ σ' := by
  -- a change that posts nothing leaves the room's strand as it is
  have silent : ∀ s c c' accepting, σ.conn s = some c → Conn.Change s c c' [] →
      Move σ { σ.setConn s c' with accepting := accepting } := by
    intro s c c' accepting hc hchange
    have hmove := Move.session s c c' [] accepting hc hchange
    rw [List.append_nil] at hmove
    exact hmove
  cases h with
  | accept s peer _ hnew => exact .accept s peer hnew
  | @startDeliver s c _ hc => exact silent s c _ _ hc .greet
  | @startDoRead s c _ hc => exact silent s c _ _ hc .doRead
  | @readOk s c hc _ data _ => exact silent s c _ _ hc (.read _ _)
  | @readError s c hc => exact silent s c _ _ hc (.read none c.input)
  | @write s c hc hwrites ok => exact silent s c _ _ hc (.write ok hwrites)
  | @session s c handler rest outcome hc hstrand hrun =>
      exact .session s c _ _ _ hc (.run hstrand hrun)
  | room hidle hstrand hrun todo htodo => exact .room _ _ _ _ _ todo hidle hstrand hrun htodo
  | deliver hdelivering hc => exact .deliver _ _ _ _ hdelivering hc
  | delivered hdelivering => exact .delivered _ hdelivering

/-! ### What was called on a socket stays called -/

theorem Move.socket_isPrefix {σ σ' : State Session} (h : Move σ σ') {t : Session} {c : Conn}
    (hc : σ.conn t = some c) : ∃ c', σ'.conn t = some c' ∧ c.socket <+: c'.socket := by
  -- the session that changes has a longer log, the others the same
  have one : ∀ s d d', σ.conn s = some d → d.socket <+: d'.socket →
      ∃ c', (σ.setConn s d').conn t = some c' ∧ c.socket <+: c'.socket := by
    intro s d d' hd hlog
    rcases eq_or_ne t s with rfl | hne
    · rw [hc] at hd
      cases hd
      exact ⟨d', Function.update_self .., hlog⟩
    · exact ⟨c, (Function.update_of_ne hne ..).trans hc, List.prefix_refl _⟩
  cases h with
  | accept s peer hnew =>
      have hne : t ≠ s := fun heq => by rw [heq, hnew] at hc; cases hc
      exact ⟨c, (Function.update_of_ne hne ..).trans hc, List.prefix_refl _⟩
  | session s d d' posts accepting hd hchange => exact one s d d' hd hchange.socket_isPrefix
  | room => exact ⟨c, hc, List.prefix_refl _⟩
  | deliver message s todo d _ hd => exact one s d _ hd (List.prefix_refl _)
  | delivered => exact ⟨c, hc, List.prefix_refl _⟩

theorem run_socket_isPrefix {σ σ' : State Session} {labels : List (Label Session)}
    (hrun : (system Session).Run σ labels σ') {s : Session} {c : Conn} (hc : σ.conn s = some c) :
    ∃ c', σ'.conn s = some c' ∧ c.socket <+: c'.socket := by
  induction hrun with
  | refl => exact ⟨c, hc, List.prefix_refl _⟩
  | snoc _ hlast ih =>
      obtain ⟨c₁, hc₁, hlog₁⟩ := ih
      obtain ⟨c₂, hc₂, hlog₂⟩ := (Step.move hlast).socket_isPrefix hc₁
      exact ⟨c₂, hc₂, hlog₁.trans hlog₂⟩

/-! ### What every session and message keeps -/

/-- A handler of the room says its own message or nothing. -/
theorem RoomHandler.run_message {handler : RoomHandler Session} {members members' : List Session}
    {message : Option Bytes} {events : List (Event Session Bytes)}
    (hrun : handler.run members = (members', message, events)) :
    (∀ m, message = some m → m = handler.message) ∧ messages events = [] := by
  unfold RoomHandler.run at hrun
  split at hrun
  · cases hrun
    exact ⟨fun m hm => (Option.some.inj hm).symm, rfl⟩
  · split at hrun
    · cases hrun
      refine ⟨fun m hm => ?_, rfl⟩
      split at hm
      · cases hm
      · exact (Option.some.inj hm).symm
    · cases hrun
      exact ⟨nofun, rfl⟩
  · cases hrun
    exact ⟨fun m hm => (Option.some.inj hm).symm, rfl⟩

/-- A predicate on sessions and one on what the room says, in one state. -/
structure Holds (Good : Conn → Prop) (Fit : Bytes → Prop) (σ : State Session) : Prop where
  conn : ∀ s c, σ.conn s = some c → Good c
  posted : ∀ handler ∈ σ.strand, Fit handler.message
  delivering : ∀ message todo, σ.delivering = some (message, todo) → Fit message
  said : ∀ message ∈ messages σ.history, Fit message

/-- The two are kept by everything that happens to a session. -/
structure Kept (Session : Type*) (Good : Conn → Prop) (Fit : Bytes → Prop) : Prop where
  new : ∀ peer, Good (Conn.new peer) ∧ Fit (joinAnnouncement peer)
  change : ∀ (s : Session) (c c' : Conn) (posts : List (RoomHandler Session)), Good c →
    Conn.Change s c c' posts → Good c' ∧ ∀ handler ∈ posts, Fit handler.message
  deliver : ∀ c message, Good c → Fit message → Good (c.deliver ⟨.broadcast, message⟩)

namespace Holds

variable {Good : Conn → Prop} {Fit : Bytes → Prop} {σ σ' : State Session}

/-- One session is as it should be, the others as before. -/
theorem setConn (h : Holds Good Fit σ) {s : Session} {c : Conn} (hc : Good c) (t : Session)
    (d : Conn) (hd : Function.update σ.conn s (some c) t = some d) : Good d := by
  rcases eq_or_ne t s with rfl | hne
  · rw [Function.update_self] at hd
    exact Option.some.inj hd ▸ hc
  · rw [Function.update_of_ne hne] at hd
    exact h.conn t d hd

theorem move (h : Holds Good Fit σ) (hkept : Kept Session Good Fit) (hmove : Move σ σ') :
    Holds Good Fit σ' := by
  cases hmove with
  | accept s peer =>
      refine ⟨h.setConn (hkept.new peer).1, fun handler hmem => ?_, h.delivering, h.said⟩
      rcases List.mem_append.mp hmem with hold | hnew
      · exact h.posted handler hold
      · exact List.mem_singleton.mp hnew ▸ (hkept.new peer).2
  | session s c c' posts accepting hc hchange =>
      obtain ⟨hgood, hposts⟩ := hkept.change s c c' posts (h.conn s c hc) hchange
      refine ⟨h.setConn hgood, fun handler hmem => ?_, h.delivering, h.said⟩
      exact (List.mem_append.mp hmem).elim (h.posted handler) (hposts handler)
  | room handler rest members message events todo _ hstrand hrun =>
      have hhandler := h.posted handler (hstrand ▸ .head _)
      obtain ⟨hmessage, hevents⟩ := RoomHandler.run_message hrun
      have hsaid : ∀ m, message = some m → Fit m := fun m hm => hmessage m hm ▸ hhandler
      refine ⟨h.conn, fun handler' hmem => h.posted handler' (hstrand ▸ .tail _ hmem), ?_, ?_⟩
      · intro m todo' hdelivering
        obtain ⟨m', hm', heq⟩ := Option.map_eq_some_iff.mp hdelivering
        cases heq
        exact hsaid m hm'
      · intro m hm
        change m ∈ messages (σ.history ++ events ++ message.toList.map .said) at hm
        rw [messages_append, messages_append, hevents, List.append_nil] at hm
        rcases List.mem_append.mp hm with hold | hnew
        · exact h.said m hold
        · cases message with
          | none => cases hnew
          | some m' => exact List.mem_singleton.mp hnew ▸ hsaid m' rfl
  | deliver message s todo c hdelivering hc =>
      have hfit := h.delivering _ _ hdelivering
      refine ⟨h.setConn (hkept.deliver c message (h.conn s c hc) hfit), h.posted, ?_, h.said⟩
      intro m todo' heq
      cases heq
      exact hfit
  | delivered => exact ⟨h.conn, h.posted, nofun, h.said⟩

theorem of_reachable (hkept : Kept Session Good Fit) (hreach : (system Session).Reachable σ) :
    Holds Good Fit σ := by
  refine (system Session).reachable_invariant (Holds Good Fit) ?_ ?_ σ hreach
  · rintro σ rfl
    exact ⟨nofun, nofun, nofun, nofun⟩
  · exact fun σ label σ' _ h hstep => h.move hkept hstep.move

end Holds

end MoreCpp.Chat.Server

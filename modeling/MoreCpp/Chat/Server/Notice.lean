import MoreCpp.Chat.Server.Change

/-!
The notice for an oversized line. `on_read` posts it to the strand of the
session and then stops the session in the same handler, so it is dropped when
its turn comes. Nothing else the server sends has its text.
-/

namespace MoreCpp.Chat.Server

open Library

/-! ### No other message reads like the notice -/

theorem toWireLine_ne_notice {marker : Bytes} (hmarker : ¬ marker <:+: notice.text)
    (hlast : marker.getLast?.any (!isLineEnd ·) = true) (before after : Bytes) :
    toWireLine (before ++ marker ++ after) ≠ notice.text := by
  obtain ⟨init, last, rfl, hend⟩ :
      ∃ init last, marker = init ++ [last] ∧ isLineEnd last = false := by
    rcases List.eq_nil_or_concat marker with rfl | ⟨init, last, rfl⟩
    · cases hlast
    · exact ⟨init, last, List.concat_eq_append, by simpa using hlast⟩
  have hsuffix : init ++ [last] <:+: before ++ init ++ [last] := by
    rw [List.append_assoc]
    exact (List.suffix_append before _).isInfix
  have hkept : before ++ init ++ [last] <+: toWireLine (before ++ (init ++ [last]) ++ after) := by
    rw [← List.append_assoc before]
    exact (isPrefix_trimWireLine hend _ after).trans (List.prefix_append _ _)
  exact fun heq => hmarker (heq ▸ hsuffix.trans hkept.isInfix)

theorem serverLine_ne_notice {marker : Bytes} (hmarker : ¬ marker <:+: notice.text)
    (hlast : marker.getLast?.any (!isLineEnd ·) = true) (before after : Bytes) :
    serverLine (before ++ marker ++ after) ≠ notice.text := by
  rw [serverLine, ← List.append_assoc, ← List.append_assoc]
  exact toWireLine_ne_notice hmarker hlast _ after

theorem joinAnnouncement_ne_notice (peer : Peer) : joinAnnouncement peer ≠ notice.text :=
  serverLine_ne_notice (by decide) (by decide) _ _

theorem greeting_ne_notice (name : Bytes) : (greeting name).text ≠ notice.text := by
  have hgreeting : text "connected as " ++ name ++ text ". Commands: /name <name>, /quit" =
      [] ++ text "connected as " ++ (name ++ text ". Commands: /name <name>, /quit") := by
    rw [List.nil_append, List.append_assoc]
  rw [greeting, hgreeting]
  exact serverLine_ne_notice (by decide) (by decide) _ _

variable {Session : Type*}

theorem Conn.Speech.ne_notice {self : Session} {name newName : Bytes}
    {posts : List (RoomHandler Session)} (h : Conn.Speech self name newName posts) :
    ∀ handler ∈ posts, handler.message ≠ notice.text := by
  have one : ∀ handler : RoomHandler Session, handler.message ≠ notice.text →
      ∀ handler' ∈ [handler], handler'.message ≠ notice.text :=
    fun handler hne handler' hmem => List.mem_singleton.mp hmem ▸ hne
  cases h with
  | silent => exact nofun
  | left =>
      have hmarker : ¬ text " left" <:+: notice.text := by decide
      have hne := serverLine_ne_notice hmarker (by decide) name []
      rw [List.append_nil] at hne
      exact one _ hne
  | oversized =>
      have hmarker : ¬ text " was disconnected after sending an oversized message" <:+:
          notice.text := by
        decide
      have hne := serverLine_ne_notice hmarker (by decide) name []
      rw [List.append_nil] at hne
      exact one _ hne
  | renamed => exact one _ (serverLine_ne_notice (by decide) (by decide) name _)
  | said => exact one _ (toWireLine_ne_notice (by decide) (by decide) name _)

/-! ### The notice is never written -/

/-- A session that has not written the notice, and will drop it if it comes up. -/
structure Unnoticed (c : Conn) : Prop where
  outbox : ∀ message ∈ c.outbox, message.text ≠ notice.text
  written : ∀ message, .asyncWrite message ∈ c.socket → message.text ≠ notice.text
  queued : c.stopped = false → ∀ message, .deliver message ∈ c.strand →
    message.text ≠ notice.text

namespace Unnoticed

variable {c c' : Conn}

theorem post (h : Unnoticed c) {handler : Handler}
    (hhandler : ∀ message, handler = .deliver message → message.text ≠ notice.text) :
    Unnoticed (c.post handler) where
  outbox := h.outbox
  written := h.written
  queued hrunning message hmem := by
    rcases List.mem_append.mp hmem with hold | hnew
    · exact h.queued hrunning message hold
    · exact hhandler message (List.mem_singleton.mp hnew).symm

/-- The handlers of a stopped session do not matter. -/
theorem closed (houtbox : ∀ message ∈ c.outbox, message.text ≠ notice.text)
    (hwritten : ∀ message, .asyncWrite message ∈ c.socket → message.text ≠ notice.text) :
    Unnoticed c.closed := by
  unfold Conn.closed
  split
  · rename_i hstopped
    exact ⟨houtbox, hwritten, fun hrunning => by simp [hstopped] at hrunning⟩
  · refine ⟨houtbox, fun message hmem => ?_, nofun⟩
    rcases List.mem_append.mp hmem with hold | hclose
    · exact hwritten message hold
    · cases List.mem_singleton.mp hclose

theorem write {message : Message} (hmessage : message.text ≠ notice.text)
    (hwritten : ∀ m, .asyncWrite m ∈ c.socket → m.text ≠ notice.text) (m : Message)
    (hmem : .asyncWrite m ∈ c.socket ++ [.asyncWrite message]) : m.text ≠ notice.text := by
  rcases List.mem_append.mp hmem with hold | hnew
  · exact hwritten m hold
  · cases List.mem_singleton.mp hnew
    exact hmessage

theorem effect (h : Unnoticed c) {handler : Handler} {rest : List Handler}
    (hstrand : c.strand = handler :: rest)
    (heffect : Conn.Effect { c with strand := rest } handler c') : Unnoticed c' := by
  have hrest : c.stopped = false → ∀ message, .deliver message ∈ rest →
      message.text ≠ notice.text :=
    fun hrunning message hmem => h.queued hrunning message (hstrand ▸ .tail _ hmem)
  cases heffect with
  | dropped => exact ⟨h.outbox, h.written, hrest⟩
  | queued message hrunning =>
      have hmessage := h.queued hrunning message (hstrand ▸ .head _)
      refine ⟨fun m hmem => ?_, h.written, hrest⟩
      rcases List.mem_append.mp hmem with hold | hnew
      · exact h.outbox m hold
      · exact List.mem_singleton.mp hnew ▸ hmessage
  | put message hrunning =>
      have hmessage := h.queued hrunning message (hstrand ▸ .head _)
      exact ⟨fun m hmem => List.mem_singleton.mp hmem ▸ hmessage, write hmessage h.written, hrest⟩
  | line => exact ⟨h.outbox, h.written, hrest⟩
  | oversized => exact closed h.outbox h.written
  | readStops => exact closed h.outbox h.written
  | last => exact ⟨nofun, h.written, hrest⟩
  | next message next rest' houtbox =>
      have hnext := h.outbox next (houtbox ▸ .tail _ (.head _))
      exact ⟨fun m hmem => h.outbox m (houtbox ▸ .tail _ hmem), write hnext h.written, hrest⟩
  | writeStops => exact closed h.outbox h.written

end Unnoticed

theorem kept_unnoticed : Kept Session Unnoticed (· ≠ notice.text) where
  new peer := ⟨⟨nofun, nofun, fun _ => nofun⟩, joinAnnouncement_ne_notice peer⟩
  change s c c' posts h hchange := by
    cases hchange with
    | greet => exact ⟨h.post fun m hm => by cases hm; exact greeting_ne_notice c.name, nofun⟩
    | doRead => exact ⟨⟨h.outbox, h.written, h.queued⟩, nofun⟩
    | read result input =>
        have hread : Unnoticed { c with reads := c.reads - 1, input := input } :=
          ⟨h.outbox, h.written, h.queued⟩
        exact ⟨hread.post nofun, nofun⟩
    | write ok =>
        have hwrite : Unnoticed { c with writes := c.writes - 1 } :=
          ⟨h.outbox, h.written, h.queued⟩
        exact ⟨hwrite.post nofun, nofun⟩
    | run hstrand hrun =>
        exact ⟨h.effect hstrand (Conn.effect_run hrun), (Conn.speech_run hrun).ne_notice⟩
  deliver c message h hmessage := h.post fun m hm => by cases hm; exact hmessage

/-- Whenever the socket is closed, the notice was written before. -/
def NoticeBeforeClose (log : List SocketCall) : Prop :=
  ∀ before after, log = before ++ .close :: after →
    ∃ message, .asyncWrite message ∈ before ∧ message.text = notice.text

theorem onRead_oversized_socket {n : Nat} (hlarge : maxLineSize < n) (self : Session) {c : Conn}
    (hrunning : c.stopped = false) :
    (c.onRead (some n) self).1.socket = c.socket ++ [.close] := by
  simp only [Conn.onRead, if_pos hlarge, Conn.stop_fst, Conn.closed, Conn.deliver, Conn.post,
    hrunning, Bool.false_eq_true, if_false]

variable [DecidableEq Session]

/-- After `start` a session has its greeting to deliver and reads. -/
theorem reachable_started (s : Session) (peer : Peer) :
    ∃ σ, (system Session).Reachable σ ∧
      σ.conn s = some ((Conn.new peer).deliver (greeting (guestName peer))).doRead := by
  have haccepted : (State.accepted s peer).conn s = some (Conn.new peer) := by
    simp only [State.accepted, Function.update_self]
  have hgreet := (reachable_accepted s peer).next (Step.startDeliver rfl haccepted)
  exact ⟨_, hgreet.next (Step.startDoRead rfl (Function.update_self s _ _)),
    Function.update_self s _ _⟩

/-- A client that sends nothing but one line: the greeting is being written when
the session sees the line. -/
theorem reachable_line (s : Session) (peer : Peer) {line : Bytes} (hline : newline ∉ line) :
    ∃ σ c, (system Session).Reachable σ ∧ σ.conn s = some c ∧
      c.strand = [.onRead (some (line.length + 1))] ∧ c.stopped = false ∧
      c.socket = [.asyncWrite (greeting (guestName peer))] := by
  obtain ⟨σ, hreach, hc⟩ := reachable_started s peer
  have hread := hreach.next (Step.readOk hc Nat.one_pos (line ++ [newline])
    (List.mem_append.mpr (.inr (List.mem_append.mpr (.inr (.head _))))))
  have hgreet := hread.next (Step.session (Function.update_self s _ _) rfl rfl)
  refine ⟨_, _, hgreet, Function.update_self s _ _, ?_, rfl, rfl⟩
  have hfirst : firstLine newline ([] ++ (line ++ [newline])) = line := firstLine_append hline []
  exact congrArg (fun first : Bytes => [Handler.onRead (some (first.length + 1))]) hfirst

/-- 4096 bytes and the newline. -/
def longLine : Bytes := List.replicate maxLineSize 97

theorem longLine_notMem : newline ∉ longLine := fun hmem =>
  absurd (List.eq_of_mem_replicate hmem) (by decide)

theorem longLine_length : maxLineSize < longLine.length + 1 := by
  rw [longLine, List.length_replicate]
  exact Nat.lt_succ_self _

/-- The session closes the socket when it sees the line. -/
theorem step_oversized {σ : State Session} {s : Session} {c : Conn} {n : Nat} {rest : List Handler}
    (hc : σ.conn s = some c) (hstrand : c.strand = .onRead (some n) :: rest)
    (hlarge : maxLineSize < n) (hrunning : c.stopped = false) :
    ∃ σ' c', Step σ (.session s) σ' ∧ σ'.conn s = some c' ∧ c'.socket = c.socket ++ [.close] :=
  ⟨_, _, Step.session hc hstrand rfl, Function.update_self s _ _,
    onRead_oversized_socket (c := { c with strand := rest }) hlarge s hrunning⟩

/-- After an oversized line the socket is closed, and at no later time of any run
has the notice been written before. -/
theorem notice_never_written {σ σ' σ'' : State Session} {s : Session} {c c'' : Conn} {n : Nat}
    {rest : List Handler} {labels : List (Label Session)}
    (hreach : (system Session).Reachable σ) (hc : σ.conn s = some c)
    (hstrand : c.strand = .onRead (some n) :: rest) (hlarge : maxLineSize < n)
    (hrunning : c.stopped = false) (hstep : Step σ (.session s) σ')
    (hrun : (system Session).Run σ' labels σ'') (hc'' : σ''.conn s = some c'') :
    ¬ NoticeBeforeClose c''.socket := by
  obtain ⟨c', hc', hclosed⟩ : ∃ c', σ'.conn s = some c' ∧ c'.socket = c.socket ++ [.close] := by
    cases hstep with
    | session hc₂ hstrand₂ hread =>
        rw [hc] at hc₂
        cases hc₂
        rw [hstrand] at hstrand₂
        cases hstrand₂
        obtain rfl := Option.some.inj hread
        exact ⟨_, Function.update_self s _ _,
          onRead_oversized_socket (c := { c with strand := rest }) hlarge s hrunning⟩
  obtain ⟨d, hd, later, hlater⟩ := run_socket_isPrefix hrun hc'
  rw [hc''] at hd
  cases hd
  rw [hclosed, List.append_assoc] at hlater
  intro hnotice
  obtain ⟨message, hmem, htext⟩ := hnotice c.socket later hlater.symm
  have hwritten := (Holds.of_reachable kept_unnoticed hreach).conn s c hc
  exact hwritten.written message hmem htext

theorem notice_not_first :
    ¬ ∀ (σ σ' : State Unit) (s : Unit) (c c' : Conn) (n : Nat) (rest : List Handler),
      (system Unit).Reachable σ → σ.conn s = some c → c.strand = .onRead (some n) :: rest →
      maxLineSize < n → c.stopped = false → Step σ (.session s) σ' → σ'.conn s = some c' →
      NoticeBeforeClose c'.socket := by
  intro hclaim
  obtain ⟨σ, c, hreach, hc, hstrand, hrunning, hsocket⟩ :=
    reachable_line () guest longLine_notMem
  obtain ⟨σ', c', hstep, hc', hclosed⟩ := step_oversized hc hstrand longLine_length hrunning
  have hnotice := hclaim σ σ' () c c' _ _ hreach hc hstrand longLine_length hrunning hstep hc'
  rw [hclosed, hsocket] at hnotice
  obtain ⟨message, hmem, htext⟩ := hnotice _ [] rfl
  cases List.mem_singleton.mp hmem
  exact greeting_ne_notice _ htext

theorem notice_never_written_guest : ∃ (σ : State Unit) (c : Conn),
    (system Unit).Reachable σ ∧ σ.conn () = some c ∧ ¬ NoticeBeforeClose c.socket := by
  obtain ⟨σ, c, hreach, hc, hstrand, hrunning, -⟩ := reachable_line () guest longLine_notMem
  obtain ⟨σ', c', hstep, hc', -⟩ := step_oversized hc hstrand longLine_length hrunning
  exact ⟨σ', c', hreach.next hstep, hc',
    notice_never_written hreach hc hstrand longLine_length hrunning hstep (.refl _) hc'⟩

end MoreCpp.Chat.Server

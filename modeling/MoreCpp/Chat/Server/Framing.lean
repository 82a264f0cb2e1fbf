import MoreCpp.Chat.Server.Change

/-!
Framing. Names and lines come from clients, but a line is cut at its newline
and a name out of a line, so neither has one; every message the room broadcasts
has one newline, at its end, and a client can take a stream of them apart.
-/

namespace MoreCpp.Chat.Server

open Library

variable {Session : Type*}

theorem notMem_append {a b : Bytes} (ha : newline ∉ a) (hb : newline ∉ b) : newline ∉ a ++ b :=
  fun hmem => (List.mem_append.mp hmem).elim ha hb

theorem guestName_notMem (peer : Peer) : newline ∉ guestName peer :=
  notMem_append (by decide) fun hmem => peer.uuid_notMem (List.mem_of_mem_take hmem)

theorem remoteName_notMem (peer : Peer) : newline ∉ remoteName peer := by
  cases hendpoint : peer.endpoint with
  | none =>
      rw [remoteName, hendpoint]
      decide
  | some address =>
      rw [remoteName, hendpoint]
      exact peer.endpoint_notMem address hendpoint

theorem framed_joinAnnouncement (peer : Peer) : Framed newline (joinAnnouncement peer) :=
  framed_serverLine (notMem_append (notMem_append (guestName_notMem peer) (by decide))
    (remoteName_notMem peer))

/-- A name without a newline is kept, and what is posted to the room is framed. -/
theorem Conn.Speech.framed {self : Session} {name newName : Bytes}
    {posts : List (RoomHandler Session)} (h : Conn.Speech self name newName posts)
    (hname : newline ∉ name) :
    newline ∉ newName ∧ ∀ handler ∈ posts, Framed newline handler.message := by
  have one : ∀ handler : RoomHandler Session, Framed newline handler.message →
      ∀ handler' ∈ [handler], Framed newline handler'.message :=
    fun handler hframed handler' hmem => List.mem_singleton.mp hmem ▸ hframed
  cases h with
  | silent => exact ⟨hname, nofun⟩
  | left => exact ⟨hname, one _ (framed_serverLine (notMem_append hname (by decide)))⟩
  | oversized => exact ⟨hname, one _ (framed_serverLine (notMem_append hname (by decide)))⟩
  | renamed _ hnew =>
      have hbody := notMem_append (notMem_append hname (by decide : newline ∉ text " is now ")) hnew
      exact ⟨hnew, one _ (framed_serverLine hbody)⟩
  | said line hline =>
      have hbody := notMem_append (notMem_append hname (by decide : newline ∉ text ": ")) hline
      exact ⟨hname, one _ (framed_toWireLine hbody)⟩

/-- No name has a newline, and what is or will be broadcast is framed. -/
theorem kept_framed : Kept Session (newline ∉ ·.name) (Framed newline) where
  new peer := ⟨guestName_notMem peer, framed_joinAnnouncement peer⟩
  change s c c' posts hname hchange := by
    cases hchange with
    | greet | doRead | read | write => exact ⟨hname, nofun⟩
    | run _ hrun => exact (Conn.speech_run hrun).framed hname
  deliver c message hname _ := hname

/-- In every run, whatever the clients send: a message passed to a room
broadcast has one newline, its last byte, and from any sequence of broadcasts a
client gets one line each, the trimmed message. -/
theorem broadcasts_framed [DecidableEq Session] (σ : State Session)
    (hreach : (system Session).Reachable σ) :
    (∀ message, message ∈ messages σ.history ∨ message ∈ σ.strand.map RoomHandler.message →
      message.count newline = 1 ∧ message.getLast? = some newline) ∧
    ∀ received : List Bytes, (∀ message ∈ received, message ∈ messages σ.history) →
      clientLines received.flatten = received.map trimWireLine := by
  have h := Holds.of_reachable kept_framed hreach
  refine ⟨fun message hmessage => ?_, fun received hreceived =>
    clientLines_flatten fun message hmem => h.said message (hreceived message hmem)⟩
  have hframed : Framed newline message := by
    rcases hmessage with hsaid | hposted
    · exact h.said message hsaid
    · obtain ⟨handler, hhandler, rfl⟩ := List.mem_map.mp hposted
      exact h.posted handler hhandler
  exact ⟨hframed.count_eq, hframed.getLast?_eq⟩

theorem broadcasts_framed_guest :
    clientLines (joinAnnouncement guest ++ joinAnnouncement guest) =
      [trimWireLine (joinAnnouncement guest), trimWireLine (joinAnnouncement guest)] := by
  have hlines := (broadcasts_framed _ (reachable_joined () guest)).2
    [joinAnnouncement guest, joinAnnouncement guest] fun message hmessage => by
      rcases List.mem_cons.mp hmessage with rfl | hmessage
      · exact .head _
      · exact List.mem_singleton.mp hmessage ▸ .head _
  simpa using hlines

end MoreCpp.Chat.Server

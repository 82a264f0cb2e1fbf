import MoreCpp.Chat.Client.Stream
import MoreCpp.Chat.Server.Order
import MoreCpp.Chat.Server.Speech

/-!
The server and its clients, each client on a connection of its own. What arrives at one
end of a connection are the first bytes of what the other end has started to write, at any
time and in pieces of any size; either end may fail or stop at any time.
-/

namespace MoreCpp.Chat

open Library

variable {Session : Type*}

structure Network (Session : Type*) where
  server : Server.State Session
  client : Session → Client.Main
  /-- The bytes that have arrived at the server, and at the clients. -/
  upstream : Session → Bytes
  downstream : Session → Bytes

namespace Network

/-- What a client has started to write. -/
def sentUp (net : Network Session) (s : Session) : Bytes := (net.client s).client.started.flatten

/-- What the server has started to write. -/
def sentDown (net : Network Session) (s : Session) : Bytes :=
  match net.server.conn s with
  | none => []
  | some c => (c.started.map Server.Message.text).flatten

def initial (name : Session → Bytes) : Network Session where
  server := .initial Session
  client s := .initial (name s)
  upstream _ := []
  downstream _ := []

inductive Label (Session : Type*) where
  | server (label : Server.Label Session)
  | client (s : Session) (label : Client.MainLabel)

variable [DecidableEq Session]

inductive Step : Network Session → Label Session → Network Session → Prop where
  | server {net : Network Session} {label : Server.Label Session} {server : Server.State Session}
      (hstep : Server.Step net.server label server)
      (harrives : ∀ s, net.upstream s ++ net.server.arrived label server s <+: net.sentUp s) :
      Step net (.server label) { net with
        server := server
        upstream := fun s => net.upstream s ++ net.server.arrived label server s }
  | client {net : Network Session} {s : Session} {label : Client.MainLabel} {m : Client.Main}
      (hstep : Client.MainStep (net.client s) label m)
      (harrives : net.downstream s ++ (net.client s).arrived label m <+: net.sentDown s) :
      Step net (.client s label) { net with
        client := Function.update net.client s m
        downstream :=
          Function.update net.downstream s (net.downstream s ++ (net.client s).arrived label m) }

/-- The server, and for each session the client of this name. -/
def system (name : Session → Bytes) : System (Network Session) (Label Session) where
  Init net := net = initial name
  Step := Step

/-- Each end is in a run of its own, and gets the first bytes of what the other sends. -/
structure Connects (name : Session → Bytes) (net : Network Session) : Prop where
  server : (Server.system Session).Reachable net.server
  client : ∀ s, Client.Streams (net.client s) (net.downstream s)
  named : ∀ s, (net.client s).client.name = name s
  up : ∀ s, net.upstream s <+: net.sentUp s
  down : ∀ s, net.downstream s <+: net.sentDown s
  talks : ∃ log waiting, Server.Conversation net.server net.upstream log waiting

variable {name : Session → Bytes} {net net' : Network Session}

theorem sentDown_isPrefix {label : Server.Label Session} {server : Server.State Session}
    (hstep : Server.Step net.server label server) (s : Session) :
    net.sentDown s <+: ({ net with server := server } : Network Session).sentDown s := by
  cases hc : net.server.conn s with
  | none =>
      rw [sentDown, hc]
      exact List.nil_prefix
  | some c =>
      obtain ⟨c', hc', hsocket⟩ := hstep.move.socket_isPrefix hc
      change server.conn s = some c' at hc'
      rw [sentDown, sentDown, hc]
      dsimp only
      rw [hc']
      exact ((hsocket.filterMap _).map _).flatten

namespace Connects

theorem initial (name : Session → Bytes) : Connects name (initial name) where
  server := .start rfl
  client s := .initial (name s)
  named _ := rfl
  up _ := List.nil_prefix
  down _ := List.nil_prefix
  talks := ⟨[], [], .initial⟩

theorem step {label : Label Session} (h : Connects name net) (hstep : Step net label net') :
    Connects name net' := by
  cases hstep with
  | server hstep harrives =>
      obtain ⟨log, waiting, htalk⟩ := h.talks
      exact ⟨h.server.next hstep, h.client, h.named, harrives,
        fun s => (h.down s).trans (sentDown_isPrefix hstep s), htalk.step hstep⟩
  | @client s label m hstep harrives =>
      obtain ⟨_, hclient⟩ := hstep.step
      refine ⟨h.server, fun t => ?_, fun t => ?_, fun t => ?_, fun t => ?_, h.talks⟩
      · rcases eq_or_ne t s with rfl | hne
        · dsimp only
          rw [Function.update_self, Function.update_self]
          exact (h.client t).step hstep
        · dsimp only
          rw [Function.update_of_ne hne, Function.update_of_ne hne]
          exact h.client t
      · rcases eq_or_ne t s with rfl | hne
        · dsimp only
          rw [Function.update_self, hclient.frame.1]
          exact h.named t
        · dsimp only
          rw [Function.update_of_ne hne]
          exact h.named t
      · rcases eq_or_ne t s with rfl | hne
        · dsimp only [sentUp]
          rw [Function.update_self]
          exact (h.up t).trans (Client.ChatClient.step_started hclient).flatten
        · dsimp only [sentUp]
          rw [Function.update_of_ne hne]
          exact h.up t
      · rcases eq_or_ne t s with rfl | hne
        · dsimp only
          rw [Function.update_self]
          exact harrives
        · dsimp only
          rw [Function.update_of_ne hne]
          exact h.down t

theorem of_reachable (hreach : (system name).Reachable net) : Connects name net := by
  refine (system name).reachable_invariant (Connects name) ?_ ?_ net hreach
  · rintro net rfl
    exact .initial name
  · exact fun net label net' _ h hstep => h.step hstep

/-- What a client shows are the first of the messages its session has started to send. -/
theorem shown (h : Connects name net) {s : Session} {c : Server.Conn}
    (hc : net.server.conn s = some c) :
    (net.client s).client.shown <+: c.started.map fun message => trimWireLine message.text := by
  have htidy := (Server.Holds.of_reachable Server.kept_tidy h.server).conn s c hc
  have hframed : ∀ message ∈ c.started.map Server.Message.text, Framed newline message := by
    intro message hmem
    obtain ⟨started, hstarted, rfl⟩ := List.mem_map.mp hmem
    exact htidy.started started hstarted
  have hshown := (h.client s).shown_isPrefix (h.down s)
  rw [sentDown, hc, clientLines_flatten hframed, List.map_map] at hshown
  exact hshown

/-- Without a session, a client shows nothing. -/
theorem shown_nil (h : Connects name net) {s : Session} (hc : net.server.conn s = none) :
    (net.client s).client.shown = [] := by
  have hshown := (h.client s).shown_isPrefix (h.down s)
  rw [sentDown, hc] at hshown
  exact List.prefix_nil.mp hshown

/-- What the room has run of what a session posted. -/
theorem posted (h : Connects name net) {log waiting : List (Session × Server.RoomHandler Session)}
    (htalk : Server.Conversation net.server net.upstream log waiting) {s : Session}
    {c : Server.Conn} (hc : net.server.conn s = some c) :
    Server.spokenOf (valuesAt s log) <+:
        Server.transcript (Server.guestName c.peer) (clientLines (net.client s).toSend.flatten) ∧
      ∃ announced, c.Announces s (clientLines (net.client s).toSend.flatten) announced ∧
        Server.announcedOf (valuesAt s log) <+: announced :=
  htalk.posted hc ((h.up s).trans (h.client s).started_isPrefix.flatten)

end Connects

/-- In every run of the server and its clients, whatever fails: the room has run what sessions
posted, and of each session, in this order, what its name and the lines typed at its client
say, that it came and, once, that it left. What a client shows are the first messages its
session has sent, and the broadcasts among them those that the room said from when the session
came until it left. -/
theorem end_to_end (name : Session → Bytes) (net : Network Session)
    (hreach : (system name).Reachable net) :
    ∃ log : List (Session × Server.RoomHandler Session),
      Server.replay (log.map Prod.snd) = (net.server.members, net.server.history) ∧
      ∀ s, (net.server.conn s = none →
          valuesAt s log = [] ∧ (net.client s).client.shown = []) ∧
        ∀ c, net.server.conn s = some c →
          Server.spokenOf (valuesAt s log) <+: Server.transcript (Server.guestName c.peer)
            (clientLines (net.client s).toSend.flatten) ∧
          (∃ announced, c.Announces s (clientLines (net.client s).toSend.flatten) announced ∧
            Server.announcedOf (valuesAt s log) <+: announced) ∧
          (newline ∉ name s → clientLines (net.client s).toSend.flatten =
            (net.client s).toSend.map trimWireLine) ∧
          ∃ sent, sent <+: c.started ∧
            (net.client s).client.shown = sent.map (fun message => trimWireLine message.text) ∧
            Server.said sent <+: attended s net.server.history := by
  have h := Connects.of_reachable hreach
  obtain ⟨log, waiting, htalk⟩ := h.talks
  refine ⟨log, htalk.ran, fun s => ⟨fun hc => ⟨?_, h.shown_nil hc⟩, fun c hc => ?_⟩⟩
  · have hposts := (htalk.unborn s hc).2.1
    rw [valuesAt_append] at hposts
    exact (List.append_eq_nil_iff.mp hposts).1
  obtain ⟨hspoken, hannounced⟩ := h.posted htalk hc
  refine ⟨hspoken, hannounced, fun hname => ?_,
    c.started.take (net.client s).client.shown.length, List.take_prefix _ _, ?_, ?_⟩
  · exact clientLines_flatten ((h.client s).framed (h.named s ▸ hname))
  · rw [List.map_take]
    exact List.prefix_iff_eq_take.mp (h.shown hc)
  · have hstarted := ((Server.Ordered.of_reachable h.server).started hc).1
    exact ((List.take_prefix _ _).filterMap _).trans hstarted

/-! ### The first client -/

/-- A step of the server with which nothing arrives. -/
theorem reachable_serve (h : (system name).Reachable net) {label : Server.Label Session}
    {server : Server.State Session} (hstep : Server.Step net.server label server)
    (hquiet : ∀ s, net.server.arrived label server s = []) :
    (system name).Reachable { net with server := server } := by
  have hnext : (system name).Step net (.server label) _ := Step.server hstep fun s => by
    rw [hquiet, List.append_nil]
    exact (Connects.of_reachable h).up s
  have hreach := h.next hnext
  simp only [hquiet, List.append_nil] at hreach
  exact hreach

theorem reachable_client (h : (system name).Reachable net) {s : Session}
    {label : Client.MainLabel} {m m' : Client.Main} (hm : net.client s = m)
    (hstep : Client.MainStep m label m')
    (harrives : net.downstream s ++ m.arrived label m' <+: net.sentDown s) :
    (system name).Reachable { net with
      client := Function.update net.client s m'
      downstream := Function.update net.downstream s (net.downstream s ++ m.arrived label m') } := by
  subst hm
  exact h.next (Step.client hstep harrives)

/-- A run of a client in which nothing arrives. -/
theorem reachable_hear (h : (system name).Reachable net) (s : Session) {n : Bytes}
    {labels : List Client.MainLabel} {first m : Client.Main} (hfirst : net.client s = first)
    (hrun : (Client.main n).Run first labels m)
    (hquiet : ∀ label ∈ labels, ∀ m m' : Client.Main, m.arrived label m' = []) :
    (system name).Reachable { net with client := Function.update net.client s m } := by
  induction hrun with
  | refl =>
      rw [← hfirst, Function.update_eq_self]
      exact h
  | @snoc labels m label m' _ hlast ih =>
      have hreach := ih fun l hl => hquiet l (List.mem_append_left _ hl)
      have hnone := hquiet label (List.mem_append_right _ (List.mem_singleton_self _)) m m'
      have hself : (Function.update net.client s m) s = m := Function.update_self ..
      have hnext := reachable_client hreach hself hlast <| by
        rw [hnone, List.append_nil]
        exact (Connects.of_reachable hreach).down s
      dsimp only at hnext
      rwa [hnone, List.append_nil, Function.update_eq_self, Function.update_idem] at hnext

/-- A client with its first read under way. -/
def listening : Client.Main where
  client := { Client.ChatClient.initial [] with resolving := 0, connected := true, reads := 1 }
  input := .reading
  lines := []

theorem run_listening : (Client.main []).Run (.initial [])
    [.client (.resolveCompletes true), .client .handler, .client (.connectCompletes true),
      .client .handler] listening := by
  have hresolved : (Client.main []).Run (.initial []) _ _ :=
    .snoc (.refl _) (Client.MainStep.client rfl (.resolve Nat.one_pos true))
  have hconnecting := hresolved.snoc (Client.MainStep.client rfl (.handler rfl rfl))
  have hconnected := hconnecting.snoc (Client.MainStep.client rfl (.connect Nat.one_pos true))
  exact hconnected.snoc (Client.MainStep.client rfl (.handler rfl rfl))

/-- It has received a message, and has not shown it yet. -/
def listened (message : Bytes) : Client.Main :=
  { listening with
    client := .post (.onRead true) { listening.client with reads := 0, input := message } }

/-- The server has announced a client, and sends it the announcement. -/
theorem reachable_sent (s : Session) : ∃ (net : Network Session) (c : Server.Conn),
    (system fun _ => []).Reachable net ∧ net.server.conn s = some c ∧
      c.started = [⟨.broadcast, Server.joinAnnouncement Server.guest⟩] ∧
      net.client s = .initial [] ∧ net.downstream s = [] := by
  have hinit : (system fun _ : Session => []).Reachable (initial fun _ => []) := .start rfl
  have haccept : Server.Step (.initial Session) _ (.accepted s Server.guest) :=
    .accept s Server.guest rfl rfl
  have haccepted := reachable_serve hinit haccept fun _ => rfl
  have hrun : Server.RoomHandler.run [] (.join s (Server.joinAnnouncement Server.guest)) =
      ([s], some (Server.joinAnnouncement Server.guest), [.inserted s]) := rfl
  have hjoin : Server.Step (.accepted s Server.guest) _ (.joined s Server.guest) :=
    @Server.Step.room Session _ (.accepted s Server.guest) _ _ _ _ _ rfl rfl hrun [s] (.refl _)
  have hjoined := reachable_serve haccepted hjoin fun _ => rfl
  have hmember : (Server.State.joined s Server.guest).conn s = some (.new Server.guest) := by
    simp only [Server.State.joined, Server.State.accepted, Function.update_self]
  have hdelivered := reachable_serve hjoined (Server.Step.deliver rfl hmember) fun _ => rfl
  have hwritten := reachable_serve hdelivered
    (Server.Step.session (Function.update_self s _ _) rfl rfl) fun _ => rfl
  exact ⟨_, _, hwritten, Function.update_self s _ _, rfl, rfl, rfl⟩

/-- The client shows it. -/
theorem reachable_shown (s : Session) : ∃ (net : Network Session) (c : Server.Conn),
    (system fun _ => []).Reachable net ∧ net.server.conn s = some c ∧
      (net.client s).client.shown = [trimWireLine (Server.joinAnnouncement Server.guest)] := by
  obtain ⟨net, c, hreach, hc, hsent, hclient, hdownstream⟩ := reachable_sent s
  have hlistening := reachable_hear hreach s hclient run_listening
    (by simp [Client.Main.arrived, Client.ChatClient.arrived])
  have hline : newline ∈ Server.joinAnnouncement Server.guest :=
    List.mem_append_right _ (List.mem_singleton_self _)
  have hread : Client.MainStep listening (.client (.readCompletes true)) (listened _) :=
    .client rfl (.readOk Nat.one_pos (Server.joinAnnouncement Server.guest) hline)
  have harrives : net.downstream s ++ Server.joinAnnouncement Server.guest <+: net.sentDown s := by
    rw [hdownstream, sentDown, hc]
    dsimp only
    rw [hsent, List.map_singleton, List.flatten_singleton]
    exact List.prefix_refl _
  have hlistens : (Function.update net.client s listening) s = listening := Function.update_self ..
  have hreceived := reachable_client hlistening hlistens hread harrives
  have hshow : (Client.main []).Run (listened (Server.joinAnnouncement Server.guest)) _ _ :=
    .snoc (.refl _) (Client.MainStep.client rfl (.handler rfl rfl))
  have hshown := reachable_hear hreceived s (Function.update_self s _ _) hshow
    (by simp [Client.Main.arrived, Client.ChatClient.arrived])
  refine ⟨_, c, hshown, hc, ?_⟩
  dsimp only
  rw [Function.update_self]
  change [] ++ [trimWireLine (firstLine newline (Server.joinAnnouncement Server.guest))] = _
  obtain ⟨body, hbody, heq⟩ := Server.framed_joinAnnouncement Server.guest
  rw [heq, firstLine_append hbody, ← trimWireLine_dropLast (.of_body hbody), List.dropLast_concat]
  rfl

theorem end_to_end_shown : ∃ (net : Network Unit) (c : Server.Conn),
    (net.client ()).client.shown = [trimWireLine (Server.joinAnnouncement Server.guest)] ∧
      ∃ sent, sent <+: c.started ∧
        (net.client ()).client.shown = sent.map (fun message => trimWireLine message.text) ∧
        Server.said sent <+: attended () net.server.history := by
  obtain ⟨net, c, hreach, hc, hshown⟩ := reachable_shown ()
  obtain ⟨log, -, hsessions⟩ := end_to_end _ net hreach
  obtain ⟨-, -, -, hsent⟩ := (hsessions ()).2 c hc
  exact ⟨net, c, hshown, hsent⟩

end Network

end MoreCpp.Chat

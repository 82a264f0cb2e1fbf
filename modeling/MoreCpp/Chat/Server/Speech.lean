import MoreCpp.Chat.Server.Flow
import MoreCpp.Chat.Server.Framing
import MoreCpp.Library.Rearrangements

/-!
What sessions say. What a session broadcasts depends on the lines it receives and on
nothing else, and the room says it in this order, whatever the others say in between.
-/

namespace MoreCpp.Chat.Server

open Library

variable {Session : Type*}

/-- A line that is not too large: the name of the session afterwards, and what it broadcasts. -/
def speak (name line : Bytes) : Bytes × Option Bytes :=
  if line = [] ∨ line = text "/quit" then (name, none)
  else if (text "/name ").isPrefixOf line then
    let newName := trim (line.drop (text "/name ").length)
    if newName = [] then (name, none)
    else (newName, some (serverLine (name ++ text " is now " ++ newName)))
  else (name, some (toWireLine (name ++ text ": " ++ line)))

/-- What a session of this name broadcasts for some lines, up to `/quit`. -/
def transcript (name : Bytes) : List Bytes → List Bytes
  | [] => []
  | line :: rest =>
      if line = text "/quit" then []
      else (speak name line).2.toList ++ transcript (speak name line).1 rest

def nameAfter (name : Bytes) (lines : List Bytes) : Bytes :=
  lines.foldl (fun name line => (speak name line).1) name

theorem speak_quit (name : Bytes) : speak name (text "/quit") = (name, none) :=
  if_pos (.inr rfl)

theorem transcript_concat {lines : List Bytes} (hquit : text "/quit" ∉ lines)
    (name line : Bytes) : transcript name (lines ++ [line]) =
      transcript name lines ++ (speak (nameAfter name lines) line).2.toList := by
  induction lines generalizing name with
  | nil =>
      rw [List.nil_append, transcript, transcript, transcript, nameAfter, List.foldl_nil,
        List.nil_append, List.append_nil]
      split
      · next heq => rw [heq, speak_quit, Option.toList_none]
      · rfl
  | cons first rest ih =>
      have hfirst : first ≠ text "/quit" := fun heq => hquit (heq ▸ .head _)
      rw [List.cons_append, transcript, if_neg hfirst, transcript, if_neg hfirst,
        ih (fun hmem => hquit (.tail _ hmem)), List.append_assoc]
      rfl

theorem nameAfter_concat (name : Bytes) (lines : List Bytes) (line : Bytes) :
    nameAfter name (lines ++ [line]) = (speak (nameAfter name lines) line).1 := by
  rw [nameAfter, List.foldl_append]
  rfl

theorem transcript_isPrefix {lines lines' : List Bytes} (h : lines <+: lines') (name : Bytes) :
    transcript name lines <+: transcript name lines' := by
  induction lines generalizing name lines' with
  | nil => exact List.nil_prefix
  | cons first rest ih =>
      obtain ⟨later, rfl⟩ := h
      rw [List.cons_append, transcript, transcript]
      split
      · exact List.prefix_refl _
      · exact (List.prefix_append_right_inj _).mpr (ih (List.prefix_append _ _) _)

def RoomHandler.spoken? : RoomHandler Session → Option Bytes
  | .broadcast message => some message
  | .join _ _ | .leave _ _ => none

/-- What is broadcast among what a session posts. -/
def spokenOf (posts : List (RoomHandler Session)) : List Bytes :=
  posts.filterMap RoomHandler.spoken?

/-- The rest of what it posts. -/
def announcedOf (posts : List (RoomHandler Session)) : List (RoomHandler Session) :=
  posts.filter fun handler => handler.spoken?.isNone

theorem spokenOf_append (posts posts' : List (RoomHandler Session)) :
    spokenOf (posts ++ posts') = spokenOf posts ++ spokenOf posts' :=
  List.filterMap_append

theorem announcedOf_append (posts posts' : List (RoomHandler Session)) :
    announcedOf (posts ++ posts') = announcedOf posts ++ announcedOf posts' :=
  List.filter_append ..

def Handler.isRead : Handler → Bool
  | .onRead _ => true
  | _ => false

namespace Conn

/-- Reads that have ended and whose handlers have not run. -/
def readHandlers (c : Conn) : List Handler := c.strand.filter Handler.isRead

theorem readHandlers_before {handler : Handler} (hhandler : handler.isRead = false) (c : Conn) :
    (c.before handler).readHandlers = c.readHandlers :=
  List.filter_cons_of_neg (by simp [hhandler])

theorem readHandlers_before_read (result : Option Nat) (c : Conn) :
    (c.before (.onRead result)).readHandlers = .onRead result :: c.readHandlers :=
  List.filter_cons_of_pos rfl

theorem closed_eq (c : Conn) : c.closed.input = c.input ∧ c.closed.name = c.name ∧
    c.closed.peer = c.peer ∧ c.closed.reads = c.reads ∧ c.closed.readHandlers = c.readHandlers := by
  unfold closed
  split <;> exact ⟨rfl, rfl, rfl, rfl, rfl⟩

/-- A write that ends well posts nothing to the room. -/
theorem silent_onWrite {self : Session} {c : Conn} {outcome : Outcome Session}
    (h : c.onWrite true self = some outcome) : outcome.2 = [] := by
  rw [onWrite, if_pos rfl] at h
  split at h
  · cases h
  · dsimp only at h
    split at h
    · exact Option.some.inj h ▸ rfl
    · obtain ⟨c', -, rfl⟩ := Option.map_eq_some_iff.mp h
      rfl

theorem onLine_quit (self : Session) (c : Conn) :
    c.onLine (text "/quit") self = c.stop self c.left := by
  rw [onLine, if_neg (by decide), if_pos rfl]

theorem onLine_speak {line : Bytes} (hquit : line ≠ text "/quit") (self : Session) (c : Conn) :
    (c.onLine line self).1 = { c with name := (speak c.name line).1, reads := c.reads + 1 } ∧
      spokenOf (c.onLine line self).2 = (speak c.name line).2.toList ∧
      announcedOf (c.onLine line self).2 = [] := by
  by_cases hempty : line = []
  · rw [onLine, if_pos hempty, speak, if_pos (.inl hempty)]
    exact ⟨rfl, rfl, rfl⟩
  have hspeak : ¬ (line = [] ∨ line = text "/quit") := not_or_intro hempty hquit
  rw [onLine, if_neg hempty, if_neg hquit, speak, if_neg hspeak]
  by_cases hcommand : (text "/name ").isPrefixOf line = true
  · rw [if_pos hcommand, if_pos hcommand]
    dsimp only
    split <;> exact ⟨rfl, rfl, rfl⟩
  · rw [if_neg hcommand, if_neg hcommand]
    exact ⟨rfl, rfl, rfl⟩

/-- How a session says that it leaves. -/
inductive Farewell (name : Bytes) : Bytes → Prop where
  | left : Farewell name (serverLine (name ++ text " left"))
  | oversized : Farewell name
      (serverLine (name ++ text " was disconnected after sending an oversized message"))

/-- A session announces that it comes and, when it stops, that it leaves, under the name it
has then. -/
inductive Announces (s : Session) (c : Conn) (lines : List Bytes) :
    List (RoomHandler Session) → Prop where
  | joined (hrunning : c.stopped = false) :
      Announces s c lines [.join s (joinAnnouncement c.peer)]
  | left (hstopped : c.stopped = true) {before : List Bytes} (hbefore : before <+: lines)
      {announcement : Bytes}
      (hfarewell : Farewell (nameAfter (guestName c.peer) before) announcement) :
      Announces s c lines
        [.join s (joinAnnouncement c.peer), .leave s announcement]

theorem Announces.of_eq {s : Session} {c c' : Conn} {lines lines' : List Bytes}
    {announced : List (RoomHandler Session)} (h : c.Announces s lines announced)
    (hpeer : c'.peer = c.peer) (hstopped : c'.stopped = c.stopped) (hlines : lines <+: lines') :
    c'.Announces s lines' announced := by
  cases h with
  | joined hrunning =>
      rw [← hpeer]
      exact .joined (hstopped.trans hrunning)
  | left hstop hbefore hfarewell =>
      rw [← hpeer] at hfarewell ⊢
      exact .left (hstopped.trans hstop) (hbefore.trans hlines) hfarewell

/-- What a session has heard, and all it has posted. It reads one line at a time, from when
it has started until `/quit`. -/
structure Listens (s : Session) (c : Conn) (starting : Nat) (received : Bytes)
    (posts : List (RoomHandler Session)) : Prop where
  turns : c.reads + c.readHandlers.length + starting ≤ 1
  ready : ∀ n, .onRead (some n) ∈ c.readHandlers → newline ∈ c.input
  reading : ∃ taken, Reads newline received taken c.input ∧
    c.name = nameAfter (guestName c.peer) (taken.map trimWireLine) ∧
    spokenOf posts = transcript (guestName c.peer) (taken.map trimWireLine) ∧
    c.Announces s (taken.map trimWireLine) (announcedOf posts) ∧
    (text "/quit" ∈ taken.map trimWireLine → c.reads + c.readHandlers.length + starting = 0)

namespace Listens

variable {s : Session} {c c' : Conn} {starting : Nat} {received : Bytes}
  {posts : List (RoomHandler Session)} {handler : Handler}

theorem new (peer : Peer) :
    (Conn.new peer).Listens s 1 [] [.join s (joinAnnouncement peer)] where
  turns := Nat.le_refl 1
  ready := nofun
  reading := ⟨[], .start, rfl, rfl, .joined rfl, nofun⟩

/-- Nothing is read, and nothing posted. -/
theorem of_eq (h : c.Listens s starting received posts) (hinput : c'.input = c.input)
    (hname : c'.name = c.name) (hpeer : c'.peer = c.peer) (hreads : c'.reads = c.reads)
    (hhandlers : c'.readHandlers = c.readHandlers) (hstopped : c'.stopped = c.stopped) :
    c'.Listens s starting received posts := by
  obtain ⟨taken, hreading, hnamed, hspoken, hannounced, hquit⟩ := h.reading
  refine ⟨?_, ?_, taken, ?_, ?_, ?_, ?_, ?_⟩
  · rw [hreads, hhandlers]
    exact h.turns
  · rw [hhandlers, hinput]
    exact h.ready
  · rwa [hinput]
  · rwa [hname, hpeer]
  · rwa [hpeer]
  · exact hannounced.of_eq hpeer hstopped (List.prefix_refl _)
  · rwa [hreads, hhandlers]

/-- A session stops, and announces it if it has not stopped before. -/
theorem stop (h : c.Listens s starting received posts) {announcement : Bytes}
    (hfarewell : Farewell c.name announcement) :
    (c.stop s announcement).1.Listens s starting received
      (posts ++ (c.stop s announcement).2) := by
  unfold Conn.stop
  split
  · rw [List.append_nil]
    exact h
  · obtain ⟨taken, hreading, hname, hspoken, hannounced, hquit⟩ := h.reading
    refine ⟨h.turns, h.ready, taken, hreading, hname, ?_, ?_, hquit⟩
    · rw [spokenOf_append, hspoken]
      exact List.append_nil _
    · rw [announcedOf_append]
      generalize announcedOf posts = announced at hannounced
      cases hannounced with
      | joined => exact .left rfl (List.prefix_refl _) (hname ▸ hfarewell)
      | left hstopped => exact absurd hstopped ‹_›

theorem post (h : c.Listens s starting received posts) (hhandler : handler.isRead = false) :
    (c.post handler).Listens s starting received posts := by
  refine h.of_eq rfl rfl rfl rfl ?_ rfl
  rw [readHandlers, Conn.post, List.filter_append, List.filter_cons_of_neg (by simp [hhandler]),
    List.filter_nil, List.append_nil]
  rfl

theorem of_before (h : (c.before handler).Listens s starting received posts)
    (hhandler : handler.isRead = false) : c.Listens s starting received posts :=
  h.of_eq rfl rfl rfl rfl (readHandlers_before hhandler c).symm rfl

/-- The first read starts. -/
theorem doRead (h : c.Listens s 1 received posts) : c.doRead.Listens s 0 received posts := by
  obtain ⟨taken, hreading, hname, hspoken, hannounced, hquit⟩ := h.reading
  have hturns : c.doRead.reads + c.doRead.readHandlers.length + 0 =
      c.reads + c.readHandlers.length + 1 := by
    change c.reads + 1 + c.readHandlers.length + 0 = _
    omega
  refine ⟨hturns ▸ h.turns, h.ready, taken, hreading, hname, hspoken,
    hannounced.of_eq rfl rfl (List.prefix_refl _), fun hmem => ?_⟩
  rw [hturns]
  exact hquit hmem

/-- A read ends, and its handler is posted. -/
theorem read (h : c.Listens s starting received posts) (hreads : 0 < c.reads) (data : Bytes)
    {result : Option Nat} (hready : result.isSome = true → newline ∈ c.input ++ data) :
    Listens s (Conn.post (.onRead result) { c with
      reads := c.reads - 1, input := c.input ++ data }) starting (received ++ data) posts := by
  have hhandlers : readHandlers (Conn.post (.onRead result) { c with
      reads := c.reads - 1, input := c.input ++ data }) = c.readHandlers ++ [.onRead result] := by
    rw [readHandlers, Conn.post, List.filter_append, List.filter_cons_of_pos rfl, List.filter_nil]
    rfl
  obtain ⟨taken, hreading, hname, hspoken, hannounced, hquit⟩ := h.reading
  have hturns := h.turns
  have hnone : c.readHandlers = [] := List.eq_nil_of_length_eq_zero (by omega)
  refine ⟨?_, fun n hmem => ?_, taken, hreading.receive data, hname, hspoken,
    hannounced.of_eq rfl rfl (List.prefix_refl _), fun hmem => ?_⟩
  · rw [hhandlers, hnone]
    change c.reads - 1 + 1 + starting ≤ 1
    omega
  · rw [hhandlers, hnone] at hmem
    have heq : .onRead (some n) = Handler.onRead result := List.mem_singleton.mp hmem
    cases heq
    exact hready rfl
  · have hzero := hquit hmem
    omega

/-- The handler of a read has its turn, and no other read is under way. -/
theorem turn {result : Option Nat}
    (h : (c.before (.onRead result)).Listens s starting received posts) :
    c.reads = 0 ∧ c.readHandlers = [] ∧ starting = 0 ∧
      (result.isSome = true → newline ∈ c.input) ∧
      ∃ taken, Reads newline received taken c.input ∧
        c.name = nameAfter (guestName c.peer) (taken.map trimWireLine) ∧
        spokenOf posts = transcript (guestName c.peer) (taken.map trimWireLine) ∧
        c.Announces s (taken.map trimWireLine) (announcedOf posts) ∧
        text "/quit" ∉ taken.map trimWireLine := by
  have hturns := h.turns
  have hready := h.ready
  obtain ⟨taken, hreading, hname, hspoken, hannounced, hquit⟩ := h.reading
  rw [readHandlers_before_read] at hready hquit hturns
  rw [List.length_cons] at hturns hquit
  change c.reads + _ + starting ≤ 1 at hturns
  change _ → c.reads + _ + starting = 0 at hquit
  refine ⟨by omega, List.eq_nil_of_length_eq_zero (by omega), by omega, fun hsome => ?_, taken,
    hreading, hname, hspoken, hannounced.of_eq rfl rfl (List.prefix_refl _), fun hmem => ?_⟩
  · obtain ⟨n, rfl⟩ := Option.isSome_iff_exists.mp hsome
    exact hready n (.head _)
  · have hzero := hquit hmem
    omega

/-- A session that does not go on reading. -/
theorem stops {taken : List Bytes} (hreads : c.reads = 0) (hhandlers : c.readHandlers = [])
    (hreading : Reads newline received taken c.input)
    (hname : c.name = nameAfter (guestName c.peer) (taken.map trimWireLine))
    (hspoken : spokenOf posts = transcript (guestName c.peer) (taken.map trimWireLine))
    (hannounced : c.Announces s (taken.map trimWireLine) (announcedOf posts)) :
    c.Listens s 0 received posts := by
  have hturns : c.reads + c.readHandlers.length + 0 = 0 := by rw [hreads, hhandlers]; rfl
  refine ⟨by omega, ?_, taken, hreading, hname, hspoken, hannounced, fun _ => hturns⟩
  rw [hhandlers]
  exact nofun

/-- A session has taken a line, and acts on it. -/
theorem onLine {taken : List Bytes} {line : Bytes} (hreads : c.reads = 0)
    (hhandlers : c.readHandlers = []) (htaken : Reads newline received (taken ++ [line]) c.input)
    (hname : c.name = nameAfter (guestName c.peer) (taken.map trimWireLine))
    (hspoken : spokenOf posts = transcript (guestName c.peer) (taken.map trimWireLine))
    (hannounced : c.Announces s (taken.map trimWireLine) (announcedOf posts))
    (hquit : text "/quit" ∉ taken.map trimWireLine) :
    (c.onLine (trimWireLine line) s).1.Listens s 0 received
      (posts ++ (c.onLine (trimWireLine line) s).2) := by
  have hlines : (taken ++ [line]).map trimWireLine = taken.map trimWireLine ++ [trimWireLine line] := by
    rw [List.map_append, List.map_singleton]
  have hmore : taken.map trimWireLine <+: (taken ++ [line]).map trimWireLine :=
    hlines ▸ List.prefix_append _ _
  rcases eq_or_ne (trimWireLine line) (text "/quit") with heq | hne
  · rw [heq, onLine_quit]
    refine (stops hreads hhandlers htaken ?_ ?_ (hannounced.of_eq rfl rfl hmore)).stop .left
    · rw [hlines, heq, nameAfter_concat, speak_quit]
      exact hname
    · rw [hlines, heq, transcript_concat hquit, speak_quit, Option.toList_none, List.append_nil]
      exact hspoken
  · obtain ⟨hfst, hsnd, hquiet⟩ := onLine_speak hne s c
    rw [hfst]
    refine ⟨?_, ?_, _, htaken, ?_, ?_, ?_, fun hmem => ?_⟩
    · change c.reads + 1 + c.readHandlers.length + 0 ≤ 1
      rw [hreads, hhandlers]
      exact Nat.le_refl 1
    · change ∀ n, .onRead (some n) ∈ c.readHandlers → _
      rw [hhandlers]
      exact nofun
    · rw [hlines, nameAfter_concat, ← hname]
    · rw [spokenOf_append, hsnd, hlines, transcript_concat hquit, ← hname, hspoken]
    · rw [announcedOf_append, hquiet, List.append_nil]
      exact hannounced.of_eq rfl rfl hmore
    · rw [hlines] at hmem
      rcases List.mem_append.mp hmem with hold | hnew
      · exact absurd hold hquit
      · exact absurd (List.mem_singleton.mp hnew).symm hne

theorem onRead {result : Option Nat}
    (h : (c.before (.onRead result)).Listens s starting received posts) :
    (c.onRead result s).1.Listens s starting received
      (posts ++ (c.onRead result s).2) := by
  obtain ⟨hreads, hhandlers, rfl, hready, taken, hreading, hname, hspoken, hannounced, hquit⟩ :=
    h.turn
  have hstops := stops hreads hhandlers hreading hname hspoken hannounced
  cases result with
  | none => exact hstops.stop .left
  | some n =>
      rw [Conn.onRead]
      split
      · exact (hstops.post (show (Handler.deliver notice).isRead = false from rfl)).stop .oversized
      · exact onLine (c := { c with input := afterLine newline c.input }) hreads hhandlers
          (hreading.take (hready rfl)) hname hspoken
          (hannounced.of_eq rfl rfl (List.prefix_refl _)) hquit

theorem run {outcome : Outcome Session}
    (h : (c.before handler).Listens s starting received posts)
    (hrun : Conn.run handler s c = some outcome) :
    outcome.1.Listens s starting received (posts ++ outcome.2) := by
  cases handler with
  | onRead result =>
      obtain rfl := Option.some.inj hrun
      exact h.onRead
  | deliver message =>
      obtain ⟨c', hdeliver, rfl⟩ := Option.map_eq_some_iff.mp hrun
      have hbefore := h.of_before rfl
      rw [List.append_nil]
      cases effect_deliver hdeliver with
      | dropped => exact hbefore
      | queued | put => exact hbefore.of_eq rfl rfl rfl rfl rfl rfl
  | onWrite ok =>
      have hbefore := h.of_before rfl
      cases ok with
      | false =>
          obtain rfl := Option.some.inj hrun
          exact hbefore.stop .left
      | true =>
          rw [silent_onWrite hrun, List.append_nil]
          have heffect := effect_onWrite hrun
          generalize outcome.1 = c' at heffect ⊢
          cases heffect with
          | last | next => exact hbefore.of_eq rfl rfl rfl rfl rfl rfl

end Listens

end Conn

/-! ### The room -/

/-- What the room makes of the handlers posted to it, from an empty room on. -/
def replay [DecidableEq Session] (handlers : List (RoomHandler Session)) :
    List Session × List (Event Session Bytes) :=
  handlers.foldl (fun (members, history) handler =>
    let (members', message, events) := handler.run members
    (members', history ++ events ++ message.toList.map .said)) ([], [])

/-- The session whose `start` is under way has its first read before it. -/
def State.starting [DecidableEq Session] (σ : State Session) (s : Session) : Nat :=
  if (σ.accepting.map Prod.fst) = some s then 1 else 0

/-- The bytes that arrive at a session with a step. -/
def State.arrived [DecidableEq Session] (σ : State Session) (label : Label Session)
    (σ' : State Session) (s : Session) : Bytes :=
  match label with
  | .readCompletes t =>
      if t = s then
        match σ.conn s, σ'.conn s with
        | some c, some c' => c'.input.drop c.input.length
        | _, _ => []
      else []
  | .accept _ | .start _ | .writeCompletes _ | .session _ | .room | .deliver => []

variable [DecidableEq Session]

theorem replay_concat (handlers : List (RoomHandler Session)) (handler : RoomHandler Session) :
    replay (handlers ++ [handler]) =
      ((handler.run (replay handlers).1).1, (replay handlers).2 ++
        (handler.run (replay handlers).1).2.2 ++
        (handler.run (replay handlers).1).2.1.toList.map .said) := by
  rw [replay, List.foldl_append]
  rfl

theorem valuesAt_self (s : Session) (posts : List (RoomHandler Session)) :
    valuesAt s (posts.map (s, ·)) = posts := by
  induction posts with
  | nil => rfl
  | cons post rest ih => rw [List.map_cons, valuesAt_cons_self, ih]

theorem valuesAt_other {s t : Session} (hne : t ≠ s) (posts : List (RoomHandler Session)) :
    valuesAt s (posts.map (t, ·)) = [] := by
  refine valuesAt_eq_nil fun post hpost => ?_
  obtain ⟨_, -, rfl⟩ := List.mem_map.mp hpost
  exact hne

/-- The handlers the room has run and those that wait, and who posted them. -/
structure Conversation (σ : State Session) (received : Session → Bytes)
    (log waiting : List (Session × RoomHandler Session)) : Prop where
  strand : waiting.map Prod.snd = σ.strand
  ran : replay (log.map Prod.snd) = (σ.members, σ.history)
  conn : ∀ s c, σ.conn s = some c →
    c.Listens s (σ.starting s) (received s) (valuesAt s (log ++ waiting))
  unborn : ∀ s, σ.conn s = none →
    received s = [] ∧ valuesAt s (log ++ waiting) = [] ∧ σ.starting s = 0

namespace Conversation

variable {σ σ' : State Session} {received : Session → Bytes}
  {log waiting : List (Session × RoomHandler Session)}

theorem initial : Conversation (State.initial Session) (fun _ => []) [] [] where
  strand := rfl
  ran := rfl
  conn _ _ h := by cases h
  unborn _ _ := ⟨rfl, rfl, rfl⟩

/-- One session changes and may post to the room. -/
theorem update (h : Conversation σ received log waiting) {s : Session} {c c' : Conn}
    {posts : List (RoomHandler Session)} {received' : Session → Bytes} (hc : σ.conn s = some c)
    (hconn : σ'.conn = Function.update σ.conn s (some c'))
    (hstrand : σ'.strand = σ.strand ++ posts) (hmembers : σ'.members = σ.members)
    (hhistory : σ'.history = σ.history) (hstarting : ∀ t, t ≠ s → σ'.starting t = σ.starting t)
    (hreceived : ∀ t, t ≠ s → received' t = received t)
    (hlistens : ∀ before, c.Listens s (σ.starting s) (received s) before →
      c'.Listens s (σ'.starting s) (received' s) (before ++ posts)) :
    Conversation σ' received' log (waiting ++ posts.map (s, ·)) := by
  have hothers : ∀ t, t ≠ s →
      valuesAt t (log ++ (waiting ++ posts.map (s, ·))) = valuesAt t (log ++ waiting) := by
    intro t hne
    rw [← List.append_assoc, valuesAt_append, valuesAt_other (Ne.symm hne), List.append_nil]
  refine ⟨?_, ?_, fun t d hd => ?_, fun t hd => ?_⟩
  · rw [hstrand, List.map_append, h.strand, List.map_map]
    exact congrArg _ (List.map_id _)
  · rw [hmembers, hhistory]
    exact h.ran
  · rw [hconn] at hd
    rcases eq_or_ne t s with rfl | hne
    · rw [Function.update_self] at hd
      obtain rfl := Option.some.inj hd
      rw [← List.append_assoc, valuesAt_append, valuesAt_self]
      exact hlistens _ (h.conn t c hc)
    · rw [Function.update_of_ne hne] at hd
      rw [hothers t hne, hstarting t hne, hreceived t hne]
      exact h.conn t d hd
  · rw [hconn] at hd
    have hne : t ≠ s := by
      rintro rfl
      rw [Function.update_self] at hd
      cases hd
    rw [Function.update_of_ne hne] at hd
    rw [hothers t hne, hstarting t hne, hreceived t hne]
    exact h.unborn t hd

/-- One session changes and posts nothing. -/
theorem quiet (h : Conversation σ received log waiting) {s : Session} {c c' : Conn}
    {accepting : Option (Session × Starting)} {received' : Session → Bytes}
    (hc : σ.conn s = some c)
    (hstarting : ∀ t, t ≠ s →
      State.starting { σ.setConn s c' with accepting := accepting } t = σ.starting t)
    (hreceived : ∀ t, t ≠ s → received' t = received t)
    (hlistens : ∀ posts, c.Listens s (σ.starting s) (received s) posts →
      c'.Listens s (State.starting { σ.setConn s c' with accepting := accepting } s)
        (received' s) posts) :
    Conversation { σ.setConn s c' with accepting := accepting } received' log waiting := by
  have hupdate : Conversation { σ.setConn s c' with accepting := accepting } received' log
      (waiting ++ [].map (s, ·)) := by
    refine h.update hc rfl (List.append_nil _).symm rfl rfl hstarting hreceived fun posts hposts => ?_
    rw [List.append_nil]
    exact hlistens posts hposts
  rwa [List.map_nil, List.append_nil] at hupdate

/-- One session changes, and neither starts nor posts. -/
theorem updateConn (h : Conversation σ received log waiting) {s : Session} {c c' : Conn}
    (hc : σ.conn s = some c)
    (hlistens : ∀ starting posts, c.Listens s starting (received s) posts →
      c'.Listens s starting (received s) posts) :
    Conversation (σ.setConn s c') received log waiting :=
  h.quiet hc (fun _ _ => rfl) (fun _ _ => rfl) (hlistens _)

theorem accept (h : Conversation σ received log waiting) {s : Session} (peer : Peer)
    (hidle : σ.accepting = none) (hnew : σ.conn s = none) :
    Conversation { σ.setConn s (Conn.new peer) with
      accepting := some (s, .deliver)
      strand := σ.strand ++ [.join s (joinAnnouncement peer)] } received log
      (waiting ++ [(s, .join s (joinAnnouncement peer))]) := by
  obtain ⟨hreceived, hposts, -⟩ := h.unborn s hnew
  have hsame : ∀ t, t ≠ s →
      valuesAt t (log ++ (waiting ++ [(s, .join s (joinAnnouncement peer))])) =
        valuesAt t (log ++ waiting) := by
    intro t hne
    rw [← List.append_assoc, valuesAt_append]
    exact (congrArg _ (valuesAt_other hne.symm [.join s _])).trans (List.append_nil _)
  have hothers : ∀ t, t ≠ s →
      (if (some (s, Starting.deliver)).map Prod.fst = some t then 1 else 0) = σ.starting t := by
    intro t hne
    rw [State.starting, hidle, if_neg, if_neg]
    · exact nofun
    · exact fun heq => hne (Option.some.inj heq).symm
  refine ⟨?_, h.ran, fun t c hc => ?_, fun t hc => ?_⟩
  · rw [List.map_append, h.strand]
    rfl
  · have hconn : Function.update σ.conn s (some (Conn.new peer)) t = some c := hc
    rcases eq_or_ne t s with rfl | hne
    · rw [Function.update_self] at hconn
      obtain rfl := Option.some.inj hconn
      have hstarting : State.starting { σ.setConn t (Conn.new peer) with
          accepting := some (t, .deliver)
          strand := σ.strand ++ [.join t (joinAnnouncement peer)] } t = 1 := if_pos rfl
      rw [hstarting, hreceived, ← List.append_assoc, valuesAt_append, hposts,
        valuesAt_cons_self]
      exact .new peer
    · change Conn.Listens t c (if _ then 1 else 0) _ _
      rw [hothers t hne, hsame t hne]
      rw [Function.update_of_ne hne] at hconn
      exact h.conn t c hconn
  · have hconn : Function.update σ.conn s (some (Conn.new peer)) t = none := hc
    have hne : t ≠ s := by
      rintro rfl
      rw [Function.update_self] at hconn
      cases hconn
    rw [Function.update_of_ne hne] at hconn
    rw [hsame t hne]
    change _ ∧ _ ∧ (if _ then 1 else 0) = 0
    rw [hothers t hne]
    exact h.unborn t hconn

/-- The room runs the handler that has waited longest. -/
theorem room (h : Conversation σ received log waiting) {handler : RoomHandler Session}
    {rest : List (RoomHandler Session)} {members : List Session} {message : Option Bytes}
    {events : List (Event Session Bytes)} {delivering : Option (Bytes × List Session)}
    (hstrand : σ.strand = handler :: rest)
    (hrun : handler.run σ.members = (members, message, events)) :
    ∃ log' waiting', Conversation { σ with
      strand := rest
      members := members
      delivering := delivering
      history := σ.history ++ events ++ message.toList.map .said } received log' waiting' := by
  have hwaiting := h.strand
  rw [hstrand] at hwaiting
  obtain ⟨⟨s, handler'⟩, later, rfl, heq, hrest⟩ := List.map_eq_cons_iff.mp hwaiting
  change handler' = handler at heq
  subst heq
  have hposts : log ++ [(s, handler')] ++ later = log ++ (s, handler') :: later :=
    List.append_assoc log [(s, handler')] later
  refine ⟨log ++ [(s, handler')], later, hrest, ?_, fun t c hc => ?_, fun t hc => ?_⟩
  · rw [List.map_append, List.map_singleton, replay_concat, h.ran]
    dsimp only
    rw [hrun]
  · rw [hposts]
    exact h.conn t c hc
  · rw [hposts]
    exact h.unborn t hc

theorem start (h : Conversation σ received log waiting) {s : Session} {c c' : Conn}
    {turn : Starting} {accepting : Option (Session × Starting)}
    (hstarting : σ.accepting = some (s, turn)) (hc : σ.conn s = some c)
    (haccepting : ∀ t, t ≠ s → accepting.map Prod.fst ≠ some t)
    (hlistens : ∀ posts, c.Listens s 1 (received s) posts →
      c'.Listens s (if accepting.map Prod.fst = some s then 1 else 0) (received s) posts) :
    Conversation { σ.setConn s c' with accepting := accepting } received log waiting := by
  refine h.quiet hc (fun t hne => ?_) (fun _ _ => rfl) fun posts hposts => ?_
  · have hbefore : σ.starting t = 0 := by
      rw [State.starting, hstarting, if_neg]
      exact fun heq => hne (Option.some.inj heq).symm
    rw [hbefore]
    exact if_neg (haccepting t hne)
  · have hbefore : σ.starting s = 1 := by
      rw [State.starting, hstarting, if_pos]
      rfl
    rw [hbefore] at hposts
    exact hlistens posts hposts

theorem read (h : Conversation σ received log waiting) {s : Session} {c : Conn}
    (hc : σ.conn s = some c) (hreads : 0 < c.reads) (data : Bytes) {result : Option Nat}
    (hready : result.isSome = true → newline ∈ c.input ++ data) :
    Conversation (σ.setConn s (Conn.post (.onRead result)
        { c with reads := c.reads - 1, input := c.input ++ data }))
      (fun t => received t ++ if s = t then data else []) log waiting := by
  refine h.quiet hc (fun _ _ => rfl) (fun t hne => ?_)
    fun posts hposts => ?_
  · rw [if_neg hne.symm, List.append_nil]
  · rw [if_pos rfl]
    exact hposts.read hreads data hready

/-- What arrives at a session when a read of it ends. -/
theorem arrived_read {s : Session} {c : Conn} {data : Bytes} {handler : Handler}
    (hc : σ.conn s = some c) (t : Session) :
    σ.arrived (.readCompletes s) (σ.setConn s (Conn.post handler
      { c with reads := c.reads - 1, input := c.input ++ data })) t =
      if s = t then data else [] := by
  rw [State.arrived]
  split
  · next heq =>
      subst heq
      have hconn : (σ.setConn s (Conn.post handler
          { c with reads := c.reads - 1, input := c.input ++ data })).conn s =
          some (Conn.post handler { c with reads := c.reads - 1, input := c.input ++ data }) :=
        Function.update_self ..
      rw [hc, hconn]
      exact List.drop_left
  · rfl

theorem step {label : Label Session} (h : Conversation σ received log waiting)
    (hstep : Step σ label σ') : ∃ log' waiting',
      Conversation σ' (fun t => received t ++ σ.arrived label σ' t) log' waiting' := by
  -- nothing arrives
  have silent : ∀ {log' waiting'}, (∀ t, σ.arrived label σ' t = []) →
      Conversation σ' received log' waiting' → ∃ log' waiting',
        Conversation σ' (fun t => received t ++ σ.arrived label σ' t) log' waiting' := by
    intro log' waiting' hnone h'
    refine ⟨log', waiting', ?_⟩
    simp only [hnone, List.append_nil]
    exact h'
  cases hstep with
  | accept s peer hidle hnew => exact silent (fun _ => rfl) (h.accept peer hidle hnew)
  | @startDeliver s c hstarting hc =>
      refine silent (fun _ => rfl) (h.start hstarting hc (fun t hne heq => ?_) fun posts hposts => ?_)
      · exact hne (Option.some.inj heq).symm
      · rw [Option.map_some, if_pos rfl]
        exact hposts.post rfl
  | @startDoRead s c hstarting hc =>
      exact silent (fun _ => rfl) (h.start hstarting hc nofun fun posts hposts => hposts.doRead)
  | @readOk s c hc hreads data hline =>
      refine ⟨log, waiting, ?_⟩
      simp only [arrived_read hc]
      exact h.read hc hreads data fun _ => hline
  | @readError s c hc hreads =>
      refine ⟨log, waiting, ?_⟩
      have hdata : ({ c with reads := c.reads - 1 } : Conn) =
          { c with reads := c.reads - 1, input := c.input ++ [] } := by rw [List.append_nil]
      rw [hdata]
      simp only [arrived_read hc]
      exact h.read hc hreads [] nofun
  | @write s c hc hwrites ok =>
      refine silent (fun _ => rfl) (h.updateConn hc fun starting posts hposts => ?_)
      have hbefore : Conn.Listens s { c with writes := c.writes - 1 } starting (received s) posts :=
        hposts.of_eq rfl rfl rfl rfl rfl rfl
      exact hbefore.post rfl
  | @session s c handler rest outcome hc hstrand hrun =>
      refine silent (fun _ => rfl) (h.update hc rfl rfl rfl rfl (fun _ _ => rfl) (fun _ _ => rfl)
        fun posts hposts => ?_)
      rw [Conn.eq_before hstrand] at hposts
      exact hposts.run hrun
  | room hidle hstrand hrun todo htodo =>
      obtain ⟨log', waiting', h'⟩ := h.room hstrand hrun
      exact silent (fun _ => rfl) h'
  | @deliver message s todo c hdelivering hc =>
      have h' := h.updateConn hc fun starting posts hposts =>
        hposts.post (show (Handler.deliver ⟨.broadcast, message⟩).isRead = false from rfl)
      exact silent (fun _ => rfl) ⟨h'.strand, h'.ran, h'.conn, h'.unborn⟩
  | delivered => exact silent (fun _ => rfl) ⟨h.strand, h.ran, h.conn, h.unborn⟩

/-- What the room has run of what a session posted: its announcements, and what the lines sent
to it say, up to `/quit`. -/
theorem posted (h : Conversation σ received log waiting) {s : Session} {c : Conn}
    (hc : σ.conn s = some c) {stream : Bytes} (hreceived : received s <+: stream) :
    spokenOf (valuesAt s log) <+: transcript (guestName c.peer) (clientLines stream) ∧
      ∃ announced, c.Announces s (clientLines stream) announced ∧
        announcedOf (valuesAt s log) <+: announced := by
  obtain ⟨taken, hreading, -, hspoken, hannounced, -⟩ := (h.conn s c hc).reading
  have htaken : taken.map trimWireLine <+: clientLines stream :=
    (hreading.isPrefix_lines hreceived (Nat.le_refl _)).map trimWireLine
  rw [valuesAt_append] at hspoken hannounced
  refine ⟨List.IsPrefix.trans ?_ (transcript_isPrefix htaken _), _,
    hannounced.of_eq rfl rfl htaken, ?_⟩
  · rw [← hspoken, spokenOf_append]
    exact List.prefix_append _ _
  · rw [announcedOf_append]
    exact List.prefix_append _ _

end Conversation

/-! ### What is sent -/

/-- A name without a newline, and framed messages. -/
structure Conn.Tidy (c : Conn) : Prop where
  name : newline ∉ c.name
  queued : ∀ message ∈ c.queued, Framed newline message.text
  outbox : ∀ message ∈ c.outbox, Framed newline message.text
  started : ∀ message ∈ c.started, Framed newline message.text

namespace Conn.Tidy

variable {c c' : Conn} {handler : Handler}

theorem new (peer : Peer) : (Conn.new peer).Tidy := ⟨guestName_notMem peer, nofun, nofun, nofun⟩

theorem of_eq (h : c.Tidy) (hname : c'.name = c.name) (hqueued : c'.queued = c.queued)
    (houtbox : c'.outbox = c.outbox) (hstarted : c'.started = c.started) : c'.Tidy :=
  ⟨hname ▸ h.name, hqueued ▸ h.queued, houtbox ▸ h.outbox, hstarted ▸ h.started⟩

theorem post (h : c.Tidy) (hmessage : ∀ message, handler.message? = some message →
    Framed newline message.text) : (c.post handler).Tidy := by
  refine ⟨h.name, fun message hmem => ?_, h.outbox, h.started⟩
  rw [Conn.queued, Conn.post, List.filterMap_append] at hmem
  rcases List.mem_append.mp hmem with hold | hnew
  · exact h.queued message hold
  · obtain ⟨posted, hposted, hsome⟩ := List.mem_filterMap.mp hnew
    rw [List.mem_singleton.mp hposted] at hsome
    exact hmessage message hsome

theorem deliver (h : c.Tidy) {message : Message} (hmessage : Framed newline message.text) :
    (c.deliver message).Tidy :=
  h.post fun _ hsome => Option.some.inj hsome ▸ hmessage

theorem closed (h : c.Tidy) : c.closed.Tidy := by
  refine h.of_eq c.closed_eq.2.1 ?_ ?_ c.closed_started
  · unfold Conn.closed
    split <;> rfl
  · unfold Conn.closed
    split <;> rfl

theorem of_before (h : (c.before handler).Tidy) : c.Tidy := by
  refine ⟨h.name, fun message hmem => h.queued message ?_, h.outbox, h.started⟩
  rw [queued_before]
  exact List.mem_append_right _ hmem

theorem of_before_deliver {message : Message} (h : (c.before (.deliver message)).Tidy) :
    Framed newline message.text :=
  h.queued message (queued_before _ c ▸ .head _)

/-- A message is put behind the others. -/
theorem put (h : c.Tidy) {message : Message} (hmessage : Framed newline message.text) :
    ∀ m ∈ c.outbox ++ [message], Framed newline m.text := fun m hmem =>
  (List.mem_append.mp hmem).elim (h.outbox m) fun hnew => List.mem_singleton.mp hnew ▸ hmessage

/-- The write of a message starts. -/
theorem write (h : c.Tidy) {message : Message} (hmessage : Framed newline message.text) :
    ∀ m ∈ Conn.started { c with socket := c.socket ++ [.asyncWrite message] },
      Framed newline m.text := by
  intro m hmem
  rw [started_concat] at hmem
  exact (List.mem_append.mp hmem).elim (h.started m) fun hnew =>
    List.mem_singleton.mp hnew ▸ hmessage

theorem framed_notice : Framed newline notice.text := framed_serverLine (by decide)

theorem framed_greeting {name : Bytes} (hname : newline ∉ name) :
    Framed newline (greeting name).text :=
  framed_serverLine (notMem_append (notMem_append (by decide) hname) (by decide))

theorem effect (h : (c.before handler).Tidy) (hname : newline ∉ c'.name)
    (heffect : Effect c handler c') : c'.Tidy := by
  have hc := h.of_before
  cases heffect with
  | dropped => exact hc
  | queued message => exact ⟨hname, hc.queued, hc.put h.of_before_deliver, hc.started⟩
  | put message hrunning hidle =>
      have hput := hc.put h.of_before_deliver
      rw [hidle] at hput
      exact ⟨hname, hc.queued, hput, hc.write h.of_before_deliver⟩
  | line => exact ⟨hname, hc.queued, hc.outbox, hc.started⟩
  | oversized => exact (hc.deliver framed_notice).closed
  | readStops result input =>
      have hread : Tidy { c with input := input } := hc.of_eq rfl rfl rfl rfl
      exact hread.closed
  | last => exact ⟨hname, hc.queued, nofun, hc.started⟩
  | next message next rest houtbox =>
      have hrest : ∀ m ∈ next :: rest, Framed newline m.text := fun m hmem =>
        hc.outbox m (houtbox ▸ .tail _ hmem)
      exact ⟨hname, hc.queued, hrest, hc.write (hrest next (.head _))⟩
  | writeStops => exact hc.closed

end Conn.Tidy

omit [DecidableEq Session] in
/-- Whatever the clients send, what a session sends them are framed messages. -/
theorem kept_tidy : Kept Session Conn.Tidy (Framed newline) where
  new peer := ⟨.new peer, framed_joinAnnouncement peer⟩
  change s c c' posts htidy hchange := by
    have hkept := kept_framed.change s c c' posts htidy.name hchange
    refine ⟨?_, hkept.2⟩
    cases hchange with
    | greet => exact htidy.deliver (Conn.Tidy.framed_greeting htidy.name)
    | doRead => exact htidy.of_eq rfl rfl rfl rfl
    | read result input =>
        have hread : Conn.Tidy { c with reads := c.reads - 1, input := input } :=
          htidy.of_eq rfl rfl rfl rfl
        exact hread.post nofun
    | write ok =>
        have hwrite : Conn.Tidy { c with writes := c.writes - 1 } := htidy.of_eq rfl rfl rfl rfl
        exact hwrite.post nofun
    | run hstrand hrun =>
        rw [Conn.eq_before hstrand] at htidy
        exact htidy.effect hkept.1 (Conn.effect_run hrun)
  deliver c message htidy hmessage := htidy.deliver hmessage

end MoreCpp.Chat.Server

import MoreCpp.Chat.Server.Change
import MoreCpp.Library.MessageStream

/-!
What becomes of the broadcasts posted to one session. They wait in its strand,
then in its outbox, and are written one at a time; a session that stops drops
the ones still in the strand, and after a failed write those in the outbox.
-/

namespace MoreCpp.Chat.Server

open Library

variable {Session : Type*}

def Handler.message? : Handler → Option Message
  | .deliver message => some message
  | _ => none

def Handler.isWrite : Handler → Bool
  | .onWrite _ => true
  | _ => false

def SocketCall.message? : SocketCall → Option Message
  | .asyncWrite message => some message
  | .close => none

/-- The text of a broadcast. -/
def Message.said? (message : Message) : Option Bytes :=
  if message.origin = .broadcast then some message.text else none

/-- The broadcasts among some messages. -/
def said (messages : List Message) : List Bytes := messages.filterMap Message.said?

theorem said_append (messages messages' : List Message) :
    said (messages ++ messages') = said messages ++ said messages' :=
  List.filterMap_append

namespace Conn

/-- Messages whose turn to be queued for writing has not come. -/
def queued (c : Conn) : List Message := c.strand.filterMap Handler.message?

/-- Messages whose writes were started on the socket. -/
def started (c : Conn) : List Message := c.socket.filterMap SocketCall.message?

/-- Writes outstanding, and writes whose handlers have not run. -/
def inFlight (c : Conn) : Nat := c.writes + c.strand.countP Handler.isWrite

/-- The broadcasts posted to a session, and where they are. -/
inductive Flow (c : Conn) (posted : List Bytes) : Prop where
  | running {sent accepted : List Message} (hrunning : c.stopped = false)
      (hpipeline : Pipeline c.inFlight c.outbox c.started sent accepted)
      (hposted : posted = said accepted ++ said c.queued)
  | stopping {sent accepted : List Message} (hstopped : c.stopped = true)
      (hpipeline : Pipeline c.inFlight c.outbox c.started sent accepted)
      (hposted : said accepted <+: posted)
  | halted (hstopped : c.stopped = true) (hidle : c.inFlight = 0)
      (hposted : said c.started <+: posted)

/-- A session before its first handler runs, given what it is without it. -/
def before (handler : Handler) (c : Conn) : Conn := { c with strand := handler :: c.strand }

theorem eq_before {c : Conn} {handler : Handler} {rest : List Handler}
    (hstrand : c.strand = handler :: rest) :
    c = before handler { c with strand := rest } := by
  rw [before, ← hstrand]

theorem inFlight_before (handler : Handler) (c : Conn) :
    (c.before handler).inFlight = c.inFlight + if handler.isWrite then 1 else 0 := by
  rw [inFlight, before, List.countP_cons, ← Nat.add_assoc]
  rfl

theorem queued_before (handler : Handler) (c : Conn) :
    (c.before handler).queued = handler.message?.toList ++ c.queued := by
  cases handler <;> rfl

theorem started_concat (c : Conn) (call : SocketCall) :
    started { c with socket := c.socket ++ [call] } = c.started ++ call.message?.toList := by
  cases call <;> simp [started, SocketCall.message?]

/-- A write is started. -/
theorem pipeline_write {c : Conn} {outbox sent accepted : List Message} {message : Message}
    (h : Pipeline (c.inFlight + 1) outbox (c.started ++ [message]) sent accepted) :
    Pipeline (inFlight { c with
        outbox := outbox, writes := c.writes + 1, socket := c.socket ++ [.asyncWrite message] })
      outbox (started { c with
        outbox := outbox, writes := c.writes + 1, socket := c.socket ++ [.asyncWrite message] })
      sent accepted := by
  have hinFlight : c.writes + 1 + c.strand.countP Handler.isWrite = c.inFlight + 1 :=
    Nat.add_right_comm ..
  have hstarted : started { c with socket := c.socket ++ [.asyncWrite message] } =
      c.started ++ [message] := started_concat c (.asyncWrite message)
  rw [← hinFlight, ← hstarted] at h
  exact h

theorem closed_stopped (c : Conn) : c.closed.stopped = true := by
  unfold closed
  split
  · assumption
  · rfl

theorem closed_inFlight (c : Conn) : c.closed.inFlight = c.inFlight := by
  unfold closed
  split <;> rfl

theorem closed_started (c : Conn) : c.closed.started = c.started := by
  unfold closed
  split
  · rfl
  · exact (started_concat c .close).trans (List.append_nil _)

namespace Flow

variable {c c' : Conn} {posted : List Bytes} {handler : Handler}

theorem inFlight_le (h : c.Flow posted) : c.inFlight ≤ 1 := by
  cases h with
  | running _ hpipeline => exact hpipeline.writes_le
  | stopping _ hpipeline => exact hpipeline.writes_le
  | halted _ hidle => omega

theorem started_isPrefix (h : c.Flow posted) : said c.started <+: posted := by
  cases h with
  | running _ hpipeline hposted =>
      rw [hposted]
      exact (hpipeline.started_isPrefix.filterMap _).trans (List.prefix_append _ _)
  | stopping _ hpipeline hposted => exact (hpipeline.started_isPrefix.filterMap _).trans hposted
  | halted _ _ hposted => exact hposted

theorem outbox_ne_nil (h : c.Flow posted) (hpos : 0 < c.inFlight) : c.outbox ≠ [] := by
  cases h with
  | running _ hpipeline => exact hpipeline.outbox_ne_nil hpos
  | stopping _ hpipeline => exact hpipeline.outbox_ne_nil hpos
  | halted _ hidle => omega

theorem new (peer : Peer) : (Conn.new peer).Flow [] := .running rfl (.idle []) rfl

theorem of_eq (h : c.Flow posted) (hstopped : c'.stopped = c.stopped)
    (houtbox : c'.outbox = c.outbox) (hinFlight : c'.inFlight = c.inFlight)
    (hqueued : c'.queued = c.queued) (hstarted : c'.started = c.started) : c'.Flow posted := by
  cases h with
  | running hrunning hpipeline hposted =>
      rw [← houtbox, ← hinFlight, ← hstarted] at hpipeline
      rw [← hqueued] at hposted
      exact .running (hstopped.trans hrunning) hpipeline hposted
  | stopping hstop hpipeline hposted =>
      rw [← houtbox, ← hinFlight, ← hstarted] at hpipeline
      exact .stopping (hstopped.trans hstop) hpipeline hposted
  | halted hstop hidle hposted =>
      exact .halted (hstopped.trans hstop) (hinFlight.trans hidle) (by rwa [hstarted])

theorem post (h : c.Flow posted) (hhandler : handler.isWrite = false) :
    (c.post handler).Flow (posted ++ said handler.message?.toList) := by
  have hinFlight : (c.post handler).inFlight = c.inFlight := by
    simp [Conn.post, inFlight, hhandler]
  have hqueued : (c.post handler).queued = c.queued ++ handler.message?.toList := by
    cases handler <;> simp [Conn.post, queued, Handler.message?]
  cases h with
  | running hrunning hpipeline hposted =>
      refine .running hrunning (hinFlight ▸ hpipeline) ?_
      rw [hqueued, said_append, hposted, List.append_assoc]
  | stopping hstopped hpipeline hposted =>
      exact .stopping hstopped (hinFlight ▸ hpipeline) (hposted.trans (List.prefix_append _ _))
  | halted hstopped hidle hposted =>
      exact .halted hstopped (hinFlight.trans hidle) (hposted.trans (List.prefix_append _ _))

theorem deliver_quiet (h : c.Flow posted) {message : Message} (hmessage : message.said? = none) :
    (c.deliver message).Flow posted := by
  have hpost := h.post (show (Handler.deliver message).isWrite = false from rfl)
  have hnone : said (Handler.deliver message).message?.toList = [] :=
    List.filterMap_eq_nil_iff.mpr fun m hm => List.mem_singleton.mp hm ▸ hmessage
  rwa [hnone, List.append_nil] at hpost

theorem deliver (h : c.Flow posted) (message : Bytes) :
    (c.deliver ⟨.broadcast, message⟩).Flow (posted ++ [message]) :=
  h.post (show (Handler.deliver ⟨.broadcast, message⟩).isWrite = false from rfl)

/-- A write completes: its handler is waiting instead. -/
theorem write (h : c.Flow posted) (hwrites : 0 < c.writes) (ok : Bool) :
    (Conn.post (.onWrite ok) { c with writes := c.writes - 1 }).Flow posted := by
  refine h.of_eq rfl rfl ?_ ?_ rfl
  · simp only [inFlight, Conn.post, List.countP_append, List.countP_singleton, Handler.isWrite,
      if_true]
    omega
  · simp [queued, Conn.post, Handler.message?]

theorem closed (h : c.Flow posted) : c.closed.Flow posted := by
  unfold Conn.closed
  split
  · exact h
  · rename_i hrunning
    cases h with
    | running _ hpipeline hposted =>
        have hstarted : started { c with stopped := true, socket := c.socket ++ [.close] } =
            c.started := (started_concat c .close).trans (List.append_nil _)
        refine .stopping rfl (hstarted ▸ hpipeline) ?_
        rw [hposted]
        exact List.prefix_append _ _
    | stopping hstopped => exact absurd hstopped hrunning
    | halted hstopped => exact absurd hstopped hrunning

/-- A handler that neither delivers nor ends a write has its turn. -/
theorem of_before (h : (c.before handler).Flow posted) (hwrite : handler.isWrite = false)
    (hmessage : handler.message? = none) : c.Flow posted := by
  refine h.of_eq rfl rfl ?_ ?_ rfl
  · simp [inFlight_before, hwrite]
  · simp [queued_before, hmessage]

/-- A message has its turn in a running session. -/
theorem accept {message : Message} (h : (c.before (.deliver message)).Flow posted)
    (hrunning : c.stopped = false) :
    ∃ sent accepted, Pipeline c.inFlight c.outbox c.started sent accepted ∧
      posted = said (accepted ++ [message]) ++ said c.queued := by
  cases h with
  | @running sent accepted _ hpipeline hposted =>
      refine ⟨sent, accepted, hpipeline, ?_⟩
      rw [hposted, queued_before, said_append, said_append, List.append_assoc]
      rfl
  | stopping hstopped => exact absurd (hrunning.symm.trans hstopped) nofun
  | halted hstopped => exact absurd (hrunning.symm.trans hstopped) nofun

/-- A message has its turn in a stopped session. -/
theorem drop {message : Message} (h : (c.before (.deliver message)).Flow posted)
    (hstopped : c.stopped = true) : c.Flow posted := by
  cases h with
  | running hrunning => exact absurd (hstopped.symm.trans hrunning) nofun
  | stopping _ hpipeline hposted => exact .stopping hstopped hpipeline hposted
  | halted _ hidle hposted => exact .halted hstopped hidle hposted

/-- A write has ended, and what is left of the pipeline is as good as before. -/
theorem finish {ok : Bool} (h : (c.before (.onWrite ok)).Flow posted)
    (hstopped : c'.stopped = c.stopped) (hqueued : c'.queued = c.queued)
    (hpipeline : ∀ sent accepted, Pipeline (c.inFlight + 1) c.outbox c.started sent accepted →
      ∃ sent', Pipeline c'.inFlight c'.outbox c'.started sent' accepted) : c'.Flow posted := by
  cases h with
  | running hrunning hbefore hposted =>
      rw [inFlight_before] at hbefore
      obtain ⟨sent', hafter⟩ := hpipeline _ _ hbefore
      refine .running (hstopped.trans hrunning) hafter ?_
      rw [hposted, hqueued, queued_before]
      rfl
  | stopping hstop hbefore hposted =>
      rw [inFlight_before] at hbefore
      obtain ⟨sent', hafter⟩ := hpipeline _ _ hbefore
      exact .stopping (hstopped.trans hstop) hafter hposted
  | halted _ hidle =>
      rw [inFlight_before] at hidle
      exact absurd hidle (Nat.succ_ne_zero _)

theorem effect (h : (c.before handler).Flow posted) (heffect : Effect c handler c') :
    c'.Flow posted := by
  cases heffect with
  | dropped message hstopped => exact h.drop hstopped
  | queued message hrunning hbusy =>
      obtain ⟨sent, accepted, hpipeline, hposted⟩ := h.accept hrunning
      obtain ⟨front, more, houtbox⟩ := List.exists_cons_of_ne_nil hbusy
      rw [houtbox] at hpipeline
      have hput := hpipeline.put_busy message
      rw [← houtbox] at hput
      exact .running hrunning hput hposted
  | put message hrunning hidle =>
      obtain ⟨sent, accepted, hpipeline, hposted⟩ := h.accept hrunning
      rw [hidle] at hpipeline
      exact .running hrunning (pipeline_write (hpipeline.put_idle message)) hposted
  | line result name input => exact (h.of_before rfl rfl).of_eq rfl rfl rfl rfl rfl
  | oversized => exact ((h.of_before rfl rfl).deliver_quiet rfl).closed
  | readStops result input =>
      have hread : ({ c with input := input } : Conn).Flow posted :=
        (h.of_before rfl rfl).of_eq rfl rfl rfl rfl rfl
      exact hread.closed
  | last message houtbox =>
      refine h.finish rfl rfl fun sent accepted hpipeline => ?_
      rw [houtbox] at hpipeline
      exact ⟨_, hpipeline.finish_last⟩
  | next message next rest houtbox =>
      refine h.finish rfl rfl fun sent accepted hpipeline => ?_
      rw [houtbox] at hpipeline
      exact ⟨_, pipeline_write hpipeline.finish_next⟩
  | writeStops =>
      -- no other write is under way
      have hle := h.inFlight_le
      rw [inFlight_before] at hle
      have hidle : c.inFlight = 0 := Nat.le_zero.mp (Nat.le_of_succ_le_succ hle)
      exact .halted c.closed_stopped (c.closed_inFlight.trans hidle)
        (c.closed_started ▸ h.started_isPrefix)

theorem change (h : c.Flow posted) {self : Session} {posts : List (RoomHandler Session)}
    (hchange : Change self c c' posts) : c'.Flow posted := by
  cases hchange with
  | greet => exact h.deliver_quiet rfl
  | doRead => exact h.of_eq rfl rfl rfl rfl rfl
  | read result input =>
      have hread : ({ c with reads := c.reads - 1, input := input } : Conn).Flow posted :=
        h.of_eq rfl rfl rfl rfl rfl
      have hpost := hread.post (show (Handler.onRead result).isWrite = false from rfl)
      have hnone : said (Handler.onRead result).message?.toList = [] := rfl
      rwa [hnone, List.append_nil] at hpost
  | write ok hwrites => exact h.write hwrites ok
  | run hstrand hrun =>
      rw [eq_before hstrand] at h
      exact h.effect (effect_run hrun)

/-- No handler reads the front of an empty outbox. -/
theorem run_isSome (h : (c.before handler).Flow posted) (self : Session) :
    (Conn.run handler self c).isSome = true := by
  cases handler with
  | deliver message =>
      have hdeliver : (c.onDeliver message).isSome = true := by
        unfold onDeliver
        split
        · rfl
        · cases houtbox : c.outbox <;> simp [doWrite]
      rw [Conn.run, Option.isSome_map]
      exact hdeliver
  | onRead result => rfl
  | onWrite ok =>
      cases ok with
      | false => rfl
      | true =>
          have hpos : 0 < (c.before (.onWrite true)).inFlight := by
            rw [inFlight_before]
            exact Nat.succ_pos _
          have hne : c.outbox ≠ [] := h.outbox_ne_nil hpos
          obtain ⟨front, rest, houtbox⟩ := List.exists_cons_of_ne_nil hne
          cases rest <;> simp [Conn.run, onWrite, doWrite, houtbox]

end Flow

end Conn

end MoreCpp.Chat.Server

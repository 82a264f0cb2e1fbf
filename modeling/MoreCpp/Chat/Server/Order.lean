import MoreCpp.Chat.Server.Flow

/-!
The order of the broadcasts. What the room has said since it inserted a session
and before it erased it was posted to the session, but for the message the room
is delivering; from there it takes the session's own way to the socket.
-/

namespace MoreCpp.Chat.Server

open Library

variable {Session : Type*}

theorem Conn.Effect.peer {c c' : Conn} {handler : Handler} (h : Conn.Effect c handler c') :
    c'.peer = c.peer := by
  have hclosed : ∀ d : Conn, d.closed.peer = d.peer := by
    intro d
    unfold Conn.closed
    split <;> rfl
  cases h with
  | dropped | queued | put | line | last | next => rfl
  | oversized | readStops | writeStops => exact hclosed _

theorem Conn.Change.peer {self : Session} {c c' : Conn} {posts : List (RoomHandler Session)}
    (h : Conn.Change self c c' posts) : c'.peer = c.peer := by
  cases h with
  | greet | doRead | read | write => rfl
  | run _ hrun => exact (Conn.effect_run hrun).peer

/-- With what a session is announced, once it exists. -/
def State.announcements (σ : State Session) (s : Session) : List Bytes :=
  (σ.conn s).toList.map (joinAnnouncement ·.peer)

theorem State.announcements_eq {σ : State Session} {s : Session} {c : Conn}
    (hc : σ.conn s = some c) : σ.announcements s = [joinAnnouncement c.peer] := by
  rw [announcements, hc]
  rfl

theorem State.announcements_length (σ : State Session) (s : Session) :
    (σ.announcements s).length ≤ 1 := by
  rw [announcements, List.length_map]
  cases σ.conn s <;> simp

variable [DecidableEq Session]

def RoomHandler.joining? (s : Session) : RoomHandler Session → Option Bytes
  | .join session announcement => if session = s then some announcement else none
  | _ => none

/-- The announcements with which a session is still to be inserted. -/
def joins (s : Session) (strand : List (RoomHandler Session)) : List Bytes :=
  strand.filterMap (RoomHandler.joining? s)

theorem joins_append (s : Session) (strand posts : List (RoomHandler Session)) :
    joins s (strand ++ posts) = joins s strand ++ joins s posts :=
  List.filterMap_append

theorem joins_cons {s : Session} {handler : RoomHandler Session}
    (hhandler : handler.joining? s = none) (rest : List (RoomHandler Session)) :
    joins s (handler :: rest) = joins s rest :=
  List.filterMap_cons_none hhandler

theorem joins_cons_self (s : Session) (announcement : Bytes)
    (rest : List (RoomHandler Session)) :
    joins s (.join s announcement :: rest) = announcement :: joins s rest :=
  List.filterMap_cons_some (if_pos rfl)

theorem Conn.Speech.joins {self : Session} {name newName : Bytes}
    {posts : List (RoomHandler Session)} (h : Conn.Speech self name newName posts) (s : Session) :
    joins s posts = [] := by
  cases h <;> rfl

theorem Conn.Change.joins {self : Session} {c c' : Conn} {posts : List (RoomHandler Session)}
    (h : Conn.Change self c c' posts) (s : Session) : joins s posts = [] := by
  cases h with
  | greet | doRead | read | write => rfl
  | run _ hrun => exact (Conn.speech_run hrun).joins s

/-- A session as the room sees it: its announcement is said once, as the first
thing it hears. -/
structure Seat (s : Session) (announcements : List Bytes) (history : List (Event Session Bytes))
    (members : List Session) (strand : List (RoomHandler Session)) (status : Status)
    (heard : List Bytes) : Prop where
  attendance : Attendance s history status heard
  member : s ∈ members ↔ status = .present
  joins : joins s strand = if status = .absent then announcements else []
  own : status ≠ .absent → announcements ≠ [] ∧ announcements <+: heard

namespace Seat

variable {s : Session} {announcements : List Bytes} {history : List (Event Session Bytes)}
  {members members' : List Session} {strand strand' rest : List (RoomHandler Session)}
  {status : Status} {heard : List Bytes}

theorem congr_strand (h : Seat s announcements history members strand status heard)
    (hjoins : Server.joins s strand' = Server.joins s strand) :
    Seat s announcements history members strand' status heard :=
  ⟨h.attendance, h.member, hjoins.trans h.joins, h.own⟩

/-- The room handles something that is not about the session. -/
theorem hear (h : Seat s announcements history members strand status heard)
    {events : List (Event Session Bytes)} (hevents : ∀ e ∈ events, ¬ e.IsAbout s)
    (hmember : s ∈ members' ↔ s ∈ members)
    (hjoins : Server.joins s strand' = Server.joins s strand) :
    Seat s announcements (history ++ events) members' strand' status
      (heard ++ if s ∈ members' then messages events else []) := by
  have hattendance := h.attendance.append hevents
  have hheard : (heard ++ if s ∈ members' then messages events else []) =
      if status = .present then heard ++ messages events else heard := by
    by_cases hpresent : status = .present
    · rw [if_pos (hmember.mpr (h.member.mpr hpresent)), if_pos hpresent]
    · rw [if_neg fun hmem => hpresent (h.member.mp (hmember.mp hmem)), if_neg hpresent,
        List.append_nil]
  rw [hheard]
  refine ⟨hattendance, hmember.trans h.member, hjoins.trans h.joins, fun hstatus => ?_⟩
  obtain ⟨hne, hown⟩ := h.own hstatus
  refine ⟨hne, hown.trans ?_⟩
  split
  · exact List.prefix_append _ _
  · exact List.prefix_refl _

/-- The session is inserted, and its announcement is said. -/
theorem join {announcement : Bytes}
    (h : Seat s announcements history members (.join s announcement :: rest) status heard)
    (hshort : announcements.length ≤ 1) :
    s ∉ members ∧ heard = [] ∧ Seat s announcements
      (history ++ [.inserted s, .said announcement]) (s :: members) rest .present
      [announcement] := by
  have hjoins := h.joins
  rw [joins_cons_self] at hjoins
  have hstatus : status = .absent := by
    by_contra hne
    rw [if_neg hne] at hjoins
    exact List.cons_ne_nil _ _ hjoins
  subst hstatus
  rw [if_pos rfl] at hjoins
  rw [← hjoins, List.length_cons] at hshort
  have hrest : Server.joins s rest = [] := List.length_eq_zero_iff.mp (by omega)
  have habsent : s ∉ members := fun hmem => nomatch h.member.mp hmem
  have hinsert := h.attendance.insert.concat (show ¬ (Event.said announcement).IsAbout s from id)
  rw [List.append_assoc] at hinsert
  rw [← hjoins, hrest]
  exact ⟨habsent, h.attendance.heard_of_absent,
    ⟨hinsert, iff_of_true (.head _) rfl, hrest, fun _ =>
      ⟨List.cons_ne_nil _ _, List.prefix_refl _⟩⟩⟩

/-- The session is erased, and what is said then it does not hear. -/
theorem leave (h : Seat s announcements history members strand status heard)
    (hnodup : members.Nodup) (hmem : s ∈ members)
    (hjoins : Server.joins s rest = Server.joins s strand)
    (message : Option Bytes) :
    Seat s announcements (history ++ (.erased s :: message.toList.map .said)) (members.erase s)
      rest .departed heard := by
  have hstatus := h.member.mp hmem
  subst hstatus
  have herase := h.attendance.erase.append (notAbout_said s message.toList)
  rw [List.append_assoc] at herase
  exact ⟨herase, iff_of_false (fun hin => hnodup.not_mem_erase hin) nofun,
    hjoins.trans (h.joins.trans rfl), fun _ => h.own nofun⟩

/-- The room runs a handler, up to the loop of `broadcast_now`. -/
theorem room {handler : RoomHandler Session} {message : Option Bytes}
    {events : List (Event Session Bytes)}
    (h : Seat s announcements history members (handler :: rest) status heard)
    (hnodup : members.Nodup) (hshort : announcements.length ≤ 1)
    (hrun : handler.run members = (members', message, events)) :
    ∃ status', Seat s announcements (history ++ (events ++ message.toList.map .said)) members'
      rest status' (heard ++ if s ∈ members' then message.toList else []) := by
  -- what somebody else does, or nobody
  have other : (∀ e ∈ events, ¬ e.IsAbout s) → messages events = [] →
      (s ∈ members' ↔ s ∈ members) → handler.joining? s = none →
      Seat s announcements (history ++ (events ++ message.toList.map .said)) members' rest status
        (heard ++ if s ∈ members' then message.toList else []) := by
    intro hevents hsilent hmember hhandler
    have hhear := h.hear (fun e he => (List.mem_append.mp he).elim (hevents e)
      (notAbout_said s message.toList e)) hmember (joins_cons hhandler rest).symm
    rwa [messages_append, hsilent, messages_said, List.nil_append] at hhear
  cases handler with
  | join t announcement =>
      cases hrun
      by_cases heq : t = s
      · subst heq
        obtain ⟨habsent, rfl, hseat⟩ := h.join hshort
        refine ⟨.present, ?_⟩
        rw [if_neg habsent, if_pos (List.mem_cons_self ..)]
        exact hseat
      · refine ⟨status, other (fun e he => ?_) rfl ?_ (if_neg heq)⟩
        · exact List.mem_singleton.mp he ▸ heq
        · split
          · exact Iff.rfl
          · exact List.mem_cons.trans (or_iff_right (Ne.symm heq))
  | leave t announcement =>
      rw [RoomHandler.run] at hrun
      split at hrun
      · rename_i hmem
        cases hrun
        by_cases heq : t = s
        · subst heq
          refine ⟨.departed, ?_⟩
          rw [if_neg fun hin => hnodup.not_mem_erase hin, List.append_nil]
          exact h.leave hnodup hmem (joins_cons rfl rest).symm _
        · refine ⟨status, other (fun e he => ?_) rfl ?_ rfl⟩
          · exact List.mem_singleton.mp he ▸ heq
          · exact List.mem_erase_of_ne (Ne.symm heq)
      · cases hrun
        exact ⟨status, other nofun rfl Iff.rfl rfl⟩
  | broadcast message =>
      cases hrun
      exact ⟨status, other nofun rfl Iff.rfl rfl⟩

end Seat

/-- The message the room is delivering, if the session does not have it yet. -/
def State.pending (σ : State Session) (s : Session) : List Bytes :=
  match σ.delivering with
  | none => []
  | some (message, todo) => if s ∈ todo then [message] else []

/-- What the room says reaches every session in order. -/
structure Ordered (σ : State Session) : Prop where
  nodup : σ.members.Nodup
  todo : ∀ message todo, σ.delivering = some (message, todo) → todo.Nodup ∧ todo ⊆ σ.members
  seat : ∀ s, ∃ status heard,
    Seat s (σ.announcements s) σ.history σ.members σ.strand status heard ∧
    ∀ c, σ.conn s = some c → ∃ posted, heard = posted ++ σ.pending s ∧ c.Flow posted

theorem RoomHandler.run_nodup {handler : RoomHandler Session} {members members' : List Session}
    {message : Option Bytes} {events : List (Event Session Bytes)} (hnodup : members.Nodup)
    (hrun : handler.run members = (members', message, events)) : members'.Nodup := by
  unfold RoomHandler.run at hrun
  split at hrun
  · cases hrun
    split
    · exact hnodup
    · rename_i hmem
      exact List.nodup_cons.mpr ⟨hmem, hnodup⟩
  · split at hrun
    · cases hrun
      exact hnodup.erase _
    · cases hrun
      exact hnodup
  · cases hrun
    exact hnodup

namespace Ordered

variable {σ σ' : State Session} {s : Session} {c c' : Conn}

/-- A session changes, and may have been sent what was pending for it. -/
theorem update (h : Ordered σ) (hc : σ.conn s = some c)
    (hconn : σ'.conn = Function.update σ.conn s (some c')) (hpeer : c'.peer = c.peer)
    (hhistory : σ'.history = σ.history) (hmembers : σ'.members = σ.members)
    (hjoins : ∀ t, joins t σ'.strand = joins t σ.strand)
    (htodo : ∀ message todo, σ'.delivering = some (message, todo) →
      todo.Nodup ∧ todo ⊆ σ.members)
    (hpending : ∀ t, t ≠ s → σ'.pending t = σ.pending t)
    (hflow : ∀ posted, c.Flow posted →
      ∃ posted', posted ++ σ.pending s = posted' ++ σ'.pending s ∧ c'.Flow posted') :
    Ordered σ' := by
  refine ⟨hmembers ▸ h.nodup, hmembers ▸ htodo, fun t => ?_⟩
  obtain ⟨status, heard, hseat, hposted⟩ := h.seat t
  have hannounced : σ'.announcements t = σ.announcements t := by
    rcases eq_or_ne t s with rfl | hne
    · have hc' : σ'.conn t = some c' := by rw [hconn, Function.update_self]
      rw [State.announcements_eq hc, State.announcements_eq hc', hpeer]
    · rw [State.announcements, State.announcements, hconn, Function.update_of_ne hne]
  refine ⟨status, heard, ?_, fun d hd => ?_⟩
  · rw [hannounced, hhistory, hmembers]
    exact hseat.congr_strand (hjoins t)
  · rw [hconn] at hd
    rcases eq_or_ne t s with rfl | hne
    · rw [Function.update_self] at hd
      cases hd
      obtain ⟨posted, rfl, hbefore⟩ := hposted c hc
      exact hflow posted hbefore
    · rw [Function.update_of_ne hne] at hd
      obtain ⟨posted, hheard, hflow⟩ := hposted d hd
      exact ⟨posted, by rw [hpending t hne, hheard], hflow⟩

/-- A session that does not exist yet is not in the room. -/
theorem unborn (h : Ordered σ) (hnew : σ.conn s = none) :
    Seat s [] σ.history σ.members σ.strand .absent [] ∧ σ.pending s = [] := by
  obtain ⟨status, heard, hseat, -⟩ := h.seat s
  have hnone : σ.announcements s = [] := by
    rw [State.announcements, hnew]
    rfl
  have hstatus : status = .absent := by
    by_contra hne
    exact (hseat.own hne).1 hnone
  subst hstatus
  obtain rfl := hseat.attendance.heard_of_absent
  refine ⟨hnone ▸ hseat, ?_⟩
  unfold State.pending
  split
  · rfl
  · rename_i message todo hdelivering
    exact if_neg fun hmem =>
      nomatch hseat.member.mp ((h.todo message todo hdelivering).2 hmem)

theorem accept (h : Ordered σ) (peer : Peer) (hnew : σ.conn s = none)
    (accepting : Option (Session × Starting)) :
    Ordered { σ.setConn s (Conn.new peer) with
      accepting := accepting
      strand := σ.strand ++ [.join s (joinAnnouncement peer)] } := by
  refine ⟨h.nodup, h.todo, fun t => ?_⟩
  rcases eq_or_ne t s with rfl | hne
  · obtain ⟨hseat, hpending⟩ := h.unborn hnew
    have hconn : (σ.setConn t (Conn.new peer)).conn t = some (Conn.new peer) :=
      Function.update_self t _ _
    refine ⟨.absent, [], ⟨hseat.attendance, hseat.member, ?_, fun habsent => absurd rfl habsent⟩,
      fun d hd => ?_⟩
    · rw [joins_append, hseat.joins, joins_cons_self]
      exact (State.announcements_eq hconn).symm
    · rw [hconn] at hd
      cases hd
      exact ⟨[], hpending.symm, .new peer⟩
  · obtain ⟨status, heard, hseat, hposted⟩ := h.seat t
    have hconn : (σ.setConn s (Conn.new peer)).conn t = σ.conn t := Function.update_of_ne hne _ _
    refine ⟨status, heard, ?_, fun d hd => hposted d (hconn ▸ hd)⟩
    have hannounced : (σ.setConn s (Conn.new peer)).announcements t = σ.announcements t := by
      rw [State.announcements, State.announcements, hconn]
    refine hannounced ▸ hseat.congr_strand ?_
    have hother : (RoomHandler.join s (joinAnnouncement peer)).joining? t = none :=
      if_neg hne.symm
    rw [joins_append, joins_cons hother]
    exact List.append_nil _

theorem room (h : Ordered σ) (hidle : σ.delivering = none) {handler : RoomHandler Session}
    {rest : List (RoomHandler Session)} {members : List Session} {message : Option Bytes}
    {events : List (Event Session Bytes)} {todo : List Session}
    (hstrand : σ.strand = handler :: rest)
    (hrun : handler.run σ.members = (members, message, events)) (htodo : todo.Perm members) :
    Ordered { σ with
      strand := rest
      members := members
      delivering := message.map (·, todo)
      history := σ.history ++ events ++ message.toList.map .said } := by
  have hnodup := RoomHandler.run_nodup h.nodup hrun
  refine ⟨hnodup, fun m todo' hdelivering => ?_, fun t => ?_⟩
  · obtain ⟨m', -, heq⟩ := Option.map_eq_some_iff.mp hdelivering
    cases heq
    exact ⟨htodo.nodup_iff.mpr hnodup, htodo.subset⟩
  · obtain ⟨status, heard, hseat, hposted⟩ := h.seat t
    rw [hstrand] at hseat
    obtain ⟨status', hafter⟩ := hseat.room h.nodup (σ.announcements_length t) hrun
    rw [← List.append_assoc] at hafter
    refine ⟨status', _, hafter, fun c hc => ?_⟩
    obtain ⟨posted, hheard, hflow⟩ := hposted c hc
    have hpending : σ.pending t = [] := by rw [State.pending, hidle]
    rw [hpending, List.append_nil] at hheard
    refine ⟨posted, ?_, hflow⟩
    rw [hheard]
    cases message with
    | none => simp [State.pending]
    | some m => simp [State.pending, htodo.mem_iff]

theorem move (h : Ordered σ) (hmove : Move σ σ') : Ordered σ' := by
  cases hmove with
  | accept s peer hnew => exact h.accept peer hnew _
  | session s c c' posts accepting hc hchange =>
      refine h.update hc rfl hchange.peer rfl rfl (fun t => ?_) h.todo (fun t _ => rfl)
        fun posted hflow => ⟨posted, rfl, hflow.change hchange⟩
      rw [joins_append, hchange.joins, List.append_nil]
  | room handler rest members message events todo hidle hstrand hrun htodo =>
      exact h.room hidle hstrand hrun htodo
  | deliver message s todo c hdelivering hc =>
      obtain ⟨hnodup, hsubset⟩ := h.todo _ _ hdelivering
      have hlast := (List.nodup_cons.mp hnodup).1
      refine h.update hc rfl rfl rfl rfl (fun t => rfl) ?_ ?_ fun posted hflow =>
        ⟨posted ++ [message], ?_, hflow.deliver message⟩
      · intro m todo' heq
        cases heq
        exact ⟨(List.nodup_cons.mp hnodup).2, fun t ht => hsubset (.tail _ ht)⟩
      · intro t hne
        simp [State.pending, hdelivering, List.mem_cons, hne]
      · simp [State.pending, hdelivering, hlast]
  | delivered message hdelivering =>
      refine ⟨h.nodup, nofun, fun t => ?_⟩
      obtain ⟨status, heard, hseat, hposted⟩ := h.seat t
      refine ⟨status, heard, hseat, fun c hc => ?_⟩
      obtain ⟨posted, hheard, hflow⟩ := hposted c hc
      refine ⟨posted, ?_, hflow⟩
      rw [hheard, State.pending, hdelivering]
      rfl

theorem initial : Ordered (State.initial Session) where
  nodup := List.nodup_nil
  todo := nofun
  seat _ := ⟨.absent, [], ⟨.absent nofun, iff_of_false List.not_mem_nil nofun, rfl,
    fun h => absurd rfl h⟩, nofun⟩

theorem of_reachable (hreach : (system Session).Reachable σ) : Ordered σ := by
  refine (system Session).reachable_invariant Ordered ?_ ?_ σ hreach
  · rintro σ rfl
    exact initial
  · exact fun σ label σ' _ h hstep => h.move hstep.move

end Ordered

theorem Ordered.started {σ : State Session} (h : Ordered σ) {s : Session} {c : Conn}
    (hc : σ.conn s = some c) :
    said c.started <+: attended s σ.history ∧
      BlockAt (messages σ.history) (saidBefore s σ.history) (said c.started) := by
  obtain ⟨status, heard, hseat, hposted⟩ := h.seat s
  obtain ⟨posted, hheard, hflow⟩ := hposted c hc
  have hprefix : said c.started <+: heard :=
    hflow.started_isPrefix.trans (hheard ▸ List.prefix_append _ _)
  exact ⟨hseat.attendance.heard_eq ▸ hprefix, hseat.attendance.blockAt.of_isPrefix hprefix⟩

/-- The next handler of a session's strand can always run. -/
theorem handler_runs {σ : State Session} (hreach : (system Session).Reachable σ) {s : Session}
    {c : Conn} {handler : Handler} {rest : List Handler} (hc : σ.conn s = some c)
    (hstrand : c.strand = handler :: rest) :
    (Conn.run handler s { c with strand := rest }).isSome = true := by
  obtain ⟨_, _, _, hposted⟩ := (Ordered.of_reachable hreach).seat s
  obtain ⟨posted, _, hflow⟩ := hposted c hc
  rw [Conn.eq_before hstrand] at hflow
  exact hflow.run_isSome s

/-- The broadcasts whose writes were started for `c` and are among those the room
said from the `first`th on and before the `last`th; `start` of them were said
before the first one started. -/
def Conn.seen (c : Conn) (start first last : Nat) : List Bytes :=
  ((said c.started).drop (first - start)).take (last - first)

/-- The announcement of a client is the first broadcast it is sent. -/
theorem reachable_announced (s : Session) (peer : Peer) :
    ∃ σ c, (system Session).Reachable σ ∧ σ.conn s = some c ∧
      said c.started = [joinAnnouncement peer] := by
  have hjoined : (State.joined s peer).conn s = some (Conn.new peer) := by
    simp only [State.joined, State.accepted, Function.update_self]
  have hdeliver := (reachable_joined s peer).next (Step.deliver rfl hjoined)
  have hwrite := hdeliver.next (Step.session (Function.update_self s _ _) rfl rfl)
  exact ⟨_, _, hwrite, Function.update_self s _ _, rfl⟩

/-- In every run, for every session: it is or will be inserted once, and erased
at most once; at most one write is under way; the broadcasts whose writes were
started are the first of those the room said from the session's own announcement
on until it erased the session. Of the broadcasts that two sessions have both
been sent, both have seen the same. -/
theorem total_order (σ : State Session) (hreach : (system Session).Reachable σ) (s : Session)
    (c : Conn) (hc : σ.conn s = some c) :
    (joins s σ.strand).length + σ.history.countP (isInsertion s) = 1 ∧
    σ.history.countP (isErasure s) ≤ 1 ∧
    c.inFlight ≤ 1 ∧
    said c.started <+: attended s σ.history ∧
    (.inserted s ∈ σ.history →
      (attended s σ.history).head? = some (joinAnnouncement c.peer)) ∧
    BlockAt (messages σ.history) (saidBefore s σ.history) (said c.started) ∧
    ∀ t d, σ.conn t = some d →
      let start := saidBefore s σ.history
      let start' := saidBefore t σ.history
      let first := max start start'
      let last := min (start + (said c.started).length) (start' + (said d.started).length)
      c.seen start first last = d.seen start' first last := by
  have h := Ordered.of_reachable hreach
  obtain ⟨status, heard, hseat, hposted⟩ := h.seat s
  obtain ⟨posted, hheard, hflow⟩ := hposted c hc
  rw [State.announcements_eq hc] at hseat
  obtain ⟨hstarted, hblock⟩ := h.started hc
  refine ⟨?_, ?_, hflow.inFlight_le, hstarted, fun hinserted => ?_, hblock, fun t d hd => ?_⟩
  · rw [hseat.joins, hseat.attendance.countP_insertion]
    split <;> rfl
  · rw [hseat.attendance.countP_erasure]
    split <;> omega
  · have hstatus : status ≠ .absent := by
      rintro rfl
      cases hseat.attendance with
      | absent hnone => exact hnone _ hinserted rfl
    obtain ⟨-, rest, hown⟩ := hseat.own hstatus
    rw [← hseat.attendance.heard_eq, ← hown]
    rfl
  · exact hblock.common (h.started hd).2

theorem total_order_guest : ∃ (σ : State Unit) (c : Conn),
    (system Unit).Reachable σ ∧ said c.started = [joinAnnouncement guest] ∧
      said c.started <+: attended () σ.history := by
  obtain ⟨σ, c, hreach, hc, hstarted⟩ := reachable_announced () guest
  exact ⟨σ, c, hreach, hstarted, (total_order σ hreach () c hc).2.2.2.1⟩

end MoreCpp.Chat.Server

import MoreCpp.Chat.Client.Writing

/-!
The end of the input. `close` closes the socket when its handler has its turn,
whatever is in the outbox: lines that wait for the connection or for their write
are lost. They are all written if nothing is left to write at that moment.
-/

namespace MoreCpp.Chat.Client

open Library

namespace ChatClient

/-- All messages in the outbox but the `/name` line have been written, though the
handlers of their writes may not have run. -/
def InTime (c : ChatClient) : Prop :=
  c.outbox.length ≤ c.finished +
    if c.connected = true ∧ c.name ≠ [] ∧ c.written = [] then 1 else 0

theorem drop_eq_iff_of_isPrefix {first second written : List Bytes}
    (h : written <+: first ++ second) :
    written.drop first.length = second ↔ second.length ≤ written.length - first.length := by
  have hdrop : written.drop first.length <+: second := by
    have hall := h.drop first.length
    rwa [List.drop_left] at hall
  refine ⟨fun heq => ?_, fun hle => hdrop.eq_of_length_le ?_⟩
  · rw [← heq, List.length_drop]
  · rwa [List.length_drop]

theorem nameLines_length (name : Bytes) :
    (nameLines name).length = if name ≠ [] then 1 else 0 := by
  unfold nameLines
  by_cases hname : name = []
  · rw [if_pos hname, if_neg (not_not_intro hname)]
    rfl
  · rw [if_neg hname, if_pos hname]
    rfl

theorem Phase.inTime_iff {c : ChatClient} {accepted : List Bytes} (h : c.Phase accepted) :
    c.written.drop (nameLines c.name).length = accepted ↔ c.InTime := by
  rw [drop_eq_iff_of_isPrefix h.written_isPrefix, InTime]
  have hname := nameLines_length c.name
  cases h with
  | waiting hconnected hidle _ hwritten houtbox =>
      have hnone : c.finished = 0 := by
        rw [inFlight] at hidle
        omega
      rw [hwritten, houtbox, hconnected, hnone]
      simp
  | @writing sent hconnected hpipeline hwritten =>
      have hsplit := congrArg List.length hpipeline.sent_append
      have hlength := congrArg List.length hwritten
      rw [List.length_append, List.length_append] at hsplit
      rw [List.length_append, List.length_take] at hlength
      have hempty : c.written = [] ↔ c.written.length = 0 := List.length_eq_zero_iff.symm
      simp only [hconnected, hempty, true_and]
      split at hname
      · rename_i hnamed
        simp only [hnamed, not_false_eq_true, true_and, ne_eq]
        split <;> omega
      · rename_i hnamed
        simp only [hnamed, false_and, if_false]
        omega

theorem Served.mem_calls {c : ChatClient} {handled : List Call} {accepted : List Bytes}
    (h : Served c handled accepted) {call : Call} (hmem : call ∈ handled) : call ∈ c.calls := by
  rw [h.calls]
  exact List.mem_append_left _ hmem

end ChatClient

/-- What the input thread calls after the lines. -/
def Input.lastCalls : Input → List Call
  | .reading => []
  | .quit => [.writeAndClose (text "/quit")]
  | .ended => [.close]

/-- Every line read is written completely, behind the `/name` line. -/
def Main.AllWritten (m : Main) : Prop :=
  m.client.written.drop (ChatClient.nameLines m.client.name).length = m.lines.map toWireLine

/-- No failure, and no signal. -/
def MainLabel.Undisturbed : MainLabel → Prop
  | .signal => False
  | .client label => label.NoError
  | _ => True

/-- The calls are those of the input thread. -/
structure Tracked (m : Main) : Prop where
  served : ∃ handled accepted, m.client.Served handled accepted
  calls : m.client.calls = m.lines.map .write ++ m.input.lastCalls

namespace Tracked

variable {m m' : Main}

theorem initial (name : Bytes) : Tracked (.initial name) := ⟨⟨[], [], .initial name⟩, rfl⟩

theorem step {label : MainLabel} (h : Tracked m) (hstep : MainStep m label m')
    (hno : label.Undisturbed) : Tracked m' := by
  obtain ⟨handled, accepted, hserved⟩ := h.served
  have hcalls := h.calls
  cases hstep with
  | line hreading line _ _ hcall =>
      refine ⟨hserved.step hcall trivial, ?_⟩
      rw [hreading] at hcalls
      rw [hcall.frame.2.1, hcalls, hreading, List.map_append, List.append_assoc, List.append_assoc]
      rfl
  | quit hreading hcall =>
      refine ⟨hserved.step hcall trivial, ?_⟩
      rw [hreading] at hcalls
      rw [hcall.frame.2.1, hcalls, List.append_assoc]
      rfl
  | endOfInput hreading hcall =>
      refine ⟨hserved.step hcall trivial, ?_⟩
      rw [hreading] at hcalls
      rw [hcall.frame.2.1, hcalls, List.append_assoc]
      rfl
  | signal => exact hno.elim
  | client hlabel hstep =>
      refine ⟨hserved.step hstep hno, ?_⟩
      rw [hstep.frame.2.1, hlabel, hcalls]
      exact List.append_nil _

theorem write_of_mem {call : Call} (hmem : call ∈ m.lines.map Call.write) :
    ∃ line, call = .write line := by
  obtain ⟨line, -, rfl⟩ := List.mem_map.mp hmem
  exact ⟨line, rfl⟩

theorem writeAndClose_notMem (h : Tracked m) (hinput : m.input ≠ .quit) (line : Bytes) :
    .writeAndClose line ∉ m.client.calls := by
  intro hmem
  rw [h.calls] at hmem
  rcases List.mem_append.mp hmem with hline | hlast
  · obtain ⟨_, heq⟩ := write_of_mem hline
    cases heq
  · cases hcase : m.input with
    | quit => exact hinput hcase
    | reading =>
        rw [hcase] at hlast
        cases hlast
    | ended =>
        rw [hcase] at hlast
        cases List.mem_singleton.mp hlast

theorem open_of_reading (h : Tracked m) (hreading : m.input = .reading) :
    m.client.closed = false := by
  obtain ⟨handled, accepted, hserved⟩ := h.served
  have hquit : m.input ≠ .quit := fun heq => nomatch hreading.symm.trans heq
  cases hclosed : m.client.closed with
  | false => rfl
  | true =>
      obtain ⟨enqueued, later, rfl, -, hclose | ⟨⟨line, hline⟩, -⟩⟩ := hserved.shut hclosed
      · have hmem := hserved.mem_calls hclose
        rw [h.calls, hreading, Input.lastCalls, List.append_nil] at hmem
        obtain ⟨_, heq⟩ := write_of_mem hmem
        cases heq
      · exact absurd (hserved.mem_calls (List.mem_append_left _ hline))
          (h.writeAndClose_notMem hquit line)

theorem messages_lines (lines : List Bytes) :
    messages (lines.map .write) = lines.map toWireLine := by
  rw [messages, List.filterMap_map]
  exact congrFun List.filterMap_eq_map' lines

/-- At the end of the input the calls ask for the lines to be written. -/
theorem messages_calls (h : Tracked m) (hended : m.input = .ended) :
    messages m.client.calls = m.lines.map toWireLine := by
  rw [h.calls, hended, messages, List.filterMap_append]
  exact (List.append_nil _).trans (messages_lines m.lines)

theorem written_isPrefix (h : Tracked m) (hended : m.input = .ended) :
    m.client.written <+: ChatClient.nameLines m.client.name ++ m.lines.map toWireLine := by
  obtain ⟨handled, accepted, hserved⟩ := h.served
  refine hserved.phase.written_isPrefix.trans ((List.prefix_append_right_inj _).mpr ?_)
  apply hserved.accepted_isPrefix.trans
  rw [← h.messages_calls hended, hserved.calls, messages, messages, List.filterMap_append]
  exact List.prefix_append _ _

/-- Once all is written, it stays so. -/
theorem allWritten_later (h : Tracked m') (hended : m'.input = .ended)
    (hwritten : m.client.written <+: m'.client.written)
    (hname : m'.client.name = m.client.name) (hlines : m'.lines = m.lines)
    (hall : m.AllWritten) : m'.AllWritten := by
  have hlength : m.lines.length ≤ m.client.written.length -
      (ChatClient.nameLines m.client.name).length := by
    have hdropped := congrArg List.length hall
    rw [List.length_drop, List.length_map] at hdropped
    omega
  apply (ChatClient.drop_eq_iff_of_isPrefix (h.written_isPrefix hended)).mpr
  rw [hname, hlines, List.length_map]
  have hle := hwritten.length_le
  omega

/-- The handler of `close` has its turn: every line was enqueued before, and all
are written just if the outbox says so. -/
theorem allWritten_iff (h : Tracked m) (hended : m.input = .ended)
    (hopen : m.client.closed = false) {rest : List Handler}
    (hstrand : m.client.strand = .call .close :: rest) : m.AllWritten ↔ m.client.InTime := by
  obtain ⟨handled, accepted, hserved⟩ := h.served
  obtain ⟨rfl, -⟩ := hserved.opened hopen
  have hpending : m.client.pending = .close :: rest.filterMap Handler.call? := by
    rw [ChatClient.pending, hstrand]
    rfl
  have hcalls := hserved.calls
  rw [h.calls, hended, hpending, Input.lastCalls] at hcalls
  have hlines : Call.close ∉ m.lines.map Call.write := fun hmem => by
    obtain ⟨_, heq⟩ := write_of_mem hmem
    cases heq
  obtain ⟨rfl, -, -⟩ := (List.append_cons_inj_of_notMem hlines List.not_mem_nil).mp hcalls
  rw [← hserved.phase.inTime_iff, Main.AllWritten, messages_lines]

/-- What closes the socket at the end of the input. -/
theorem closes (h : Tracked m) (hended : m.input = .ended) (hopen : m.client.closed = false)
    {label : Label} {client : ChatClient} (hstep : Step m.client label client)
    (hno : label.NoError) (hclosed : client.closed = true) :
    label = .handler ∧ (∃ rest, m.client.strand = .call .close :: rest) ∧
      client.written = m.client.written ∧ client.name = m.client.name := by
  obtain ⟨handled, accepted, hserved⟩ := h.served
  have hquit : m.input ≠ .quit := fun heq => nomatch hended.symm.trans heq
  cases hstep with
  | @handler _ handler rest hstrand hrun =>
      have heffect := ChatClient.effect_run hrun
      obtain ⟨hname, -, hwritten⟩ := heffect.frame
      rcases heffect.closes hopen hclosed with rfl | hflag | herror
      · exact ⟨rfl, ⟨rest, hstrand⟩, hwritten, hname⟩
      · obtain ⟨line, hline⟩ := hserved.flagged hflag
        exact absurd (hserved.mem_calls hline) (h.writeAndClose_notMem hquit line)
      · exact absurd (hserved.ok handler (hstrand ▸ .head _)) herror
  | call | resolve | connect | readOk | readError | writeOk | writeError =>
      exact absurd (hopen.symm.trans hclosed) nofun

end Tracked

/-- When the handler of `close` has its turn, nothing but the `/name` line is
left to write. -/
def Main.ClosesInTime (m : Main) (label : MainLabel) : Prop :=
  label = .client .handler → ∀ rest, m.client.strand = .call .close :: rest → m.client.InTime

/-- The socket is closed at the end of the input only if every line is written. -/
structure Kept (m : Main) : Prop where
  tracked : Tracked m
  written : m.input = .ended → m.client.closed = true → m.AllWritten

theorem Kept.step {m m' : Main} {label : MainLabel} (h : Kept m) (hstep : MainStep m label m')
    (hno : label.Undisturbed) (hintime : m.ClosesInTime label) : Kept m' := by
  have htracked := h.tracked.step hstep hno
  refine ⟨htracked, fun hended hclosed => ?_⟩
  cases hstep with
  | line hreading => exact absurd (hreading.symm.trans hended) nofun
  | quit => cases hended
  | endOfInput hreading hcall =>
      have hopen := h.tracked.open_of_reading hreading
      cases hcall
      exact absurd (hopen.symm.trans hclosed) nofun
  | signal => exact hno.elim
  | @client client label hlabel hstep =>
      obtain ⟨hname, -, hwritten⟩ := hstep.frame
      apply htracked.allWritten_later (m := m) hended hwritten hname rfl
      cases hbefore : m.client.closed with
      | true => exact h.written hended hbefore
      | false =>
          obtain ⟨rfl, ⟨rest, hstrand⟩, -⟩ := h.tracked.closes hended hbefore hstep hno hclosed
          exact (h.tracked.allWritten_iff hended hbefore hstrand).mpr (hintime rfl rest hstrand)

/-- One line that is written before the input ends. -/
theorem reachable_in_time : ∃ m : Main,
    ((main []).restrict fun m label => label.Undisturbed ∧ m.ClosesInTime label).Reachable m ∧
      m.input = .ended ∧ m.client.closed = true ∧ m.lines = [text "hello"] := by
  have hstart : ((main []).restrict fun m label =>
      label.Undisturbed ∧ m.ClosesInTime label).Reachable (.initial []) := .start rfl
  have hresolve := hstart.next ⟨MainStep.client rfl (Step.resolve Nat.one_pos true), rfl, nofun⟩
  have hresolved := hresolve.next ⟨MainStep.client rfl (Step.handler rfl rfl), trivial, nofun⟩
  have hconnect := hresolved.next
    ⟨MainStep.client rfl (Step.connect Nat.one_pos true), rfl, nofun⟩
  have hconnected := hconnect.next ⟨MainStep.client rfl (Step.handler rfl rfl), trivial, nofun⟩
  have hline := hconnected.next ⟨MainStep.line rfl (text "hello") (by decide) (by decide)
    (Step.call _), trivial, nofun⟩
  have henqueue := hline.next ⟨MainStep.client rfl (Step.handler rfl rfl), trivial, nofun⟩
  have hwrite := henqueue.next
    ⟨MainStep.client rfl (Step.writeOk Nat.one_pos _ [] rfl), rfl, nofun⟩
  have hwritten := hwrite.next ⟨MainStep.client rfl (Step.handler rfl rfl), trivial, nofun⟩
  have hended := hwritten.next ⟨MainStep.endOfInput rfl (Step.call _), trivial, nofun⟩
  have hclose := hended.next ⟨MainStep.client rfl (Step.handler rfl rfl), trivial,
    fun _ _ _ => Nat.zero_le _⟩
  exact ⟨_, hclose, rfl, rfl, rfl⟩

/-- In every run without failures and signals in which the handler of `close`
has its turn in time, the socket is closed at the end of the input only after
every line was written. And in time it is exactly then: where the handler closes
the socket, all lines are written just if nothing else was left to write. -/
theorem lines_written (name : Bytes) (m : Main)
    (hreach : ((main name).restrict fun m label => label.Undisturbed ∧ m.ClosesInTime label).Reachable
      m) (hended : m.input = .ended) :
    (m.client.closed = true → m.AllWritten) ∧
    ∀ m' rest, m.client.closed = false → m.client.strand = .call .close :: rest →
      MainStep m (.client .handler) m' →
      m'.client.closed = true ∧ (m'.AllWritten ↔ m.client.InTime) := by
  have h : Kept m := by
    refine System.reachable_invariant _ Kept ?_ ?_ m hreach
    · rintro m rfl
      exact ⟨.initial name, nofun⟩
    · exact fun m label m' _ hkept hstep => hkept.step hstep.1 hstep.2.1 hstep.2.2
  refine ⟨h.written hended, fun m' rest hopen hstrand hstep => ?_⟩
  rw [← h.tracked.allWritten_iff hended hopen hstrand]
  cases hstep with
  | client _ hstep =>
      cases hstep with
      | handler hstrand' hrun =>
          rw [hstrand] at hstrand'
          cases hstrand'
          obtain rfl := Option.some.inj hrun
          refine ⟨ChatClient.closeNow_closed _, ?_⟩
          obtain ⟨-, -, hname, -, -, hwritten, -⟩ :=
            ChatClient.closeNow_eq { m.client with strand := rest }
          rw [Main.AllWritten, Main.AllWritten, hname, hwritten]

theorem lines_written_hello : ∃ m : Main, m.client.closed = true ∧
    m.lines = [text "hello"] ∧ m.AllWritten := by
  obtain ⟨m, hreach, hended, hclosed, hlines⟩ := reachable_in_time
  exact ⟨m, hclosed, hlines, (lines_written [] m hreach hended).1 hclosed⟩

/-- One line and the end of the input, before there is a connection. -/
theorem lines_lost : ¬ ∀ (name : Bytes) (m : Main),
    ((main name).restrict fun _ label => label.Undisturbed).Reachable m → m.input = .ended →
      m.client.closed = true → m.AllWritten := by
  intro hclaim
  have hstart : ((main (text "ann")).restrict fun _ label => label.Undisturbed).Reachable
      (.initial (text "ann")) := .start rfl
  have hline := hstart.next ⟨MainStep.line rfl (text "hello") (by decide) (by decide)
    (Step.call _), trivial⟩
  have hended := hline.next ⟨MainStep.endOfInput rfl (Step.call _), trivial⟩
  have henqueue := hended.next ⟨MainStep.client rfl (Step.handler rfl rfl), trivial⟩
  have hclose := henqueue.next ⟨MainStep.client rfl (Step.handler rfl rfl), trivial⟩
  have hall := hclaim _ _ hclose rfl rfl
  rw [Main.AllWritten] at hall
  exact absurd (congrArg List.length hall) (by decide)

end MoreCpp.Chat.Client

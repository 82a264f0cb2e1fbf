import Mathlib.Data.List.Basic
import Mathlib.Data.List.TakeWhile

/-!
Messages on a stream of bytes: how they are told apart, and the outbox they are written from.
-/

namespace MoreCpp.Library

/-! ## Framing

Messages that end with a delimiter and have no other. A reader who splits their
concatenation at the delimiters gets them back one by one.
-/

section LineFraming

variable {α : Type*}

/-- One delimiter, and nothing after it. -/
def Framed (d : α) (message : List α) : Prop := ∃ body, d ∉ body ∧ message = body ++ [d]

theorem Framed.of_body {d : α} {body : List α} (h : d ∉ body) : Framed d (body ++ [d]) :=
  ⟨body, h, rfl⟩

theorem Framed.getLast?_eq {d : α} {message : List α} (h : Framed d message) :
    message.getLast? = some d := by
  obtain ⟨body, -, rfl⟩ := h
  exact List.getLast?_concat

variable [DecidableEq α] (d : α)

/-- What is before the first delimiter. -/
def firstLine (input : List α) : List α := input.takeWhile (· ≠ d)

/-- What is after it. -/
def afterLine (input : List α) : List α := (input.dropWhile (· ≠ d)).tail

/-- The lines that are complete, a line a round. -/
def lines : Nat → List α → List (List α)
  | 0, _ => []
  | fuel + 1, input =>
      if d ∈ input then firstLine d input :: lines fuel (afterLine d input) else []

variable {d}

theorem Framed.count_eq {message : List α} (h : Framed d message) : message.count d = 1 := by
  obtain ⟨body, hbody, rfl⟩ := h
  rw [List.count_append, List.count_eq_zero_of_not_mem hbody, List.count_singleton_self]

theorem notMem_firstLine (input : List α) : d ∉ firstLine d input := by
  intro hmem
  have hkept := List.mem_takeWhile_imp hmem
  simp at hkept

theorem firstLine_append {body : List α} (h : d ∉ body) (rest : List α) :
    firstLine d (body ++ d :: rest) = body := by
  rw [firstLine, List.takeWhile_append_of_pos]
  · simp
  · intro a ha
    exact decide_eq_true fun heq => h (heq ▸ ha)

theorem afterLine_append {body : List α} (h : d ∉ body) (rest : List α) :
    afterLine d (body ++ d :: rest) = rest := by
  rw [afterLine, List.dropWhile_append_of_pos]
  · simp
  · intro a ha
    exact decide_eq_true fun heq => h (heq ▸ ha)

/-- Framed messages one after the other are the lines of their concatenation. -/
theorem lines_flatten {messages : List (List α)} (h : ∀ message ∈ messages, Framed d message)
    {fuel : Nat} (hfuel : messages.length ≤ fuel) :
    lines d fuel messages.flatten = messages.map List.dropLast := by
  induction messages generalizing fuel with
  | nil => cases fuel <;> simp [lines]
  | cons message rest ih =>
      obtain ⟨body, hbody, rfl⟩ := h message (.head _)
      cases fuel with
      | zero => simp at hfuel
      | succ fuel =>
          have hrest := ih (fun m hm => h m (.tail _ hm)) (by simpa using hfuel)
          have hsplit : ((body ++ [d]) :: rest).flatten = body ++ d :: rest.flatten := by simp
          rw [hsplit, lines, if_pos (by simp), firstLine_append hbody, afterLine_append hbody,
            hrest, List.map_cons, List.dropLast_concat]

/-- What has been received: the lines taken out of the input, and what is left there. -/
structure Reads (d : α) (received : List α) (taken : List (List α)) (input : List α) : Prop where
  received_eq : received = (taken.map (· ++ [d])).flatten ++ input
  notMem : ∀ line ∈ taken, d ∉ line

namespace Reads

variable {received input data : List α} {taken : List (List α)}

omit [DecidableEq α] in
theorem start : Reads d [] [] [] := ⟨rfl, nofun⟩

omit [DecidableEq α] in
theorem receive (h : Reads d received taken input) (data : List α) :
    Reads d (received ++ data) taken (input ++ data) :=
  ⟨by rw [h.received_eq, List.append_assoc], h.notMem⟩

theorem firstLine_afterLine (hmem : d ∈ input) :
    input = firstLine d input ++ d :: afterLine d input := by
  induction input with
  | nil => cases hmem
  | cons first rest ih =>
      rcases eq_or_ne first d with rfl | hne
      · simp [firstLine, afterLine]
      · have hrest := ih ((List.mem_cons.mp hmem).resolve_left (Ne.symm hne))
        simpa [firstLine, afterLine, hne] using hrest

/-- A complete line is taken. -/
theorem take (h : Reads d received taken input) (hmem : d ∈ input) :
    Reads d received (taken ++ [firstLine d input]) (afterLine d input) := by
  refine ⟨?_, fun line hline => ?_⟩
  · rw [h.received_eq, List.map_append, List.flatten_append, List.map_singleton,
      List.flatten_singleton, List.append_assoc, List.append_assoc, List.singleton_append,
      ← firstLine_afterLine hmem]
  · rcases List.mem_append.mp hline with hold | hnew
    · exact h.notMem line hold
    · exact List.mem_singleton.mp hnew ▸ notMem_firstLine input

/-- The lines taken are the first of those of the whole stream. -/
theorem isPrefix_lines (h : Reads d received taken input) {stream : List α}
    (hreceived : received <+: stream) {fuel : Nat} (hfuel : stream.length ≤ fuel) :
    taken <+: lines d fuel stream := by
  obtain ⟨heq, hnotMem⟩ := h
  subst heq
  induction taken generalizing stream fuel with
  | nil => exact List.nil_prefix
  | cons line taken ih =>
      obtain ⟨later, rfl⟩ := hreceived
      have hline := hnotMem line (.head _)
      have hstream : ((line :: taken).map (· ++ [d])).flatten ++ input ++ later =
          line ++ d :: ((taken.map (· ++ [d])).flatten ++ input ++ later) := by simp
      rw [hstream] at hfuel ⊢
      cases fuel with
      | zero => simp at hfuel
      | succ fuel =>
          rw [lines, if_pos (by simp), firstLine_append hline, afterLine_append hline,
            List.prefix_cons_inj]
          rw [List.length_append, List.length_cons] at hfuel
          exact ih (by omega) (fun l hl => hnotMem l (.tail _ hl)) (List.prefix_append _ _)

end Reads

end LineFraming

/-! ## Writing

A sender with an outbox that writes one message at a time. The message in front
of the outbox is the one being written; a write that finishes starts the next.
-/

section WritePipeline

variable {M : Type*}

/-- The writes outstanding, the outbox, the messages whose writes were started
and those whose writes are complete, and all that were ever put in the outbox. -/
inductive Pipeline : Nat → List M → List M → List M → List M → Prop where
  | idle (sent : List M) : Pipeline 0 [] sent sent sent
  | busy (sent : List M) (front : M) (rest : List M) :
      Pipeline 1 (front :: rest) (sent ++ [front]) sent (sent ++ front :: rest)

namespace Pipeline

variable {writes : Nat} {outbox started sent accepted : List M} {message front next : M}
  {rest : List M}

theorem writes_le (h : Pipeline writes outbox started sent accepted) : writes ≤ 1 := by
  cases h <;> omega

theorem started_isPrefix (h : Pipeline writes outbox started sent accepted) :
    started <+: accepted := by
  cases h with
  | idle => exact List.prefix_refl _
  | busy sent front rest => exact ⟨rest, by simp⟩

theorem sent_append (h : Pipeline writes outbox started sent accepted) :
    accepted = sent ++ outbox := by
  cases h with
  | idle => exact (List.append_nil _).symm
  | busy => rfl

theorem outbox_ne_nil (h : Pipeline writes outbox started sent accepted) (hpos : 0 < writes) :
    outbox ≠ [] := by
  cases h with
  | idle => omega
  | busy => exact List.cons_ne_nil _ _

/-- A message put in an empty outbox is written at once. -/
theorem put_idle (h : Pipeline writes [] started sent accepted) (message : M) :
    Pipeline (writes + 1) [message] (started ++ [message]) sent (accepted ++ [message]) := by
  cases h
  exact busy _ message []

/-- A message put behind another one waits. -/
theorem put_busy (h : Pipeline writes (front :: rest) started sent accepted) (message : M) :
    Pipeline writes (front :: rest ++ [message]) started sent (accepted ++ [message]) := by
  cases h
  have hlast := busy sent front (rest ++ [message])
  rwa [← List.cons_append, ← List.append_assoc] at hlast

/-- The last write finishes. -/
theorem finish_last (h : Pipeline writes [front] started sent accepted) :
    Pipeline (writes - 1) [] started (sent ++ [front]) accepted := by
  cases h
  exact idle (sent ++ [front])

/-- A write finishes, and the next one starts. -/
theorem finish_next (h : Pipeline writes (front :: next :: rest) started sent accepted) :
    Pipeline (writes - 1 + 1) (next :: rest) (started ++ [next]) (sent ++ [front]) accepted := by
  cases h
  have hall : sent ++ front :: next :: rest = sent ++ [front] ++ next :: rest := by simp
  rw [hall]
  exact busy (sent ++ [front]) next rest

end Pipeline

end WritePipeline

end MoreCpp.Library

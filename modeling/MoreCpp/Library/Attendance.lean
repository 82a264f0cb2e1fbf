import Mathlib.Data.List.TakeWhile
import Mathlib.Data.List.Count

/-!
Members who come to a place and leave it, and messages said there meanwhile. A
member who comes and goes once attends a contiguous part of what is said.
-/

namespace MoreCpp.Library

section Blocks

variable {α : Type*} {whole part part' : List α} {i j : Nat}

/-- A contiguous part of a list, from the `i`th item on. -/
def BlockAt (whole : List α) (i : Nat) (part : List α) : Prop :=
  part = (whole.drop i).take part.length

namespace BlockAt

theorem of_append (before part after : List α) :
    BlockAt (before ++ (part ++ after)) before.length part := by
  rw [BlockAt, List.drop_left, List.take_left]

theorem of_isPrefix (h : BlockAt whole i part) (hpart : part' <+: part) :
    BlockAt whole i part' := by
  have hlength := hpart.length_le
  rw [BlockAt, ← List.prefix_iff_eq_take]
  exact hpart.trans (List.prefix_iff_eq_take.mpr h)

/-- What two blocks have in common is the same block of each. -/
theorem common (h : BlockAt whole i part) (h' : BlockAt whole j part') :
    (part.drop (max i j - i)).take (min (i + part.length) (j + part'.length) - max i j) =
      (part'.drop (max i j - j)).take (min (i + part.length) (j + part'.length) - max i j) := by
  have hblock : ∀ (xs : List α) (k : Nat), BlockAt whole k xs → k ≤ max i j →
      min (i + part.length) (j + part'.length) ≤ k + xs.length →
      (xs.drop (max i j - k)).take (min (i + part.length) (j + part'.length) - max i j) =
        (whole.drop (max i j)).take (min (i + part.length) (j + part'.length) - max i j) := by
    intro xs k hxs hk hend
    have hstart : k + (max i j - k) = max i j := by omega
    have hlength : min (i + part.length) (j + part'.length) - max i j ≤
        xs.length - (max i j - k) := by
      omega
    rw [hxs, List.drop_take, List.drop_drop, hstart, List.take_take, Nat.min_eq_left hlength]
  rw [hblock part i h (Nat.le_max_left i j) (Nat.min_le_left _ _),
    hblock part' j h' (Nat.le_max_right i j) (Nat.min_le_right _ _)]

end BlockAt

end Blocks

inductive Event (Member Message : Type*) where
  | inserted (member : Member)
  | erased (member : Member)
  | said (message : Message)
deriving DecidableEq

variable {Member Message : Type*}

namespace Event

/-- The messages among the events. -/
def said? : Event Member Message → Option Message
  | .said message => some message
  | _ => none

def IsAbout (who : Member) : Event Member Message → Prop
  | .inserted member | .erased member => member = who
  | .said _ => False

end Event

def messages (history : List (Event Member Message)) : List Message :=
  history.filterMap Event.said?

theorem messages_append (history history' : List (Event Member Message)) :
    messages (history ++ history') = messages history ++ messages history' :=
  List.filterMap_append

theorem messages_said (texts : List Message) :
    messages (texts.map (.said : Message → Event Member Message)) = texts := by
  rw [messages, List.filterMap_map]
  exact List.filterMap_some

theorem notAbout_said (who : Member) (texts : List Message) :
    ∀ e ∈ texts.map (.said : Message → Event Member Message), ¬ e.IsAbout who := by
  intro e he
  obtain ⟨message, -, rfl⟩ := List.mem_map.mp he
  exact id

section Attended

variable [DecidableEq Member]

def isInsertion (who : Member) : Event Member Message → Bool
  | .inserted member => member = who
  | _ => false

def isErasure (who : Member) : Event Member Message → Bool
  | .erased member => member = who
  | _ => false

/-- What is said between the insertion of a member and its erasure. -/
def attended (who : Member) (history : List (Event Member Message)) : List Message :=
  messages (((history.dropWhile fun e => !isInsertion who e).tail).takeWhile fun e =>
    !isErasure who e)

/-- How many messages are said before the insertion. -/
def saidBefore (who : Member) (history : List (Event Member Message)) : Nat :=
  (messages (history.takeWhile fun e => !isInsertion who e)).length

end Attended

inductive Status where
  | absent
  | present
  | departed
deriving DecidableEq

/-- Whether a member has come and gone, and the messages said meanwhile. -/
inductive Attendance (who : Member) (history : List (Event Member Message)) :
    Status → List Message → Prop where
  | absent (hnone : ∀ e ∈ history, ¬ e.IsAbout who) : Attendance who history .absent []
  | present {before during : List (Event Member Message)}
      (hhistory : history = before ++ .inserted who :: during)
      (hbefore : ∀ e ∈ before, ¬ e.IsAbout who) (hduring : ∀ e ∈ during, ¬ e.IsAbout who) :
      Attendance who history .present (messages during)
  | departed {before during after : List (Event Member Message)}
      (hhistory : history = before ++ .inserted who :: (during ++ .erased who :: after))
      (hbefore : ∀ e ∈ before, ¬ e.IsAbout who) (hduring : ∀ e ∈ during, ¬ e.IsAbout who)
      (hafter : ∀ e ∈ after, ¬ e.IsAbout who) : Attendance who history .departed (messages during)

namespace Attendance

variable {who : Member} {history : List (Event Member Message)} {status : Status}
  {heard : List Message} {event : Event Member Message}

theorem notAbout_concat {events : List (Event Member Message)}
    (hevents : ∀ e ∈ events, ¬ e.IsAbout who) (hevent : ¬ event.IsAbout who) :
    ∀ e ∈ events ++ [event], ¬ e.IsAbout who := by
  intro e he
  rcases List.mem_append.mp he with hold | hlast
  · exact hevents e hold
  · exact List.mem_singleton.mp hlast ▸ hevent

/-- An event about somebody else, or a message; a present member hears it. -/
theorem concat (h : Attendance who history status heard) (hevent : ¬ event.IsAbout who) :
    Attendance who (history ++ [event]) status
      (if status = .present then heard ++ event.said?.toList else heard) := by
  cases h with
  | absent hnone => exact .absent (notAbout_concat hnone hevent)
  | @present before during hhistory hbefore hduring =>
      have hmessages : messages (during ++ [event]) = messages during ++ event.said?.toList := by
        rw [messages_append]
        cases event <;> rfl
      rw [if_pos rfl, ← hmessages]
      exact .present (by rw [hhistory, List.append_assoc, List.cons_append]) hbefore
        (notAbout_concat hduring hevent)
  | departed hhistory hbefore hduring hafter =>
      refine .departed ?_ hbefore hduring (notAbout_concat hafter hevent)
      rw [hhistory, List.append_assoc, List.cons_append, List.append_assoc, List.cons_append]

theorem append (h : Attendance who history status heard) {events : List (Event Member Message)}
    (hevents : ∀ e ∈ events, ¬ e.IsAbout who) :
    Attendance who (history ++ events) status
      (if status = .present then heard ++ messages events else heard) := by
  induction events generalizing history heard with
  | nil =>
      have hnone : messages ([] : List (Event Member Message)) = [] := rfl
      rw [List.append_nil, hnone, List.append_nil, ite_self]
      exact h
  | cons event rest ih =>
      have hrest := ih (h.concat (hevents event (.head _))) fun e he => hevents e (.tail _ he)
      have hmessages : messages (event :: rest) = event.said?.toList ++ messages rest := by
        cases event <;> rfl
      rw [List.append_assoc, List.singleton_append] at hrest
      rw [hmessages, ← List.append_assoc]
      split
      · rename_i hpresent
        rwa [if_pos hpresent, if_pos hpresent] at hrest
      · rename_i habsent
        rwa [if_neg habsent, if_neg habsent] at hrest

theorem insert (h : Attendance who history .absent heard) :
    Attendance who (history ++ [.inserted who]) .present [] := by
  cases h with
  | absent hnone => exact .present rfl hnone nofun

theorem erase (h : Attendance who history .present heard) :
    Attendance who (history ++ [.erased who]) .departed heard := by
  cases h with
  | present hhistory hbefore hduring =>
      exact .departed (by rw [hhistory, List.append_assoc, List.cons_append]) hbefore hduring
        fun _ he => absurd he List.not_mem_nil

theorem heard_of_absent (h : Attendance who history .absent heard) : heard = [] := by
  cases h
  rfl

section Decidable

variable [DecidableEq Member]

theorem notInsertion_of_notAbout (hevent : ¬ event.IsAbout who) :
    (!isInsertion who event) = true := by
  cases event with
  | inserted member => exact Bool.not_eq_true' _ |>.mpr (decide_eq_false hevent)
  | erased | said => rfl

theorem notErasure_of_notAbout (hevent : ¬ event.IsAbout who) :
    (!isErasure who event) = true := by
  cases event with
  | erased member => exact Bool.not_eq_true' _ |>.mpr (decide_eq_false hevent)
  | inserted | said => rfl

theorem heard_eq (h : Attendance who history status heard) : heard = attended who history := by
  cases h with
  | absent hnone =>
      have hall : history.dropWhile (fun e => !isInsertion who e) = [] :=
        List.dropWhile_eq_nil_iff.mpr fun e he => notInsertion_of_notAbout (hnone e he)
      rw [attended, hall]
      rfl
  | present hhistory hbefore hduring =>
      rw [attended, hhistory,
        List.dropWhile_append_of_pos fun e he => notInsertion_of_notAbout (hbefore e he)]
      simp only [isInsertion, decide_true, Bool.not_true, Bool.false_eq_true, not_false_eq_true,
        List.dropWhile_cons_of_neg, List.tail_cons]
      rw [List.takeWhile_eq_self_iff.mpr fun e he => notErasure_of_notAbout (hduring e he)]
  | departed hhistory hbefore hduring =>
      rw [attended, hhistory,
        List.dropWhile_append_of_pos fun e he => notInsertion_of_notAbout (hbefore e he)]
      simp only [isInsertion, decide_true, Bool.not_true, Bool.false_eq_true, not_false_eq_true,
        List.dropWhile_cons_of_neg, List.tail_cons]
      rw [List.takeWhile_append_of_pos fun e he => notErasure_of_notAbout (hduring e he)]
      simp [isErasure]

theorem saidBefore_eq {before after : List (Event Member Message)}
    (hbefore : ∀ e ∈ before, ¬ e.IsAbout who) :
    saidBefore who (before ++ .inserted who :: after) = (messages before).length := by
  rw [saidBefore,
    List.takeWhile_append_of_pos fun e he => notInsertion_of_notAbout (hbefore e he)]
  simp [isInsertion]

/-- What is heard is a contiguous part of the messages, from the insertion on. -/
theorem blockAt (h : Attendance who history status heard) :
    BlockAt (messages history) (saidBefore who history) heard := by
  cases h with
  | absent => rfl
  | @present before during hhistory hbefore =>
      have hsplit : messages history = messages before ++ (messages during ++ []) := by
        rw [hhistory, messages_append, List.append_nil]
        rfl
      rw [hsplit, hhistory, saidBefore_eq hbefore]
      exact .of_append (messages before) (messages during) []
  | @departed before during after hhistory hbefore =>
      have hsplit : messages history =
          messages before ++ (messages during ++ messages after) := by
        rw [hhistory, messages_append]
        change messages before ++ messages (during ++ _) = _
        rw [messages_append]
        rfl
      rw [hsplit, hhistory, saidBefore_eq hbefore]
      exact .of_append (messages before) (messages during) (messages after)

theorem countP_insertion (h : Attendance who history status heard) :
    history.countP (isInsertion who) = if status = .absent then 0 else 1 := by
  have hzero : ∀ events : List (Event Member Message), (∀ e ∈ events, ¬ e.IsAbout who) →
      events.countP (isInsertion who) = 0 := by
    intro events hevents
    apply List.countP_eq_zero.mpr
    intro e he
    simpa using notInsertion_of_notAbout (hevents e he)
  cases h with
  | absent hnone => exact hzero _ hnone
  | present hhistory hbefore hduring =>
      rw [hhistory, List.countP_append, List.countP_cons, hzero _ hbefore, hzero _ hduring]
      simp [isInsertion]
  | departed hhistory hbefore hduring hafter =>
      rw [hhistory, List.countP_append, List.countP_cons, List.countP_append, List.countP_cons,
        hzero _ hbefore, hzero _ hduring, hzero _ hafter]
      simp [isInsertion]

theorem countP_erasure (h : Attendance who history status heard) :
    history.countP (isErasure who) = if status = .departed then 1 else 0 := by
  have hzero : ∀ events : List (Event Member Message), (∀ e ∈ events, ¬ e.IsAbout who) →
      events.countP (isErasure who) = 0 := by
    intro events hevents
    apply List.countP_eq_zero.mpr
    intro e he
    simpa using notErasure_of_notAbout (hevents e he)
  cases h with
  | absent hnone => exact hzero _ hnone
  | present hhistory hbefore hduring =>
      rw [hhistory, List.countP_append, List.countP_cons, hzero _ hbefore, hzero _ hduring]
      simp [isErasure]
  | departed hhistory hbefore hduring hafter =>
      rw [hhistory, List.countP_append, List.countP_cons, List.countP_append, List.countP_cons,
        hzero _ hbefore, hzero _ hduring, hzero _ hafter]
      simp [isErasure]

end Decidable

end Attendance

end MoreCpp.Library

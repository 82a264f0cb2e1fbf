import MoreCpp.Library.MessageStream
import Mathlib.Data.List.DropRight

/-!
The wire format of the chat, of `runboost/chat_protocol.hpp`: bytes, one line a
message. A client goes through what it receives line by line.
-/

namespace MoreCpp.Chat

open Library

abbrev Bytes := List UInt8

/-- The bytes of a literal. -/
def text (s : String) : Bytes := s.toList.map fun c => c.toNat.toUInt8

def newline : UInt8 := 10

def carriageReturn : UInt8 := 13

def maxLineSize : Nat := 4096

/-- `is_any_of("\r\n")`. -/
def isLineEnd (b : UInt8) : Bool := b = carriageReturn || b = newline

/-- `is_space()`, in the classic locale. -/
def isSpace (b : UInt8) : Bool := b = 32 || (9 ≤ b && b ≤ 13)

def trimWireLine (line : Bytes) : Bytes := line.rdropWhile isLineEnd

def toWireLine (line : Bytes) : Bytes := trimWireLine line ++ [newline]

def serverLine (line : Bytes) : Bytes := toWireLine (text "[server] " ++ line)

/-- `boost::algorithm::trim`. -/
def trim (line : Bytes) : Bytes := (line.rdropWhile isSpace).dropWhile isSpace

/-- What a client makes of the bytes it receives: `getline` and `trim_wire_line`
for each line. -/
def clientLines (received : Bytes) : List Bytes :=
  (lines newline received.length received).map trimWireLine

theorem notMem_trimWireLine {line : Bytes} (h : newline ∉ line) : newline ∉ trimWireLine line :=
  fun hmem => h ((List.rdropWhile_prefix isLineEnd line).subset hmem)

/-- Whatever is trimmed away, a byte that ends no line and what is before it stay. -/
theorem isPrefix_trimWireLine {b : UInt8} (hb : isLineEnd b = false) (before after : Bytes) :
    before ++ [b] <+: trimWireLine (before ++ [b] ++ after) := by
  induction after using List.reverseRecOn with
  | nil =>
      refine ⟨[], ?_⟩
      rw [List.append_nil, trimWireLine,
        List.rdropWhile_concat_neg isLineEnd before b (by simp [hb])]
  | append_singleton after last ih =>
      rw [← List.append_assoc, trimWireLine, List.rdropWhile_concat]
      split
      · exact ih
      · rw [List.append_assoc _ after]
        exact List.prefix_append _ _

theorem notMem_trim {line : Bytes} (h : newline ∉ line) : newline ∉ trim line := fun hmem =>
  h ((List.rdropWhile_prefix isSpace line).subset ((List.dropWhile_suffix isSpace).subset hmem))

theorem framed_toWireLine {line : Bytes} (h : newline ∉ line) : Framed newline (toWireLine line) :=
  .of_body (notMem_trimWireLine h)

theorem framed_serverLine {line : Bytes} (h : newline ∉ line) :
    Framed newline (serverLine line) := by
  apply framed_toWireLine
  intro hmem
  rcases List.mem_append.mp hmem with hlabel | hline
  · exact absurd hlabel (by decide)
  · exact h hline

/-- The newline at the end of a message is trimmed away with the rest. -/
theorem trimWireLine_dropLast {message : Bytes} (h : Framed newline message) :
    trimWireLine message.dropLast = trimWireLine message := by
  obtain ⟨body, -, rfl⟩ := h
  rw [List.dropLast_concat, trimWireLine, trimWireLine,
    List.rdropWhile_concat_pos isLineEnd body newline rfl]

theorem length_le_length_flatten {messages : List Bytes}
    (h : ∀ message ∈ messages, Framed newline message) :
    messages.length ≤ messages.flatten.length := by
  induction messages with
  | nil => exact Nat.le_refl _
  | cons message rest ih =>
      obtain ⟨body, -, rfl⟩ := h message (.head _)
      have hrest := ih fun m hm => h m (.tail _ hm)
      rw [List.flatten_cons, List.length_append, List.length_append, List.length_singleton,
        List.length_cons]
      omega

/-- A client gets one line of each message, in their order. -/
theorem clientLines_flatten {messages : List Bytes}
    (h : ∀ message ∈ messages, Framed newline message) :
    clientLines messages.flatten = messages.map trimWireLine := by
  rw [clientLines, lines_flatten h (length_le_length_flatten h), List.map_map]
  exact List.map_congr_left fun message hmessage => trimWireLine_dropLast (h message hmessage)

end MoreCpp.Chat

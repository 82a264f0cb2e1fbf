import MoreCpp.Strings.CompactString.Model

/-!
What the calls mean: a string is a list of bytes.
-/

namespace MoreCpp.CompactString

open Library

abbrev Spec := StringId → Option Bytes

namespace Spec

/-- Which calls may be made: on strings there are, into one there is not yet, from
a null pointer or as many bytes as are asked for. -/
def Permitted (σ : Spec) : Op → Prop
  | .fromBytes self src len => σ (.object self) = none ∧ ∀ bytes, src = some bytes → len ≤ bytes.length
  | .copy self o | .move self o => σ (.object self) = none ∧ (σ (.object o)).isSome
  | .copyAssign self o | .moveAssign self o => (σ (.object self)).isSome ∧ (σ (.object o)).isSome
  | .concat res self o =>
      σ (.object res) = none ∧ (σ (.object self)).isSome ∧ (σ (.object o)).isSome
  | .substr res self _ _ => σ (.object res) = none ∧ (σ (.object self)).isSome
  | .destroy self => (σ (.object self)).isSome

/-- What a call throws when there is memory enough. -/
def outcome (σ : Spec) : Op → Except Exn Unit
  | .fromBytes _ src len => if 0 < len ∧ src = none then .error .invalidArgument else .ok ()
  | .substr _ self pos count =>
      if pos + count ≤ ((σ (.object self)).getD []).length then .ok () else .error .outOfRange
  | _ => .ok ()

/-- The bytes of the string that a call makes besides those there are. -/
def asked (σ : Spec) : Op → Nat
  | .fromBytes _ _ len => len
  | .copy _ o => ((σ (.object o)).getD []).length
  | .copyAssign self o => if self = o then 0 else ((σ (.object o)).getD []).length
  | .concat _ self o => ((σ (.object self)).getD []).length + ((σ (.object o)).getD []).length
  | .substr _ _ _ count => count
  | .move _ _ | .moveAssign _ _ | .destroy _ => 0

/-- The strings after a call that throws nothing. -/
def apply (σ : Spec) : Op → Spec
  | .fromBytes self src len =>
      Function.update σ (.object self) (some ((src.getD []).take len))
  | .copy self o => Function.update σ (.object self) (σ (.object o))
  | .move self o =>
      Function.update (Function.update σ (.object self) (σ (.object o))) (.object o) (some [])
  | .copyAssign self o => Function.update σ (.object self) (σ (.object o))
  | .moveAssign self o =>
      if self = o then σ
      else Function.update (Function.update σ (.object self) (σ (.object o))) (.object o) (some [])
  | .concat res self o =>
      Function.update σ (.object res)
        (some ((σ (.object self)).getD [] ++ (σ (.object o)).getD []))
  | .substr res self pos count =>
      Function.update σ (.object res) (some ((((σ (.object self)).getD []).drop pos).take count))
  | .destroy self => Function.update σ (.object self) none

/-- The strings after a call that ended in some way. -/
def step (σ : Spec) : Op × Except Exn Unit → Spec
  | (op, .ok ()) => σ.apply op
  | (_, .error _) => σ

/-- The strings after a history, from none at all. -/
def after (labels : List (Op × Except Exn Unit)) : Spec := labels.foldl step fun _ => none

end Spec

end MoreCpp.CompactString

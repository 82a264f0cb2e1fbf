import MoreCpp.Strings.CompactString.Move
import MoreCpp.Strings.CompactString.Spec
import MoreCpp.Library.TransitionSystem

/-!
`CompactString` refines lists of bytes: after any history of permitted calls each
string holds the bytes that the same calls give a list, and each array belongs to
one string until it is freed, once.
-/

namespace MoreCpp.CompactString

open Library

/-- How a call may end: as it should, or for want of memory. -/
def Spec.Ends (σ : Spec) (op : Op) (result : Except Exn Unit) : Prop :=
  result = σ.outcome op ∨
    σ.outcome op = .ok () ∧ result = .error .badAlloc ∧ bufferSize < σ.asked op

/-- The histories of permitted calls. -/
def system (E : Setting) : System Memory (Op × Except Exn Unit) where
  Init m := m = .initial
  Step m label m' :=
    Spec.Permitted m.contents label.1 ∧ m.perform E label.1 = some (label.2, m')

/-- Where the arrays are. -/
structure Accounted (m : Memory) : Prop where
  heapPtr : ∀ s c, m.strings s = some c → (c.heapPtr.isSome ↔ bufferSize < c.length)
  block : ∀ s c b, m.strings s = some c → c.heapPtr = some b →
    ∃ cells, m.heap.blocks b = some cells ∧ cells.length = c.length
  owner : ∀ b, (m.heap.blocks b).isSome → ∃! s, ∃ c, m.strings s = some c ∧ c.heapPtr = some b
  freed : ∀ b, b ∈ m.heap.freed ↔ b < m.heap.made ∧ m.heap.blocks b = none
  freedOnce : m.heap.freed.Nodup
  /-- When the last string is gone, every array was freed once. -/
  ended : (∀ s, m.strings s = none) → m.heap.freed.Perm (List.range m.heap.made)

namespace Spec

variable {σ : Spec} {s : StringId} {bytes : Bytes} {op : Op} {result : Except Exn Unit}

/-- The strings with all their bytes written. -/
def written (σ : Spec) : Contents := Option.map (fun bytes => .cells (bytes.map some)) ∘ σ

theorem written_update (σ : Spec) (s : StringId) (bytes : Option Bytes) :
    written (Function.update σ s bytes) =
      Function.update σ.written s (bytes.map fun bytes => .cells (bytes.map some)) :=
  Function.comp_update ..

theorem written_of_some (hs : σ s = some bytes) :
    σ.written s = some (.cells (bytes.map some)) := by
  rw [written, Function.comp_apply, hs]
  rfl

theorem written_of_none (hs : σ s = none) : σ.written s = none := by
  rw [written, Function.comp_apply, hs]
  rfl

/-- Calls leave no local variable behind. -/
theorem step_temp (htemp : σ .temp = none) (op : Op) (result : Except Exn Unit) :
    σ.step (op, result) .temp = none := by
  have hobject : ∀ {σ : Spec} (n : Nat) (bytes : Option Bytes), σ .temp = none →
      Function.update σ (.object n) bytes .temp = none := fun n _ htemp =>
    (Function.update_of_ne (show StringId.temp ≠ .object n from nofun) ..).trans htemp
  cases result with
  | error => exact htemp
  | ok =>
      cases op with
      | move self o =>
          simp only [step, apply]
          exact hobject o _ (hobject self _ htemp)
      | moveAssign self o =>
          simp only [step, apply]
          split
          · exact htemp
          · exact hobject o _ (hobject self _ htemp)
      | _ =>
          simp only [step, apply]
          exact hobject _ _ htemp

theorem after_concat (labels : List (Op × Except Exn Unit)) (label : Op × Except Exn Unit) :
    after (labels ++ [label]) = (after labels).step label := by
  rw [after, List.foldl_concat]
  rfl

end Spec

namespace Represents

variable {m : Memory} {σ : Spec} {op : Op}

/-- All bytes of a string are written. -/
theorem mapM_written (bytes : Bytes) : (bytes.map some).mapM id = some bytes := by
  induction bytes with
  | nil => rfl
  | cons byte rest ih =>
      rw [List.map_cons, List.mapM_cons, ih]
      rfl

theorem contents_eq (h : Represents m σ.written) : m.contents = σ := by
  funext s
  cases hs : σ s with
  | none =>
      rw [Memory.contents, h.absent (Spec.written_of_none hs)]
      rfl
  | some bytes =>
      have hcells := Spec.written_of_some hs
      obtain ⟨c, hc, hlength⟩ := h.objectCells hcells
      obtain ⟨p, all, hp, hall', -, htake, -⟩ := h.place hcells
      rw [Memory.contents, hc]
      simp only [Option.bind_eq_bind, Option.bind_some, hp, hall']
      rw [hlength, htake]
      exact mapM_written bytes

theorem accounted (h : Represents m σ.written) : Accounted m where
  heapPtr s c hc := by
    have hstored := h.stored s
    rw [hc] at hstored
    cases hs : σ s with
    | none =>
        rw [Spec.written_of_none hs] at hstored
        cases hstored
    | some bytes =>
        rw [Spec.written_of_some hs] at hstored
        exact hstored.heapPtr_isSome_iff
  block s c b hc hb := by
    have hstored := h.stored s
    rw [hc] at hstored
    exact hstored.block hb
  owner b hb := by
    obtain ⟨s, c, hc, hown⟩ := h.owned b hb
    exact ⟨s, ⟨c, hc, hown⟩, fun s' ⟨c', hc', hown'⟩ => h.unique s' s c' c b hc' hc hown' hown⟩
  freed b := by
    have hout := h.balanced.outstanding b
    constructor
    · intro hmem
      have hnone : ¬ (m.heap.blocks b).isSome := fun hsome => (hout.mp hsome).2 hmem
      exact ⟨h.balanced.old b hmem, Option.not_isSome_iff_eq_none.mp hnone⟩
    · rintro ⟨hlt, hnone⟩
      by_contra hmem
      have hsome := hout.mpr ⟨hlt, hmem⟩
      rw [hnone] at hsome
      cases hsome
  freedOnce := h.balanced.nodup
  ended hnone := by
    apply h.balanced.freed_perm
    intro b
    rw [← Option.not_isSome_iff_eq_none]
    intro hsome
    obtain ⟨s, c, hc, -⟩ := h.owned b hsome
    cases (hnone s).symm.trans hc

end Represents

/-- A call ends in a permitted way and leaves what the specification says. -/
def Performs (σ : Spec) (op : Op) (call : Option Result) : Prop :=
  ∃ result m', call = some (result, m') ∧ σ.Ends op result ∧
    Represents m' (σ.step (op, result)).written

theorem Leaves.performs {σ : Spec} {op : Op} {n : Nat} {bytes : Bytes} {call : Option Result}
    (h : Leaves σ.written (.object n) (bytes.map some) call) (houtcome : σ.outcome op = .ok ())
    (happly : σ.apply op = Function.update σ (.object n) (some bytes))
    (hasked : bytes.length ≤ σ.asked op) : Performs σ op call := by
  rcases h with ⟨m', hcall, hlarge, hrep⟩ | ⟨m', hcall, hrep⟩
  · rw [List.length_map] at hlarge
    exact ⟨_, m', hcall, .inr ⟨houtcome, rfl, Nat.lt_of_lt_of_le hlarge hasked⟩, hrep⟩
  · refine ⟨_, m', hcall, .inl houtcome.symm, ?_⟩
    rwa [Spec.step, happly, Spec.written_update]

namespace Represents

variable {m : Memory} {σ : Spec} {op : Op}

/-- A call that makes no array. -/
theorem performs {m' : Memory} {call : Option Memory} (hcall : call = some m')
    (houtcome : σ.outcome op = .ok ()) (hrep : Represents m' (σ.apply op).written) :
    Performs σ op (call.map (.ok (), ·)) :=
  ⟨_, m', by rw [hcall]; rfl, .inl houtcome.symm, hrep⟩

theorem perform_fromBytes (h : Represents m σ.written) (E : Setting) {self len : Nat}
    {src : Option Bytes} (hself : σ (.object self) = none)
    (hsrc : ∀ bytes, src = some bytes → len ≤ bytes.length) :
    Performs σ (.fromBytes self src len) (m.perform E (.fromBytes self src len)) := by
  by_cases hguard : 0 < len ∧ src = none
  · refine ⟨_, m, if_pos hguard, .inl ?_, h⟩
    rw [Spec.outcome, if_pos hguard]
  · have hfrom : len ≤ (src.getD []).length := by
      cases src with
      | none =>
          have hlen : ¬ 0 < len := fun hpos => hguard ⟨hpos, rfl⟩
          omega
      | some bytes => exact hsrc bytes rfl
    apply (h.fromBytes E (Spec.written_of_none hself) src hfrom).performs
    · rw [Spec.outcome, if_neg hguard]
    · rfl
    · exact List.length_take_le ..

theorem perform_copy (h : Represents m σ.written) (E : Setting) {self o : Nat} {bytes : Bytes}
    (hself : σ (.object self) = none) (ho : σ (.object o) = some bytes) :
    Performs σ (.copy self o) (m.perform E (.copy self o)) := by
  apply (h.copy E (Spec.written_of_none hself) (Spec.written_of_some ho)).performs rfl
  · rw [Spec.apply, ho]
  · rw [Spec.asked, ho]
    exact Nat.le_refl _

theorem perform_move (h : Represents m σ.written) (E : Setting) {self o : Nat} {bytes : Bytes}
    (hself : σ (.object self) = none) (ho : σ (.object o) = some bytes) :
    Performs σ (.move self o) (m.perform E (.move self o)) := by
  obtain ⟨m', hm', hrep⟩ := h.move (Spec.written_of_none hself) (Spec.written_of_some ho)
  apply performs hm' rfl
  rw [Spec.apply, ho, Spec.written_update, Spec.written_update]
  exact hrep

theorem perform_copyAssign (h : Represents m σ.written) (E : Setting) (htemp : σ .temp = none)
    {self o : Nat} {old bytes : Bytes}
    (hself : σ (.object self) = some old) (ho : σ (.object o) = some bytes) :
    Performs σ (.copyAssign self o) (m.perform E (.copyAssign self o)) := by
  by_cases heq : self = o
  · cases heq
    refine ⟨_, m, if_pos rfl, .inl rfl, ?_⟩
    rw [Spec.step, Spec.apply, Function.update_eq_self]
    exact h
  · have hne : StringId.object self ≠ .object o := fun h => heq (StringId.object.inj h)
    apply (h.copyAssign E hne (Spec.written_of_none htemp) (Spec.written_of_some hself)
      (Spec.written_of_some ho)).performs rfl
    · rw [Spec.apply, ho]
    · rw [Spec.asked, if_neg heq, ho]
      exact Nat.le_refl _

theorem perform_moveAssign (h : Represents m σ.written) (E : Setting) {self o : Nat}
    {old bytes : Bytes} (hself : σ (.object self) = some old) (ho : σ (.object o) = some bytes) :
    Performs σ (.moveAssign self o) (m.perform E (.moveAssign self o)) := by
  by_cases heq : self = o
  · cases heq
    apply performs (if_pos rfl) rfl
    rw [Spec.apply, if_pos rfl]
    exact h
  · have hne : StringId.object self ≠ .object o := fun h => heq (StringId.object.inj h)
    obtain ⟨m', hm', hrep⟩ := h.moveAssign hne (Spec.written_of_some hself)
      (Spec.written_of_some ho)
    apply performs hm' rfl
    rw [Spec.apply, if_neg heq, ho, Spec.written_update, Spec.written_update]
    exact hrep

theorem perform_concat (h : Represents m σ.written) (E : Setting) (htemp : σ .temp = none)
    {res self o : Nat} {bytes bytes' : Bytes}
    (hres : σ (.object res) = none) (hself : σ (.object self) = some bytes)
    (ho : σ (.object o) = some bytes') :
    Performs σ (.concat res self o) (m.perform E (.concat res self o)) := by
  have hmake : ∀ s, σ.written s = none → Leaves σ.written s ((bytes ++ bytes').map some)
      (m.concat E s (.object self) (.object o)) := by
    intro s hs
    rw [List.map_append]
    exact h.concat E hs (Spec.written_of_some hself) (Spec.written_of_some ho)
  have hleaves := returned (Spec.written_of_none hres) (Spec.written_of_none htemp) nofun
    hmake (E.elides (.concat res self o))
  apply hleaves.performs rfl
  · rw [Spec.apply, hself, ho]
    rfl
  · rw [Spec.asked, hself, ho, List.length_append]
    exact Nat.le_refl _

theorem perform_substr (h : Represents m σ.written) (E : Setting) (htemp : σ .temp = none)
    {res self pos count : Nat} {bytes : Bytes}
    (hres : σ (.object res) = none) (hself : σ (.object self) = some bytes) :
    Performs σ (.substr res self pos count) (m.perform E (.substr res self pos count)) := by
  have hwritten := Spec.written_of_some hself
  by_cases hfits : pos + count ≤ bytes.length
  · have hmake : ∀ s, σ.written s = none →
        Leaves σ.written s (((bytes.drop pos).take count).map some)
          (m.substr E s (.object self) pos count) := by
      intro s hs
      rw [List.map_take, List.map_drop]
      exact h.substr E hs hwritten (by rwa [List.length_map])
    have hleaves := returned (Spec.written_of_none hres) (Spec.written_of_none htemp) nofun
      hmake (E.elides (.substr res self pos count))
    apply hleaves.performs
    · rw [Spec.outcome, hself]
      exact if_pos hfits
    · rw [Spec.apply, hself]
      rfl
    · exact List.length_take_le ..
  · have hthrows : ∀ s, m.substr E s (.object self) pos count =
        some (.error .outOfRange, m) := fun s =>
      h.substr_outOfRange E hwritten (by rwa [List.length_map])
    have houtcome : Spec.outcome σ (.substr res self pos count) = .error .outOfRange := by
      rw [Spec.outcome, hself]
      exact if_neg hfits
    exact ⟨_, m, Memory.returned_error hthrows _ _, .inl houtcome.symm, h⟩

theorem perform_destroy (h : Represents m σ.written) (E : Setting) {self : Nat} {old : Bytes}
    (hself : σ (.object self) = some old) :
    Performs σ (.destroy self) (m.perform E (.destroy self)) := by
  obtain ⟨m', hm', hrep⟩ := h.destroy (Spec.written_of_some hself)
  apply performs hm' rfl
  rw [Spec.apply, Spec.written_update]
  exact hrep

theorem perform (h : Represents m σ.written) (E : Setting) (htemp : σ .temp = none)
    (hpermitted : σ.Permitted op) :
    Performs σ op (m.perform E op) := by
  cases op with
  | fromBytes self src len => exact h.perform_fromBytes E hpermitted.1 hpermitted.2
  | copy self o =>
      obtain ⟨bytes, ho⟩ := Option.isSome_iff_exists.mp hpermitted.2
      exact h.perform_copy E hpermitted.1 ho
  | move self o =>
      obtain ⟨bytes, ho⟩ := Option.isSome_iff_exists.mp hpermitted.2
      exact h.perform_move E hpermitted.1 ho
  | copyAssign self o =>
      obtain ⟨old, hself⟩ := Option.isSome_iff_exists.mp hpermitted.1
      obtain ⟨bytes, ho⟩ := Option.isSome_iff_exists.mp hpermitted.2
      exact h.perform_copyAssign E htemp hself ho
  | moveAssign self o =>
      obtain ⟨old, hself⟩ := Option.isSome_iff_exists.mp hpermitted.1
      obtain ⟨bytes, ho⟩ := Option.isSome_iff_exists.mp hpermitted.2
      exact h.perform_moveAssign E hself ho
  | concat res self o =>
      obtain ⟨hres, hself, ho⟩ := hpermitted
      obtain ⟨bytes, hself⟩ := Option.isSome_iff_exists.mp hself
      obtain ⟨bytes', ho⟩ := Option.isSome_iff_exists.mp ho
      exact h.perform_concat E htemp hres hself ho
  | substr res self pos count =>
      obtain ⟨bytes, hself⟩ := Option.isSome_iff_exists.mp hpermitted.2
      exact h.perform_substr E htemp hpermitted.1 hself
  | destroy self =>
      obtain ⟨old, hself⟩ := Option.isSome_iff_exists.mp hpermitted
      exact h.perform_destroy E hself

end Represents

theorem represents_after {E : Setting} {labels : List (Op × Except Exn Unit)} {m : Memory}
    (hrun : (system E).Run .initial labels m) :
    Represents m (Spec.after labels).written ∧ Spec.after labels .temp = none := by
  induction hrun with
  | refl => exact ⟨.initial, rfl⟩
  | snoc _ hlast ih =>
      rename_i labels m label m' _
      obtain ⟨op, result⟩ := label
      obtain ⟨hrep, htemp⟩ := ih
      obtain ⟨hpermitted, hperform⟩ := hlast
      rw [hrep.contents_eq] at hpermitted
      obtain ⟨result', m'', hperform', -, hrep'⟩ := hrep.perform E htemp hpermitted
      cases hperform.symm.trans hperform'
      rw [Spec.after_concat]
      exact ⟨hrep', Spec.step_temp htemp op result⟩

/-- A call that asks for no array ends as it should. -/
theorem exists_run {E : Setting} {labels : List (Op × Except Exn Unit)} {m : Memory}
    (hrun : (system E).Run .initial labels m) (op : Op)
    (hpermitted : (Spec.after labels).Permitted op)
    (hasked : (Spec.after labels).asked op ≤ bufferSize) :
    ∃ m', (system E).Run .initial (labels ++ [(op, (Spec.after labels).outcome op)]) m' := by
  obtain ⟨hrep, htemp⟩ := represents_after hrun
  obtain ⟨result, m', hperform, hends, -⟩ := hrep.perform E htemp hpermitted
  rcases hends with rfl | ⟨-, -, hlarge⟩
  · rw [← hrep.contents_eq] at hpermitted
    exact ⟨m', .snoc hrun ⟨hpermitted, hperform⟩⟩
  · omega

/-- A setting with memory enough. -/
def roomy : Setting where
  fails _ n := decide (2 ^ 63 ≤ n)
  fails_of_large _ _ h := decide_eq_true h
  elides _ := true

end MoreCpp.CompactString

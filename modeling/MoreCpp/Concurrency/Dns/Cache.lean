import MoreCpp.Library.Monitor
import Mathlib.Data.List.Infix
import Std.Data.TreeMap.Lemmas

/-!
The `dns_cache` of `concurrency/dns.cpp`: a map behind a shared mutex, which
`find_entry` and `snapshot` hold together and `update_or_add_entry` holds alone.
Domains compare by their bytes, which for UTF-8 is the order of their characters.

Memory may run out at each step that makes something. Then an update that was about
to assign to a new entry leaves this one behind as `operator[]` made it.
-/

namespace MoreCpp.Dns

open Library
open Std (TreeMap)

structure DnsEntry where
  ipAddress : String
  ttlSeconds : Int
  deriving DecidableEq

/-- A `dns_entry` that `operator[]` of the map makes. -/
def DnsEntry.fresh : DnsEntry := ⟨"", 0⟩

abbrev Entries := TreeMap String DnsEntry

inductive Call where
  | find (domain : String)
  | update (domain : String) (details : DnsEntry)
  | snapshot
  deriving DecidableEq

inductive Res where
  | found (result : Option DnsEntry)
  | updated
  | taken (entries : List (String × DnsEntry))
  /-- `std::bad_alloc`. -/
  | failed
  deriving DecidableEq

/-- Program points under the lock. -/
inductive Local where
  /-- `entries.find(domain)` and the test for the end. -/
  | findTest (domain : String)
  /-- `return it->second`. -/
  | findCopy (domain : String)
  /-- `entries[domain]`. -/
  | updateInsert (domain : String) (details : DnsEntry)
  /-- The assignment to the entry of `domain`. -/
  | updateAssign (domain : String) (details : DnsEntry)
  /-- The vector is built, entry by entry. -/
  | snapshotCopy (copied : List (String × DnsEntry))
  | returning (res : Res)

def Call.shares : Call → Bool
  | .find _ | .snapshot => true
  | .update _ _ => false

def Call.enter : Call → Local
  | .find domain => .findTest domain
  | .update domain details => .updateInsert domain details
  | .snapshot => .snapshotCopy []

def Local.result : Local → Option Res
  | .returning res => some res
  | _ => none

inductive Step : Entries → Local → Entries → Local → Prop where
  | findEnd {entries domain} (hend : entries[domain]? = none) :
      Step entries (.findTest domain) entries (.returning (.found none))
  | findAt {entries domain entry} (hat : entries[domain]? = some entry) :
      Step entries (.findTest domain) entries (.findCopy domain)
  | findCopy {entries domain entry} (hat : entries[domain]? = some entry) :
      Step entries (.findCopy domain) entries (.returning (.found (some entry)))
  | findFails {entries domain} : Step entries (.findCopy domain) entries (.returning .failed)
  /-- `operator[]` makes an entry only where there is none. -/
  | updateInsert {entries domain details} :
      Step entries (.updateInsert domain details) (entries.insertIfNew domain .fresh)
        (.updateAssign domain details)
  | insertFails {entries domain details} :
      Step entries (.updateInsert domain details) entries (.returning .failed)
  | updateAssign {entries domain details} :
      Step entries (.updateAssign domain details) (entries.insert domain details)
        (.returning .updated)
  /-- The copy of the address comes first, so nothing is assigned. -/
  | assignFails {entries domain details} :
      Step entries (.updateAssign domain details) entries (.returning .failed)
  | snapshotNext {entries copied entry} (hnext : entries.toList[copied.length]? = some entry) :
      Step entries (.snapshotCopy copied) entries (.snapshotCopy (copied ++ [entry]))
  | snapshotEnd {entries copied} (hend : entries.toList[copied.length]? = none) :
      Step entries (.snapshotCopy copied) entries (.returning (.taken copied))
  | snapshotFails {entries copied} :
      Step entries (.snapshotCopy copied) entries (.returning .failed)

def cache : Monitor Entries Local Call Res where
  initial := ∅
  shares := Call.shares
  enter := Call.enter
  Step := Step
  result := Local.result

/-! ## The map it is -/

/-- The entries of `m`, by domain. -/
structure Lists (m : String → Option DnsEntry) (entries : List (String × DnsEntry)) : Prop where
  sorted : entries.Pairwise fun a b => compare a.1 b.1 = .lt
  mem_iff : ∀ domain entry, (domain, entry) ∈ entries ↔ m domain = some entry

inductive Spec.Step : (String → Option DnsEntry) → Call × Res → (String → Option DnsEntry) →
    Prop where
  | find {m domain} : Step m (.find domain, .found (m domain)) m
  | update {m domain details} :
      Step m (.update domain details, .updated) (Function.update m domain (some details))
  | snapshot {m entries} (hlists : Lists m entries) : Step m (.snapshot, .taken entries) m
  | fails {m call} : Step m (call, .failed) m
  /-- A domain that was not there has an entry without an address now. -/
  | updateFails {m domain details} (hnew : m domain = none) :
      Step m (.update domain details, .failed) (Function.update m domain (some .fresh))

variable {Tid : Type*}

/-- The calls, oldest first, take an empty map to `m`. -/
inductive History : List (Tid × Call × Res) → (String → Option DnsEntry) → Prop where
  | new : History [] fun _ => none
  | snoc {log m t event m'} : History log m → Spec.Step m event m' →
      History (log ++ [(t, event)]) m'

/-- The entry that a call gives `domain`. -/
def given (domain : String) : Tid × Call × Res → Option DnsEntry
  | (_, .update updated details, .updated) => if updated = domain then some details else none
  | _ => none

/-- The last entry that the calls give `domain`. -/
def cached (domain : String) (log : List (Tid × Call × Res)) : Option DnsEntry :=
  (log.filterMap (given domain)).getLast?

/-- No update of `domain` fails. -/
def Unfailing (domain : String) (log : List (Tid × Call × Res)) : Prop :=
  ∀ t details, (t, Call.update domain details, Res.failed) ∉ log

theorem cached_concat (domain : String) (log : List (Tid × Call × Res))
    (event : Tid × Call × Res) :
    cached domain (log ++ [event]) = (given domain event).or (cached domain log) := by
  unfold cached
  rw [List.filterMap_append, List.getLast?_append]
  cases hgiven : given domain event <;> simp [hgiven]

theorem Unfailing.of_isPrefix {domain : String} {log log' : List (Tid × Call × Res)}
    (h : Unfailing domain log) (hearlier : log' <+: log) : Unfailing domain log' :=
  fun t details hmem => h t details (hearlier.subset hmem)

theorem History.cached_eq {log : List (Tid × Call × Res)} {m : String → Option DnsEntry}
    (h : History log m) {domain : String} (hok : Unfailing domain log) :
    m domain = cached domain log := by
  induction h with
  | new => rfl
  | @snoc log m t event m' _ hstep ih =>
      have hbefore := ih (hok.of_isPrefix (List.prefix_append _ _))
      rw [cached_concat]
      cases hstep with
      | find | snapshot => simpa [given] using hbefore
      | fails => simpa [given] using hbefore
      | @update updated details =>
          rcases eq_or_ne updated domain with rfl | hne
          · simp [given]
          · simpa [given, hne, Function.update_of_ne (Ne.symm hne)] using hbefore
      | @updateFails updated details hnew =>
          have hne : updated ≠ domain := by
            rintro rfl
            exact hok t details (by simp)
          simpa [given, Function.update_of_ne (Ne.symm hne)] using hbefore

/-- Each call is one of a map, which the calls before it left. -/
theorem History.step_at {log : List (Tid × Call × Res)} {m : String → Option DnsEntry}
    (h : History log m) : ∀ {before after : List (Tid × Call × Res)} {t : Tid} {event : Call × Res},
      log = before ++ (t, event) :: after →
        ∃ m₀ m₁, History before m₀ ∧ Spec.Step m₀ event m₁ := by
  induction h with
  | new => simp
  | @snoc log m u event' m' hlog hstep ih =>
      intro before after t event heq
      rcases List.eq_nil_or_concat' after with rfl | ⟨after, last, rfl⟩
      · obtain ⟨rfl, hlast⟩ := List.append_inj' heq rfl
        cases hlast
        exact ⟨m, m', hlog, hstep⟩
      · rw [← List.cons_append, ← List.append_assoc] at heq
        exact ih (List.append_inj' heq rfl).1

/-! ## What a call comes to -/

/-- `entries` hold what `m` says. -/
def Holds (entries : Entries) (m : String → Option DnsEntry) : Prop :=
  ∀ domain : String, entries[domain]? = m domain

theorem Holds.lists {entries : Entries} {m : String → Option DnsEntry} (h : Holds entries m) :
    Lists m entries.toList where
  sorted := TreeMap.ordered_keys_toList
  mem_iff domain entry := by rw [TreeMap.mem_toList_iff_getElem?_eq_some, h domain]

theorem Holds.insertIfNew {entries : Entries} {m : String → Option DnsEntry} (h : Holds entries m)
    {domain : String} (hnew : m domain = none) (entry : DnsEntry) :
    Holds (entries.insertIfNew domain entry) (Function.update m domain (some entry)) := by
  intro other
  have hnotMem : domain ∉ entries := by
    rw [TreeMap.mem_iff_isSome_getElem?, h domain, hnew]
    simp
  simp only [TreeMap.getElem?_insertIfNew, Std.compare_eq_iff_eq, h other]
  rcases eq_or_ne domain other with rfl | hne
  · rw [if_pos ⟨rfl, hnotMem⟩, Function.update_self]
  · rw [if_neg fun hand => hne hand.1, Function.update_of_ne (Ne.symm hne)]

theorem Holds.insertIfNew_of_some {entries : Entries} {m : String → Option DnsEntry}
    (h : Holds entries m) {domain : String} (hsome : (m domain).isSome) (entry : DnsEntry) :
    Holds (entries.insertIfNew domain entry) m := by
  intro other
  have hmem : domain ∈ entries := by rwa [TreeMap.mem_iff_isSome_getElem?, h domain]
  rw [TreeMap.getElem?_insertIfNew, if_neg fun hand => hand.2 hmem, h other]

theorem Holds.insert {entries : Entries} {m : String → Option DnsEntry} (h : Holds entries m)
    (domain : String) (entry : DnsEntry) :
    Holds (entries.insert domain entry) (Function.update m domain (some entry)) := by
  intro other
  simp only [TreeMap.getElem?_insert, Std.compare_eq_iff_eq, h other]
  rcases eq_or_ne domain other with rfl | hne
  · rw [if_pos rfl, Function.update_self]
  · rw [if_neg hne, Function.update_of_ne (Ne.symm hne)]

/-- Where a call is that found `m`, and what it has made of the entries. -/
def Reached (call : Call) (m : String → Option DnsEntry) (entries : Entries) : Local → Prop
  | .findTest domain => call = .find domain ∧ Holds entries m
  | .findCopy domain => call = .find domain ∧ (m domain).isSome ∧ Holds entries m
  | .updateInsert domain details => call = .update domain details ∧ Holds entries m
  | .updateAssign domain details => call = .update domain details ∧
      ∃ m', Holds entries m' ∧ ((m domain).isSome ∧ m' = m ∨
        m domain = none ∧ m' = Function.update m domain (some .fresh))
  | .snapshotCopy copied => call = .snapshot ∧ Holds entries m ∧ copied <+: entries.toList
  | .returning res => ∃ m', Spec.Step m (call, res) m' ∧ Holds entries m'

variable {call : Call} {m : String → Option DnsEntry} {entries entries' : Entries} {l l' : Local}

theorem Reached.enter (h : Holds entries m) (call : Call) :
    Reached call m entries call.enter := by
  cases call with
  | find domain => exact ⟨rfl, h⟩
  | update domain details => exact ⟨rfl, h⟩
  | snapshot => exact ⟨rfl, h, List.nil_prefix⟩

theorem Reached.step (h : Reached call m entries l) (hstep : Step entries l entries' l') :
    Reached call m entries' l' := by
  cases hstep with
  | findEnd hend =>
      obtain ⟨rfl, hholds⟩ := h
      rw [← hend, hholds]
      exact ⟨m, .find, hholds⟩
  | findAt hat =>
      obtain ⟨rfl, hholds⟩ := h
      exact ⟨rfl, by rw [← hholds, hat]; rfl, hholds⟩
  | findCopy hat =>
      obtain ⟨rfl, -, hholds⟩ := h
      rw [← hat, hholds]
      exact ⟨m, .find, hholds⟩
  | findFails =>
      obtain ⟨rfl, -, hholds⟩ := h
      exact ⟨m, .fails, hholds⟩
  | @updateInsert domain details =>
      obtain ⟨rfl, hholds⟩ := h
      refine ⟨rfl, ?_⟩
      cases hm : m domain with
      | none => exact ⟨_, hholds.insertIfNew hm .fresh, .inr ⟨rfl, rfl⟩⟩
      | some entry =>
          exact ⟨m, hholds.insertIfNew_of_some (by rw [hm]; rfl) .fresh, .inl ⟨rfl, rfl⟩⟩
  | insertFails =>
      obtain ⟨rfl, hholds⟩ := h
      exact ⟨m, .fails, hholds⟩
  | @updateAssign domain details =>
      obtain ⟨rfl, m', hholds, ⟨-, rfl⟩ | ⟨-, rfl⟩⟩ := h
      · exact ⟨_, .update, hholds.insert domain details⟩
      · have hinsert := hholds.insert domain details
        rw [Function.update_idem] at hinsert
        exact ⟨_, .update, hinsert⟩
  | assignFails =>
      obtain ⟨rfl, m', hholds, ⟨-, rfl⟩ | ⟨hnew, rfl⟩⟩ := h
      · exact ⟨_, .fails, hholds⟩
      · exact ⟨_, .updateFails hnew, hholds⟩
  | @snapshotNext copied entry hnext =>
      obtain ⟨rfl, hholds, hearlier⟩ := h
      refine ⟨rfl, hholds, ?_⟩
      obtain ⟨rest, hrest⟩ := hearlier
      rw [← hrest] at hnext ⊢
      obtain ⟨rest, rfl⟩ : ∃ rest', rest = entry :: rest' := by
        cases rest with
        | nil => simp at hnext
        | cons first rest =>
            simp only [List.getElem?_append_right (Nat.le_refl _), Nat.sub_self,
              List.getElem?_cons_zero, Option.some.injEq] at hnext
            exact ⟨rest, by rw [hnext]⟩
      exact ⟨rest, by rw [List.append_assoc, List.singleton_append]⟩
  | @snapshotEnd copied hend =>
      obtain ⟨rfl, hholds, hearlier⟩ := h
      have hall : copied = entries.toList :=
        hearlier.eq_of_length_le (List.getElem?_eq_none_iff.mp hend)
      rw [hall]
      exact ⟨m, .snapshot hholds.lists, hholds⟩
  | snapshotFails =>
      obtain ⟨rfl, hholds, -⟩ := h
      exact ⟨m, .fails, hholds⟩

theorem reached_of_body (hholds : Holds entries m) (h : cache.Body call entries entries' l) :
    Reached call m entries' l := by
  induction h with
  | enter => exact .enter hholds call
  | step _ hstep ih => exact ih.step hstep

theorem Reached.live (h : Reached call m entries l) :
    l.result.isSome = true ∨ ∃ entries' l', Step entries l entries' l' := by
  cases l with
  | findTest domain =>
      cases hat : entries[domain]? with
      | none => exact .inr ⟨_, _, .findEnd hat⟩
      | some entry => exact .inr ⟨_, _, .findAt hat⟩
  | findCopy domain =>
      obtain ⟨-, hsome, hholds⟩ := h
      obtain ⟨entry, hentry⟩ := Option.isSome_iff_exists.mp hsome
      exact .inr ⟨_, _, .findCopy ((hholds domain).trans hentry)⟩
  | updateInsert domain details => exact .inr ⟨_, _, .updateInsert⟩
  | updateAssign domain details => exact .inr ⟨_, _, .updateAssign⟩
  | snapshotCopy copied =>
      cases hnext : entries.toList[copied.length]? with
      | none => exact .inr ⟨_, _, .snapshotEnd hnext⟩
      | some entry => exact .inr ⟨_, _, .snapshotNext hnext⟩
  | returning res => exact .inl rfl

theorem spec_of_runs (hholds : Holds entries m) {res : Res}
    (h : cache.Runs call entries entries' res) :
    ∃ m', Spec.Step m (call, res) m' ∧ Holds entries' m' := by
  obtain ⟨l, hbody, hresult⟩ := h
  have hreached := reached_of_body hholds hbody
  cases l with
  | returning res' =>
      cases hresult
      exact hreached
  | _ => cases hresult

/-- Where calls stand that share the lock. -/
def Local.Reading : Local → Prop
  | .updateInsert _ _ | .updateAssign _ _ => False
  | _ => True

theorem reading_of_body (hshares : call.shares = true) (h : cache.Body call entries entries' l) :
    l.Reading := by
  induction h with
  | enter => cases call <;> trivial
  | step _ hstep ih =>
      cases hstep <;> trivial

theorem cache_reading : cache.SharesReading := by
  intro call entries l entries' l' hshares hbody hstep
  have hreading := reading_of_body hshares hbody
  cases hstep with
  | updateInsert | updateAssign => exact hreading.elim
  | _ => rfl

section Threads

variable [DecidableEq Tid]

/-- Any number of threads that make any calls on a new cache. -/
abbrev system (Tid : Type*) [DecidableEq Tid] :
    System (Monitor.State Tid Unit Entries Local Call Res) Tid :=
  cache.system (Clients.anyCalls Tid Call Res)

/-- The calls of the log, made at once, leave the entries. -/
def Logged (x : Monitor.Moment Tid Unit Entries Call Res) : Prop :=
  ∃ m, Holds x.data m ∧ History x.log m

theorem logged_of_reachable {s : Monitor.State Tid Unit Entries Local Call Res}
    (hs : (system Tid).Reachable s) :
    ∃ base m, Monitor.Reduces cache (Clients.anyCalls Tid Call Res) s base ∧ Holds base m ∧
      History s.log m := by
  have hinit : Logged (⟨∅, fun _ => (), []⟩ : Monitor.Moment Tid Unit Entries Call Res) :=
    ⟨fun _ => none, fun _ => TreeMap.getElem?_emptyc, .new⟩
  obtain ⟨base, h, m, hholds, hlog⟩ := Monitor.invariant cache_reading Clients.anyCalls_stable
    Logged hinit (fun x event x' hx hstep => by
      obtain ⟨m, hholds, hlog⟩ := hx
      cases hstep with
      | call _ hruns _ =>
          obtain ⟨m', hspec, hholds'⟩ := spec_of_runs hholds hruns
          exact ⟨m', hholds', hlog.snoc hspec⟩) hs
  exact ⟨base, m, h, hholds, hlog⟩

/-- For any number of threads and any calls: taken in the order in which they release the
lock, the calls are those of a map, which the entries are whenever no update holds the
lock. So a search finds the last entry that an update gave the domain, and a snapshot
lists all of them by domain, unless an update of the domain failed before. An update is
alone under the lock, and whoever is under it can go on. -/
theorem cache_linearizable (s : Monitor.State Tid Unit Entries Local Call Res)
    (hs : (system Tid).Reachable s) :
    (∃ m, History s.log m ∧
      ((∀ t domain details l, s.pc t ≠ .inside (.update domain details) l) →
        Holds s.data m)) ∧
    (∀ before t domain result after,
      s.log = before ++ (t, Call.find domain, Res.found result) :: after →
        Unfailing domain before → result = cached domain before) ∧
    (∀ before t entries after, s.log = before ++ (t, Call.snapshot, Res.taken entries) :: after →
      (∀ domain, Unfailing domain before) → Lists (fun domain => cached domain before) entries) ∧
    (∀ t u domain details l call l', s.pc t = .inside (.update domain details) l →
      s.pc u = .inside call l' → u = t) ∧
    ∀ t call l, s.pc t = .inside call l →
      ∃ s', Monitor.ThreadStep cache (Clients.anyCalls Tid Call Res) s t s' := by
  obtain ⟨base, m, h, hholds, hlog⟩ := logged_of_reachable hs
  refine ⟨⟨m, hlog, fun hupdates => ?_⟩, ?_, ?_, ?_, ?_⟩
  · have hdata : s.data = base := h.unchanged fun t call l hpc => by
      cases call with
      | find | snapshot => rfl
      | update domain details => exact absurd hpc (hupdates t domain details l)
    rw [hdata]
    exact hholds
  · intro before t domain result after heq hok
    obtain ⟨m₀, m₁, hbefore, hstep⟩ := hlog.step_at heq
    cases hstep
    exact hbefore.cached_eq hok
  · intro before t entries after heq hok
    obtain ⟨m₀, m₁, hbefore, hstep⟩ := hlog.step_at heq
    cases hstep with
    | snapshot hlists =>
        refine ⟨hlists.sorted, fun domain entry => ?_⟩
        rw [hlists.mem_iff, hbefore.cached_eq (hok domain)]
  · exact fun t u domain details l call l' ht hu => h.alone ht rfl hu
  · intro t call l hpc
    obtain hresult | ⟨entries, l', hstep⟩ := (reached_of_body hholds (h.body t call l hpc)).live
    · obtain ⟨res, hresult⟩ := Option.isSome_iff_exists.mp hresult
      exact ⟨_, .release hpc hresult rfl⟩
    · exact ⟨_, .body hpc hstep⟩

/-- One thread updates a domain, and then two threads look it up together. -/
theorem cache_linearizable_shared : ∃ s : Monitor.State Bool Unit Entries Local Call Res,
    s.log = [(true, .update "a" ⟨"1", 2⟩, .updated), (true, .find "a", .found (some ⟨"1", 2⟩))] ∧
      s.pc false = .inside (.find "a") (.findCopy "a") ∧
      some ⟨"1", 2⟩ = cached "a" [(true, .update "a" ⟨"1", 2⟩, .updated)] := by
  have start : (system Bool).Reachable _ := .start rfl
  have called := start.next (.call (t := true) (a := .update "a" ⟨"1", 2⟩) rfl trivial)
  have entered := called.next (.acquire (t := true) rfl (by simp))
  have inserted := entered.next (.body (t := true) rfl .updateInsert)
  have assigned := inserted.next (.body (t := true) rfl .updateAssign)
  have updated := assigned.next (.release (t := true) rfl rfl rfl)
  have asked := updated.next (.call (t := true) (a := .find "a") rfl trivial)
  have asked' := asked.next (.call (t := false) (a := .find "a") rfl trivial)
  have reading := asked'.next (.acquire (t := true) rfl (by simp))
  have reading' := reading.next (.acquire (t := false) rfl fun u other l hu => by
    cases u with
    | false => cases hu
    | true =>
        cases hu
        exact ⟨rfl, rfl⟩)
  have found := reading'.next (.body (t := true) rfl (.findAt (show _ = some ⟨"1", 2⟩ by decide)))
  have found' := found.next (.body (t := false) rfl (.findAt (show _ = some ⟨"1", 2⟩ by decide)))
  have copied := found'.next (.body (t := true) rfl (.findCopy (show _ = some ⟨"1", 2⟩ by decide)))
  have returned := copied.next (.release (t := true) rfl rfl rfl)
  have ended : ∃ s, (system Bool).Reachable s ∧
      s.log = [(true, .update "a" ⟨"1", 2⟩, .updated), (true, .find "a", .found (some ⟨"1", 2⟩))] ∧
        s.pc false = .inside (.find "a") (.findCopy "a") := ⟨_, returned, rfl, rfl⟩
  obtain ⟨s, hs, hlog, hpc⟩ := ended
  exact ⟨s, hlog, hpc, (cache_linearizable s hs).2.1 [(true, .update "a" ⟨"1", 2⟩, .updated)] true
    "a" (some ⟨"1", 2⟩) [] hlog (by simp [Unfailing])⟩

end Threads

end MoreCpp.Dns

import MoreCpp.Concurrency.LookupTable.Model
import MoreCpp.Library.Rearrangements

/-!
The table is a finite map: a lookup returns what the calls that took their locks
before it left at the key, and a key is in one entry of its bucket at most.
-/

namespace MoreCpp.LookupTable

open Library

variable {Key Value : Type*} [DecidableEq Key]

/-- What a call does to a map. -/
def Call.apply (m : Key → Option Value) : Call Key Value → Key → Option Value
  | valueFor _ _ => m
  | addOrUpdateMapping key value => Function.update m key (some value)
  | removeMapping key => Function.update m key none

/-- The map after some calls, oldest first. -/
def replay (log : List (Call Key Value)) : Key → Option Value :=
  log.foldl Call.apply fun _ => none

/-- The latest mapping of `key`, not removed since. -/
def Latest (log : List (Call Key Value)) (key : Key) (value : Value) : Prop :=
  ∃ before after, log = before ++ .addOrUpdateMapping key value :: after ∧
    ∀ call ∈ after, call.Shared = true ∨ call.key ≠ key

section Map

variable {m m' : Key → Option Value} {call : Call Key Value} {k : Key}

theorem Call.apply_shared (h : call.Shared = true) : call.apply m = m := by
  cases call with
  | valueFor => rfl
  | addOrUpdateMapping => cases h
  | removeMapping => cases h

theorem Call.apply_of_ne (h : k ≠ call.key) : call.apply m k = m k := by
  cases call with
  | valueFor => rfl
  | addOrUpdateMapping => exact Function.update_of_ne h ..
  | removeMapping => exact Function.update_of_ne h ..

theorem Call.apply_congr (h : m k = m' k) : call.apply m k = call.apply m' k := by
  rcases eq_or_ne k call.key with rfl | hne
  · cases call with
    | valueFor => exact h
    | addOrUpdateMapping => simp only [apply, key, Function.update_self]
    | removeMapping => simp only [apply, key, Function.update_self]
  · rw [apply_of_ne hne, apply_of_ne hne, h]

@[simp] theorem replay_concat (log : List (Call Key Value)) (call : Call Key Value) :
    replay (log ++ [call]) = call.apply (replay log) := by
  rw [replay, List.foldl_concat]
  rfl

omit [DecidableEq Key] in
theorem latest_concat_of_kept {log : List (Call Key Value)} {value : Value}
    (h : call.Shared = true ∨ call.key ≠ k) :
    Latest (log ++ [call]) k value ↔ Latest log k value := by
  constructor
  · rintro ⟨before, after, heq, hafter⟩
    rcases List.eq_nil_or_concat after with rfl | ⟨rest, last, rfl⟩
    · obtain ⟨-, hlast⟩ := List.append_inj' heq rfl
      cases List.singleton_inj.mp hlast
      exact absurd rfl (h.resolve_left nofun)
    · rw [List.concat_eq_append, ← List.cons_append, ← List.append_assoc] at heq
      obtain ⟨rfl, -⟩ := List.append_inj' heq rfl
      refine ⟨before, rest, rfl, fun other hother => hafter other ?_⟩
      rw [List.concat_eq_append]
      exact List.mem_append_left _ hother
  · rintro ⟨before, after, rfl, hafter⟩
    refine ⟨before, after ++ [call], by simp, fun other hother => ?_⟩
    rcases List.mem_append.mp hother with hold | hlast
    · exact hafter other hold
    · rw [List.mem_singleton.mp hlast]
      exact h

/-- Replaying the calls finds the latest mapping that was not removed. -/
theorem replay_eq_some_iff (log : List (Call Key Value)) (k : Key) (value : Value) :
    replay log k = some value ↔ Latest log k value := by
  induction log using List.reverseRecOn with
  | nil =>
      constructor
      · intro h
        cases h
      · rintro ⟨before, after, heq, -⟩
        cases before <;> cases heq
  | append_singleton log call ih =>
      rw [replay_concat]
      by_cases hkept : call.Shared = true ∨ call.key ≠ k
      · rw [latest_concat_of_kept hkept, ← ih]
        rcases hkept with hshared | hne
        · rw [Call.apply_shared hshared]
        · rw [Call.apply_of_ne (Ne.symm hne)]
      · obtain ⟨hshared, hkey⟩ := not_or.mp hkept
        have hlast : ∀ value, Latest (log ++ [call]) k value →
            call = .addOrUpdateMapping k value := by
          rintro value ⟨before, after, heq, hafter⟩
          rcases List.eq_nil_or_concat after with rfl | ⟨rest, last, rfl⟩
          · exact List.singleton_inj.mp (List.append_inj' heq rfl).2
          · rw [List.concat_eq_append, ← List.cons_append, ← List.append_assoc] at heq
            obtain ⟨-, hlast⟩ := List.append_inj' heq rfl
            cases List.singleton_inj.mp hlast
            exact absurd (hafter call (by simp)) hkept
        cases call with
        | valueFor => exact absurd rfl hshared
        | addOrUpdateMapping key value' =>
            cases not_not.mp hkey
            rw [Call.apply, Call.key, Function.update_self]
            constructor
            · rintro h
              cases Option.some.inj h
              exact ⟨log, [], rfl, List.forall_mem_nil _⟩
            · intro h
              cases hlast value h
              rfl
        | removeMapping key =>
            cases not_not.mp hkey
            rw [Call.apply, Call.key, Function.update_self]
            constructor
            · intro h
              cases h
            · intro h
              cases hlast value h

end Map

namespace BucketData

variable {data : BucketData Key Value} {key : Key}

theorem findEntryFor_cases (data : BucketData Key Value) (key : Key) :
    (data.findEntryFor key = none ∧ valuesAt key data = []) ∨
      ∃ before value after, data = before ++ (key, value) :: after ∧
        valuesAt key before = [] ∧ data.findEntryFor key = some before.length := by
  cases hfound : data.findEntryFor key with
  | none =>
      refine .inl ⟨rfl, valuesAt_eq_nil fun entry hentry => ?_⟩
      simpa using List.findIdx?_eq_none_iff.mp hfound entry hentry
  | some found =>
      obtain ⟨hlt, hkey, hbefore⟩ := List.findIdx?_eq_some_iff_getElem.mp hfound
      refine .inr ⟨data.take found, data[found].2, data.drop (found + 1), ?_, ?_, ?_⟩
      · have hentry : (key, data[found].2) = data[found] := by
          rw [← of_decide_eq_true hkey]
        rw [hentry, List.getElem_cons_drop, List.take_append_drop]
      · apply valuesAt_eq_nil
        intro entry hentry
        obtain ⟨i, hi, rfl⟩ := List.mem_take_iff_getElem.mp hentry
        simpa using hbefore i (by omega)
      · rw [List.length_take_of_le hlt.le]

/-- In a bucket with one value for the key at most, the entry found is the only one. -/
theorem found_cases {mapped : Option Value} (h : valuesAt key data = mapped.toList) :
    (data.findEntryFor key = none ∧ mapped = none) ∨
      ∃ before value after, data = before ++ (key, value) :: after ∧
        data.findEntryFor key = some before.length ∧ mapped = some value ∧
        valuesAt key before = [] ∧ valuesAt key after = [] := by
  rcases findEntryFor_cases data key with
    ⟨hnone, hnil⟩ | ⟨before, value, after, rfl, hbefore, hsome⟩
  · rw [hnil] at h
    exact .inl ⟨hnone, Option.toList_eq_nil_iff.mp h.symm⟩
  · have hvalues : value :: valuesAt key after = mapped.toList := by
      rw [← h, valuesAt_append, hbefore, List.nil_append, valuesAt_cons_self]
    cases mapped with
    | none => cases hvalues
    | some other =>
        obtain ⟨rfl, hafter⟩ := List.cons.inj hvalues
        exact .inr ⟨before, value, after, rfl, hsome, rfl, hbefore, hafter⟩

/-- Around an entry, the values with another key are those of the rest. -/
theorem valuesAt_around {k : Key} (hne : key ≠ k) (before after : BucketData Key Value)
    (value : Value) :
    valuesAt k (before ++ (key, value) :: after) = valuesAt k before ++ valuesAt k after := by
  rw [valuesAt_append, valuesAt_cons_of_ne hne]

theorem valueFor_eq {mapped : Option Value} (h : valuesAt key data = mapped.toList)
    (default : Value) : data.valueFor key default = mapped.getD default := by
  rcases found_cases h with ⟨hnone, rfl⟩ | ⟨before, value, after, rfl, hsome, rfl, -, -⟩
  · rw [valueFor, hnone]
    rfl
  · simp [valueFor, hsome]

theorem valuesAt_addOrUpdateMapping {m : Key → Option Value}
    (h : ∀ k, valuesAt k data = (m k).toList) (value : Value) (k : Key) :
    valuesAt k (data.addOrUpdateMapping key value) =
      (Function.update m key (some value) k).toList := by
  rcases found_cases (h key) with
    ⟨hnone, hm⟩ | ⟨before, old, after, rfl, hsome, hm, hbefore, hafter⟩
  · rw [addOrUpdateMapping, hnone, valuesAt_append, h]
    rcases eq_or_ne k key with rfl | hne
    · rw [hm, valuesAt_singleton_self, Function.update_self]
      rfl
    · rw [valuesAt_singleton_of_ne hne.symm, Function.update_of_ne hne, List.append_nil]
  · have hupdated : BucketData.addOrUpdateMapping (before ++ (key, old) :: after) key value =
        before ++ (key, value) :: after := by
      simp [addOrUpdateMapping, hsome, List.modify_eq_take_drop]
    rw [hupdated]
    rcases eq_or_ne k key with rfl | hne
    · rw [valuesAt_append, valuesAt_cons_self, hbefore, hafter, Function.update_self]
      rfl
    · rw [valuesAt_around hne.symm, ← valuesAt_around hne.symm before after old, h,
        Function.update_of_ne hne]

theorem valuesAt_removeMapping {m : Key → Option Value}
    (h : ∀ k, valuesAt k data = (m k).toList) (k : Key) :
    valuesAt k (data.removeMapping key) = (Function.update m key none k).toList := by
  rcases found_cases (h key) with
    ⟨hnone, hm⟩ | ⟨before, old, after, rfl, hsome, hm, hbefore, hafter⟩
  · rw [removeMapping, hnone, h]
    rcases eq_or_ne k key with rfl | hne
    · rw [hm, Function.update_self]
    · rw [Function.update_of_ne hne]
  · have hremoved : BucketData.removeMapping (before ++ (key, old) :: after) key =
        before ++ after := by
      simp [removeMapping, hsome, List.eraseIdx_append_of_length_le]
    rw [hremoved, valuesAt_append]
    rcases eq_or_ne k key with rfl | hne
    · rw [hbefore, hafter, Function.update_self]
      rfl
    · rw [← valuesAt_around hne.symm before after old, h, Function.update_of_ne hne]

/-- A call does to a bucket that is a map what it does to the map. -/
theorem valuesAt_perform {m : Key → Option Value} (h : ∀ k, valuesAt k data = (m k).toList)
    (call : Call Key Value) (k : Key) :
    valuesAt k (data.perform call).2 = (call.apply m k).toList := by
  cases call with
  | valueFor key default => exact h k
  | addOrUpdateMapping key value => exact valuesAt_addOrUpdateMapping h value k
  | removeMapping key => exact valuesAt_removeMapping h k

end BucketData

/-- The part of a map that a bucket has. -/
def Table.bucketMap (table : Table Key Value) (i : Nat) (m : Key → Option Value) :
    Key → Option Value :=
  fun k => if table.bucketIndex k = i then m k else none

section BucketMap

variable {table : Table Key Value} {i : Nat} {m : Key → Option Value} {call : Call Key Value}

omit [DecidableEq Key] in
theorem bucketMap_self (table : Table Key Value) (m : Key → Option Value) (k : Key) :
    table.bucketMap (table.bucketIndex k) m k = m k :=
  if_pos rfl

omit [DecidableEq Key] in
theorem bucketMap_congr {table' : Table Key Value}
    (hsize : table'.buckets.length = table.buckets.length) (hhash : table'.hasher = table.hasher) :
    table'.bucketMap i m = table.bucketMap i m := by
  funext k
  rw [Table.bucketMap, Table.bucketMap, Table.bucketIndex, Table.bucketIndex, hsize, hhash]

theorem apply_bucketMap (h : table.bucketIndex call.key = i) :
    call.apply (table.bucketMap i m) = table.bucketMap i (call.apply m) := by
  funext k
  by_cases hk : table.bucketIndex k = i
  · have hsame : table.bucketMap i m k = m k := if_pos hk
    rw [Call.apply_congr hsame, Table.bucketMap, if_pos hk]
  · have hne : k ≠ call.key := fun heq => hk (heq ▸ h)
    rw [Call.apply_of_ne hne, Table.bucketMap, Table.bucketMap, if_neg hk, if_neg hk]

theorem bucketMap_apply_of_ne (h : table.bucketIndex call.key ≠ i) :
    table.bucketMap i (call.apply m) = table.bucketMap i m := by
  funext k
  by_cases hk : table.bucketIndex k = i
  · have hne : k ≠ call.key := fun heq => h (heq ▸ hk)
    rw [Table.bucketMap, Table.bucketMap, if_pos hk, if_pos hk, Call.apply_of_ne hne]
  · rw [Table.bucketMap, Table.bucketMap, if_neg hk, if_neg hk]

end BucketMap

theorem Table.perform_eq (table : Table Key Value) {call : Call Key Value}
    (h : table.bucketIndex call.key < table.buckets.length) :
    table.perform call =
      some ((BucketData.perform table.buckets[table.bucketIndex call.key] call).1,
        ⟨table.buckets.set (table.bucketIndex call.key)
            (BucketData.perform table.buckets[table.bucketIndex call.key] call).2,
          table.hasher⟩) := by
  rw [perform, List.getElem?_eq_getElem h]
  rfl

/-- The buckets hold a map, each key in the bucket its hash selects. -/
structure Stores (table : Table Key Value) (m : Key → Option Value) : Prop where
  bucket : ∀ i data, table.buckets[i]? = some data → ∀ k,
    valuesAt k data = (table.bucketMap i m k).toList

namespace Stores

variable {table : Table Key Value} {m : Key → Option Value}

theorem bucketIndex_of_mem (h : Stores table m) {i : Nat} {data : BucketData Key Value}
    (hdata : table.buckets[i]? = some data) {entry : Key × Value} (hentry : entry ∈ data) :
    table.bucketIndex entry.1 = i := by
  by_contra hne
  have hnil := h.bucket i data hdata entry.1
  rw [Table.bucketMap, if_neg hne] at hnil
  have hmem : entry.2 ∈ valuesAt entry.1 data := mem_valuesAt.mpr hentry
  rw [hnil] at hmem
  cases hmem

/-- No two entries of the table have the same key. -/
theorem entries_unique (h : Stores table m) :
    table.entries.Pairwise fun entry entry' => entry.1 ≠ entry'.1 := by
  rw [Table.entries, List.pairwise_flatten]
  constructor
  · intro data hdata
    obtain ⟨i, hi⟩ := List.mem_iff_getElem?.mp hdata
    apply pairwise_ne_of_valuesAt
    intro k
    rw [h.bucket i data hi k]
    cases table.bucketMap i m k with
    | none => exact Nat.zero_le 1
    | some => exact Nat.le_refl 1
  · rw [List.pairwise_iff_getElem]
    intro i j hi hj hlt entry hentry entry' hentry' heq
    have hfirst := h.bucketIndex_of_mem (List.getElem?_eq_getElem hi) hentry
    have hsecond := h.bucketIndex_of_mem (List.getElem?_eq_getElem hj) hentry'
    rw [heq] at hfirst
    omega

/-- A call returns what the map has, and leaves what the call makes of it. -/
theorem perform (h : Stores table m) (hsize : 0 < table.buckets.length) (call : Call Key Value) :
    ∃ result table', table.perform call = some (result, table') ∧
      (∀ key default, call = .valueFor key default → result = some ((m key).getD default)) ∧
      table'.buckets.length = table.buckets.length ∧ table'.hasher = table.hasher ∧
      Stores table' (call.apply m) := by
  have hlt : table.bucketIndex call.key < table.buckets.length := Nat.mod_lt _ hsize
  have hdata := List.getElem?_eq_getElem hlt
  have hstored := h.bucket _ _ hdata
  refine ⟨_, _, table.perform_eq hlt, ?_, List.length_set, rfl, ?_⟩
  · rintro key default rfl
    have hvalue := BucketData.valueFor_eq (hstored key) default
    exact congrArg some (hvalue.trans (by rw [Call.key, bucketMap_self]))
  · constructor
    intro i data hi k
    rw [show Table.bucketMap ⟨_, table.hasher⟩ i (call.apply m) = table.bucketMap i (call.apply m)
      from bucketMap_congr List.length_set rfl]
    rcases eq_or_ne (table.bucketIndex call.key) i with rfl | hne
    · rw [List.getElem?_set_self hlt] at hi
      cases hi
      rw [← apply_bucketMap rfl]
      exact BucketData.valuesAt_perform hstored call k
    · rw [List.getElem?_set_ne hne] at hi
      rw [bucketMap_apply_of_ne hne]
      exact h.bucket i data hi k

end Stores

variable {Tid : Type*} [DecidableEq Tid]

/-- The table holds the map `m`, which a thread that holds the lock of a bucket has
found as the calls before its own left it there and is about to change. -/
structure Inv (numBuckets : Nat) (hasher : Key → Nat) (s : State Tid Key Value)
    (m : Key → Option Value) : Prop where
  size : s.table.buckets.length = numBuckets
  hash : s.table.hasher = hasher
  stores : Stores s.table m
  exclusive : ∀ t u call call' before before', t ≠ u → s.pc t = .locked call before →
    s.pc u = .locked call' before' → s.table.bucketIndex call.key = s.table.bucketIndex call'.key →
      call.Shared = true ∧ call'.Shared = true
  found : ∀ t call before, s.pc t = .locked call before →
    ∀ k, s.table.bucketIndex call.key = s.table.bucketIndex k → replay before k = m k
  pending : ∀ t call before, s.pc t = .locked call before →
    ∀ k, s.table.bucketIndex call.key = s.table.bucketIndex k → replay s.log k = call.apply m k
  settled : ∀ k, (∀ t call before, s.pc t = .locked call before →
    s.table.bucketIndex call.key ≠ s.table.bucketIndex k) → replay s.log k = m k

namespace Inv

variable {numBuckets : Nat} {hasher : Key → Nat} {s s' : State Tid Key Value}
  {m : Key → Option Value} {t : Tid} {call : Call Key Value}

omit [DecidableEq Tid] in
theorem initial {table : Table Key Value} (h : Table.make numBuckets hasher = .ok table) :
    Inv numBuckets hasher (⟨table, fun _ => .idle, []⟩ : State Tid Key Value) fun _ => none := by
  rw [Table.make] at h
  split at h
  · cases h
  · cases h
    refine ⟨List.length_replicate, rfl, ⟨fun i data hdata k => ?_⟩, nofun, nofun, nofun,
      fun _ _ => rfl⟩
    have hmem := List.mem_of_getElem? hdata
    rw [List.eq_of_mem_replicate hmem, Table.bucketMap, ite_self]
    rfl

/-- A thread that holds no lock before and after a step. -/
theorem keep (h : Inv numBuckets hasher s m) {pc : Pc Key Value}
    (hbefore : ∀ call before, s.pc t ≠ .locked call before)
    (hafter : ∀ call before, pc ≠ .locked call before) :
    Inv numBuckets hasher { s with pc := Function.update s.pc t pc } m := by
  have hlocked : ∀ u call before, Function.update s.pc t pc u = .locked call before ↔
      s.pc u = .locked call before := by
    intro u call before
    rcases eq_or_ne u t with rfl | hne
    · rw [Function.update_self]
      exact iff_of_false (hafter call before) (hbefore call before)
    · rw [Function.update_of_ne hne]
  constructor
  case size => exact h.size
  case hash => exact h.hash
  case stores => exact h.stores
  case exclusive => simpa only [hlocked] using h.exclusive
  case found => simpa only [hlocked] using h.found
  case pending => simpa only [hlocked] using h.pending
  case settled => simpa only [hlocked] using h.settled

theorem lock (h : Inv numBuckets hasher s m) (hpc : s.pc t = .locking call)
    (hfree : ∀ u other before, s.pc u = .locked other before →
      s.table.bucketIndex other.key = s.table.bucketIndex call.key →
        call.Shared = true ∧ other.Shared = true) :
    Inv numBuckets hasher
      { s with
          pc := Function.update s.pc t (.locked call s.log)
          log := s.log ++ [call] } m := by
  -- Whoever else holds the lock reads, so the log says what is in the bucket.
  have hcurrent : ∀ k, s.table.bucketIndex call.key = s.table.bucketIndex k →
      replay s.log k = m k := by
    intro k hk
    by_cases hheld : ∃ u other before, s.pc u = .locked other before ∧
        s.table.bucketIndex other.key = s.table.bucketIndex k
    · obtain ⟨u, other, before, hu, hbucket⟩ := hheld
      rw [h.pending u other before hu k hbucket,
        Call.apply_shared (hfree u other before hu (hbucket.trans hk.symm)).2]
    · exact h.settled k fun u other before hu hbucket => hheld ⟨u, other, before, hu, hbucket⟩
  have hcases : ∀ u other before,
      Function.update s.pc t (.locked call s.log) u = .locked other before →
        (u = t ∧ other = call ∧ before = s.log) ∨ (u ≠ t ∧ s.pc u = .locked other before) := by
    intro u other before hu
    rcases eq_or_ne u t with rfl | hne
    · rw [Function.update_self] at hu
      cases hu
      exact .inl ⟨rfl, rfl, rfl⟩
    · rw [Function.update_of_ne hne] at hu
      exact .inr ⟨hne, hu⟩
  constructor
  case size => exact h.size
  case hash => exact h.hash
  case stores => exact h.stores
  case exclusive =>
    intro u v other other' before before' huv hu hv hbucket
    rcases hcases u other before hu with ⟨rfl, rfl, rfl⟩ | ⟨hut, hu⟩ <;>
      rcases hcases v other' before' hv with ⟨rfl, rfl, rfl⟩ | ⟨hvt, hv⟩
    · exact absurd rfl huv
    · exact hfree v other' before' hv hbucket.symm
    · exact (hfree u other before ‹_› hbucket).symm
    · exact h.exclusive u v other other' before before' huv hu hv hbucket
  case found =>
    intro u other before hu k hk
    rcases hcases u other before hu with ⟨rfl, rfl, rfl⟩ | ⟨-, hu⟩
    · exact hcurrent k hk
    · exact h.found u other before hu k hk
  case pending =>
    intro u other before hu k hk
    rw [replay_concat]
    rcases hcases u other before hu with ⟨rfl, rfl, rfl⟩ | ⟨-, hu⟩
    · exact Call.apply_congr (hcurrent k hk)
    · rw [← h.pending u other before hu k hk]
      by_cases hsame : s.table.bucketIndex other.key = s.table.bucketIndex call.key
      · rw [Call.apply_shared (hfree u other before hu hsame).1]
      · apply Call.apply_of_ne
        rintro rfl
        exact hsame hk
  case settled =>
    intro k hk
    have hne : s.table.bucketIndex call.key ≠ s.table.bucketIndex k :=
      hk t call s.log (Function.update_self ..)
    rw [replay_concat, Call.apply_of_ne fun heq => hne (heq ▸ rfl)]
    refine h.settled k fun u other before hu => hk u other before ?_
    have hut : u ≠ t := by
      rintro rfl
      rw [hpc] at hu
      cases hu
    exact (Function.update_of_ne hut ..).trans hu

theorem finish {before : List (Call Key Value)} {result : Option Value} {table : Table Key Value}
    (h : Inv numBuckets hasher s m) (hpc : s.pc t = .locked call before)
    (hperform : s.table.perform call = some (result, table)) (hpos : 0 < numBuckets) :
    Inv numBuckets hasher { s with table := table, pc := Function.update s.pc t .idle }
      (call.apply m) := by
  obtain ⟨result', table', hperform', -, hsize, hhash, hstores⟩ :=
    h.stores.perform (h.size ▸ hpos) call
  cases hperform.symm.trans hperform'
  have hindex : ∀ k, table.bucketIndex k = s.table.bucketIndex k := by
    intro k
    rw [Table.bucketIndex, Table.bucketIndex, hsize, hhash]
  have hcases : ∀ u other before, Function.update s.pc t .idle u = .locked other before →
      u ≠ t ∧ s.pc u = .locked other before := by
    intro u other before hu
    rcases eq_or_ne u t with rfl | hne
    · rw [Function.update_self] at hu
      cases hu
    · rw [Function.update_of_ne hne] at hu
      exact ⟨hne, hu⟩
  -- A thread that holds the same lock reads, and so does this one.
  have hkept : ∀ u other before, u ≠ t → s.pc u = .locked other before →
      ∀ k, s.table.bucketIndex other.key = s.table.bucketIndex k → call.apply m k = m k := by
    intro u other before' hne hu k hk
    by_cases hsame : s.table.bucketIndex call.key = s.table.bucketIndex other.key
    · rw [Call.apply_shared (h.exclusive t u call other before before' hne.symm hpc hu hsame).1]
    · apply Call.apply_of_ne
      rintro rfl
      exact hsame hk.symm
  constructor
  case size => exact hsize.trans h.size
  case hash => exact hhash.trans h.hash
  case stores => exact hstores
  case exclusive =>
    intro u v other other' before before' huv hu hv hbucket
    rw [hindex, hindex] at hbucket
    exact h.exclusive u v other other' before before' huv (hcases u other before hu).2
      (hcases v other' before' hv).2 hbucket
  case found =>
    intro u other before hu k hk
    rw [hindex, hindex] at hk
    obtain ⟨hne, hu⟩ := hcases u other before hu
    rw [hkept u other before hne hu k hk]
    exact h.found u other before hu k hk
  case pending =>
    intro u other before hu k hk
    rw [hindex, hindex] at hk
    obtain ⟨hne, hu⟩ := hcases u other before hu
    rw [Call.apply_congr (hkept u other before hne hu k hk)]
    exact h.pending u other before hu k hk
  case settled =>
    intro k hk
    by_cases hbucket : s.table.bucketIndex call.key = s.table.bucketIndex k
    · exact h.pending t call before hpc k hbucket
    · rw [Call.apply_of_ne fun heq => hbucket (heq ▸ rfl)]
      apply h.settled k
      intro u other before' hu
      rcases eq_or_ne u t with rfl | hne
      · rw [hpc] at hu
        cases hu
        exact hbucket
      · rw [← hindex, ← hindex]
        exact hk u other before' ((Function.update_of_ne hne ..).trans hu)

end Inv

omit [DecidableEq Key] in
theorem make_pos {numBuckets : Nat} {hasher : Key → Nat} {table : Table Key Value}
    (h : Table.make numBuckets hasher = .ok table) : 0 < numBuckets := by
  rw [Table.make] at h
  split at h
  · cases h
  · omega

theorem reachable_inv {numBuckets : Nat} {hasher : Key → Nat} {s : State Tid Key Value}
    (hs : (system Tid Value numBuckets hasher).Reachable s) :
    0 < numBuckets ∧ ∃ m, Inv numBuckets hasher s m := by
  refine (system Tid Value numBuckets hasher).reachable_invariant
    (fun s => 0 < numBuckets ∧ ∃ m, Inv numBuckets hasher s m) ?_ ?_ s hs
  · rintro _ ⟨table, hmake, rfl⟩
    exact ⟨make_pos hmake, _, .initial hmake⟩
  · rintro s label s' - ⟨hpos, m, h⟩ hstep
    refine ⟨hpos, ?_⟩
    cases hstep with
    | call call hpc =>
        exact ⟨m, h.keep (fun call before hlocked => by rw [hpc] at hlocked; cases hlocked) nofun⟩
    | lock hpc hfree => exact ⟨m, h.lock hpc hfree⟩
    | finish hpc hperform => exact ⟨_, h.finish hpc hperform hpos⟩

/-- A thread that holds a lock has its place in the order of the locks. -/
theorem reachable_logged {numBuckets : Nat} {hasher : Key → Nat} {s : State Tid Key Value}
    (hs : (system Tid Value numBuckets hasher).Reachable s) :
    ∀ t call before, s.pc t = .locked call before → before ++ [call] <+: s.log := by
  refine (system Tid Value numBuckets hasher).reachable_invariant
    (fun s => ∀ t call before, s.pc t = .locked call before → before ++ [call] <+: s.log) ?_ ?_ s hs
  · rintro _ ⟨table, -, rfl⟩
    exact nofun
  · rintro s ⟨t, label⟩ s' - hlogged hstep u other before hu
    rcases eq_or_ne u t with rfl | hne
    · cases hstep <;> simp only [Function.update_self] at hu <;> cases hu
      exact List.prefix_rfl
    · cases hstep <;> simp only [Function.update_of_ne hne] at hu
      · exact hlogged u other before hu
      · exact (hlogged u other before hu).trans (List.prefix_append ..)
      · exact hlogged u other before hu

/-- At any moment of any run no two entries have the same key, each entry is in the
bucket its hash selects, and a call that holds the lock of its bucket goes through.
A lookup returns the latest mapping made by the calls that took their locks before
it, or the default if they left none. -/
theorem refines_finiteMap (numBuckets : Nat) (hasher : Key → Nat) {s : State Tid Key Value}
    (hs : (system Tid Value numBuckets hasher).Reachable s) :
    s.table.entries.Pairwise (fun entry entry' => entry.1 ≠ entry'.1) ∧
      (∀ i data, s.table.buckets[i]? = some data →
        ∀ entry ∈ data, hasher entry.1 % numBuckets = i) ∧
      ∀ t call before, s.pc t = .locked call before →
        before ++ [call] <+: s.log ∧
          ∃ result table, s.table.perform call = some (result, table) ∧
            ∀ key default, call = .valueFor key default →
              ∃ found, result = some found ∧ (∀ value, Latest before key value → found = value) ∧
                ((∀ value, ¬ Latest before key value) → found = default) := by
  obtain ⟨hpos, m, h⟩ := reachable_inv hs
  refine ⟨h.stores.entries_unique, ?_, ?_⟩
  · intro i data hdata entry hentry
    have hindex := h.stores.bucketIndex_of_mem hdata hentry
    rwa [Table.bucketIndex, h.size, h.hash] at hindex
  · intro t call before hpc
    obtain ⟨result, table, hperform, hresult, -⟩ := h.stores.perform (h.size ▸ hpos) call
    refine ⟨reachable_logged hs t call before hpc, result, table, hperform, ?_⟩
    rintro key default rfl
    have hfound : replay before key = m key := h.found t _ before hpc key rfl
    refine ⟨_, hresult key default rfl, ?_, ?_⟩
    · intro value hlatest
      rw [← hfound, (replay_eq_some_iff before key value).mpr hlatest]
      rfl
    · intro hnone
      cases hvalue : m key with
      | none => rfl
      | some value =>
          rw [hvalue] at hfound
          exact absurd ((replay_eq_some_iff before key value).mp hfound) (hnone value)

/-- One thread adds a mapping and looks it up; all keys have the same hash. -/
theorem refines_finiteMap_added : ∃ s : State Unit Nat Nat,
    s.pc () = .locked (.valueFor 7 0) [.addOrUpdateMapping 7 1] ∧
      ∃ table, s.table.perform (.valueFor 7 0) = some (some 1, table) := by
  have hs₀ : (system Unit Nat 1 fun _ : Nat => 5).Reachable
      ⟨⟨[[]], fun _ => 5⟩, fun _ => .idle, []⟩ := .start ⟨_, rfl, rfl⟩
  have hs₁ := hs₀.next (.call (t := ()) (.addOrUpdateMapping 7 1) rfl)
  have hs₂ := hs₁.next (.lock (t := ()) rfl fun u _ _ hlocked => by cases u; cases hlocked)
  have hs₃ := hs₂.next (.finish (t := ()) rfl rfl)
  have hs₄ := hs₃.next (.call (t := ()) (.valueFor 7 0) rfl)
  have hs₅ := hs₄.next (.lock (t := ()) rfl fun u _ _ hlocked => by cases u; cases hlocked)
  obtain ⟨-, -, hlocked⟩ := refines_finiteMap 1 _ hs₅
  obtain ⟨-, result, table, hperform, hresult⟩ := hlocked () _ _ rfl
  obtain ⟨found, rfl, hfound, -⟩ := hresult 7 0 rfl
  refine ⟨_, ?_, table, hperform.trans ?_⟩
  · rfl
  · rw [hfound 1 ⟨[], [], rfl, nofun⟩]

end MoreCpp.LookupTable

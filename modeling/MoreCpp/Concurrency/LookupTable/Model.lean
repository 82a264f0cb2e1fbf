import MoreCpp.Library.TransitionSystem

/-!
The `threadsafe_lookup_table` of `concurrency/threadsafe_lookup_table.cpp`: buckets
of entries, each behind a `shared_mutex` of its own. Taking the lock of the bucket
and the body up to the return, which releases it, are a thread's two steps of a
call; nothing reads a bucket outside its lock, and `buckets` and `hasher` are
never assigned to.

The order in which the locks are taken is bookkeeping that no step of the code
reads. `none` is undefined behaviour.
-/

namespace MoreCpp.LookupTable

open Library

inductive Exn where
  | invalidArgument

/-- `bucket_data`. -/
abbrev BucketData (Key Value : Type*) := List (Key × Value)

inductive Call (Key Value : Type*) where
  | valueFor (key : Key) (default : Value)
  | addOrUpdateMapping (key : Key) (value : Value)
  | removeMapping (key : Key)

namespace Call

variable {Key Value : Type*}

def key : Call Key Value → Key
  | valueFor key _ | addOrUpdateMapping key _ | removeMapping key => key

/-- Whether the call takes a `shared_lock`, or else a `unique_lock`. -/
def Shared : Call Key Value → Bool
  | valueFor _ _ => true
  | addOrUpdateMapping _ _ | removeMapping _ => false

end Call

variable {Key Value : Type*} [DecidableEq Key]

namespace BucketData

/-- The position of the entry, or none for `data.end()`. -/
def findEntryFor (data : BucketData Key Value) (key : Key) : Option Nat :=
  data.findIdx? fun item => item.1 = key

def valueFor (data : BucketData Key Value) (key : Key) (default : Value) : Value :=
  match data.findEntryFor key with
  | none => default
  | some found => (data[found]?.map Prod.snd).getD default

def addOrUpdateMapping (data : BucketData Key Value) (key : Key) (value : Value) :
    BucketData Key Value :=
  match data.findEntryFor key with
  | none => data ++ [(key, value)]
  | some found => data.modify found fun item => (item.1, value)

def removeMapping (data : BucketData Key Value) (key : Key) : BucketData Key Value :=
  match data.findEntryFor key with
  | none => data
  | some found => data.eraseIdx found

/-- What a call returns, and the bucket it leaves. -/
def perform (data : BucketData Key Value) : Call Key Value → Option Value × BucketData Key Value
  | .valueFor key default => (some (data.valueFor key default), data)
  | .addOrUpdateMapping key value => (none, data.addOrUpdateMapping key value)
  | .removeMapping key => (none, data.removeMapping key)

end BucketData

structure Table (Key Value : Type*) where
  buckets : List (BucketData Key Value)
  hasher : Key → Nat

namespace Table

def make (numBuckets : Nat) (hasher : Key → Nat) : Except Exn (Table Key Value) :=
  if numBuckets = 0 then .error .invalidArgument
  else .ok ⟨.replicate numBuckets [], hasher⟩

def bucketIndex (table : Table Key Value) (key : Key) : Nat :=
  table.hasher key % table.buckets.length

def perform (table : Table Key Value) (call : Call Key Value) :
    Option (Option Value × Table Key Value) := do
  let data ← table.buckets[table.bucketIndex call.key]?
  let (result, data) := BucketData.perform data call
  return (result, { table with buckets := table.buckets.set (table.bucketIndex call.key) data })

/-- The entries of all buckets. -/
def entries (table : Table Key Value) : List (Key × Value) := table.buckets.flatten

end Table

inductive Pc (Key Value : Type*) where
  /-- Outside any call. -/
  | idle
  /-- About to take the lock of the bucket. -/
  | locking (call : Call Key Value)
  /-- Holding that lock, which `before` were the first to take. -/
  | locked (call : Call Key Value) (before : List (Call Key Value))

structure State (Tid Key Value : Type*) where
  table : Table Key Value
  pc : Tid → Pc Key Value
  /-- The calls in the order in which they took their locks. -/
  log : List (Call Key Value)

inductive Event (Key Value : Type*) where
  | call (call : Call Key Value)
  | lock
  | finish (result : Option Value)

variable {Tid : Type*} [DecidableEq Tid]

/-- The steps of thread `t`. -/
inductive Step : State Tid Key Value → Tid × Event Key Value → State Tid Key Value → Prop where
  | call {s : State Tid Key Value} {t : Tid} (call : Call Key Value) (hpc : s.pc t = .idle) :
      Step s (t, .call call) { s with pc := Function.update s.pc t (.locking call) }
  /-- Only calls that all take a `shared_lock` hold the lock of a bucket together. -/
  | lock {s : State Tid Key Value} {t : Tid} {call : Call Key Value}
      (hpc : s.pc t = .locking call)
      (hfree : ∀ u other before, s.pc u = .locked other before →
        s.table.bucketIndex other.key = s.table.bucketIndex call.key →
          call.Shared = true ∧ other.Shared = true) :
      Step s (t, .lock)
        { s with
            pc := Function.update s.pc t (.locked call s.log)
            log := s.log ++ [call] }
  | finish {s : State Tid Key Value} {t : Tid} {call : Call Key Value}
      {before : List (Call Key Value)} {result : Option Value} {table : Table Key Value}
      (hpc : s.pc t = .locked call before) (hperform : s.table.perform call = some (result, table)) :
      Step s (t, .finish result) { s with table := table, pc := Function.update s.pc t .idle }

/-- Any number of threads around one new table. -/
def system (Tid Value : Type*) [DecidableEq Tid] (numBuckets : Nat) (hasher : Key → Nat) :
    System (State Tid Key Value) (Tid × Event Key Value) where
  Init s := ∃ table, Table.make numBuckets hasher = .ok table ∧ s = ⟨table, fun _ => .idle, []⟩
  Step := Step

end MoreCpp.LookupTable

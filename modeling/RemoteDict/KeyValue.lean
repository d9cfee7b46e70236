import Mathlib.Data.Set.Card
import RemoteDict.Foundation.Machine
import RemoteDict.TcpFlow

namespace RemoteDict.KeyValue
open Foundation TcpFlow
open MembershipFilter (contains)

-- What the server is for: a value for each key that has one, and how many
-- look-ups there have been.
inductive Call where
  | get (key : Str)
  | set (key value : Str)
  | stat
  deriving DecidableEq, Repr

inductive Reply where
  | found (value : Str)
  | missing
  | stored
  | refused
  | counts (all succ fail : Int32)
  deriving DecidableEq, Repr

abbrev Entries := Str → Option Str

def put (entries : Entries) (key value : Str) : Entries := Function.update entries key (some value)

def Full (entries : Entries) : Prop := MAX_DICT_SIZE ≤ {key | entries key ≠ none}.encard

-- The answers that leave an object with these entries as the second one. Of
-- several threads one may store past the limit, and a count is anything.
inductive Answers (entries : Entries) : Call → Reply → Entries → Prop where
  | found : entries key = some value → Answers entries (.get key) (.found value) entries
  | missing : entries key = none → Answers entries (.get key) .missing entries
  | stored : Answers entries (.set key value) .stored (put entries key value)
  | refused : Full entries → Answers entries (.set key value) .refused entries
  | counts : Answers entries .stat (.counts all succ fail) entries

def next (entries : Entries) : Call → Reply → Entries
  | .set key value,.stored => put entries key value
  | _,_ => entries

open Classical in
noncomputable def dictionary : Machine Entries (Call × Reply) where
  start := fun _ => none
  step entries event :=
    if Answers entries event.1 event.2 (next entries event.1 event.2) then some (next entries event.1 event.2) else none

-- The object of one thread: full is full, and the counts are the numbers of
-- look-ups so far.
structure Store where
  entries : Entries
  asked : Nat
  succeeded : Nat
  failed : Nat

namespace Store

def empty : Store := ⟨fun _ => none,0,0,0⟩

open Classical in
noncomputable def serve (store : Store) : Call → Reply × Store
  | .get key =>
    match store.entries key with
    | some value => (.found value,{store with asked := store.asked + 1,succeeded := store.succeeded + 1})
    | none => (.missing,{store with asked := store.asked + 1,failed := store.failed + 1})
  | .set key value => if Full store.entries then (.refused,store) else (.stored,{store with entries := put store.entries key value})
  | .stat => (.counts (Int32.ofNat store.asked) (Int32.ofNat store.succeeded) (Int32.ofNat store.failed),store)

end Store

noncomputable def store : Machine Store (Call × Reply) where
  start := .empty
  step s event := if (s.serve event.1).1 = event.2 then some (s.serve event.1).2 else none

theorem Answers.next (answers : Answers entries call reply later) : later = next entries call reply := by
  cases answers <;> rfl

theorem dictionary_step : dictionary.step entries (call,reply) = some later ↔ Answers entries call reply later := by
  simp only [dictionary]
  split
  · rename_i answers
    constructor
    · rintro ⟨rfl⟩
      exact answers
    · intro also
      rw [also.next]
  · rename_i refused
    constructor
    · intro stepped
      cases stepped
    · intro answers
      exact absurd (answers.next ▸ answers) refused

theorem store_step (s : Store) (call : Call) : store.step s (call,(s.serve call).1) = some (s.serve call).2 := if_pos rfl

-- The messages of a call and its reply. With the filter enabled a GET never
-- succeeds, and its reason is the value, or NOT_FOUND, or nothing at all.
def callOf (m : Payload) : RequestType → Call
  | .GET => .get m.key
  | .SET => .set m.key m.value
  | .STAT => .stat

inductive Writes (enable : Bool) (m : Payload) : Reply → Payload → Prop where
  | found : Writes enable m (.found value) (if enable then m.set_reason value else m.set_value value)
  | missing : Writes enable m .missing (m.set_reason NOT_FOUND)
  | unfiltered : enable = true → Writes enable m .missing (m.set_reason [])
  | stored : Writes enable m .stored m
  | refused : Writes enable m .refused (m.set_reason (text "failed"))
  | counts : Writes enable m (.counts all succ fail) {m with stats_ := some ⟨some all,some succ,some fail⟩}

-- A dictionary that holds these entries; each of its keys is in the filter.
structure Holds {F : Type} [MembershipFilter F] (enable : Bool) (d : Dictionary F) (entries : Entries) : Prop where
  mode : d.m_bloomFilterEnabled = enable
  entries : ∀ key, d.m_dict.lookup key = entries key
  filtered : enable = true → ∃ keys, d.m_bloomFilter = some (filterOf keys) ∧ ∀ key ∈ d.m_dict, key ∈ keys

variable {F : Type} [MembershipFilter F] {enable : Bool} {d later : Dictionary F} {entries : Entries}

theorem start_holds (enable : Bool) : Holds enable (Dictionary.new.enableBloomFilter enable : Dictionary F) (fun _ => none) := by
  cases enable with
  | false => exact ⟨rfl,fun _ => rfl,nofun⟩
  | true => exact ⟨rfl,fun _ => rfl,fun _ => ⟨[],rfl,fun _ held => absurd held (AList.notMem_empty _)⟩⟩

theorem Holds.built (holds : Holds enable d entries) : d.Built := by
  intro on
  obtain ⟨keys,there,_⟩ := holds.filtered (holds.mode ▸ on)
  rw [there]
  rfl

theorem Holds.keys (holds : Holds enable d entries) : {key | entries key ≠ none} = {key | key ∈ d.m_dict.keys.toFinset} := by
  ext key
  rw [Set.mem_ofPred_eq,Set.mem_ofPred_eq,List.mem_toFinset,← AList.mem_keys,← holds.entries,← AList.lookup_isSome,
    Option.isSome_iff_ne_none]

theorem Holds.full (holds : Holds enable d entries) : d.full = true ↔ Full entries := by
  have size : {key | entries key ≠ none}.encard = d.size := by
    rw [holds.keys,Finset.setOfPred_mem,Set.encard_coe_eq_coe_finsetCard,List.toFinset_card_of_nodup d.m_dict.keys_nodup]
    rfl
  rw [Dictionary.full,decide_eq_true_iff,Full,size,Nat.cast_le]

theorem Holds.stores (holds : Holds enable d entries) (stored : d.setLocked key value = .ok later) :
    Holds enable later (put entries key value) := by
  have lookups (other : Str) : (d.m_dict.insert key value).lookup other = put entries key value other := by
    by_cases same : other = key
    · subst same
      rw [AList.lookup_insert,put,Function.update_self]
    · rw [AList.lookup_insert_ne same,put,Function.update_of_ne same,holds.entries]
  rcases (Dictionary.setLocked_ok d).mp stored with ⟨off,rfl⟩ | ⟨filter,on,built,rfl⟩
  · refine ⟨holds.mode,lookups,fun on => ?_⟩
    rw [← holds.mode,off] at on
    cases on
  · refine ⟨holds.mode,lookups,fun on => ?_⟩
    obtain ⟨keys,there,inside⟩ := holds.filtered on
    rw [built,Option.some.injEq] at there
    subst there
    refine ⟨keys ++ [key],congrArg some (filterOf_append keys key).symm,fun other held => ?_⟩
    rcases (AList.mem_insert _).mp held with rfl | old
    · simp
    · simp [inside other old]

def look (d : Dictionary F) (key : Str) : Reply :=
  match d.m_dict.lookup key with
  | some value => .found value
  | none => .missing

theorem Holds.looks (holds : Holds enable d entries) (key : Str) : Answers entries (.get key) (look d key) entries := by
  unfold look
  rw [holds.entries]
  cases held : entries key with
  | none => exact .missing held
  | some value => exact .found held

inductive Looked (enable : Bool) : Reply → Bool → Str → Prop where
  | found : Looked enable (.found value) (!enable) value
  | missing : Looked enable .missing false NOT_FOUND
  | unfiltered : enable = true → Looked enable .missing false []

theorem Holds.looked (sound : enable = true → NoFalseNegatives F) (holds : Holds enable d entries) (got : d.get key [] = .ok (ret,value)) :
    Looked enable (look d key) ret value := by
  cases enable with
  | false =>
    rw [d.get_disabled holds.mode] at got
    unfold look
    cases held : d.m_dict.lookup key with
    | none =>
      rw [held] at got
      cases got
      exact .missing
    | some value =>
      rw [held] at got
      cases got
      exact .found
  | true =>
    obtain ⟨keys,built,inside⟩ := holds.filtered rfl
    rw [d.get_enabled holds.mode built] at got
    unfold look
    cases held : d.m_dict.lookup key with
    | none =>
      rw [held] at got
      cases reported : contains (filterOf keys : F) key with
      | false =>
        rw [reported] at got
        cases got
        exact .missing
      | true =>
        rw [reported] at got
        cases got
        exact .unfiltered rfl
    | some value =>
      have reported := sound rfl keys key (inside key (AList.lookup_isSome.mp (by rw [held]; rfl)))
      rw [held,reported] at got
      cases got
      exact .found

theorem Looked.writes (looked : Looked enable reply ret value) (m : Payload) :
    Writes enable m reply (if ret then m.set_value value else m.set_reason value) := by
  cases looked with
  | found =>
    have written : Writes enable m (.found value) _ := .found
    cases enable <;> exact written
  | missing => exact .missing
  | unfiltered on => exact .unfiltered on

end RemoteDict.KeyValue

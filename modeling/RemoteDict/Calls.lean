import Mathlib.Logic.Function.Basic
import RemoteDict.Foundation.Journal
import RemoteDict.BloomFilter
import RemoteDict.Handlers

namespace RemoteDict.Calls
open Foundation

-- A thread outside of the dictionary, or in set between the size test and the lock.
inductive Local where
  | idle
  | tested (key val : Str)
  deriving DecidableEq, Repr

structure State (ι : Type) (F : Type) where
  dictionary : Dictionary F
  threads : ι → Local
  fault : Option Fault

-- get with its out parameter as the caller left it, the size test of set, and
-- set's critical section.
inductive Move (ι : Type) where
  | get (i : ι) (key val : Str)
  | set (i : ι) (key val : Str)
  | store (i : ι)

inductive Record (ι : Type) where
  | called (i : ι) (key val : Str)
  | inserted (i : ι) (key val : Str)
  | returned (i : ι) (ret : Bool)
  | got (i : ι) (key : Str) (ret : Bool) (val : Str)
  deriving DecidableEq, Repr

variable {F : Type} [MembershipFilter F] {ι : Type} [DecidableEq ι]

def act (s : State ι F) : Move ι → Option (State ι F)
  | .get i key val =>
    if s.threads i = .idle then
      match s.dictionary.get key val with
      | .error fault => some {s with fault := some fault}
      | .ok _ => some s
    else none
  | .set i key val =>
    if s.threads i = .idle then
      some (if s.dictionary.full then s else {s with threads := Function.update s.threads i (.tested key val)})
    else none
  | .store i =>
    match s.threads i with
    | .idle => none
    | .tested key val =>
      match s.dictionary.setLocked key val with
      | .error fault => some {s with fault := some fault}
      | .ok dictionary => some {s with dictionary := dictionary,threads := Function.update s.threads i .idle}

def note (s : State ι F) : Move ι → List (Record ι)
  | .get i key val =>
    match s.dictionary.get key val with
    | .error _ => []
    | .ok (ret,found) => [.got i key ret found]
  | .set i key val => if s.dictionary.full then [.called i key val,.returned i false] else [.called i key val]
  | .store i =>
    match s.threads i with
    | .idle => []
    | .tested key val => [.inserted i key val,.returned i true]

def calls (ι F : Type) [MembershipFilter F] [DecidableEq ι] (enable : Bool) : Machine (State ι F) (Move ι) where
  start := ⟨Dictionary.new.enableBloomFilter enable,fun _ => .idle,none⟩
  step s move := if s.fault = none then act s move else none

def written (key : Str) : Record ι → Option Str
  | .inserted _ k val => if k = key then some val else none
  | _ => none

def latest (log : List (Record ι)) (key : Str) : Option Str := log.reverse.findSome? (written key)

inductive SetCall (i : ι) : List (Record ι) → Prop where
  | refused (key val : Str) : SetCall i [.called i key val,.returned i false]
  | stored (key val : Str) : SetCall i [.called i key val,.inserted i key val,.returned i true]

def ofSet (i : ι) : Record ι → Bool
  | .called j _ _ | .inserted j _ _ | .returned j _ => j = i
  | .got _ _ _ _ => false

def begun (i : ι) : Local → List (Record ι)
  | .idle => []
  | .tested key val => [.called i key val]

omit [DecidableEq ι] in
theorem latest_append (log records : List (Record ι)) (key : Str) :
    latest (log ++ records) key = (latest records key).or (latest log key) := by
  rw [latest,List.reverse_append,List.findSome?_append]
  rfl

omit [DecidableEq ι] in
theorem latest_none {log : List (Record ι)} : latest log key = none ↔ ∀ i val, .inserted i key val ∉ log := by
  rw [latest,List.findSome?_eq_none_iff]
  constructor
  · intro unwritten i val member
    have none := unwritten _ (List.mem_reverse.mpr member)
    simp [written] at none
  · intro fresh record member
    have there := List.mem_reverse.mp member
    cases record with
    | inserted i k val =>
      by_cases same : k = key
      · subst same
        exact absurd there (fresh i val)
      · exact if_neg same
    | _ => rfl

omit [DecidableEq ι] in
theorem latest_inserted (i : ι) (key val other : Str) :
    latest [.inserted i key val,.returned i true] other = if key = other then some val else none := by
  simp only [latest,List.reverse_cons,List.reverse_nil,List.nil_append,List.singleton_append,List.findSome?_cons,written]
  by_cases same : key = other <;> simp [same]

section
variable {s next : State ι F}

theorem step_get (off : s.dictionary.m_bloomFilterEnabled = false)
    (stepped : (calls ι F enable).step s (.get i key val) = some next) : next = s ∧ note s (.get i key val) =
      [.got i key (s.dictionary.m_dict.lookup key).isSome ((s.dictionary.m_dict.lookup key).getD NOT_FOUND)] := by
  simp only [calls,act,s.dictionary.get_disabled off] at stepped
  split at stepped
  · split at stepped
    · cases stepped
      simp only [note,s.dictionary.get_disabled off,and_self]
    · cases stepped
  · cases stepped

theorem step_set (stepped : (calls ι F enable).step s (.set i key val) = some next) : s.threads i = .idle ∧
    ((s.dictionary.full = true ∧ next = s ∧ note s (.set i key val) = [.called i key val,.returned i false]) ∨
      s.dictionary.full = false ∧ next = {s with threads := Function.update s.threads i (.tested key val)} ∧
        note s (.set i key val) = [.called i key val]) := by
  simp only [calls,act] at stepped
  split at stepped
  · split at stepped
    · rename_i idle
      refine ⟨idle,?_⟩
      cases limit : s.dictionary.full <;> rw [limit] at stepped <;> cases stepped <;> simp [note,limit]
    · cases stepped
  · cases stepped

theorem step_store (off : s.dictionary.m_bloomFilterEnabled = false)
    (stepped : (calls ι F enable).step s (.store i) = some next) : ∃ key val, s.threads i = .tested key val ∧
      next = {s with
        dictionary := {s.dictionary with m_dict := s.dictionary.m_dict.insert key val}
        threads := Function.update s.threads i .idle} ∧
      note s (.store i) = [.inserted i key val,.returned i true] := by
  simp only [calls,act] at stepped
  split at stepped
  · cases here : s.threads i with
    | idle =>
      rw [here] at stepped
      cases stepped
    | tested key val =>
      simp only [here,Dictionary.setLocked_disabled off] at stepped
      cases stepped
      refine ⟨key,val,rfl,rfl,?_⟩
      simp only [note,here]
  · cases stepped

def Agrees (s : State ι F) (log : List (Record ι)) : Prop :=
  s.dictionary.m_bloomFilterEnabled = false ∧ ∀ key, s.dictionary.m_dict.lookup key = latest log key

omit [MembershipFilter F] [DecidableEq ι] in
theorem Agrees.silent {log : List (Record ι)} (agrees : Agrees s log) (unwritten : ∀ key, latest records key = none) :
    Agrees s (log ++ records) := by
  refine ⟨agrees.1,fun key => ?_⟩
  rw [latest_append,unwritten key,agrees.2 key]
  rfl

theorem step_agrees {log : List (Record ι)} (agrees : Agrees s log)
    (stepped : (calls ι F enable).step s move = some next) : Agrees next (log ++ note s move) := by
  cases move with
  | get i key val =>
    obtain ⟨rfl,noted⟩ := step_get agrees.1 stepped
    rw [noted]
    exact agrees.silent fun _ => rfl
  | set i key val =>
    obtain ⟨_,⟨_,rfl,noted⟩ | ⟨_,rfl,noted⟩⟩ := step_set stepped
    · rw [noted]
      exact agrees.silent fun _ => rfl
    · rw [noted]
      exact Agrees.silent (show Agrees _ log from agrees) fun _ => rfl
  | store i =>
    obtain ⟨key,val,_,rfl,noted⟩ := step_store agrees.1 stepped
    refine ⟨agrees.1,fun other => ?_⟩
    rw [noted,latest_append,latest_inserted]
    by_cases same : key = other
    · subst same
      rw [if_pos rfl]
      exact AList.lookup_insert _
    · rw [if_neg same,Option.none_or,← agrees.2 other]
      exact AList.lookup_insert_ne (Ne.symm same)

def log (ι F : Type) [MembershipFilter F] [DecidableEq ι] (moves : List (Move ι)) : List (Record ι) :=
  (calls ι F false).journal note (calls ι F false).start moves

theorem run_agrees (path : (calls ι F false).run (calls ι F false).start moves = some s) : Agrees s (log ι F moves) := by
  have kept : ∀ (s : State ι F) records move next, Agrees s records → (calls ι F false).step s move = some next →
      Agrees next (records ++ note s move) := fun _ _ _ _ agrees stepped => step_agrees agrees stepped
  exact Machine.journal_agrees kept [] ⟨rfl,fun _ => rfl⟩ path

def Answers (before : List (Record ι)) (key : Str) (ret : Bool) (val : Str) : Prop :=
  (∀ v, (ret = true ∧ val = v) ↔ latest before key = some v) ∧
  ((ret = false ∧ val = NOT_FOUND) ↔ ∀ i v, .inserted i key v ∉ before)

omit [MembershipFilter F] [DecidableEq ι] in
theorem agrees_answers {log : List (Record ι)} (agrees : Agrees s log) (key : Str) :
    Answers log key (s.dictionary.m_dict.lookup key).isSome ((s.dictionary.m_dict.lookup key).getD NOT_FOUND) := by
  rw [Answers,← latest_none,agrees.2 key]
  cases latest log key <;> simp

theorem got_answers (path : (calls ι F false).run (calls ι F false).start moves = some s)
    (split : log ι F moves = before ++ .got i key ret val :: after) : Answers before key ret val := by
  obtain ⟨earlier,move,_,t,start,rest,_,reached,enabled,noted,rfl⟩ := Machine.journal_split path split
  have agrees := run_agrees reached
  obtain ⟨later,stepped⟩ := Option.isSome_iff_exists.mp enabled
  cases move with
  | get j k out =>
    rw [(step_get agrees.1 stepped).2] at noted
    cases start with
    | nil =>
      cases noted
      rw [List.append_nil]
      exact agrees_answers agrees key
    | cons first start => simp at noted
  | set j k v =>
    obtain ⟨_,⟨_,_,said⟩ | ⟨_,_,said⟩⟩ := step_set stepped
    all_goals
      have member : .got i key ret val ∈ note t (.set j k v) := by
        rw [noted]
        exact List.mem_append_right _ List.mem_cons_self
      rw [said] at member
      simp at member
  | store j =>
    obtain ⟨k,v,_,_,said⟩ := step_store agrees.1 stepped
    have member : .got i key ret val ∈ note t (.store j) := by
      rw [noted]
      exact List.mem_append_right _ List.mem_cons_self
    rw [said] at member
    simp at member

def Off (s : State ι F) : Prop := s.dictionary.m_bloomFilterEnabled = false

theorem step_off (off : Off s) (stepped : (calls ι F enable).step s move = some next) : Off next := by
  cases move with
  | get i key val =>
    obtain ⟨rfl,_⟩ := step_get off stepped
    exact off
  | set i key val => obtain ⟨_,⟨_,rfl,_⟩ | ⟨_,rfl,_⟩⟩ := step_set stepped <;> exact off
  | store i =>
    obtain ⟨key,val,_,rfl,_⟩ := step_store off stepped
    exact off

theorem step_speaks (off : Off s) (stepped : (calls ι F enable).step s move = some next) (i : ι) :
    begun i (next.threads i) = begun i (s.threads i) ++ (note s move).filter (ofSet i) ∨
    begun i (next.threads i) = [] ∧ SetCall i (begun i (s.threads i) ++ (note s move).filter (ofSet i)) := by
  cases move with
  | get j key val =>
    obtain ⟨rfl,noted⟩ := step_get off stepped
    rw [noted]
    exact .inl (List.append_nil _).symm
  | set j key val =>
    obtain ⟨idle,⟨_,rfl,noted⟩ | ⟨_,rfl,noted⟩⟩ := step_set stepped
    all_goals
      rw [noted]
      by_cases same : j = i
    · subst same
      refine .inr ⟨by rw [idle]; rfl,?_⟩
      simpa [idle,begun,ofSet] using SetCall.refused key val
    · exact .inl (by simp [ofSet,same])
    · subst same
      exact .inl (by simp [idle,begun,ofSet])
    · exact .inl (by simp [ofSet,same,Function.update_of_ne (Ne.symm same)])
  | store j =>
    obtain ⟨key,val,tested,rfl,noted⟩ := step_store off stepped
    rw [noted]
    by_cases same : j = i
    · subst same
      refine .inr ⟨by simp [begun],?_⟩
      simpa [tested,begun,ofSet] using SetCall.stored key val
    · exact .inl (by simp [ofSet,same,Function.update_of_ne (Ne.symm same)])

theorem run_speaks (path : (calls ι F false).run (calls ι F false).start moves = some s) (i : ι) :
    Machine.Speaks (SetCall i) (begun i (s.threads i)) ((log ι F moves).filter (ofSet i)) := by
  have stays : ∀ (s : State ι F) move next, Off s → (calls ι F false).step s move = some next → Off next :=
    fun _ _ _ off stepped => step_off off stepped
  have kept : ∀ (s : State ι F) move next, Off s → (calls ι F false).step s move = some next →
      begun i (next.threads i) = begun i (s.threads i) ++ (note s move).filter (ofSet i) ∨
      begun i (next.threads i) = [] ∧ SetCall i (begun i (s.threads i) ++ (note s move).filter (ofSet i)) :=
    fun _ _ _ off stepped => step_speaks off stepped i
  exact Machine.journal_speaks (ofSet i) stays kept rfl rfl path

theorem step_keeps (off : Off s) (stepped : (calls ι F enable).step s move = some next)
    (held : key ∈ s.dictionary.m_dict) : key ∈ next.dictionary.m_dict := by
  cases move with
  | get i k val =>
    obtain ⟨rfl,_⟩ := step_get off stepped
    exact held
  | set i k val => obtain ⟨_,⟨_,rfl,_⟩ | ⟨_,rfl,_⟩⟩ := step_set stepped <;> exact held
  | store i =>
    obtain ⟨k,val,_,rfl,_⟩ := step_store off stepped
    exact (AList.mem_insert _).mpr (.inr held)

theorem run_keeps (off : Off s) (path : (calls ι F enable).run s later = some next) (held : key ∈ s.dictionary.m_dict) :
    key ∈ next.dictionary.m_dict := by
  induction later generalizing s with
  | nil =>
    cases path
    exact held
  | cons move later ih =>
    obtain ⟨middle,first,rest⟩ := (calls ι F enable).run_cons.mp path
    exact ih (step_off off first) rest (step_keeps off first held)

theorem refused_keeps (off : Off s) (stepped : (calls ι F enable).step s move = some next)
    (refused : .returned i false ∈ note s move) : next.dictionary = s.dictionary := by
  cases move with
  | get j key val =>
    obtain ⟨rfl,_⟩ := step_get off stepped
    rfl
  | set j key val => obtain ⟨_,⟨_,rfl,_⟩ | ⟨_,rfl,_⟩⟩ := step_set stepped <;> rfl
  | store j =>
    obtain ⟨key,val,_,_,noted⟩ := step_store off stepped
    rw [noted] at refused
    simp at refused

-- In every run of any threads: what get answers, what a call of set does, and
-- that no key disappears.
theorem last_writer_wins (path : (calls ι F false).run (calls ι F false).start moves = some s) :
    (∀ before i key ret val after, log ι F moves = before ++ .got i key ret val :: after → Answers before key ret val) ∧
    (∀ i, Machine.Speaks (SetCall i) (begun i (s.threads i)) ((log ι F moves).filter (ofSet i))) ∧
    (∀ move next i, (calls ι F false).step s move = some next → .returned i false ∈ note s move →
      next.dictionary = s.dictionary) ∧
    ∀ later next, (calls ι F false).run s later = some next → ∀ key ∈ s.dictionary.m_dict, key ∈ next.dictionary.m_dict := by
  have off : Off s := (run_agrees path).1
  refine ⟨?_,run_speaks path,?_,?_⟩
  · intro before i key ret val after split
    exact got_answers path split
  · intro move next i stepped refused
    exact refused_keeps off stepped refused
  · intro later next further key held
    exact run_keeps off further held

end

abbrev twoThreads := calls Bool (BloomFilter BloomFilter.small) false

-- One thread looks a key up before and after the other's insertion.
def around : List (Move Bool) :=
  [.set true (text "k") (text "v"),.get false (text "k") [],.store true,.get false (text "k") []]

theorem last_writer_wins_around : ∃ s, twoThreads.run twoThreads.start around = some s ∧
    (∀ before i key ret val after, log Bool (BloomFilter BloomFilter.small) around = before ++ .got i key ret val :: after →
      Answers before key ret val) ∧
    (∀ i, Machine.Speaks (SetCall i) (begun i (s.threads i))
      ((log Bool (BloomFilter BloomFilter.small) around).filter (ofSet i))) ∧
    (∀ move next i, twoThreads.step s move = some next → .returned i false ∈ note s move →
      next.dictionary = s.dictionary) ∧
    ∀ later next, twoThreads.run s later = some next → ∀ key ∈ s.dictionary.m_dict, key ∈ next.dictionary.m_dict :=
  ⟨_,rfl,last_writer_wins rfl⟩

def viewLocal : Handlers.Local → Local
  | .tested m => .tested m.key m.value
  | _ => .idle

def view (s : Handlers.State ι F) : State ι F := ⟨s.shared.dictionary,fun i => viewLocal (s.threads i),s.fault⟩

theorem view_update (threads : ι → Handlers.Local) (i : ι) (there : Handlers.Local) :
    (fun j => viewLocal (Function.update threads i there j)) =
      Function.update (fun j => viewLocal (threads j)) i (viewLocal there) := by
  funext j
  by_cases same : j = i
  · subst same
    simp
  · simp [same]

theorem view_still (threads : ι → Handlers.Local) (i : ι) (there : Handlers.Local)
    (same : viewLocal there = viewLocal (threads i)) :
    (fun j => viewLocal (Function.update threads i there j)) = fun j => viewLocal (threads j) := by
  rw [view_update,same]
  exact Function.update_eq_self i _

omit [MembershipFilter F] in
theorem settle_still {s : Handlers.State ι F} {shared : Shared F} (dictionary : shared.dictionary = s.shared.dictionary)
    (same : viewLocal there = viewLocal (s.threads i)) : view (Handlers.settle s i (.ok (there,shared))) = view s := by
  simp only [view,Handlers.settle,dictionary,view_still _ _ _ same]

theorem advance_view {s : Handlers.State ι F} (enable : Bool) (clear : s.fault = none)
    (moved : Handlers.advance (s.threads i) s.shared = some result) :
    view (Handlers.settle s i result) = view s ∨
      ∃ move, (calls ι F enable).step (view s) move = some (view (Handlers.settle s i result)) := by
  generalize here : s.threads i = place at moved
  cases Handlers.advance_exact.mp moved with
  | @tests m room =>
    have idle : viewLocal (s.threads i) = .idle := by rw [here]; rfl
    have there : view (Handlers.settle s i (.ok (.tested m,s.shared))) =
        {view s with threads := Function.update (view s).threads i (.tested m.key m.value)} := by
      simp only [view,Handlers.settle,view_update]
      rfl
    refine .inr ⟨.set i m.key m.value,?_⟩
    refine Eq.trans ?_ (congrArg some there.symm)
    simp [calls,act,view,clear,idle,room]
  | @unlooked fault m looked =>
    have idle : viewLocal (s.threads i) = .idle := by rw [here]; rfl
    refine .inr ⟨.get i m.key [],?_⟩
    have failed : view (Handlers.settle s i (.error fault)) = {view s with fault := some fault} := rfl
    refine Eq.trans ?_ (congrArg some failed.symm)
    simp [calls,act,view,clear,idle,looked]
  | @unstored fault m stored =>
    have tested : viewLocal (s.threads i) = .tested m.key m.value := by rw [here]; rfl
    refine .inr ⟨.store i,?_⟩
    have failed : view (Handlers.settle s i (.error fault)) = {view s with fault := some fault} := rfl
    refine Eq.trans ?_ (congrArg some failed.symm)
    simp [calls,act,view,clear,tested,stored]
  | @stores dictionary m stored =>
    have tested : viewLocal (s.threads i) = .tested m.key m.value := by rw [here]; rfl
    refine .inr ⟨.store i,?_⟩
    have there : view (Handlers.settle s i (.ok (.done m,{s.shared with dictionary := dictionary}))) =
        {view s with dictionary := dictionary,threads := Function.update (view s).threads i .idle} := by
      simp only [view,Handlers.settle,view_update]
      rfl
    refine Eq.trans ?_ (congrArg some there.symm)
    simp [calls,act,view,clear,tested,stored]
  | counts | refuses | readsAll | looks | finds | misses | readsSucc | tells | leaves =>
    exact .inl (settle_still rfl (by rw [here]; rfl))

-- The handlers use the dictionary through such calls only.
theorem workers_calls (enable : Bool) {s : Handlers.State ι F} (reached : (Handlers.workers ι F enable).Reached s) :
    (calls ι F enable).Reached (view s) := by
  refine (calls ι F enable).simulates (Handlers.workers ι F enable) view rfl ?_ reached
  intro s move next _ stepped
  cases move with
  | receive i type m =>
    obtain ⟨_,idle,rfl⟩ := Handlers.step_receive.mp stepped
    refine .inl ?_
    simp only [view,view_still s.threads i (.ready type m) (by rw [idle]; rfl)]
  | advance i =>
    obtain ⟨clear,result,moved,rfl⟩ := Handlers.step_advance.mp stepped
    exact advance_view enable clear moved

end RemoteDict.Calls

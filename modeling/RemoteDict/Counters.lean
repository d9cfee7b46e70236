import RemoteDict.BloomFilter
import RemoteDict.Foundation.Journal
import RemoteDict.Foundation.Ledger
import RemoteDict.Handlers

namespace RemoteDict.Counters
open Foundation Handlers TcpFlow

inductive Record (ι : Type) where
  | received (i : ι) (type : RequestType)
  | requested (i : ι)
  | answered (i : ι) (ret : Bool)
  | succeeded (i : ι)
  | failed (i : ι)
  | finished (i : ι)
  deriving DecidableEq, Repr

variable {F : Type} [MembershipFilter F] {ι : Type} [DecidableEq ι]

-- What the steps of the handlers do to the counters, what Dictionary::get
-- returned to them, and where each of them begins and ends.
def noteAdvance (i : ι) (s : Shared F) : Local → List (Record ι)
  | .ready .GET _ => [.requested i]
  | .ready .SET _ => if s.dictionary.full then [.finished i] else []
  | .counted m =>
    match s.dictionary.get m.key [] with
    | .error _ => []
    | .ok (ret,_) => [.answered i ret]
  | .looked _ true _ => [.succeeded i,.finished i]
  | .looked _ false _ => [.failed i,.finished i]
  | .tested m =>
    match s.dictionary.setLocked m.key m.value with
    | .error _ => []
    | .ok _ => [.finished i]
  | .readSucc _ _ _ => [.finished i]
  | .idle | .ready .STAT _ | .readAll _ _ | .done _ => []

def note (s : State ι F) : Move ι → List (Record ι)
  | .receive i type _ => [.received i type]
  | .advance i => noteAdvance i s.shared (s.threads i)

def ofThread (i : ι) : Record ι → Bool
  | .received j _ | .requested j | .answered j _ | .succeeded j | .failed j | .finished j => j = i

-- A request from its arrival to the end of its handler.
inductive Handled (i : ι) : List (Record ι) → Prop where
  | succeeded : Handled i [.received i .GET,.requested i,.answered i true,.succeeded i,.finished i]
  | failed : Handled i [.received i .GET,.requested i,.answered i false,.failed i,.finished i]
  | stored : Handled i [.received i .SET,.finished i]
  | reported : Handled i [.received i .STAT,.finished i]

def begun (i : ι) : Local → List (Record ι)
  | .idle | .done _ => []
  | .ready type _ => [.received i type]
  | .counted _ => [.received i .GET,.requested i]
  | .looked _ ret _ => [.received i .GET,.requested i,.answered i ret]
  | .tested _ => [.received i .SET]
  | .readAll _ _ | .readSucc _ _ _ => [.received i .STAT]

def inFlight : Local → Nat
  | .counted _ | .looked _ _ _ => 1
  | _ => 0

def isRequested : Record ι → Bool
  | .requested _ => true
  | _ => false

def isSucceeded : Record ι → Bool
  | .succeeded _ => true
  | _ => false

def isFailed : Record ι → Bool
  | .failed _ => true
  | _ => false

-- The counters are 64 bits wide.
structure Counted (log : List (Record ι)) (stats : Stats) : Prop where
  all : stats.m_numGetReq = UInt64.ofNat (log.countP isRequested)
  succ : stats.m_numGetReqSucc = UInt64.ofNat (log.countP isSucceeded)
  fail : stats.m_numGetReqFail = UInt64.ofNat (log.countP isFailed)

def count (stats : Stats) : Record ι → Stats
  | .requested _ => stats.incrGetReq
  | .succeeded _ => stats.incrGetReqSucc
  | .failed _ => stats.incrGetReqFail
  | _ => stats

omit [DecidableEq ι] in
theorem count_counted {log : List (Record ι)} (counted : Counted log stats) (record : Record ι) :
    Counted (log ++ [record]) (count stats record) := by
  obtain ⟨all,succ,fail⟩ := counted
  cases record <;> constructor <;>
    simp [count,Stats.incrGetReq,Stats.incrGetReqSucc,Stats.incrGetReqFail,isRequested,isSucceeded,isFailed,all,succ,fail]

omit [DecidableEq ι] in
theorem tally_counted (records : List (Record ι)) {log : List (Record ι)} (counted : Counted log stats) :
    Counted (log ++ records) (records.foldl count stats) := by
  induction records generalizing log stats with
  | nil =>
    rw [List.append_nil]
    exact counted
  | cons record records ih =>
    have here := ih (count_counted counted record)
    rw [List.append_assoc] at here
    exact here

theorem noteAdvance_thread {i : ι} {s : Shared F} {record : Record ι} (member : record ∈ noteAdvance i s here) (j : ι) :
    ofThread j record = decide (i = j) := by
  unfold noteAdvance at member
  grind [ofThread]

theorem noteAdvance_filter (i j : ι) (s : Shared F) (here : Local) :
    (noteAdvance i s here).filter (ofThread j) = if i = j then noteAdvance i s here else [] := by
  by_cases same : i = j
  · rw [if_pos same,List.filter_eq_self]
    intro record member
    rw [noteAdvance_thread member,decide_eq_true same]
  · rw [if_neg same,List.filter_eq_nil_iff]
    intro record member
    rw [noteAdvance_thread member]
    simpa using same

structure Noted (i : ι) (s shared : Shared F) (here there : Local) : Prop where
  stats : shared.stats = (noteAdvance i s here).foldl count s.stats
  flight : inFlight there + ((noteAdvance i s here).countP isSucceeded + (noteAdvance i s here).countP isFailed) =
    inFlight here + (noteAdvance i s here).countP isRequested
  begun : begun i there = begun i here ++ noteAdvance i s here ∨
    begun i there = [] ∧ Handled i (begun i here ++ noteAdvance i s here)

omit [DecidableEq ι] in
theorem advance_noted (i : ι) {s : Shared F} (moved : advance here s = some (.ok (there,shared))) :
    Noted i s shared here there := by
  cases advance_exact.mp moved with
  | counts => exact ⟨rfl,rfl,.inl rfl⟩
  | @refuses m full =>
    have noted : noteAdvance i shared (.ready .SET m) = [.finished i] := by simp only [noteAdvance,full,if_true]
    constructor <;> rw [noted]
    · rfl
    · rfl
    · exact .inr ⟨rfl,.stored⟩
  | @tests m room =>
    have noted : noteAdvance i shared (.ready .SET m) = [] := by simp [noteAdvance,room]
    constructor <;> rw [noted]
    · rfl
    · rfl
    · exact .inl rfl
  | readsAll => exact ⟨rfl,rfl,.inl rfl⟩
  | @looks ret value m looked =>
    have noted : noteAdvance i shared (.counted m) = [.answered i ret] := by simp only [noteAdvance,looked]
    constructor <;> rw [noted]
    · rfl
    · rfl
    · exact .inl rfl
  | finds => exact ⟨rfl,rfl,.inr ⟨rfl,.succeeded⟩⟩
  | misses => exact ⟨rfl,rfl,.inr ⟨rfl,.failed⟩⟩
  | @stores dictionary m stored =>
    have noted : noteAdvance i s (.tested m) = [.finished i] := by simp only [noteAdvance,stored]
    constructor <;> rw [noted]
    · rfl
    · rfl
    · exact .inr ⟨rfl,.stored⟩
  | readsSucc => exact ⟨rfl,rfl,.inl rfl⟩
  | tells => exact ⟨rfl,rfl,.inr ⟨rfl,.reported⟩⟩
  | leaves => exact ⟨rfl,rfl,.inl rfl⟩

section
variable {s next : State ι F}

theorem step_noted (built : s.shared.dictionary.Built) (stepped : step s move = some next) :
    (∃ i type m, move = .receive i type m ∧ s.threads i = .idle ∧
      next = {s with threads := Function.update s.threads i (.ready type m)}) ∨
    ∃ i there shared, move = .advance i ∧ Noted i s.shared shared (s.threads i) there ∧
      next = {s with shared := shared,threads := Function.update s.threads i there} := by
  cases move with
  | receive i type m =>
    obtain ⟨_,idle,rfl⟩ := step_receive.mp stepped
    exact .inl ⟨i,type,m,rfl,idle,rfl⟩
  | advance i =>
    obtain ⟨_,result,moved,rfl⟩ := step_advance.mp stepped
    obtain ⟨there,shared,rfl⟩ := advance_runs built moved
    exact .inr ⟨i,there,shared,rfl,advance_noted i moved,rfl⟩

theorem step_begun (built : s.shared.dictionary.Built) (stepped : step s move = some next) (j : ι) :
    begun j (next.threads j) = begun j (s.threads j) ++ (note s move).filter (ofThread j) ∨
    begun j (next.threads j) = [] ∧ Handled j (begun j (s.threads j) ++ (note s move).filter (ofThread j)) := by
  rcases step_noted built stepped with ⟨i,type,m,rfl,idle,rfl⟩ | ⟨i,there,shared,rfl,noted,rfl⟩
  · by_cases same : i = j
    · subst same
      exact .inl (by simp [note,idle,begun,ofThread])
    · exact .inl (by simp [note,ofThread,same,Function.update_of_ne (Ne.symm same)])
  · simp only [note,noteAdvance_filter]
    by_cases same : i = j
    · subst same
      rw [if_pos rfl,Function.update_self]
      exact noted.begun
    · rw [if_neg same,Function.update_of_ne (Ne.symm same),List.append_nil]
      exact .inl rfl

theorem step_counted {log : List (Record ι)} (built : s.shared.dictionary.Built) (counted : Counted log s.shared.stats)
    (stepped : step s move = some next) : Counted (log ++ note s move) next.shared.stats := by
  rcases step_noted built stepped with ⟨i,type,m,rfl,idle,rfl⟩ | ⟨i,there,shared,rfl,noted,rfl⟩
  · exact count_counted counted (.received i type)
  · dsimp only
    rw [noted.stats]
    exact tally_counted _ counted

def flights [Fintype ι] (s : State ι F) : Nat := ∑ i, inFlight (s.threads i)

theorem step_flights [Fintype ι] (built : s.shared.dictionary.Built) (stepped : step s move = some next) :
    flights next + ((note s move).countP isSucceeded + (note s move).countP isFailed) =
      flights s + (note s move).countP isRequested := by
  rcases step_noted built stepped with ⟨i,type,m,rfl,idle,rfl⟩ | ⟨i,there,shared,rfl,noted,rfl⟩
  · have sum := Ledger.sum_update inFlight s.threads i (.ready type m)
    rw [idle] at sum
    simpa [flights,note,isSucceeded,isFailed,isRequested,inFlight] using sum
  · have sum := Ledger.sum_update inFlight s.threads i there
    have here := noted.flight
    simp only [flights,note] at sum ⊢
    omega

structure Balanced [Fintype ι] (s : State ι F) (log : List (Record ι)) : Prop where
  built : s.shared.dictionary.Built
  counted : Counted log s.shared.stats
  balance : log.countP isRequested = log.countP isSucceeded + log.countP isFailed + flights s

theorem step_balanced [Fintype ι] {log : List (Record ι)} (balanced : Balanced s log)
    (stepped : step s move = some next) : Balanced next (log ++ note s move) := by
  obtain ⟨built,counted,balance⟩ := balanced
  have flight := step_flights built stepped
  refine ⟨step_built built stepped,step_counted built counted stepped,?_⟩
  simp only [List.countP_append]
  omega

variable (enable : Bool)

def log (ι F : Type) [MembershipFilter F] [DecidableEq ι] (enable : Bool) (moves : List (Move ι)) : List (Record ι) :=
  (workers ι F enable).journal note (workers ι F enable).start moves

theorem start_balanced [Fintype ι] : Balanced (workers ι F enable).start [] :=
  ⟨Dictionary.built_start enable,⟨rfl,rfl,rfl⟩,by simp [flights,workers,inFlight]⟩

theorem path_balanced [Fintype ι] {log : List (Record ι)} (balanced : Balanced s log)
    (path : (workers ι F enable).run s moves = some next) :
    Balanced next (log ++ (workers ι F enable).journal note s moves) := by
  have kept : ∀ (s : State ι F) records move next, Balanced s records → (workers ι F enable).step s move = some next →
      Balanced next (records ++ note s move) := fun _ _ _ _ balanced stepped => step_balanced balanced stepped
  exact Machine.journal_agrees kept log balanced path

theorem run_balanced [Fintype ι] (path : (workers ι F enable).run (workers ι F enable).start moves = some s) :
    Balanced s (log ι F enable moves) :=
  path_balanced enable (start_balanced enable) path

theorem run_speaks (path : (workers ι F enable).run (workers ι F enable).start moves = some s) (i : ι) :
    Machine.Speaks (Handled i) (begun i (s.threads i)) ((log ι F enable moves).filter (ofThread i)) := by
  have stays : ∀ (s : State ι F) move next, s.shared.dictionary.Built → (workers ι F enable).step s move = some next →
      next.shared.dictionary.Built := fun _ _ _ built stepped => step_built built stepped
  have kept : ∀ (s : State ι F) move next, s.shared.dictionary.Built → (workers ι F enable).step s move = some next →
      begun i (next.threads i) = begun i (s.threads i) ++ (note s move).filter (ofThread i) ∨
      begun i (next.threads i) = [] ∧ Handled i (begun i (s.threads i) ++ (note s move).filter (ofThread i)) :=
    fun _ _ _ built stepped => step_begun built stepped i
  exact Machine.journal_speaks (ofThread i) stays kept (Dictionary.built_start enable) rfl path

omit [MembershipFilter F] [DecidableEq ι] in
theorem Balanced.modular [Fintype ι] {log : List (Record ι)} (balanced : Balanced s log) :
    s.shared.stats.m_numGetReq =
      s.shared.stats.m_numGetReqSucc + s.shared.stats.m_numGetReqFail + UInt64.ofNat (flights s) := by
  rw [balanced.counted.all,balanced.counted.succ,balanced.counted.fail,balanced.balance,UInt64.ofNat_add,
    UInt64.ofNat_add]

theorem step_stats (built : s.shared.dictionary.Built) (stepped : step s move = some next) :
    next.shared.stats = (note s move).foldl count s.shared.stats := by
  rcases step_noted built stepped with ⟨i,type,m,rfl,idle,rfl⟩ | ⟨i,there,shared,rfl,noted,rfl⟩
  · rfl
  · exact noted.stats

-- In every run of any threads: the three counters, what each step adds to them,
-- and what each thread's requests have counted.
theorem counters_balance [Fintype ι] (path : (workers ι F enable).run (workers ι F enable).start moves = some s) :
    s.shared.stats.m_numGetReq =
      s.shared.stats.m_numGetReqSucc + s.shared.stats.m_numGetReqFail + UInt64.ofNat (flights s) ∧
    Counted (log ι F enable moves) s.shared.stats ∧
    (∀ move next, (workers ι F enable).step s move = some next →
      next.shared.stats = (note s move).foldl count s.shared.stats) ∧
    ∀ i, Machine.Speaks (Handled i) (begun i (s.threads i)) ((log ι F enable moves).filter (ofThread i)) := by
  have balanced := run_balanced enable path
  refine ⟨balanced.modular,balanced.counted,?_,run_speaks enable path⟩
  intro move next stepped
  exact step_stats balanced.built stepped

end

abbrev twoWorkers := workers Bool (BloomFilter BloomFilter.small) false

def half : List (Move Bool) :=
  [.receive true .GET {},.receive false .GET {},.advance true,.advance false,.advance true,.advance false,.advance false]

theorem counters_balance_half : ∃ s, twoWorkers.run twoWorkers.start half = some s ∧
    s.shared.stats.m_numGetReq =
      s.shared.stats.m_numGetReqSucc + s.shared.stats.m_numGetReqFail + UInt64.ofNat (flights s) ∧
    Counted (log Bool (BloomFilter BloomFilter.small) false half) s.shared.stats ∧
    (∀ move next, twoWorkers.step s move = some next →
      next.shared.stats = (note s move).foldl count s.shared.stats) ∧
    ∀ i, Machine.Speaks (Handled i) (begun i (s.threads i))
      ((log Bool (BloomFilter BloomFilter.small) false half).filter (ofThread i)) :=
  ⟨_,rfl,counters_balance false rfl⟩

end RemoteDict.Counters

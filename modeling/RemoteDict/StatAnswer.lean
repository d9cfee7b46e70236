import RemoteDict.Counters
import RemoteDict.Foundation.Word

namespace RemoteDict.StatAnswer
open Foundation Handlers Counters
open TcpFlow (setStats)

def Consistent (m : Payload) : Prop :=
  (m.mutable_stats.numsuccgetreq_.getD 0).toInt + (m.mutable_stats.numfailgetreq_.getD 0).toInt ≤
    (m.mutable_stats.numgetreq_.getD 0).toInt

instance (m : Payload) : Decidable (Consistent m) := inferInstanceAs (Decidable (_ ≤ _))

theorem counter_toInt (small : n < 2^31) : (UInt64.ofNat n).toUInt32.toInt32.toInt = n := by
  have value : (UInt64.ofNat n).toUInt32.toNat = n := by
    rw [UInt64.toNat_toUInt32,UInt64.toNat_ofNat']
    omega
  have low : (UInt64.ofNat n).toUInt32.toNat < 2^31 := by omega
  rw [Word.toInt_small low,value]

theorem setStats_consistent {all succ fail : Nat} (m : Payload) (small : all < 2^31) (fewer : succ < 2^31)
    (less : fail < 2^31) :
    Consistent (setStats m (UInt64.ofNat all) (UInt64.ofNat succ) (UInt64.ofNat fail)) ↔ succ + fail ≤ all := by
  have total : ((setStats m (UInt64.ofNat all) (UInt64.ofNat succ) (UInt64.ofNat fail)).mutable_stats) =
      ⟨some (UInt64.ofNat all).toUInt32.toInt32,some (UInt64.ofNat succ).toUInt32.toInt32,
        some (UInt64.ofNat fail).toUInt32.toInt32⟩ := rfl
  simp only [Consistent,total,Option.getD_some,counter_toInt small,counter_toInt fewer,counter_toInt less]
  omega

variable {F : Type} [MembershipFilter F] {ι : Type} [DecidableEq ι] {s next : State ι F}

-- A thread inside of its handler takes its next step itself.
theorem step_waits {i : ι} (busy : s.threads i ≠ .idle) (other : move ≠ .advance i) (stepped : step s move = some next) :
    next.threads i = s.threads i := by
  cases move with
  | receive j type m =>
    obtain ⟨_,idle,rfl⟩ := step_receive.mp stepped
    have apart : i ≠ j := by
      rintro rfl
      exact busy idle
    exact Function.update_of_ne apart _ _
  | advance j =>
    have apart : i ≠ j := by
      rintro rfl
      exact other rfl
    obtain ⟨_,result,_,rfl⟩ := step_advance.mp stepped
    cases result with
    | error fault => rfl
    | ok moved => exact Function.update_of_ne apart _ _

theorem run_waits {i : ι} (busy : s.threads i ≠ .idle) (others : .advance i ∉ moves)
    (path : (workers ι F enable).run s moves = some next) : next.threads i = s.threads i := by
  induction moves generalizing s with
  | nil =>
    cases path
    rfl
  | cons move moves ih =>
    obtain ⟨middle,first,rest⟩ := (workers ι F enable).run_cons.mp path
    have other : move ≠ .advance i := fun same => others (same ▸ List.mem_cons_self)
    have same := step_waits busy other first
    rw [← same]
    exact ih (same ▸ busy) (fun member => others (List.mem_cons_of_mem _ member)) rest

theorem read_waits {i : ι} (here : s.threads i = place) (read : advance place s.shared = some (.ok (there,s.shared)))
    (busy : there ≠ .idle) (others : .advance i ∉ between)
    (path : (workers ι F enable).run s (.advance i :: between) = some next) : next.threads i = there := by
  obtain ⟨middle,first,rest⟩ := (workers ι F enable).run_cons.mp path
  obtain ⟨_,result,moved,rfl⟩ := step_advance.mp first
  rw [here,read] at moved
  cases moved
  have same : (settle s i (.ok (there,s.shared))).threads i = there := Function.update_self _ _ _
  have waiting : (settle s i (.ok (there,s.shared))).threads i ≠ .idle := by
    rw [same]
    exact busy
  exact (run_waits waiting others rest).trans same

theorem stat_reads {i : ι} (here : s.threads i = .ready .STAT m) (before : .advance i ∉ between)
    (first : (workers ι F enable).run s (.advance i :: between) = some middle) (later : .advance i ∉ after)
    (second : (workers ι F enable).run middle (.advance i :: after) = some late)
    (third : (workers ι F enable).step late (.advance i) = some last) :
    last.threads i = .done (setStats m s.shared.stats.m_numGetReq middle.shared.stats.m_numGetReqSucc
      late.shared.stats.m_numGetReqFail) := by
  have all := read_waits here rfl (by simp) before first
  have succ := read_waits all rfl (by simp) later second
  have path := ((workers ι F enable).run_singleton).trans third
  exact read_waits succ rfl (by simp) List.not_mem_nil path

omit [DecidableEq ι] in
theorem note_one (s : State ι F) (move : Move ι) :
    (note s move).countP isRequested + ((note s move).countP isSucceeded + (note s move).countP isFailed) ≤ 1 := by
  have short : ∀ i, (noteAdvance i s.shared (s.threads i)).countP isRequested +
      ((noteAdvance i s.shared (s.threads i)).countP isSucceeded +
        (noteAdvance i s.shared (s.threads i)).countP isFailed) ≤ 1 := by
    intro i
    unfold noteAdvance
    split <;> (try split) <;> simp [List.countP_cons,isRequested,isSucceeded,isFailed]
  cases move with
  | receive i type m => exact Nat.zero_le 1
  | advance i => exact short i

omit [MembershipFilter F] [DecidableEq ι] in
theorem counted_few {log : List (Record ι)} {t : State ι F} [Fintype ι] (balanced : Balanced t log)
    (below : log.countP isRequested ≤ 2^31) (small : t.shared.stats.m_numGetReq.toNat < 2^31) :
    log.countP isRequested < 2^31 := by
  rw [balanced.counted.all,UInt64.toNat_ofNat'] at small
  omega

theorem run_few [Fintype ι] {log : List (Record ι)} (balanced : Balanced s log) (below : log.countP isRequested ≤ 2^31)
    (small : ∀ t, (workers ι F enable).Visits s moves t → t.shared.stats.m_numGetReq.toNat < 2^31)
    (path : (workers ι F enable).run s moves = some next) :
    (log ++ (workers ι F enable).journal note s moves).countP isRequested < 2^31 := by
  have few := counted_few balanced below (small s ((workers ι F enable).visits_first))
  induction moves generalizing s log with
  | nil =>
    rw [Machine.journal,List.append_nil]
    exact few
  | cons move moves ih =>
    obtain ⟨middle,first,rest⟩ := (workers ι F enable).run_cons.mp path
    have later : ∀ t, (workers ι F enable).Visits middle moves t → t.shared.stats.m_numGetReq.toNat < 2^31 :=
      fun t seen => small t (((workers ι F enable).visits_cons first).mpr (.inr seen))
    have balance := step_balanced balanced first
    have more := note_one s move
    have next : (log ++ note s move).countP isRequested ≤ 2^31 := by
      rw [List.countP_append]
      omega
    rw [Machine.journal_cons first,← List.append_assoc]
    exact ih balance next later rest (counted_few balance next (later middle ((workers ι F enable).visits_first)))

-- The answer of a STAT whose steps come between any steps of any other threads:
-- `s`, `middle` and `late` are the states that its three reads see.
theorem stat_exact [Fintype ι] {i : ι} (path : (workers ι F enable).run (workers ι F enable).start early = some s)
    (here : s.threads i = .ready .STAT m) (before : .advance i ∉ between)
    (first : (workers ι F enable).run s (.advance i :: between) = some middle) (later : .advance i ∉ after)
    (second : (workers ι F enable).run middle (.advance i :: after) = some late)
    (third : (workers ι F enable).step late (.advance i) = some last)
    (small : ∀ t, (workers ι F enable).Visits (workers ι F enable).start
      (early ++ (.advance i :: between ++ .advance i :: after)) t → t.shared.stats.m_numGetReq.toNat < 2^31) :
    ∃ response, last.threads i = .done response ∧
      (Consistent response ↔
        ((workers ι F enable).journal note s (.advance i :: between)).countP isSucceeded +
          ((workers ι F enable).journal note s (.advance i :: between ++ .advance i :: after)).countP isFailed ≤
            flights s) := by
  have whole := (workers ι F enable).run_join path ((workers ι F enable).run_join first second)
  have few := run_few (start_balanced enable) (Nat.zero_le _) small whole
  rw [List.nil_append,Machine.journal_append path] at few
  have one := run_balanced enable path
  have two := path_balanced enable one first
  have three := path_balanced enable one ((workers ι F enable).run_join first second)
  have grown : (workers ι F enable).journal note s (.advance i :: between ++ .advance i :: after) = _ :=
    Machine.journal_append first
  have reads := stat_reads here before first later second third
  rw [one.counted.all,two.counted.succ,three.counted.fail] at reads
  refine ⟨_,reads,?_⟩
  have balance := one.balance
  have last := three.balance
  rw [grown] at few last reads ⊢
  simp only [log,List.countP_append] at few balance last reads ⊢
  rw [setStats_consistent m (by omega) (by omega) (by omega)]
  omega

def received : List (Move Bool) := [.receive true .STAT {},.receive false .GET {}]

def get : List (Move Bool) := [.advance false,.advance false,.advance false]

-- A GET is under way at the first read, ends before the second, and another one
-- begins before the third.
def ending : List (Move Bool) := [.advance false,.advance false,.advance false]

def beginning : List (Move Bool) := [.receive false .GET {},.advance false]

theorem stat_exact_crossing : ∃ s middle late last response,
    twoWorkers.run twoWorkers.start (received ++ [.advance false]) = some s ∧
    twoWorkers.run s (.advance true :: ending) = some middle ∧ twoWorkers.run middle (.advance true :: beginning) = some late ∧
    twoWorkers.step late (.advance true) = some last ∧ last.threads true = .done response ∧
    (Consistent response ↔
      (twoWorkers.journal note s (.advance true :: ending)).countP isSucceeded +
        (twoWorkers.journal note s (.advance true :: ending ++ .advance true :: beginning)).countP isFailed ≤ flights s) := by
  have small : ∀ t, twoWorkers.Visits twoWorkers.start
      (received ++ [.advance false] ++ (.advance true :: ending ++ .advance true :: beginning)) t →
      t.shared.stats.m_numGetReq.toNat < 2^31 := fun t seen =>
    of_decide_eq_true (twoWorkers.visits_everywhere (rfl : twoWorkers.everywhere (fun t => decide (t.shared.stats.m_numGetReq.toNat < 2^31)) _ _ = true) seen)
  have path : twoWorkers.run twoWorkers.start (received ++ [.advance false]) = some _ := rfl
  obtain ⟨response,answered,exact⟩ := stat_exact path rfl (by simp [ending]) rfl (by simp [beginning]) rfl rfl small
  exact ⟨_,_,_,_,response,rfl,rfl,rfl,rfl,answered,exact⟩

-- A GET that begins and fails after the first of the three reads.
theorem stat_torn : ∃ s last response, twoWorkers.run twoWorkers.start received = some s ∧
    twoWorkers.run s (.advance true :: get ++ [.advance true,.advance true]) = some last ∧
    last.threads true = .done response ∧ last.shared.stats = ⟨1,0,1⟩ ∧ ¬ Consistent response :=
  ⟨_,_,_,rfl,rfl,rfl,by decide,by decide⟩

end RemoteDict.StatAnswer

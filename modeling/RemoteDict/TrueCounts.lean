import RemoteDict.StatAnswer

namespace RemoteDict.TrueCounts
open Foundation Handlers Counters
open TcpFlow (setStats)

structure Told {ι : Type} (response : Payload) (log : List (Record ι)) : Prop where
  all : (response.mutable_stats.numgetreq_.getD 0).toInt = log.countP isRequested
  succ : (response.mutable_stats.numsuccgetreq_.getD 0).toInt = log.countP isSucceeded
  fail : (response.mutable_stats.numfailgetreq_.getD 0).toInt = log.countP isFailed

structure Risen (earlier later : Payload) : Prop where
  all : (earlier.mutable_stats.numgetreq_.getD 0).toInt ≤ (later.mutable_stats.numgetreq_.getD 0).toInt
  succ : (earlier.mutable_stats.numsuccgetreq_.getD 0).toInt ≤ (later.mutable_stats.numsuccgetreq_.getD 0).toInt
  fail : (earlier.mutable_stats.numfailgetreq_.getD 0).toInt ≤ (later.mutable_stats.numfailgetreq_.getD 0).toInt

theorem counter_exact (n : Nat) : (UInt64.ofNat n).toUInt32.toInt32.toInt = n ↔ n < 2^31 := by
  constructor
  · intro same
    have below := Int32.toInt_lt (UInt64.ofNat n).toUInt32.toInt32
    rw [same] at below
    exact Int.ofNat_lt.mp below
  · exact StatAnswer.counter_toInt

theorem setStats_told {ι : Type} {log : List (Record ι)} {m : Payload}
    (total : log.countP isRequested = log.countP isSucceeded + log.countP isFailed) :
    Told (setStats m (UInt64.ofNat (log.countP isRequested)) (UInt64.ofNat (log.countP isSucceeded))
      (UInt64.ofNat (log.countP isFailed))) log ↔ log.countP isRequested < 2^31 := by
  constructor
  · intro told
    exact (counter_exact _).mp told.all
  · intro small
    exact ⟨(counter_exact _).mpr small,(counter_exact _).mpr (by omega),(counter_exact _).mpr (by omega)⟩

variable {F : Type} [MembershipFilter F] {ι : Type} [DecidableEq ι] {enable : Bool} {i : ι} {s last : State ι F}

-- The steps in which thread i handles a STAT, with those of the others in
-- between, and the answer it ends with.
def Answered (enable : Bool) (i : ι) (s : State ι F) (moves : List (Move ι)) (last : State ι F) (response : Payload) : Prop :=
  ∃ m between after middle late, moves = .advance i :: between ++ (.advance i :: after ++ [.advance i]) ∧
    s.threads i = .ready .STAT m ∧ .advance i ∉ between ∧ .advance i ∉ after ∧
    (workers ι F enable).run s (.advance i :: between) = some middle ∧
    (workers ι F enable).run middle (.advance i :: after) = some late ∧
    (workers ι F enable).step late (.advance i) = some last ∧ last.threads i = .done response

def Quiet [Fintype ι] (enable : Bool) (s : State ι F) (moves : List (Move ι)) : Prop :=
  ∀ t, (workers ι F enable).Visits s moves t → flights t = 0

def Uncounted (log : List (Record ι)) : Prop :=
  log.countP isRequested = 0 ∧ log.countP isSucceeded = 0 ∧ log.countP isFailed = 0

variable [Fintype ι]

theorem quiet_step (built : s.shared.dictionary.Built) (stepped : step s move = some last) (still : flights s = 0)
    (quiet : flights last = 0) : Uncounted (note s move) := by
  have flight := step_flights built stepped
  have one := StatAnswer.note_one s move
  rw [Uncounted]
  omega

theorem quiet_run (built : s.shared.dictionary.Built) (path : (workers ι F enable).run s moves = some last)
    (quiet : Quiet enable s moves) : Uncounted ((workers ι F enable).journal note s moves) := by
  induction moves generalizing s with
  | nil => exact ⟨rfl,rfl,rfl⟩
  | cons move moves ih =>
    obtain ⟨middle,first,rest⟩ := (workers ι F enable).run_cons.mp path
    have later : Quiet enable middle moves := fun t seen => quiet t (((workers ι F enable).visits_cons first).mpr (.inr seen))
    have here := quiet_step built first (quiet s ((workers ι F enable).visits_first))
      (later middle ((workers ι F enable).visits_first))
    have tail := ih (step_built built first) rest later
    rw [Machine.journal_cons first]
    simp only [Uncounted,List.countP_append] at here tail ⊢
    omega

theorem Quiet.nil (still : flights s = 0) : Quiet enable s [] := by
  intro t seen
  cases (workers ι F enable).visits_nil.mp seen
  exact still

theorem Quiet.cons (still : flights s = 0) (stepped : (workers ι F enable).step s move = some last)
    (rest : Quiet enable last moves) : Quiet enable s (move :: moves) := by
  intro t seen
  rcases ((workers ι F enable).visits_cons stepped).mp seen with rfl | later
  · exact still
  · exact rest t later

theorem Quiet.front (quiet : Quiet enable s (early ++ late)) : Quiet enable s early := by
  rintro t ⟨before,after,split,path⟩
  exact quiet t ⟨before,after ++ late,by rw [split,List.append_assoc],path⟩

omit [DecidableEq ι] [Fintype ι] in
theorem same_counted {log more : List (Record ι)} (counted : Counted (log ++ more) stats) (none : Uncounted more) :
    Counted log stats := by
  obtain ⟨all,succ,fail⟩ := counted
  rw [List.countP_append,none.1] at all
  rw [List.countP_append,none.2.1] at succ
  rw [List.countP_append,none.2.2] at fail
  exact ⟨all,succ,fail⟩

theorem answered_reads (path : (workers ι F enable).run (workers ι F enable).start early = some s)
    (answered : Answered enable i s moves last response) (quiet : Quiet enable s moves) :
    ∃ m, response = setStats m (UInt64.ofNat ((log ι F enable early).countP isRequested))
      (UInt64.ofNat ((log ι F enable early).countP isSucceeded)) (UInt64.ofNat ((log ι F enable early).countP isFailed)) := by
  obtain ⟨m,between,after,middle,late,rfl,here,before,later,first,second,third,done⟩ := answered
  have balanced := run_balanced enable path
  have still : Quiet enable s (.advance i :: between ++ .advance i :: after) := by
    rw [← List.append_assoc] at quiet
    exact quiet.front
  have one := same_counted (path_balanced enable balanced first).counted (quiet_run balanced.built first still.front)
  have joined := (workers ι F enable).run_join first second
  have two := same_counted (path_balanced enable balanced joined).counted (quiet_run balanced.built joined still)
  have reads := StatAnswer.stat_reads here before first later second third
  rw [done,balanced.counted.all,one.succ,two.fail] at reads
  cases reads
  exact ⟨m,rfl⟩

theorem answered_told (path : (workers ι F enable).run (workers ι F enable).start early = some s)
    (answered : Answered enable i s moves last response) (quiet : Quiet enable s moves) :
    Told response (log ι F enable early) ↔ (log ι F enable early).countP isRequested < 2^31 := by
  obtain ⟨m,rfl⟩ := answered_reads path answered quiet
  have balance := (run_balanced enable path).balance
  rw [quiet s ((workers ι F enable).visits_first),Nat.add_zero] at balance
  exact setStats_told balance

omit [DecidableEq ι] [Fintype ι] in
theorem told_risen {log more : List (Record ι)} (earlier : Told response log) (later : Told other (log ++ more)) :
    Risen response other := by
  have grown (p : Record ι → Bool) : log.countP p ≤ (log ++ more).countP p := by
    rw [List.countP_append]
    exact Nat.le_add_right _ _
  have all := grown isRequested
  have succ := grown isSucceeded
  have fail := grown isFailed
  constructor
  · rw [earlier.all,later.all]
    omega
  · rw [earlier.succ,later.succ]
    omega
  · rw [earlier.fail,later.fail]
    omega

-- In every run: a STAT that is handled while no GET is in flight, and every
-- later one.
theorem stat_true (path : (workers ι F enable).run (workers ι F enable).start early = some s)
    (answered : Answered enable i s moves last response) (quiet : Quiet enable s moves) :
    (Told response (log ι F enable early) ↔ (log ι F enable early).countP isRequested < 2^31) ∧
    ∀ between t j others final other, (workers ι F enable).run last between = some t →
      Answered enable j t others final other → Quiet enable t others →
      (log ι F enable (early ++ moves ++ between)).countP isRequested < 2^31 → Risen response other := by
  refine ⟨answered_told path answered quiet,?_⟩
  intro between t j others final other further again still small
  have ended : (workers ι F enable).run s moves = some last := by
    obtain ⟨m,before,after,middle,late,rfl,_,_,_,first,second,third,_⟩ := answered
    have tail := (workers ι F enable).run_singleton.trans third
    exact (workers ι F enable).run_join first ((workers ι F enable).run_join second tail)
  have reached := (workers ι F enable).run_join ((workers ι F enable).run_join path ended) further
  have second := (answered_told reached again still).mpr small
  have split : log ι F enable (early ++ moves ++ between) = log ι F enable early ++
      (workers ι F enable).journal note s (moves ++ between) := by
    rw [log,List.append_assoc,Machine.journal_append path]
    rfl
  rw [split] at second small
  rw [List.countP_append] at small
  exact told_risen ((answered_told path answered quiet).mpr (by omega)) second

def served : List (Move Bool) :=
  [.receive false .GET {},.advance false,.advance false,.advance false,.advance false,.receive true .STAT {}]

def reads : List (Move Bool) := [.advance true,.advance true,.advance true]

theorem stat_true_served : ∃ s last response, twoWorkers.run twoWorkers.start served = some s ∧
    Answered false true s reads last response ∧ Quiet false s reads ∧
    (Told response (log Bool (BloomFilter BloomFilter.small) false served) ↔
      (log Bool (BloomFilter BloomFilter.small) false served).countP isRequested < 2^31) ∧
    ∀ between t j others final other, twoWorkers.run last between = some t →
      Answered false j t others final other → Quiet false t others →
      (log Bool (BloomFilter BloomFilter.small) false (served ++ reads ++ between)).countP isRequested < 2^31 →
      Risen response other := by
  obtain ⟨s,path,last,response,answered,quiet⟩ : ∃ s, twoWorkers.run twoWorkers.start served = some s ∧
      ∃ last response, Answered false true s reads last response ∧ Quiet false s reads := by
    refine ⟨_,rfl,_,_,⟨_,[],[],_,_,rfl,rfl,List.not_mem_nil,List.not_mem_nil,rfl,rfl,rfl,rfl⟩,?_⟩
    exact .cons (by decide) rfl (.cons (by decide) rfl (.cons (by decide) rfl (.nil (by decide))))
  exact ⟨s,last,response,path,answered,quiet,stat_true path answered quiet⟩

-- One worker and any number of GETs.
def round : List (Move Unit) := [.receive () .GET {},.advance (),.advance (),.advance (),.advance ()]

def resting (stats : Stats) : State Unit F := ⟨⟨Dictionary.new.enableBloomFilter false,stats⟩,fun _ => .idle,none⟩

theorem resting_round (stats : Stats) : (workers Unit F false).run (resting stats) round =
    some (resting stats.incrGetReq.incrGetReqFail) := rfl

def rounds : Nat → List (Move Unit)
  | 0 => []
  | n+1 => rounds n ++ round

theorem rounds_run (n : Nat) : ∃ stats, (workers Unit F false).run (workers Unit F false).start (rounds n) = some (resting stats) ∧
    (log Unit F false (rounds n)).countP isRequested = n := by
  induction n with
  | zero => exact ⟨{},rfl,rfl⟩
  | succ n ih =>
    obtain ⟨stats,path,count⟩ := ih
    have one : ((workers Unit F false).journal note (resting stats) round).countP isRequested = 1 := rfl
    refine ⟨_,(workers Unit F false).run_join path (resting_round stats),?_⟩
    rw [log] at count ⊢
    rw [rounds,Machine.journal_append path,List.countP_append,count,one]

theorem rounds_stat (n : Nat) : ∃ early s moves last response,
    (workers Unit F false).run (workers Unit F false).start early = some s ∧ Answered false () s moves last response ∧
    Quiet false s moves ∧ (log Unit F false early).countP isRequested = n := by
  obtain ⟨stats,path,count⟩ := rounds_run (F:=F) n
  have asked : (workers Unit F false).run (resting stats) [.receive () .STAT {}] = some _ := rfl
  refine ⟨_,_,[.advance (),.advance (),.advance ()],_,_,(workers Unit F false).run_join path asked,
    ⟨_,[],[],_,_,rfl,rfl,List.not_mem_nil,List.not_mem_nil,rfl,rfl,rfl,rfl⟩,?_,?_⟩
  · exact .cons rfl rfl (.cons rfl rfl (.cons rfl rfl (.nil rfl)))
  · rw [log] at count ⊢
    rw [Machine.journal_append path,List.countP_append,count]
    rfl

theorem stat_wraps : ∃ early s moves last response,
    (workers Unit (BloomFilter BloomFilter.small) false).run (workers Unit (BloomFilter BloomFilter.small) false).start early =
      some s ∧ Answered false () s moves last response ∧ Quiet false s moves ∧
    (log Unit (BloomFilter BloomFilter.small) false early).countP isRequested = 2^31 ∧
    ¬Told response (log Unit (BloomFilter BloomFilter.small) false early) := by
  obtain ⟨early,s,moves,last,response,path,answered,quiet,count⟩ := rounds_stat (F:=BloomFilter BloomFilter.small) (2^31)
  refine ⟨early,s,moves,last,response,path,answered,quiet,count,?_⟩
  rw [answered_told path answered quiet,count]
  exact Nat.lt_irrefl _

end RemoteDict.TrueCounts

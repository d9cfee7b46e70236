import RemoteDict.Foundation.Journal
import RemoteDict.Server

namespace RemoteDict.Launch
open Foundation Server

-- How far run() of a thread is; it returns early when a step of it fails.
inductive Starting where
  | unspawned
  | spawned
  | allocated
  | based
  | paired
  | listening
  | returned
  deriving DecidableEq, Repr

-- Where TcpServer::start stands: in initWorkers before and after the start of
-- worker n, before the start of the listener, and in enableBloomFilter after it.
inductive Main where
  | initWorkers (n : Nat)
  | started (n : Nat)
  | enableBloomFilter
  | initBloomFilters
  | returned
  deriving DecidableEq, Repr

-- Thread `none` is the listener. An exception of initApp ends the process.
structure State (F : Type) (T : Nat) where
  main : Main
  m_workers : Nat
  threads : Option (Fin T) → Starting
  terminated : Bool
  server : Server.State F T

inductive Move (T : Nat) where
  | start
  | push_back
  | startListener
  | enableBloomFilter
  | initBloomFilters
  | allocate (thread : Option (Fin T)) (ok : Bool)
  | initEv (thread : Option (Fin T)) (ok : Bool)
  | socketpair (thread : Option (Fin T)) (ok : Bool)
  | initApp (ok : Bool)
  | serve (move : Server.Move T)

variable {F : Type} {T : Nat}

-- The moves of connections, of the listener and of the workers' loops.
def serving : Server.Move T → Bool
  | .accept | .nonblock | .nonblockFails | .dispatch | .channel _ _ | .data _ _ _ | .advance _ | .write _ _ => true
  | _ => false

-- What a move of the start-up is to the server's threads.
def serves : Move T → Option (Server.Move T)
  | .socketpair (some i) true => some (.run i)
  | .initApp true => some .listen
  | .enableBloomFilter => some .setFlag
  | .initBloomFilters => some .buildFilter
  | .serve move => some move
  | _ => none

def rise (s : State F T) (thread : Option (Fin T)) (place there : Starting) (ok : Bool) : Option (State F T) :=
  if s.threads thread = place then
    some {s with threads := Function.update s.threads thread (if ok then there else .returned)}
  else none

def prepare (host : Host) (s : State F T) : Move T → Option (State F T)
  | .start =>
    match s.main with
    | .initWorkers n =>
      if more : n < T then
        some {s with main := .started n,threads := Function.update s.threads (some ⟨n,more⟩) .spawned}
      else none
    | _ => none
  | .push_back =>
    match s.main with
    | .started n => some {s with main := .initWorkers (n + 1),m_workers := s.m_workers + 1}
    | _ => none
  | .startListener =>
    match s.main with
    | .initWorkers n =>
      if n < T then none
      else some {s with main := .enableBloomFilter,threads := Function.update s.threads none .spawned}
    | _ => none
  | .enableBloomFilter =>
    if s.main = .enableBloomFilter then
      some {s with main := if host.m_bloomFilterEnable then .initBloomFilters else .returned}
    else none
  | .initBloomFilters => if s.main = .initBloomFilters then some {s with main := .returned} else none
  | .allocate thread ok => rise s thread .spawned .allocated ok
  | .initEv thread ok => rise s thread .allocated .based ok
  | .socketpair thread ok => rise s thread .based .paired ok
  | .initApp true => rise s none .paired .listening true
  | .initApp false => if s.threads none = .paired then some {s with terminated := true} else none
  | .serve move => if serving move then some s else none

def launch (F : Type) [MembershipFilter F] (T : Nat) (host : Host) : Machine (State F T) (Move T) where
  start := ⟨.initWorkers 0,0,fun _ => .unspawned,false,(server F T host).start⟩
  step s move :=
    if s.terminated ∨ s.server.fault then none
    else (prepare host s move).bind fun next =>
      match serves move with
      | none => some next
      | some served => ((server F T host).step s.server served).map fun server => {next with server := server}

variable {host : Host} {s next : State F T}

theorem prepare_cases (prepared : prepare host s move = some next) :
    (∃ n more, s.main = .initWorkers n ∧
      next = {s with main := .started n,threads := Function.update s.threads (some ⟨n,more⟩) .spawned}) ∨
    (∃ n, s.main = .started n ∧ next = {s with main := .initWorkers (n + 1),m_workers := s.m_workers + 1}) ∨
    (∃ n, s.main = .initWorkers n ∧ T ≤ n ∧
      next = {s with main := .enableBloomFilter,threads := Function.update s.threads none .spawned}) ∨
    (∃ main, (s.main = .enableBloomFilter ∨ s.main = .initBloomFilters) ∧ (main = .initBloomFilters ∨ main = .returned) ∧
      next = {s with main := main}) ∨
    (∃ thread place, s.threads thread ≠ .unspawned ∧ next = {s with threads := Function.update s.threads thread place}) ∨
    next = {s with terminated := next.terminated} := by
  have risen : ∀ {thread place there ok}, rise s thread place there ok = some next → place ≠ .unspawned →
      ∃ thread place, s.threads thread ≠ .unspawned ∧ next = {s with threads := Function.update s.threads thread place} := by
    intro thread place there ok risen asleep
    obtain ⟨here,same⟩ := Option.ite_none_right_eq_some.mp risen
    cases same
    exact ⟨thread,_,by rwa [here],rfl⟩
  cases move with
  | start =>
    simp only [prepare] at prepared
    split at prepared
    · rename_i n standing
      split at prepared <;> cases prepared
      exact .inl ⟨n,_,standing,rfl⟩
    · cases prepared
  | push_back =>
    simp only [prepare] at prepared
    split at prepared <;> cases prepared
    rename_i n standing
    exact .inr (.inl ⟨n,standing,rfl⟩)
  | startListener =>
    simp only [prepare] at prepared
    split at prepared
    · rename_i n standing
      split at prepared <;> cases prepared
      rename_i finished
      exact .inr (.inr (.inl ⟨n,standing,Nat.le_of_not_lt finished,rfl⟩))
    · cases prepared
  | enableBloomFilter =>
    simp only [prepare] at prepared
    split at prepared <;> cases prepared
    rename_i standing
    exact .inr (.inr (.inr (.inl ⟨_,.inl standing,by split <;> simp,rfl⟩)))
  | initBloomFilters =>
    simp only [prepare] at prepared
    split at prepared <;> cases prepared
    rename_i standing
    exact .inr (.inr (.inr (.inl ⟨_,.inr standing,.inr rfl,rfl⟩)))
  | allocate thread ok | initEv thread ok | socketpair thread ok =>
    exact .inr (.inr (.inr (.inr (.inl (risen prepared nofun)))))
  | initApp ok =>
    cases ok with
    | true => exact .inr (.inr (.inr (.inr (.inl (risen prepared nofun)))))
    | false =>
      simp only [prepare] at prepared
      split at prepared <;> cases prepared
      exact .inr (.inr (.inr (.inr (.inr rfl))))
  | serve move =>
    simp only [prepare] at prepared
    split at prepared <;> cases prepared
    exact .inr (.inr (.inr (.inr (.inr rfl))))

theorem prepare_server (prepared : prepare host s move = some next) : next.server = s.server := by
  rcases prepare_cases prepared with
    ⟨_,_,_,rfl⟩ | ⟨_,_,rfl⟩ | ⟨_,_,_,rfl⟩ | ⟨_,_,_,rfl⟩ | ⟨_,_,_,rfl⟩ | same
  case inr.inr.inr.inr.inr => rw [same]
  all_goals rfl

-- The listener is started when the list of workers is complete.
def Complete (s : State F T) : Prop :=
  (s.threads none = .unspawned ∧ s.main = .initWorkers s.m_workers ∧ s.m_workers ≤ T) ∨
  (s.threads none = .unspawned ∧ s.main = .started s.m_workers ∧ s.m_workers < T) ∨
  ((s.main = .enableBloomFilter ∨ s.main = .initBloomFilters ∨ s.main = .returned) ∧ s.m_workers = T)

theorem Complete.building (complete : Complete s) (standing : s.main = .initWorkers n) :
    s.threads none = .unspawned ∧ n = s.m_workers ∧ n ≤ T := by
  rcases complete with ⟨unspawned,same,most⟩ | ⟨_,other,_⟩ | ⟨other | other | other,_⟩
  · rw [standing] at same
    cases same
    exact ⟨unspawned,rfl,most⟩
  all_goals
    rw [standing] at other
    cases other

theorem Complete.spawning (complete : Complete s) (standing : s.main = .started n) :
    s.threads none = .unspawned ∧ n = s.m_workers ∧ n < T := by
  rcases complete with ⟨_,other,_⟩ | ⟨unspawned,same,less⟩ | ⟨other | other | other,_⟩
  · rw [standing] at other
    cases other
  · rw [standing] at same
    cases same
    exact ⟨unspawned,rfl,less⟩
  all_goals
    rw [standing] at other
    cases other

theorem Complete.built (complete : Complete s) (standing : s.main = .enableBloomFilter ∨ s.main = .initBloomFilters) :
    s.m_workers = T := by
  rcases complete with ⟨_,other,_⟩ | ⟨_,other,_⟩ | ⟨_,all⟩
  · rcases standing with same | same <;> (rw [same] at other; cases other)
  · rcases standing with same | same <;> (rw [same] at other; cases other)
  · exact all

theorem prepare_complete (complete : Complete s) (prepared : prepare host s move = some next) : Complete next := by
  rcases prepare_cases prepared with ⟨n,more,standing,rfl⟩ | ⟨n,standing,rfl⟩ | ⟨n,standing,finished,rfl⟩ |
    ⟨main,standing,following,rfl⟩ | ⟨thread,place,awake,rfl⟩ | same
  · obtain ⟨unspawned,rfl,_⟩ := complete.building standing
    have apart : (none : Option (Fin T)) ≠ some ⟨s.m_workers,more⟩ := nofun
    exact .inr (.inl ⟨(Function.update_of_ne apart .spawned s.threads).trans unspawned,rfl,more⟩)
  · obtain ⟨unspawned,rfl,less⟩ := complete.spawning standing
    exact .inl ⟨unspawned,rfl,less⟩
  · obtain ⟨_,rfl,most⟩ := complete.building standing
    exact .inr (.inr ⟨.inl rfl,Nat.le_antisymm most finished⟩)
  · exact .inr (.inr ⟨.inr following,complete.built standing⟩)
  · have other : s.threads none = .unspawned → Function.update s.threads thread place none = .unspawned := by
      intro unspawned
      refine (Function.update_of_ne ?_ _ _).trans unspawned
      rintro rfl
      exact awake unspawned
    rcases complete with ⟨unspawned,standing⟩ | ⟨unspawned,standing⟩ | standing
    · exact .inl ⟨other unspawned,standing⟩
    · exact .inr (.inl ⟨other unspawned,standing⟩)
    · exact .inr (.inr standing)
  · rw [same]
    exact complete

variable [MembershipFilter F]

def rises : Server.Move T → Bool
  | .listen | .setFlag | .buildFilter => true
  | _ => false

theorem step_server (stepped : (launch F T host).step s move = some next) :
    (serves move = none ∧ next.server = s.server) ∨
    (∃ i, move = .socketpair (some i) true ∧ act host s.server (.run i) = some next.server) ∨
    (∃ served, serves move = some served ∧ rises served = true ∧ act host s.server served = some next.server) ∨
    ∃ served, move = .serve served ∧ serving served = true ∧ act host s.server served = some next.server := by
  simp only [launch] at stepped
  split at stepped
  · cases stepped
  obtain ⟨prepared,ready,moved⟩ := Option.bind_eq_some_iff.mp stepped
  cases sent : serves move with
  | none =>
    rw [sent] at moved
    cases moved
    exact .inl ⟨rfl,prepare_server ready⟩
  | some served =>
    rw [sent] at moved
    obtain ⟨server,run,rfl⟩ := Option.map_eq_some_iff.mp moved
    have acted := (server_step.mp run).2
    cases move with
    | socketpair thread ok =>
      cases thread with
      | none => cases sent
      | some i =>
        cases ok with
        | true =>
          cases sent
          exact .inr (.inl ⟨i,rfl,acted⟩)
        | false => cases sent
    | initApp ok =>
      cases ok with
      | true =>
        cases sent
        exact .inr (.inr (.inl ⟨_,rfl,rfl,acted⟩))
      | false => cases sent
    | enableBloomFilter | initBloomFilters =>
      cases sent
      exact .inr (.inr (.inl ⟨_,rfl,rfl,acted⟩))
    | serve move =>
      cases sent
      simp only [prepare] at ready
      split at ready
      · rename_i served
        exact .inr (.inr (.inr ⟨_,rfl,served,acted⟩))
      · cases ready
    | _ => cases sent

theorem step_prepares (stepped : (launch F T host).step s move = some next) :
    ∃ prepared, prepare host s move = some prepared ∧ next = {prepared with server := next.server} := by
  simp only [launch] at stepped
  split at stepped
  · cases stepped
  obtain ⟨prepared,ready,moved⟩ := Option.bind_eq_some_iff.mp stepped
  refine ⟨prepared,ready,?_⟩
  split at moved
  · cases moved
    rfl
  · obtain ⟨server,_,rfl⟩ := Option.map_eq_some_iff.mp moved
    rfl

theorem launch_complete (reached : (launch F T host).Reached s) (spawned : s.threads none ≠ .unspawned) : s.m_workers = T := by
  have complete : Complete s := by
    refine (launch F T host).invariant (.inl ⟨rfl,rfl,Nat.zero_le T⟩) ?_ reached
    intro s move next complete stepped
    obtain ⟨prepared,ready,same⟩ := step_prepares stepped
    rw [same]
    have kept : Complete prepared := prepare_complete complete ready
    exact kept
  rcases complete with ⟨unspawned,_⟩ | ⟨unspawned,_⟩ | ⟨_,all⟩
  · exact absurd unspawned spawned
  · exact absurd unspawned spawned
  · exact all

theorem launch_serves (reached : (launch F T host).Reached s) : (server F T host).Reached s.server := by
  refine (server F T host).simulates (launch F T host) State.server rfl ?_ reached
  intro s move next _ stepped
  have clear : s.server.fault = false := by
    simp only [launch] at stepped
    split at stepped
    · cases stepped
    · rename_i running
      simpa using (not_or.mp running).2
  rcases step_server stepped with ⟨_,same⟩ | ⟨i,_,acted⟩ | ⟨served,_,_,acted⟩ | ⟨served,_,_,acted⟩
  · exact .inl same
  · exact .inr ⟨_,server_step.mpr ⟨clear,acted⟩⟩
  · exact .inr ⟨_,server_step.mpr ⟨clear,acted⟩⟩
  · exact .inr ⟨_,server_step.mpr ⟨clear,acted⟩⟩

def dispatches : Move T → Bool
  | .serve .dispatch => true
  | _ => false

structure Followed (s : State F T) (moves : List (Move T)) : Prop where
  ready : ∀ i, (s.server.workers i).ready = true ↔ .socketpair (some i) true ∈ moves
  index : 0 < T → s.server.m_index = moves.countP dispatches % T
  running : s.server.main ≠ .returned

omit [MembershipFilter F] in
theorem put_ready {i : Fin T} {m : Server.State F T} {changed : Worker × List Nat}
    (same : changed.1.ready = (m.workers i).ready) (j : Fin T) : ((put m i changed).workers j).ready = (m.workers j).ready := by
  by_cases here : j = i
  · subst here
    simpa only [put,Function.update_self] using same
  · simp only [put,Function.update_of_ne here]

theorem serving_frame {t later : Server.State F T} (served : serving move = true) (acted : act host t move = some later)
    (calm : move ≠ .dispatch) : (∀ i, (later.workers i).ready = (t.workers i).ready) ∧ later.m_index = t.m_index ∧
      later.main = t.main := by
  cases move with
  | accept =>
    obtain ⟨_,_,rfl⟩ := act_accept.mp acted
    exact ⟨fun _ => rfl,rfl,rfl⟩
  | nonblock =>
    obtain ⟨_,_,rfl⟩ := act_nonblock.mp acted
    exact ⟨fun _ => rfl,rfl,rfl⟩
  | nonblockFails =>
    obtain ⟨_,_,rfl⟩ := act_nonblockFails.mp acted
    exact ⟨fun _ => rfl,rfl,rfl⟩
  | dispatch => exact absurd rfl calm
  | channel i move =>
    obtain ⟨_,⟨_,rfl⟩ | ⟨_,channel,effect,_,rfl⟩⟩ := act_channel.mp acted
    · exact ⟨fun _ => rfl,rfl,rfl⟩
    · exact ⟨put_ready (Worker.settle_ready _ channel effect),rfl,rfl⟩
  | data i fd reads | advance i | write i result =>
    obtain rfl | ⟨shared,changed,called,rfl⟩ := act_callback rfl acted
    · exact ⟨fun _ => rfl,rfl,rfl⟩
    · exact ⟨put_ready (m:={t with shared := shared}) called.ready,rfl,rfl⟩
  | _ => cases served

theorem rises_frame {t later : Server.State F T} (rising : rises move = true) (acted : act host t move = some later) :
    later.workers = t.workers ∧ later.m_index = t.m_index ∧ (t.main ≠ .returned → later.main ≠ .returned) ∧
      (later.listener = t.listener ∨ later.listener = .idle) := by
  cases move with
  | listen =>
    obtain ⟨_,rfl⟩ := act_listen.mp acted
    exact ⟨rfl,rfl,id,.inr rfl⟩
  | setFlag =>
    obtain ⟨_,rfl⟩ := act_setFlag.mp acted
    refine ⟨rfl,rfl,fun _ => ?_,.inl rfl⟩
    dsimp only
    split <;> exact nofun
  | buildFilter =>
    obtain ⟨_,rfl⟩ := act_buildFilter.mp acted
    exact ⟨rfl,rfl,fun _ => nofun,.inl rfl⟩
  | _ => cases rising

omit [MembershipFilter F] in
theorem run_followed {i : Fin T} (followed : Followed s moves) (same : next.server =
    put s.server i ({s.server.workers i with ready := true},[])) : Followed next (moves ++ [.socketpair (some i) true]) := by
  obtain ⟨ready,index,running⟩ := followed
  refine ⟨fun j => ?_,fun some => ?_,?_⟩
  · rw [same,List.mem_append,List.mem_singleton]
    by_cases here : j = i
    · subst here
      simp only [put,Function.update_self,or_true]
    · simp only [put,Function.update_of_ne here,ready j]
      refine ⟨.inl,fun there => there.resolve_right fun other => here ?_⟩
      simpa using other
  · rw [same,List.countP_append]
    exact index some
  · rw [same]
    exact running

omit [MembershipFilter F] in
theorem sent_index (narrow : T < 2^16) (some : 0 < T) (index : s.server.m_index = n % T) :
    (s.server.m_index + 1) % 2^32 % T = (n + 1) % T := by
  have below := Nat.mod_lt n some
  rw [index,Nat.mod_eq_of_lt (by omega : n % T + 1 < 2^32),Nat.mod_add_mod]

omit [MembershipFilter F] in
theorem dispatch_followed (narrow : T < 2^16) (followed : Followed s moves) (same : next.server = loadbalanceFd s.server fd) :
    Followed next (moves ++ [.serve .dispatch]) := by
  obtain ⟨ready,index,running⟩ := followed
  have kept : ∀ i, (.socketpair (some i) true ∈ moves ++ [.serve .dispatch] ↔ .socketpair (some i) true ∈ moves) := by simp
  by_cases workers : 0 < T
  · rw [loadbalanceFd,dif_pos ⟨workers,running⟩] at same
    refine ⟨fun i => ?_,fun _ => ?_,?_⟩
    · rw [same,kept i,← ready i]
    · rw [same,List.countP_append]
      exact sent_index narrow workers (index workers)
    · rw [same]
      exact running
  · rw [loadbalanceFd,dif_neg (fun both => workers both.1)] at same
    refine ⟨fun i => ?_,fun some => absurd some workers,?_⟩
    · rw [same,kept i,← ready i]
      rfl
    · rw [same]
      exact running

theorem step_followed (narrow : T < 2^16) (followed : Followed s moves)
    (stepped : (launch F T host).step s move = some next) : Followed next (moves ++ [move]) := by
  obtain ⟨ready,index,running⟩ := followed
  -- Moves that are neither a socketpair nor a dispatch.
  have calm : (∀ i, move ≠ .socketpair (some i) true) → dispatches move = false →
      (∀ i, (next.server.workers i).ready = (s.server.workers i).ready) → next.server.m_index = s.server.m_index →
      next.server.main ≠ .returned → Followed next (moves ++ [move]) := by
    intro other quiet same turn main
    refine ⟨fun i => ?_,fun some => ?_,main⟩
    · rw [same i,ready i,List.mem_append,List.mem_singleton]
      exact ⟨.inl,fun there => there.resolve_right fun here => other i here.symm⟩
    · rw [turn,index some,List.countP_append,List.countP_singleton,if_neg (by simp [quiet]),Nat.add_zero]
  rcases step_server stepped with ⟨silent,same⟩ | ⟨i,rfl,acted⟩ | ⟨served,sent,rising,acted⟩ | ⟨served,rfl,serves,acted⟩
  · refine calm ?_ ?_ (fun i => by rw [same]) (by rw [same]) (by rwa [same])
    · rintro i rfl
      cases silent
    · cases move with
      | serve move => cases silent
      | _ => rfl
  · exact run_followed ⟨ready,index,running⟩ (act_run.mp acted).2
  · obtain ⟨workers,turn,main,_⟩ := rises_frame rising acted
    refine calm ?_ ?_ (fun i => by rw [workers]) turn (main running)
    · rintro i rfl
      cases sent
      cases rising
    · cases move with
      | serve move =>
        cases sent
        cases served <;> first | rfl | cases rising
      | _ => rfl
  · by_cases turn : served = .dispatch
    · subst turn
      obtain ⟨fd,_,same⟩ := act_dispatch.mp acted
      exact dispatch_followed narrow ⟨ready,index,running⟩ same
    · obtain ⟨up,still,main⟩ := serving_frame serves acted turn
      refine calm nofun ?_ up still (main ▸ running)
      cases served with
      | dispatch => exact absurd rfl turn
      | _ => rfl

theorem start_followed : Followed (launch F T host).start [] :=
  ⟨fun i => by simp [launch,server,Worker.new],fun _ => (Nat.zero_mod T).symm,nofun⟩

theorem path_followed (narrow : T < 2^16) (path : (launch F T host).run (launch F T host).start moves = some s) :
    Followed s moves := by
  have kept : ∀ (s : State F T) records move next, Followed s records → (launch F T host).step s move = some next →
      Followed next (records ++ [move]) := fun _ _ _ _ followed stepped => step_followed narrow followed stepped
  have followed : Followed s ((launch F T host).journal (fun _ move => [move]) (launch F T host).start moves) :=
    Machine.journal_agrees kept [] start_followed path
  rwa [Machine.journal_events path] at followed

def Adding (t : Server.State F T) (i : Fin T) : Prop := (∃ fd, t.listener = .calling i fd) ∨ t.listener = .adding i

def Prepared (s : State F T) : Prop := ∀ i, Adding s.server i → (s.server.workers i).ready = true

def InTime (s : State F T) (move : Move T) : Prop :=
  move = .serve .dispatch → ∀ i : Fin T, i.val = (s.server.m_index + 1) % 2^32 % T → (s.server.workers i).ready = true

theorem serving_adding {t later : Server.State F T} (served : serving move = true) (acted : act host t move = some later)
    (calm : move ≠ .dispatch) (adding : Adding later i) : Adding t i := by
  cases move with
  | accept =>
    obtain ⟨_,_,rfl⟩ := act_accept.mp acted
    simp [Adding] at adding
  | nonblock =>
    obtain ⟨_,_,rfl⟩ := act_nonblock.mp acted
    simp [Adding] at adding
  | nonblockFails =>
    obtain ⟨_,_,rfl⟩ := act_nonblockFails.mp acted
    simp [Adding] at adding
  | dispatch => exact absurd rfl calm
  | channel j move =>
    obtain ⟨runs,⟨_,rfl⟩ | ⟨_,channel,effect,_,rfl⟩⟩ := act_channel.mp acted
    · exact adding
    · cases move with
      | call fd =>
        simp only [Adding,put,afterMove] at adding
        obtain ⟨_,⟨⟩⟩ | same := adding
        cases same
        exact .inl ⟨fd,runs⟩
      | push | refuse => simp [Adding,put,afterMove] at adding
      | _ => exact adding
  | data j fd reads | advance j | write j result =>
    obtain rfl | ⟨shared,changed,_,rfl⟩ := act_callback rfl acted <;> exact adding
  | _ => cases served

omit [MembershipFilter F] in
theorem dispatch_exact (running : s.server.main ≠ .returned) (same : next.server = loadbalanceFd s.server fd) :
    Prepared next ↔ InTime s (.serve .dispatch) := by
  by_cases workers : 0 < T
  · rw [loadbalanceFd,dif_pos ⟨workers,running⟩] at same
    have chosen : ∀ i, Adding next.server i ↔ i.val = (s.server.m_index + 1) % 2^32 % T := by
      intro i
      rw [same]
      simp [Adding,Fin.ext_iff,eq_comm]
    have kept : next.server.workers = s.server.workers := by rw [same]
    simp only [Prepared,InTime,chosen,kept,forall_const]
  · have none : ∀ i : Fin T, False := fun i => workers (Nat.lt_of_le_of_lt (Nat.zero_le i) i.isLt)
    exact iff_of_true (fun i => (none i).elim) fun _ i => (none i).elim

theorem step_prepared (followed : Followed s moves) (prepared : Prepared s)
    (stepped : (launch F T host).step s move = some next) : Prepared next ↔ InTime s move := by
  rcases step_server stepped with ⟨silent,same⟩ | ⟨i,rfl,acted⟩ | ⟨served,sent,rising,acted⟩ | ⟨served,rfl,serves,acted⟩
  · refine iff_of_true ?_ ?_
    · simpa only [Prepared,same] using prepared
    · rintro rfl
      cases silent
  · obtain ⟨_,same⟩ := act_run.mp acted
    refine iff_of_true (fun j adding => ?_) nofun
    rw [same] at adding ⊢
    by_cases here : j = i
    · subst here
      simp only [put,Function.update_self]
    · simpa only [put,Function.update_of_ne here] using prepared j adding
  · obtain ⟨workers,_,_,listener⟩ := rises_frame rising acted
    refine iff_of_true (fun j adding => ?_) ?_
    · rw [workers]
      rcases listener with same | idle
      · rw [Adding,same] at adding
        exact prepared j adding
      · simp [Adding,idle] at adding
    · rintro rfl
      cases sent
      cases rising
  · by_cases turn : served = .dispatch
    · subst turn
      obtain ⟨fd,_,same⟩ := act_dispatch.mp acted
      exact dispatch_exact followed.running same
    · refine iff_of_true (fun j adding => ?_) fun same => absurd (Move.serve.inj same) turn
      rw [(serving_frame serves acted turn).1 j]
      exact prepared j (serving_adding serves acted turn adding)

-- In every run of the start-up and of the connections that arrive meanwhile:
-- the k-th connection dispatched goes to worker k mod T.
theorem launch_exact (narrow : T < 2^16) (path : (launch F T host).run (launch F T host).start moves = some last) :
    (∀ t, (launch F T host).Visits (launch F T host).start moves t → Prepared t) ↔
    ∀ earlier later (i : Fin T), moves = earlier ++ .serve .dispatch :: later →
      i.val = (earlier.countP dispatches + 1) % T → .socketpair (some i) true ∈ earlier := by
  have kept : ∀ (s : State F T) move next, (∃ moves, Followed s moves) → Prepared s →
      (launch F T host).step s move = some next → ∃ moves, Followed next moves :=
    fun _ _ _ ⟨_,followed⟩ _ stepped => ⟨_,step_followed narrow followed stepped⟩
  have exact : ∀ (s : State F T) move next, (∃ moves, Followed s moves) → Prepared s →
      (launch F T host).step s move = some next → (Prepared next ↔ InTime s move) :=
    fun _ _ _ ⟨_,followed⟩ prepared stepped => step_prepared followed prepared stepped
  have first : Prepared (launch F T host).start := fun i adding => by simp [Adding,launch,server] at adding
  rw [(launch F T host).throughout_exact kept exact ⟨[],start_followed⟩ first ((launch F T host).run_exact.mp path)]
  constructor
  · rintro early earlier later i rfl turn
    have some : 0 < T := Nat.lt_of_le_of_lt (Nat.zero_le i) i.isLt
    have whole := path
    rw [(launch F T host).run_append] at whole
    obtain ⟨t,reached,_⟩ := Option.bind_eq_some_iff.mp whole
    have followed := path_followed narrow reached
    refine (followed.ready i).mp (early t _ ⟨earlier,later,rfl,reached⟩ rfl i ?_)
    rw [sent_index narrow some (followed.index some),turn]
  · rintro ordered t move ⟨earlier,later,rfl,reached⟩ rfl i turn
    have some : 0 < T := Nat.lt_of_le_of_lt (Nat.zero_le i) i.isLt
    have followed := path_followed narrow reached
    rw [sent_index narrow some (followed.index some)] at turn
    exact (followed.ready i).mpr (ordered earlier later i rfl turn)

def early : List (Move 1) :=
  [.start,.push_back,.startListener,.allocate none true,.initEv none true,.socketpair none true,.initApp true,
    .serve .accept,.serve .nonblock,.serve .dispatch]

abbrev solo := launch (BloomFilter BloomFilter.small) 1 ⟨.little,Codec.codec,true,1⟩

theorem launch_exact_early : (∀ t, solo.Visits solo.start early t → Prepared t) ↔
    ∀ earlier later (i : Fin 1), early = earlier ++ .serve .dispatch :: later →
      i.val = (earlier.countP dispatches + 1) % 1 → .socketpair (some i) true ∈ earlier :=
  launch_exact (by decide) (show solo.run solo.start early = some _ from rfl)

theorem early_unprepared : ∃ s, solo.run solo.start early = some s ∧ Adding s.server 0 ∧ (s.server.workers 0).ready = false :=
  ⟨_,rfl,.inl ⟨0,rfl⟩,rfl⟩

end RemoteDict.Launch

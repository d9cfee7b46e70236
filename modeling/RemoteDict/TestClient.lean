import RemoteDict.Chunks
import RemoteDict.InputFile
import RemoteDict.Results

namespace RemoteDict.TestClient
open Foundation Foundation.Block Client ClientRun Results InputFile

-- A client's thread: what the members that its constructor leaves out happen to
-- hold, and what the calls made for its messages give.
structure Thread where
  m_fd : Int
  m_averageLatency : UInt32
  attempts : List Attempt

def Thread.client (thread : Thread) : Client := ⟨thread.m_fd,thread.m_averageLatency,[],[]⟩

def Thread.run (order : ByteOrder) (pb : Protobuf) (chunk : List MessageT) (thread : Thread) : Except Halt Client :=
  ClientRun.run order pb thread.client (chunk.zip thread.attempts)

-- TestClient::start from the contents of the file to the results. The threads
-- share nothing, and each has ended when saveResults begins.
def start (order : ByteOrder) (pb : Protobuf) (sort : List ResultData → List ResultData) (infile : Str) (m_numThread : Nat)
    (threads : List Thread) : Except Halt (Option Saved) :=
  match ((Chunks.start (readAndParseInputFile infile) m_numThread).zip threads).mapM fun given =>
    given.2.run order pb given.1 with
  | .error halt => .error halt
  | .ok pool => saveResults sort pool

def recorded (pb : Protobuf) (call : Call) : Option ResultData :=
  if Completes call then call.2.exchange.arrived.map fun arrived => ⟨(readResponse pb arrived).2,call.2.exchange.timestamp⟩
  else none

-- A message that has a type, and whose request fits the buffers.
def Sendable (order : ByteOrder) (pb : Protobuf) (msg : MessageT) : Prop :=
  ∃ made, request msg = .ok made ∧ ∀ payload, made = some payload → ∃ outgoing, sendBuffer order pb payload = .ok outgoing

-- Either there is no connection, or the message can be sent over it.
def Sound (order : ByteOrder) (pb : Protobuf) (call : Call) : Prop :=
  call.2.socket ≠ -1 → call.2.connect = 0 → Sendable order pb call.1

def Reports (pb : Protobuf) (calls : List Call) (saved : Option Saved) : Prop :=
  ∃ sorted : List ResultData, sorted.Perm (calls.filterMap (recorded pb)) ∧
    sorted.Pairwise (fun a b => a.timestamp ≤ b.timestamp) ∧ (rowsOf saved).flatten = (sorted.filterMap row).flatten

def Shared (input_data : List MessageT) (m_numThread : Nat) (threads : List Thread) : Prop :=
  (Chunks.start input_data m_numThread).map List.length = threads.map fun thread => thread.attempts.length

instance (input_data : List MessageT) (m_numThread : Nat) (threads : List Thread) :
    Decidable (Shared input_data m_numThread threads) := inferInstanceAs (Decidable (_ = _))

variable {order : ByteOrder} {pb : Protobuf} {sort : List ResultData → List ResultData} {client next last : Client}
  {call : Call} {calls : List Call} {threads : List Thread}

theorem served_results (served : Served pb client call next) :
    next.m_results = client.m_results ++ (recorded pb call).toList := by
  cases served with
  | left stopped => simp [recorded,stopped]
  | completed completes read => simp [recorded,completes,read]

theorem each_results (ran : Indexed.each (body order pb) client calls = .ok last) :
    last.m_results = client.m_results ++ calls.filterMap (recorded pb) := by
  induction calls generalizing client with
  | nil =>
    cases ran
    exact (List.append_nil _).symm
  | cons call calls ih =>
    obtain ⟨next,first,rest⟩ := Indexed.each_cons.mp ran
    rw [ih rest,served_results (body_served first),List.append_assoc]
    congr 1
    cases kept : recorded pb call with
    | none => rw [List.filterMap_cons_none kept]; rfl
    | some result => rw [List.filterMap_cons_some kept]; rfl

theorem sendData_sound (order : ByteOrder) (pb : Protobuf) (client : Client) (msg : MessageT) (exchange : Exchange) :
    (∃ result, sendData order pb client msg exchange = .ok result) ↔ Sendable order pb msg := by
  unfold sendData Sendable
  cases built : request msg with
  | error fault => exact iff_of_false nofun nofun
  | ok made =>
    cases made with
    | none => exact iff_of_true ⟨_,rfl⟩ ⟨none,rfl,nofun⟩
    | some payload =>
      dsimp only
      cases framed : sendBuffer order pb payload with
      | error fault =>
        refine iff_of_false nofun ?_
        rintro ⟨_,⟨rfl⟩,fits⟩
        obtain ⟨outgoing,sent⟩ := fits payload rfl
        rw [framed] at sent
        cases sent
      | ok outgoing =>
        refine iff_of_true ?_ ⟨some payload,rfl,fun _ same => ⟨outgoing,Option.some.inj same ▸ framed⟩⟩
        dsimp only
        split
        · exact ⟨_,rfl⟩
        · split <;> exact ⟨_,rfl⟩

theorem body_sound (client : Client) (call : Call) : (∃ next, body order pb client call = .ok next) ↔ Sound order pb call := by
  unfold body startClient Sound
  dsimp only
  by_cases refused : call.2.socket = -1
  · rw [if_pos refused]
    exact iff_of_true ⟨_,rfl⟩ fun socket => absurd refused socket
  · rw [if_neg refused]
    by_cases failed : call.2.connect ≠ 0
    · rw [if_pos failed]
      exact iff_of_true ⟨_,rfl⟩ fun _ connected => absurd connected failed
    · rw [if_neg failed]
      have sends := sendData_sound order pb {client with m_fd := call.2.socket} call.1 call.2.exchange
      refine Iff.trans ?_ (sends.trans ⟨fun sendable _ _ => sendable,fun sound => sound refused (not_not.mp failed)⟩)
      dsimp only
      cases sendData order pb {client with m_fd := call.2.socket} call.1 call.2.exchange with
      | error fault => exact iff_of_false nofun nofun
      | ok result => exact iff_of_true ⟨_,rfl⟩ ⟨_,rfl⟩

theorem run_sound (few : calls.length ≤ INT_MAX) (client : Client) :
    (∃ last, ClientRun.run order pb client calls = .ok last) ↔ ∀ call ∈ calls, Sound order pb call := by
  rw [← Indexed.each_total body_sound client calls]
  refine exists_congr fun last => (Indexed.loop_exact (Nat.zero_le _)).trans (and_iff_right ?_)
  rw [Nat.zero_add]
  exact few

theorem run_results (ran : ClientRun.run order pb client calls = .ok last) :
    last.m_results = client.m_results ++ calls.filterMap (recorded pb) :=
  each_results ((Indexed.loop_exact (Nat.zero_le _)).mp ran).2

theorem shares_flatten {chunks : List (List MessageT)}
    (same : chunks.map List.length = threads.map fun thread => thread.attempts.length) :
    (chunks.zip threads).flatMap (fun given => given.1.zip given.2.attempts) =
      chunks.flatten.zip (threads.flatMap Thread.attempts) := by
  induction chunks generalizing threads with
  | nil => rfl
  | cons chunk chunks ih =>
    cases threads with
    | nil => cases same
    | cons thread threads =>
      obtain ⟨here,later⟩ := List.cons_eq_cons.mp same
      rw [List.zip_cons_cons,List.flatMap_cons,ih later,List.flatten_cons,List.flatMap_cons,List.zip_append here]

theorem pool_results {given : List (List MessageT × Thread)}
    (ran : List.Forall₂ (fun given last => given.2.run order pb given.1 = .ok last) given pool) :
    pool.flatMap Client.m_results = (given.flatMap fun given => given.1.zip given.2.attempts).filterMap (recorded pb) := by
  induction ran with
  | nil => rfl
  | cons here _ ih =>
    rw [List.flatMap_cons,List.flatMap_cons,List.filterMap_append,ih,run_results here]
    rfl

theorem start_flatten (some : 1 ≤ n) (input_data : List MessageT) : (Chunks.start input_data n).flatten = input_data := by
  obtain ⟨left,rfl⟩ := Nat.exists_eq_add_of_le' some
  exact Chunks.rangeLoop_rest (Nat.add_comm 1 (left + 1))

theorem recorded_fewer (pb : Protobuf) (calls : List Call) : (calls.filterMap (recorded pb)).length ≤ calls.length :=
  List.length_filterMap_le _ _

theorem saved_reports (sorts : Sorts sort) (results : pool.flatMap Client.m_results = calls.filterMap (recorded pb))
    (saved : saveResults sort pool = .ok answer) : Reports pb calls answer := by
  have rows : (saveResults sort pool).map rowsOf = .ok (rowsOf answer) := by rw [saved]; rfl
  obtain ⟨same,ordered⟩ := sorts (pool.flatMap Client.m_results)
  refine ⟨_,results ▸ same,ordered.imp fun earlier => Nat.not_lt.mp (of_decide_eq_false earlier),?_⟩
  rw [((saveResults_rows sorts).mp rows).2,← List.flatten_flatten,batches_flatten]

theorem saved_total (sorts : Sorts sort) (few : (pool.flatMap Client.m_results).length ≤ INT_MAX) :
    ∃ answer, saveResults sort pool = .ok answer := by
  have rows := (saveResults_rows sorts).mpr ⟨few,rfl⟩
  cases saved : saveResults sort pool with
  | error halt =>
    rw [saved] at rows
    cases rows
  | ok answer => exact ⟨answer,rfl⟩

section
variable {infile : Str}

theorem start_parts : start order pb sort infile n threads = .ok answer ↔
    ∃ pool, List.Forall₂ (fun given last => given.2.run order pb given.1 = .ok last)
        ((Chunks.start (readAndParseInputFile infile) n).zip threads) pool ∧ saveResults sort pool = .ok answer := by
  simp only [← Indexed.mapM_exact,start]
  cases ((Chunks.start (readAndParseInputFile infile) n).zip threads).mapM fun given => given.2.run order pb given.1 with
  | error halt => exact iff_of_false nofun (by rintro ⟨_,⟨⟩,_⟩)
  | ok pool =>
    constructor
    · intro saved
      exact ⟨pool,rfl,saved⟩
    · rintro ⟨_,⟨rfl⟩,saved⟩
      exact saved

-- The file of results does not depend on how many threads there are: it has a row
-- for each exchange that was completed, and is written unless a message could
-- not be sent.
theorem start_threads (some : 1 ≤ n) (sorts : Sorts sort) (few : (readAndParseInputFile infile).length ≤ INT_MAX)
    (shared : Shared (readAndParseInputFile infile) n threads) :
    ((∃ answer, start order pb sort infile n threads = .ok answer) ↔
      ∀ call ∈ (readAndParseInputFile infile).zip (threads.flatMap Thread.attempts), Sound order pb call) ∧
    ∀ answer, start order pb sort infile n threads = .ok answer →
      Reports pb ((readAndParseInputFile infile).zip (threads.flatMap Thread.attempts)) answer := by
  have whole := shares_flatten shared
  rw [start_flatten some] at whole
  rw [← whole]
  have short : ∀ given ∈ (Chunks.start (readAndParseInputFile infile) n).zip threads,
      (given.1.zip given.2.attempts).length ≤ INT_MAX := by
    intro given member
    have chunk := (List.sublist_flatten_of_mem (List.of_mem_zip member).1).length_le
    rw [start_flatten some] at chunk
    rw [List.length_zip]
    omega
  refine ⟨⟨?_,fun sound => ?_⟩,?_⟩
  · rintro ⟨answer,started⟩
    obtain ⟨pool,ran,_⟩ := start_parts.mp started
    intro call member
    obtain ⟨given,chosen,within⟩ := List.mem_flatMap.mp member
    have total := Indexed.mapM_total.mp ⟨pool,Indexed.mapM_exact.mpr ran⟩ given chosen
    exact (run_sound (short given chosen) _).mp total call within
  · have total : ∀ given ∈ (Chunks.start (readAndParseInputFile infile) n).zip threads,
        ∃ last, given.2.run order pb given.1 = .ok last := fun given chosen =>
      (run_sound (short given chosen) _).mpr fun call within => sound call (List.mem_flatMap.mpr ⟨given,chosen,within⟩)
    obtain ⟨pool,mapped⟩ := Indexed.mapM_total.mpr total
    have ran := Indexed.mapM_exact.mp mapped
    have fewer : (pool.flatMap Client.m_results).length ≤ INT_MAX := by
      have each := recorded_fewer pb (((Chunks.start (readAndParseInputFile infile) n).zip threads).flatMap
        fun given => given.1.zip given.2.attempts)
      rw [whole,List.length_zip,← whole,← pool_results ran] at each
      omega
    obtain ⟨answer,saved⟩ := saved_total sorts fewer
    exact ⟨answer,start_parts.mpr ⟨pool,ran,saved⟩⟩
  · intro answer started
    obtain ⟨pool,ran,saved⟩ := start_parts.mp started
    exact saved_reports sorts (pool_results ran) saved

end

def sample : Str := text "set,k1,v1\nGET,k1\nSTAT"

def pair : List Thread :=
  [⟨0,0,[⟨5,0,⟨20,some [8,2,18,2,107,49,26,2,118,49],9,4⟩⟩]⟩,
    ⟨0,7,[⟨6,-1,⟨0,none,0,0⟩⟩,⟨7,0,⟨6,some [8,3],8,2⟩⟩]⟩]

theorem start_threads_pair :
    ((∃ answer, start .little Codec.codec byTimestamp sample 2 pair = .ok answer) ↔
      ∀ call ∈ (readAndParseInputFile sample).zip (pair.flatMap Thread.attempts), Sound .little Codec.codec call) ∧
    ∀ answer, start .little Codec.codec byTimestamp sample 2 pair = .ok answer →
      Reports Codec.codec ((readAndParseInputFile sample).zip (pair.flatMap Thread.attempts)) answer :=
  start_threads (by decide) byTimestamp_sorts (by decide) (by decide)

end RemoteDict.TestClient

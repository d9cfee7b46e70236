import Mathlib.Algebra.BigOperators.Group.List.Basic
import Mathlib.Algebra.Ring.Nat
import RemoteDict.Results

namespace RemoteDict.Latency
open Foundation Foundation.Block Client ClientRun Results

def latencies (calls : List Call) : List UInt32 :=
  (calls.filter fun call => decide (Completes call)).map fun call => call.2.exchange.duration

def Measured (order : ByteOrder) (pb : Protobuf) (later : Client) (part : UInt32 × List UInt32) : Prop :=
  ∃ client calls, client.m_averageLatency = part.1 ∧ client.m_results = [] ∧ run order pb client calls = .ok later ∧
    latencies calls = part.2

-- A pool whose clients start from such values and have measured the latencies
-- between them.
def Divided (order : ByteOrder) (pb : Protobuf) (starts : UInt32 → Prop) (pool : List Client) (measured : List UInt32) : Prop :=
  ∃ parts, List.Forall₂ (Measured order pb) pool parts ∧ (∀ part ∈ parts, starts part.1) ∧
    (parts.flatMap Prod.snd).Perm measured

def reported (pool : List Client) : Option UInt32 := if (collect pool).1.isEmpty then none else some (collect pool).2

-- The arithmetic mean, up to one.
def Mean (n : UInt32) (measured : List UInt32) : Prop :=
  n.toNat * measured.length ≤ (measured.map UInt32.toNat).sum + measured.length ∧
  (measured.map UInt32.toNat).sum ≤ n.toNat * measured.length + measured.length

instance (n : UInt32) (measured : List UInt32) : Decidable (Mean n measured) := inferInstanceAs (Decidable (_ ∧ _))

-- However the work is divided and ordered the number is the mean, and the same.
def Averaged (order : ByteOrder) (pb : Protobuf) (starts : UInt32 → Prop) (measured : List UInt32) : Prop :=
  ∀ pool n, Divided order pb starts pool measured → reported pool = some n → Mean n measured ∧
    ∀ other m, Divided order pb starts other measured → reported other = some m → m = n

variable {order : ByteOrder} {pb : Protobuf} {starts : UInt32 → Prop} {client next later : Client} {call : Call}
  {calls : List Call} {measured : List UInt32} {pool : List Client}

theorem saveResults_reported {sort : List ResultData → List ResultData} (saved : saveResults sort pool = .ok answer) :
    answer.map Saved.avg_latency = some (latencyLine n) ↔ reported pool = some n := by
  unfold saveResults at saved
  unfold reported
  dsimp only at saved
  split at saved
  · rename_i empty
    cases saved
    rw [if_pos empty]
    exact iff_of_false nofun nofun
  · rename_i present
    split at saved
    · cases saved
    · cases saved
      rw [if_neg present,Option.map_some,Option.some_inj,Option.some_inj]
      exact latencyLine_exact _ _

theorem served_latency (served : Served pb client call next) :
    next.m_averageLatency = (latencies [call]).foldl recordLatency client.m_averageLatency ∧
    next.m_results.length = client.m_results.length + (latencies [call]).length := by
  cases served with
  | left stopped => simp [latencies,stopped]
  | completed completes read => simp [latencies,completes]

theorem latencies_cons (call : Call) (calls : List Call) : latencies (call :: calls) = latencies [call] ++ latencies calls := by
  rw [latencies,latencies,latencies,← List.map_append,← List.filter_append]
  rfl

theorem each_latency (ran : Indexed.each (body order pb) client calls = .ok later) :
    later.m_averageLatency = (latencies calls).foldl recordLatency client.m_averageLatency ∧
    later.m_results.length = client.m_results.length + (latencies calls).length := by
  induction calls generalizing client with
  | nil =>
    cases ran
    exact ⟨rfl,rfl⟩
  | cons call calls ih =>
    obtain ⟨next,first,rest⟩ := Indexed.each_cons.mp ran
    obtain ⟨average,count⟩ := served_latency (body_served first)
    obtain ⟨last,total⟩ := ih rest
    rw [latencies_cons,List.foldl_append,List.length_append,last,total,average,count,Nat.add_assoc]
    exact ⟨rfl,rfl⟩

def average (part : UInt32 × List UInt32) : UInt32 := part.2.foldl recordLatency part.1

theorem measured_average (held : Measured order pb later part) :
    later.m_averageLatency = average part ∧ later.m_results.length = part.2.length := by
  obtain ⟨client,calls,start,fresh,ran,same⟩ := held
  obtain ⟨_,through⟩ := (Indexed.loop_exact (Nat.zero_le _)).mp ran
  obtain ⟨last,count⟩ := each_latency through
  rw [fresh,List.length_nil,Nat.zero_add,same] at count
  rw [start,same] at last
  exact ⟨last,count⟩

theorem pool_averages (held : List.Forall₂ (Measured order pb) pool parts) :
    pool.map Client.m_averageLatency = parts.map average ∧
    (pool.flatMap Client.m_results).length = (parts.flatMap Prod.snd).length := by
  induction held with
  | nil => exact ⟨rfl,rfl⟩
  | cons first _ ih =>
    obtain ⟨last,count⟩ := measured_average first
    rw [List.map_cons,List.map_cons,List.flatMap_cons,List.flatMap_cons,List.length_append,List.length_append,last,count,
      ih.1,ih.2]
    exact ⟨rfl,rfl⟩

theorem reported_parts (held : List.Forall₂ (Measured order pb) pool parts) (some : parts.flatMap Prod.snd ≠ []) :
    reported pool = .some ((parts.map average).foldl recordLatency 0) := by
  obtain ⟨averages,count⟩ := pool_averages held
  have present : pool.flatMap Client.m_results ≠ [] := by
    rw [← List.length_pos_iff,count]
    exact List.length_pos_iff.mpr some
  rw [reported,collect_exact,← averages,if_neg (by simpa using present)]

def asked (latency : UInt32) : Call := (⟨some .STAT,[],[]⟩,⟨5,0,⟨0,some [],0,latency⟩⟩)

section
variable (order : ByteOrder) (small : pb.ByteSizeLong {requesttype_ := some .STAT} ≤ INT_MAX)
include small

theorem body_asked (client : Client) (latency : UInt32) : ∃ next, body order pb client (asked latency) = .ok next := by
  have built : request ⟨some .STAT,[],[]⟩ = .ok (some {requesttype_ := some .STAT}) := rfl
  have framed : sendBuffer order pb {requesttype_ := some .STAT} = _ := sendBuffer_frame small
  have started : startClient client (asked latency).2 = ({client with m_fd := 5},true) := rfl
  rw [body,started]
  simp [sendData,asked,built,framed]

theorem exists_client (few : part.2.length ≤ 1) : ∃ later, Measured order pb later part := by
  obtain ⟨start,measured⟩ := part
  cases measured with
  | nil => exact ⟨⟨0,start,[],[]⟩,⟨0,start,[],[]⟩,[],rfl,rfl,rfl,rfl⟩
  | cons latency rest =>
    have none : rest = [] := List.eq_nil_of_length_eq_zero (Nat.le_zero.mp (Nat.le_of_succ_le_succ few))
    subst none
    obtain ⟨later,ran⟩ := body_asked order small ⟨0,start,[],[]⟩ latency
    have through : Indexed.each (body order pb) ⟨0,start,[],[]⟩ [asked latency] = .ok later :=
      Indexed.each_cons.mpr ⟨later,ran,rfl⟩
    have one : 1 ≤ INT_MAX := by decide
    have run : run order pb ⟨0,start,[],[]⟩ [asked latency] = .ok later :=
      (Indexed.loop_exact (Nat.zero_le _)).mpr ⟨one,through⟩
    exact ⟨later,_,_,rfl,rfl,run,rfl⟩

theorem exists_pool (few : ∀ part ∈ parts, part.2.length ≤ 1) : ∃ pool, List.Forall₂ (Measured order pb) pool parts := by
  induction parts with
  | nil => exact ⟨[],.nil⟩
  | cons part parts ih =>
    obtain ⟨client,first⟩ := exists_client order small (few part List.mem_cons_self)
    obtain ⟨pool,rest⟩ := ih fun part member => few part (List.mem_cons_of_mem _ member)
    exact ⟨client :: pool,.cons first rest⟩

end

theorem idle_halves (n : Nat) (v : UInt32) : ((List.replicate n 0).foldl recordLatency v).toNat = v.toNat / 2^n := by
  induction n generalizing v with
  | zero => exact (Nat.div_one _).symm
  | succ n ih =>
    have here : (recordLatency v 0).toNat = v.toNat / 2 := by
      rw [recordLatency]
      split
      · rename_i zero
        rw [zero]
        rfl
      · rw [UInt32.add_zero,UInt32.toNat_div]
        rfl
    rw [List.replicate_succ,List.foldl_cons,ih,here,Nat.div_div_eq_div_mul,Nat.pow_succ,Nat.mul_comm]

theorem idle_clears (v : UInt32) : (List.replicate 32 0).foldl recordLatency v = 0 := by
  apply UInt32.toNat_inj.mp
  rw [idle_halves]
  exact Nat.div_eq_of_lt v.toNat_lt

def apart (early : List UInt32) (start : UInt32) (last : List UInt32) : List (UInt32 × List UInt32) :=
  early.map (fun latency => (0,[latency])) ++ List.replicate 32 (0,[]) ++ [(start,last)]

theorem apart_all (early : List UInt32) (start : UInt32) (last : List UInt32) :
    (apart early start last).flatMap Prod.snd = early ++ last := by
  have singles : (early.map fun latency : UInt32 => ((0 : UInt32),[latency])).flatMap Prod.snd = early := by
    rw [List.flatMap_map]
    exact List.flatMap_singleton' early
  rw [apart,List.flatMap_append,List.flatMap_append,singles]
  simp

theorem apart_average (early : List UInt32) (start : UInt32) (last : List UInt32) :
    ((apart early start last).map average).foldl recordLatency 0 = average (start,last) := by
  have idle : average (0,[]) = 0 := rfl
  rw [apart,List.map_append,List.map_append,List.map_replicate,List.foldl_append,List.foldl_append,idle,idle_clears]
  show recordLatency 0 (average (start,last)) = average (start,last)
  exact if_pos rfl

theorem reported_last (order : ByteOrder) (small : pb.ByteSizeLong {requesttype_ := some .STAT} ≤ INT_MAX) (zero : starts 0)
    (early : List UInt32) (held : starts start) (last : List UInt32) (few : last.length ≤ 1) (some : measured ≠ [])
    (split : (early ++ last).Perm measured) : ∃ pool, Divided order pb starts pool measured ∧ reported pool = .some (average (start,last)) := by
  have singles : ∀ part ∈ apart early start last, part.2.length ≤ 1 ∧ starts part.1 := by
    intro part member
    rcases List.mem_append.mp member with front | back
    · rcases List.mem_append.mp front with single | idle
      · obtain ⟨latency,_,rfl⟩ := List.mem_map.mp single
        exact ⟨Nat.le_refl 1,zero⟩
      · rw [List.eq_of_mem_replicate idle]
        exact ⟨Nat.zero_le 1,zero⟩
    · rw [List.mem_singleton.mp back]
      exact ⟨few,held⟩
  obtain ⟨pool,formed⟩ := exists_pool order small fun part member => (singles part member).1
  have all := apart_all early start last
  have present : (apart early start last).flatMap Prod.snd ≠ [] := by
    intro empty
    rw [← all,empty,List.nil_perm] at split
    exact some split
  refine ⟨pool,⟨_,formed,fun part member => (singles part member).2,?_⟩,?_⟩
  · rw [all]
    exact split
  · rw [reported_parts formed present,apart_average]

theorem zeros_average (zero : ∀ latency ∈ measured, latency = 0) : measured.foldl recordLatency 0 = 0 := by
  induction measured with
  | nil => rfl
  | cons latency measured ih =>
    rw [List.foldl_cons,zero latency List.mem_cons_self]
    exact ih fun latency member => zero latency (List.mem_cons_of_mem _ member)

theorem zeros_mean (zero : ∀ latency ∈ measured, latency = 0) : Mean 0 measured := by
  have sum : (measured.map UInt32.toNat).sum = 0 := by
    apply List.sum_eq_zero
    intro n member
    obtain ⟨latency,held,rfl⟩ := List.mem_map.mp member
    rw [zero latency held]
    rfl
  have none : (0 : UInt32).toNat = 0 := rfl
  rw [Mean,sum,none,Nat.zero_mul]
  exact ⟨Nat.zero_le _,Nat.zero_le _⟩

theorem reported_none (held : List.Forall₂ (Measured order pb) pool parts) (none : parts.flatMap Prod.snd = []) :
    reported pool = .none := by
  have count := (pool_averages held).2
  rw [none,List.length_nil,List.length_eq_zero_iff] at count
  rw [reported,collect_exact,count]
  rfl

theorem zeros_reported (started : ∀ start, starts start → start = 0) (zero : ∀ latency ∈ measured, latency = 0)
    (divided : Divided order pb starts pool measured) (answer : reported pool = some n) : n = 0 := by
  obtain ⟨parts,formed,held,split⟩ := divided
  have averages : ∀ latency ∈ parts.map average, latency = 0 := by
    intro latency member
    obtain ⟨part,here,rfl⟩ := List.mem_map.mp member
    rw [average,started part.1 (held part here)]
    refine zeros_average fun latency inside => zero latency (split.mem_iff.mp ?_)
    exact List.mem_flatMap.mpr ⟨part,here,inside⟩
  by_cases none : parts.flatMap Prod.snd = []
  · rw [reported_none formed none] at answer
    cases answer
  · rw [reported_parts formed none,zeros_average averages] at answer
    exact (Option.some.inj answer).symm

-- For all latencies: the number is their mean in every order and division only
-- where there is nothing to halve.
theorem average_exact (order : ByteOrder) (small : pb.ByteSizeLong {requesttype_ := some .STAT} ≤ INT_MAX)
    (starts : UInt32 → Prop) (zero : starts 0) (measured : List UInt32) : Averaged order pb starts measured ↔
      measured = [] ∨ (∀ start, starts start → start = 0) ∧ ∀ latency ∈ measured, latency = 0 := by
  constructor
  · intro averaged
    by_cases none : measured = []
    · exact .inl none
    · have whole : (measured ++ []).Perm measured := by rw [List.append_nil]
      obtain ⟨idle,divided,cleared⟩ := reported_last order small zero measured zero [] (Nat.zero_le 1) none whole
      have same := (averaged idle _ divided cleared).2
      refine .inr ⟨?_,?_⟩
      · intro start held
        obtain ⟨other,divides,answer⟩ := reported_last order small zero measured held [] (Nat.zero_le 1) none whole
        exact same other _ divides answer
      · intro latency member
        have moved : (measured.erase latency ++ [latency]).Perm measured :=
          (List.perm_append_singleton _ _).trans (List.perm_cons_erase member).symm
        obtain ⟨other,divides,answer⟩ := reported_last order small zero _ zero [latency] (Nat.le_refl 1) none moved
        exact same other _ divides answer
  · rintro (rfl | ⟨started,zeros⟩) pool n divided answer
    · obtain ⟨parts,formed,_,split⟩ := divided
      rw [reported_none formed (List.perm_nil.mp split)] at answer
      cases answer
    · rw [zeros_reported started zeros divided answer]
      refine ⟨zeros_mean zeros,?_⟩
      intro other m divides answer
      exact zeros_reported started zeros divides answer

theorem average_exact_zero : Averaged .little Codec.codec (fun start => start = 0) [3,3] ↔
    ([3,3] : List UInt32) = [] ∨ (∀ start : UInt32, start = 0 → start = 0) ∧ ∀ latency ∈ ([3,3] : List UInt32), latency = 0 :=
  have small : Codec.codec.ByteSizeLong {requesttype_ := some .STAT} ≤ INT_MAX := by decide
  average_exact .little small (fun start => start = 0) rfl [3,3]

-- One client and two orders, and a second client without a latency; the mean is 400.
theorem halved : ¬Averaged .little Codec.codec (fun start => start = 0) [100,100,1000] ∧
    ∃ rising falling, run .little Codec.codec fresh [asked 100,asked 100,asked 1000] = .ok rising ∧
    run .little Codec.codec fresh [asked 1000,asked 100,asked 100] = .ok falling ∧
    reported [rising] = some 550 ∧ reported [falling] = some 325 ∧ reported [rising,fresh] = some 275 ∧
    Mean 400 [100,100,1000] ∧ ¬Mean 550 [100,100,1000] ∧ ¬Mean 325 [100,100,1000] ∧ ¬Mean 275 [100,100,1000] := by
  constructor
  · intro averaged
    have measured : Measured .little Codec.codec _ (0,[100,100,1000]) :=
      ⟨fresh,[asked 100,asked 100,asked 1000],rfl,rfl,rfl,rfl⟩
    have divided : Divided .little Codec.codec (fun start => start = 0) [_] [100,100,1000] :=
      ⟨[(0,[100,100,1000])],.cons measured .nil,by simp,by simp⟩
    have mean : Mean 550 [100,100,1000] := (averaged _ _ divided rfl).1
    exact absurd mean (by decide)
  · exact ⟨_,_,rfl,rfl,by decide,by decide,by decide,by decide,by decide,by decide,by decide⟩

-- What the halving does keep, when every client has a latency and starts from zero.
def Between (low high : Nat) (n : UInt32) : Prop := low ≤ n.toNat ∧ n.toNat ≤ high

theorem record_between (room : 2 * high < 2^32) (so_far : n = 0 ∨ Between low high n)
    (here : Between low high latency) : Between low high (recordLatency n latency) := by
  unfold recordLatency
  split
  · exact here
  · rename_i nonzero
    obtain ⟨above,below⟩ := so_far.resolve_left nonzero
    obtain ⟨least,most⟩ := here
    have value : ((n + latency) / 2).toNat = (n.toNat + latency.toNat) / 2 := by
      rw [UInt32.toNat_div,UInt32.toNat_add,Nat.mod_eq_of_lt (by omega)]
      rfl
    constructor <;> rw [value] <;> omega

theorem foldl_between (room : 2 * high < 2^32) (so_far : n = 0 ∨ Between low high n)
    (some : measured ≠ []) (all : ∀ latency ∈ measured, Between low high latency) :
    Between low high (measured.foldl recordLatency n) := by
  induction measured generalizing n with
  | nil => exact absurd rfl some
  | cons latency measured ih =>
    have here := record_between room so_far (all latency List.mem_cons_self)
    cases measured with
    | nil => exact here
    | cons next measured =>
      exact ih (.inr here) (List.cons_ne_nil _ _) fun latency member => all latency (List.mem_cons_of_mem _ member)

theorem reported_between (room : 2 * high < 2^32)
    (held : List.Forall₂ (Measured order pb) pool parts) (busy : ∀ part ∈ parts, part.1 = 0 ∧ part.2 ≠ [])
    (all : ∀ latency ∈ parts.flatMap Prod.snd, Between low high latency) (answer : reported pool = some n) :
    Between low high n := by
  by_cases none : parts.flatMap Prod.snd = []
  · rw [reported_none held none] at answer
    cases answer
  · rw [reported_parts held none] at answer
    cases answer
    have present : parts.map average ≠ [] := by
      intro empty
      rw [List.map_eq_nil_iff.mp empty] at none
      exact none rfl
    apply foldl_between room (.inl rfl) present
    intro latency member
    obtain ⟨part,here,rfl⟩ := List.mem_map.mp member
    obtain ⟨start,some⟩ := busy part here
    exact foldl_between room (.inl start) some fun latency inside => all latency (List.mem_flatMap.mpr ⟨part,here,inside⟩)

theorem sum_between (all : ∀ latency ∈ measured, Between low high latency) :
    low * measured.length ≤ (measured.map UInt32.toNat).sum ∧ (measured.map UInt32.toNat).sum ≤ high * measured.length := by
  induction measured with
  | nil => exact ⟨Nat.le_refl 0,Nat.zero_le _⟩
  | cons latency measured ih =>
    obtain ⟨above,below⟩ := all latency List.mem_cons_self
    obtain ⟨least,most⟩ := ih fun latency member => all latency (List.mem_cons_of_mem _ member)
    rw [List.map_cons,List.sum_cons,List.length_cons,Nat.mul_succ,Nat.mul_succ]
    omega

theorem reported_steady (room : 2 * (low + 1) < 2^32) (held : List.Forall₂ (Measured order pb) pool parts)
    (busy : ∀ part ∈ parts, part.1 = 0 ∧ part.2 ≠ [])
    (all : ∀ latency ∈ parts.flatMap Prod.snd, Between low (low + 1) latency) (answer : reported pool = some n) :
    Mean n (parts.flatMap Prod.snd) := by
  obtain ⟨above,below⟩ := reported_between room held busy all answer
  obtain ⟨least,most⟩ := sum_between all
  have above := Nat.mul_le_mul_right (parts.flatMap Prod.snd).length above
  have below := Nat.mul_le_mul_right (parts.flatMap Prod.snd).length below
  rw [Nat.add_mul,Nat.one_mul] at most below
  rw [Mean]
  omega

end RemoteDict.Latency

import RemoteDict.ClientRun
import RemoteDict.Foundation.Batch

namespace RemoteDict.Results
open Foundation ClientRun Client

def MAX_LINE_WRITE : Nat := 1024

def digits (n : Nat) : Str := (Nat.toDigits 10 n).map fun c => UInt8.ofNat c.toNat

def to_string (n : Int) : Str := if n < 0 then text "-" ++ digits n.natAbs else digits n.natAbs

def getReqType : RequestType → Str
  | .GET => text "GET"
  | .SET => text "SET"
  | .STAT => text "STAT"

def column (content : Str) : Str := text "," ++ content

def columnOf : Option Str → Str
  | none => []
  | some content => column content

def counts : Option Stat → Str
  | none => []
  | some stat_val =>
    columnOf (stat_val.numgetreq_.map fun n => to_string n.toInt) ++
    columnOf (stat_val.numsuccgetreq_.map fun n => to_string n.toInt) ++
    columnOf (stat_val.numfailgetreq_.map fun n => to_string n.toInt)

-- The line that saveResults builds for a result; none where it continues.
def row (result : ResultData) : Option Str :=
  let payload := result.payload
  match payload.requesttype_ with
  | none => none
  | some type =>
    some (to_string result.timestamp ++ column (getReqType type) ++ columnOf payload.key_ ++
      (match payload.value_ with
        | some value => column value
        | none => if type = .GET then columnOf payload.reason_ else []) ++
      counts payload.stats_ ++ text "\n")

-- The results of all clients and avgLatency. A pool has m_numThread clients,
-- which is an int.
def collect (pool : List Client) : List ResultData × UInt32 :=
  pool.foldl (fun collected client =>
    (collected.1 ++ client.m_results,recordLatency collected.2 client.m_averageLatency)) ([],0)

structure Buffer where
  data : Str := []
  count : Nat := 0
  written : List Str := []
  deriving DecidableEq, Repr

def append (buffer : Buffer) (result : ResultData) : Buffer :=
  match row result with
  | none => buffer
  | some line =>
    let data := buffer.data ++ line
    let count := buffer.count + 1
    if count = MAX_LINE_WRITE then ⟨[],0,buffer.written ++ [data]⟩ else ⟨data,count,buffer.written⟩

def flush (buffer : Buffer) : List Str := if buffer.data.isEmpty then buffer.written else buffer.written ++ [buffer.data]

def latencyLine (avgLatency : UInt32) : Str :=
  text "\n\n    Avergage Latency: " ++ to_string avgLatency.toNat ++ text " microseconds"

-- What is written to the file: the rows, write by write, and the last line.
structure Saved where
  rows : List Str
  avg_latency : Str
  deriving DecidableEq, Repr

-- `sort` is std::sort with compareByTimestamp; there is no file without results.
def saveResults (sort : List ResultData → List ResultData) (pool : List Client) : Except Halt (Option Saved) :=
  let results := (collect pool).1
  if results.isEmpty then .ok none
  else match Indexed.loop INT_MAX .index (fun buffer result => .ok (append buffer result)) 0 {} (sort results) with
    | .error halt => .error halt
    | .ok buffer => .ok (some ⟨flush buffer,latencyLine (collect pool).2⟩)

def compareByTimestamp (a b : ResultData) : Bool := a.timestamp < b.timestamp

-- Results with the same timestamp may come in any order.
def Sorts (sort : List ResultData → List ResultData) : Prop :=
  ∀ results, (sort results).Perm results ∧ (sort results).Pairwise fun a b => compareByTimestamp b a = false

variable {sort : List ResultData → List ResultData} {pool : List Client}

theorem digits_chars (n : Nat) : (digits n).map (fun byte => Char.ofNat byte.toNat) = Nat.toDigits 10 n := by
  rw [digits,List.map_map]
  conv_rhs => rw [← List.map_id (Nat.toDigits 10 n)]
  apply List.map_congr_left
  intro c member
  have digit : c.isDigit := Nat.isDigit_of_mem_toDigits (by decide) (by decide) member
  have small : c.toNat < 256 := by
    have most := (Bool.and_eq_true _ _ ▸ digit).2
    rw [decide_eq_true_eq,UInt32.le_iff_toNat_le] at most
    exact Nat.lt_of_le_of_lt most (by decide)
  show Char.ofNat (UInt8.ofNat c.toNat).toNat = c
  rw [UInt8.toNat_ofNat_of_lt' small,Char.ofNat_toNat]

theorem latencyLine_exact (n m : UInt32) : latencyLine n = latencyLine m ↔ n = m := by
  constructor
  · intro same
    simp only [latencyLine,to_string,List.append_assoc,List.append_cancel_left_eq,List.append_cancel_right_eq] at same
    have chars := congrArg (List.map fun byte : UInt8 => Char.ofNat byte.toNat) same
    rw [if_neg (by omega),if_neg (by omega),digits_chars,digits_chars] at chars
    have numbers := congrArg (Nat.ofDigitChars 10 · 0) chars
    simp only [Nat.ofDigitChars_toDigits (b:=10) (by decide) (by decide),Int.natAbs_natCast] at numbers
    exact UInt32.toNat_inj.mp numbers
  · exact congrArg latencyLine

theorem row_nonempty (written : row result = some line) : line ≠ [] := by
  unfold row at written
  dsimp only at written
  split at written
  · cases written
  · cases written
    exact List.append_ne_nil_of_right_ne_nil _ (List.cons_ne_nil _ _)

structure Holds (buffer : Buffer) (b : Batch.Collected Str) : Prop where
  data : buffer.data = b.pending.flatten
  count : buffer.count = b.pending.length
  written : buffer.written = b.done.map List.flatten
  nonempty : ∀ line ∈ b.pending, line ≠ []

theorem append_skips {buffer : Buffer} (none : row result = none) : append buffer result = buffer := by
  rw [append,none]

theorem append_holds {buffer : Buffer} (holds : Holds buffer b) (some : row result = some line) :
    Holds (append buffer result) (Batch.add MAX_LINE_WRITE b line) := by
  obtain ⟨data,count,written,nonempty⟩ := holds
  have text : buffer.data ++ line = (b.pending ++ [line]).flatten := by
    rw [data,List.flatten_append,List.flatten_singleton]
  rw [append,some,Batch.add,← count]
  dsimp only
  by_cases full : buffer.count + 1 = MAX_LINE_WRITE
  · rw [if_pos full,if_pos full]
    refine ⟨rfl,rfl,?_,fun line member => absurd member List.not_mem_nil⟩
    rw [written,text,List.map_append,List.map_singleton]
  · rw [if_neg full,if_neg full]
    refine ⟨text,?_,written,?_⟩
    · rw [count,List.length_append,List.length_singleton]
    · intro other member
      rcases List.mem_append.mp member with early | last
      · exact nonempty other early
      · rw [List.mem_singleton.mp last]
        exact row_nonempty some

theorem foldl_holds {buffer : Buffer} (holds : Holds buffer b) (results : List ResultData) :
    Holds (results.foldl append buffer) ((results.filterMap row).foldl (Batch.add MAX_LINE_WRITE) b) := by
  induction results generalizing buffer b with
  | nil => exact holds
  | cons result results ih =>
    cases written : row result with
    | none =>
      rw [List.foldl_cons,append_skips written,List.filterMap_cons_none written]
      exact ih holds
    | some line =>
      rw [List.foldl_cons,List.filterMap_cons_some written]
      exact ih (append_holds holds written)

theorem flush_holds {buffer : Buffer} (holds : Holds buffer b) : flush buffer = (Batch.finish b).map List.flatten := by
  have same : buffer.data.isEmpty = b.pending.isEmpty := by
    rw [holds.data]
    cases pending : b.pending with
    | nil => rfl
    | cons line rest =>
      have present := holds.nonempty line (by rw [pending]; exact List.mem_cons_self)
      cases line with
      | nil => exact absurd rfl present
      | cons byte line => rfl
  rw [flush,Batch.finish,same]
  split
  · exact holds.written
  · rw [holds.written,holds.data,List.map_append,List.map_singleton]

theorem foldl_collect (collected : List ResultData × UInt32) (pool : List Client) :
    (pool.foldl (fun collected client =>
      (collected.1 ++ client.m_results,recordLatency collected.2 client.m_averageLatency)) collected) =
      (collected.1 ++ pool.flatMap Client.m_results,
        (pool.map Client.m_averageLatency).foldl recordLatency collected.2) := by
  induction pool generalizing collected with
  | nil => simp
  | cons client pool ih =>
    rw [List.foldl_cons,ih,List.flatMap_cons,List.append_assoc]
    rfl

theorem collect_exact (pool : List Client) : collect pool =
    (pool.flatMap Client.m_results,(pool.map Client.m_averageLatency).foldl recordLatency 0) := by
  rw [collect,foldl_collect]
  rfl

def rowsOf : Option Saved → List Str
  | none => []
  | some saved => saved.rows

def batches (sort : List ResultData → List ResultData) (pool : List Client) : List (List Str) :=
  Batch.finish (((sort (pool.flatMap Client.m_results)).filterMap row).foldl (Batch.add MAX_LINE_WRITE) ⟨[],[]⟩)

theorem flush_batches (sort : List ResultData → List ResultData) (pool : List Client) :
    flush ((sort (pool.flatMap Client.m_results)).foldl append {}) = (batches sort pool).map List.flatten := by
  have empty : Holds {} ⟨[],[]⟩ := ⟨rfl,rfl,rfl,fun line member => absurd member List.not_mem_nil⟩
  exact flush_holds (foldl_holds empty _)

theorem saveResults_rows (sorts : Sorts sort) : (saveResults sort pool).map rowsOf = .ok rows ↔
    (pool.flatMap Client.m_results).length ≤ INT_MAX ∧ rows = (batches sort pool).map List.flatten := by
  have same := (sorts (pool.flatMap Client.m_results)).1
  rw [← flush_batches]
  unfold saveResults
  simp only [collect_exact,Indexed.loop_total append (Nat.zero_le INT_MAX),Nat.zero_add,same.length_eq]
  by_cases empty : (pool.flatMap Client.m_results).isEmpty
  · rw [if_pos empty]
    rw [List.isEmpty_iff] at empty
    rw [empty,List.perm_nil] at same
    rw [empty,same]
    simp [Except.map,rowsOf,flush,eq_comm]
  · rw [if_neg empty]
    by_cases small : (pool.flatMap Client.m_results).length ≤ INT_MAX
    · rw [if_pos small]
      constructor
      · intro saved
        cases saved
        exact ⟨small,rfl⟩
      · rintro ⟨_,rfl⟩
        rfl
    · rw [if_neg small]
      refine iff_of_false (fun saved => ?_) (fun both => small both.1)
      cases saved

-- What the file is to contain: the rows of a sorted arrangement of all results,
-- handed on in batches.
def Complete (sort : List ResultData → List ResultData) (pool : List Client) : Prop :=
  ∃ (sorted : List ResultData) (flushes : List (List Str)), sorted.Perm (pool.flatMap Client.m_results) ∧
    sorted.Pairwise (fun a b => a.timestamp ≤ b.timestamp) ∧
    (saveResults sort pool).map rowsOf = .ok (flushes.map List.flatten) ∧
    flushes.flatten = sorted.filterMap row ∧ ∀ lines ∈ flushes, lines.length ≤ MAX_LINE_WRITE

theorem batches_flatten (sort : List ResultData → List ResultData) (pool : List Client) :
    (batches sort pool).flatten = (sort (pool.flatMap Client.m_results)).filterMap row := by
  rw [batches,Batch.finish_flatten,Batch.foldl_all]
  rfl

theorem batches_bounded (sort : List ResultData → List ResultData) (pool : List Client) :
    ∀ batch ∈ batches sort pool, batch.length ≤ MAX_LINE_WRITE := by
  have start : Batch.Bounded MAX_LINE_WRITE (⟨[],[]⟩ : Batch.Collected Str) :=
    ⟨by decide,fun batch member => absurd member List.not_mem_nil⟩
  exact Batch.finish_bounded (Batch.foldl_bounded start _)

theorem saveResults_complete (sorts : Sorts sort) (pool : List Client) :
    Complete sort pool ↔ (pool.flatMap Client.m_results).length ≤ INT_MAX := by
  constructor
  · rintro ⟨_,_,_,_,written,_⟩
    exact ((saveResults_rows sorts).mp written).1
  · intro small
    obtain ⟨same,ordered⟩ := sorts (pool.flatMap Client.m_results)
    refine ⟨_,batches sort pool,same,?_,(saveResults_rows sorts).mpr ⟨small,rfl⟩,batches_flatten sort pool,
      batches_bounded sort pool⟩
    apply ordered.imp
    intro a b earlier
    exact Nat.not_lt.mp (of_decide_eq_false earlier)

def upTo (a b : ResultData) : Bool := !compareByTimestamp b a

def byTimestamp (results : List ResultData) : List ResultData := results.mergeSort upTo

theorem byTimestamp_sorts : Sorts byTimestamp := by
  intro results
  have trans : ∀ a b c, upTo a b → upTo b c → upTo a c := by
    intro a b c
    simp only [upTo,compareByTimestamp,Bool.not_eq_true',decide_eq_false_iff_not]
    omega
  have total : ∀ a b, upTo a b || upTo b a := by
    intro a b
    simp only [upTo,compareByTimestamp,Bool.or_eq_true,Bool.not_eq_true',decide_eq_false_iff_not]
    omega
  refine ⟨List.mergeSort_perm results upTo,?_⟩
  apply (List.pairwise_mergeSort trans total results).imp
  intro a b ordered
  exact Bool.not_eq_true' _ ▸ ordered

def stored (timestamp : Nat) : ResultData := ⟨{requesttype_ := some .SET,key_ := some (text "k"),value_ := some (text "v")},timestamp⟩

def pair : List Client := [⟨0,5,[stored 7,⟨{},6⟩],[]⟩,⟨0,0,[stored 3],[]⟩]

theorem saveResults_complete_pair : Complete byTimestamp pair ↔ (pair.flatMap Client.m_results).length ≤ INT_MAX :=
  saveResults_complete byTimestamp_sorts pair

-- Two clients of this kind have one result too many.
def busy : Client := ⟨0,5,List.replicate (2^30) (stored 7),[]⟩

theorem saveResults_overflows : ¬Complete byTimestamp [busy,busy] := by
  rintro ⟨_,_,_,_,written,_⟩
  have small := ((saveResults_rows byTimestamp_sorts).mp written).1
  have half : busy.m_results.length = 2^30 := List.length_replicate
  rw [List.flatMap_cons,List.flatMap_singleton,List.length_append,half] at small
  exact absurd small (by decide)

end RemoteDict.Results

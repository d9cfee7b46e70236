import Mathlib.Algebra.Group.Int.Defs
import RemoteDict.Server
import RemoteDict.Messagebody

namespace RemoteDict.CommandLine
open Foundation.Block

structure Options where
  short_options : List (Char × Bool)
  long_options : List (Str × Bool × Char)

inductive Found where
  | option (letter : Char) (optarg : Str)
  | unknown
  deriving DecidableEq, Repr

def byte (c : Char) : Byte := UInt8.ofNat c.toNat

-- The options in one element of argv, and the letter whose argument is the next
-- element. A letter takes the rest of its element when there is any.
def cluster (options : Options) : List Byte → List Found × Option Char
  | [] => ([],none)
  | c :: rest =>
    match options.short_options.find? (byte ·.1 = c) with
    | none => let later := cluster options rest; (.unknown :: later.1,later.2)
    | some (letter,false) => let later := cluster options rest; (.option letter [] :: later.1,later.2)
    | some (letter,true) => if rest = [] then ([],some letter) else ([.option letter rest],none)

-- A name may be cut short as long as it stays unambiguous.
def named (options : Options) (name : Str) : Option (Str × Bool × Char) :=
  match options.long_options.find? (·.1 = name) with
  | some row => some row
  | none =>
    match options.long_options.filter (name.isPrefixOf ·.1) with
    | [row] => some row
    | _ => none

def long (options : Options) (element : List Byte) : List Found × Option Char :=
  match named options (element.takeWhile (· ≠ byte '=')),element.dropWhile (· ≠ byte '=') with
  | none,_ => ([.unknown],none)
  | some (_,true,letter),[] => ([],some letter)
  | some (_,true,letter),_ :: optarg => ([.option letter optarg],none)
  | some (_,false,letter),[] => ([.option letter []],none)
  | some (_,false,_),_ :: _ => ([.unknown],none)

def element (options : Options) : Str → List Found × Option Char
  | [] | [_] => ([],none)
  | first :: second :: rest =>
    if first ≠ byte '-' then ([],none)
    else if second = byte '-' then long options rest
    else cluster options (second :: rest)

-- All the calls, on the elements after the program's name. What is not an option
-- is passed over, as by GNU's permutation, and "--" ends the options.
def scan (options : Options) : Option Char → List Str → List Found
  | none,[] => []
  | some _,[] => [.unknown]
  | some letter,optarg :: rest => .option letter optarg :: scan options none rest
  | none,argument :: rest =>
    if argument = text "--" then []
    else (element options argument).1 ++ scan options (element options argument).2 rest

def getopt_long (options : Options) (argv : List Str) : List Found := scan options none argv.tail

def isspace (c : Byte) : Bool := c = 32 || (9 ≤ c && c ≤ 13)
def isdigit (c : Byte) : Bool := 48 ≤ c && c ≤ 57

def magnitude (s : Str) : Nat := (s.takeWhile isdigit).foldl (fun n c => 10 * n + (c.toNat - 48)) 0

def LONG_MAX : Int := 2^63 - 1
def LONG_MIN : Int := -2^63

def strtol (s : Str) : Int :=
  match s.dropWhile isspace with
  | [] => 0
  | c :: rest =>
    if c = byte '-' then max LONG_MIN (-magnitude rest)
    else if c = byte '+' then min LONG_MAX (magnitude rest)
    else min LONG_MAX (magnitude (c :: rest))

-- The conversion from long to int keeps the low 32 bits.
def atoi (s : Str) : Int32 := Int32.ofInt (strtol s)

def parse {A : Type} (case : A → Char → Str → Option A) : A → List Found → Option A
  | arguments,[] => some arguments
  | _,.unknown :: _ => none
  | arguments,.option letter optarg :: rest => (case arguments letter optarg).bind (parse case · rest)

namespace Server

structure Arguments where
  host : Str := []
  port : Int32 := 0
  num_thread : Int32 := 0
  bloom_filter : Int32 := 0
  deriving DecidableEq, Repr

def options : Options where
  short_options := [('h',false),('t',true),('i',true),('p',true),('b',true)]
  long_options := [(text "help",false,'h'),(text "thread",true,'t'),(text "dest_ip",true,'i'),(text "port",true,'p'),
    (text "bfilter",true,'b')]

def case (arguments : Arguments) (letter : Char) (optarg : Str) : Option Arguments :=
  match letter with
  | 'h' => some arguments
  | 't' => some {arguments with num_thread := atoi optarg}
  | 'i' => some {arguments with host := optarg}
  | 'p' => some {arguments with port := atoi optarg}
  | 'b' => some {arguments with bloom_filter := atoi optarg}
  | _ => none

def main (argv : List Str) : Option Arguments :=
  (parse case {} (getopt_long options argv)).bind fun arguments => if argv.length < 7 then none else some arguments

-- The constructor of TcpServer takes num_workers as uint16_t, WorkerManager as int.
def m_numWorker (num_workers : Int32) : UInt16 := num_workers.toUInt32.toUInt16
def m_threadCount (threadCount : UInt16) : Int32 := threadCount.toUInt32.toInt32

-- ROUND_ROBIN; the remainder of an unsigned number by an int is unsigned.
def getWorkerIndex (m_threadCount : Int32) (m_index : UInt32) : Option UInt32 :=
  if m_threadCount.toUInt32 = 0 then none else some ((m_index + 1) % m_threadCount.toUInt32)

end Server

namespace Client

structure Arguments where
  host : Str := []
  input_file : Str := []
  port : Int32 := 0
  num_thread : Int32 := 0
  deriving DecidableEq, Repr

def options : Options where
  short_options := [('h',false),('t',true),('i',true),('p',true),('f',true)]
  long_options := [(text "help",false,'h'),(text "thread",true,'t'),(text "dest_ip",true,'i'),(text "port",true,'p'),
    (text "file",true,'f')]

def case (arguments : Arguments) (letter : Char) (optarg : Str) : Option Arguments :=
  match letter with
  | 'h' => some arguments
  | 't' => some {arguments with num_thread := atoi optarg}
  | 'i' => some {arguments with host := optarg}
  | 'p' => some {arguments with port := atoi optarg}
  | 'f' => some {arguments with input_file := optarg}
  | _ => none

def main (argv : List Str) : Option Arguments :=
  (parse case {} (getopt_long options argv)).bind fun arguments => if argv.length < 9 then none else some arguments

def chunk_size (size : UInt64) (m_numThread : Int32) : Option UInt64 :=
  if m_numThread.toInt64.toUInt64 = 0 then none else some (size / m_numThread.toInt64.toUInt64)

end Client

def lastArgument (letter : Char) : List Found → Option Str
  | [] => none
  | .unknown :: rest => lastArgument letter rest
  | .option other optarg :: rest => (lastArgument letter rest).or (if other = letter then some optarg else none)

theorem parse_last {A B : Type} {case : A → Char → Str → Option A} (field : A → B) (value : Str → B) (letter : Char)
    (writes : ∀ arguments other optarg next, case arguments other optarg = some next →
      field next = if other = letter then value optarg else field arguments)
    {found : List Found} {arguments next : A} (parsed : parse case arguments found = some next) :
    field next = ((lastArgument letter found).map value).getD (field arguments) := by
  induction found generalizing arguments with
  | nil =>
    cases parsed
    rfl
  | cons first rest ih =>
    cases first with
    | unknown => cases parsed
    | option other optarg =>
      obtain ⟨middle,taken,later⟩ := Option.bind_eq_some_iff.mp parsed
      rw [ih later,writes _ _ _ _ taken,lastArgument]
      cases lastArgument letter rest with
      | some last => rfl
      | none => by_cases same : other = letter <;> simp [same]

theorem Server.case_thread {arguments next : Arguments} (taken : case arguments letter optarg = some next) :
    next.num_thread = if letter = 't' then atoi optarg else arguments.num_thread := by
  unfold case at taken
  split at taken <;> cases taken <;> simp

theorem Client.case_thread {arguments next : Arguments} (taken : case arguments letter optarg = some next) :
    next.num_thread = if letter = 't' then atoi optarg else arguments.num_thread := by
  unfold case at taken
  split at taken <;> cases taken <;> simp

theorem Server.main_thread (accepted : main argv = some arguments) :
    arguments.num_thread = ((lastArgument 't' (getopt_long options argv)).map atoi).getD 0 := by
  obtain ⟨parsed,read,long⟩ := Option.bind_eq_some_iff.mp accepted
  split at long <;> cases long
  exact parse_last Arguments.num_thread atoi 't' (fun _ _ _ _ taken => case_thread taken) read

theorem Client.main_thread (accepted : main argv = some arguments) :
    arguments.num_thread = ((lastArgument 't' (getopt_long options argv)).map atoi).getD 0 := by
  obtain ⟨parsed,read,long⟩ := Option.bind_eq_some_iff.mp accepted
  split at long <;> cases long
  exact parse_last Arguments.num_thread atoi 't' (fun _ _ _ _ taken => case_thread taken) read

theorem Server.threadCount_toNat (num_thread : Int32) :
    (m_threadCount (m_numWorker num_thread)).toUInt32.toNat = num_thread.toUInt32.toNat % 65536 := by
  rw [m_threadCount,UInt32.toUInt32_toInt32,UInt16.toNat_toUInt32,m_numWorker,UInt32.toNat_toUInt16]

theorem loadbalance_divides (n : UInt16) {s : Server.State F n.toNat} (running : s.main ≠ .returned) (m_index : UInt32)
    (same : s.m_index = m_index.toNat) (fd : Nat) :
    (Server.getWorkerIndex (Server.m_threadCount n) m_index = none ∧ Server.loadbalanceFd s fd = Server.fail s) ∨
    ∃ index less, Server.getWorkerIndex (Server.m_threadCount n) m_index = some index ∧
      Server.loadbalanceFd s fd = {s with m_index := index.toNat,listener := .calling ⟨index.toNat,less⟩ fd} := by
  have divisor : (Server.m_threadCount n).toUInt32.toNat = n.toNat := by
    rw [Server.m_threadCount,UInt32.toUInt32_toInt32,UInt16.toNat_toUInt32]
  by_cases workers : 0 < n.toNat
  · have nonzero : (Server.m_threadCount n).toUInt32 ≠ 0 := by
      intro zero
      rw [zero] at divisor
      simp at divisor
      omega
    have remainder : ((m_index + 1) % (Server.m_threadCount n).toUInt32).toNat = (s.m_index + 1) % 2^32 % n.toNat := by
      rw [UInt32.toNat_mod,UInt32.toNat_add,divisor,same]
      rfl
    refine .inr ⟨_,?_,if_neg nonzero,?_⟩
    · rw [remainder]
      exact Nat.mod_lt _ workers
    · simp only [Server.loadbalanceFd,dif_pos (And.intro workers running),remainder]
  · have zero : (Server.m_threadCount n).toUInt32 = 0 := UInt32.toNat_inj.mp (by rw [divisor]; simp; omega)
    exact .inl ⟨if_pos zero,dif_neg fun both => workers both.1⟩

theorem toInt_divides (n : Int32) : (65536 : Int) ∣ n.toInt ↔ n.toUInt32.toNat % 65536 = 0 := by
  have value : n.toInt = n.toUInt32.toNat ∨ n.toInt = n.toUInt32.toNat - 2^32 := by
    have signed := BitVec.toInt_eq_toNat_cond n.toBitVec
    rw [Int32.toInt_toBitVec] at signed
    have same : n.toBitVec.toNat = n.toUInt32.toNat := rfl
    rw [same] at signed
    split at signed
    · exact .inl signed
    · exact .inr signed
  omega

theorem Server.getWorkerIndex_exact (num_thread : Int32) (m_index : UInt32) :
    (getWorkerIndex (m_threadCount (m_numWorker num_thread)) m_index).isSome ↔ ¬(65536 : Int) ∣ num_thread.toInt := by
  have count := threadCount_toNat num_thread
  rw [toInt_divides,← count,getWorkerIndex]
  split
  · rename_i zero
    simp [zero]
  · rename_i positive
    refine iff_of_true rfl fun zero => positive (UInt32.toNat_inj.mp ?_)
    rw [zero]
    rfl

theorem Client.chunk_size_exact (size : UInt64) (m_numThread : Int32) :
    (chunk_size size m_numThread).isSome ↔ m_numThread ≠ 0 := by
  have divisor : m_numThread.toInt64.toUInt64 = 0 ↔ m_numThread = 0 := by
    constructor
    · intro zero
      have wide : m_numThread.toInt64 = 0 := by
        rw [← Int64.toInt64_toUInt64 m_numThread.toInt64,zero]
        rfl
      rw [← Int32.toInt_inj,← Int32.toInt_toInt64,wide]
      rfl
    · rintro rfl
      rfl
  rw [chunk_size]
  split
  · rename_i zero
    simp [divisor.mp zero]
  · rename_i positive
    exact iff_of_true rfl fun zero => positive (divisor.mpr zero)

theorem given_exact {found : List Found} {P : Int32 → Prop} (zero : ¬P 0) :
    P (((lastArgument 't' found).map atoi).getD 0) ↔ ∃ optarg, lastArgument 't' found = some optarg ∧ P (atoi optarg) := by
  cases lastArgument 't' found <;> simp [zero]

theorem divisors_exact (served : Server.main argv = some arguments) (asked : Client.main other = some sending) :
    ((∀ m_index, (Server.getWorkerIndex (Server.m_threadCount (Server.m_numWorker arguments.num_thread)) m_index).isSome) ↔
      ∃ optarg, lastArgument 't' (getopt_long Server.options argv) = some optarg ∧ ¬(65536 : Int) ∣ (atoi optarg).toInt) ∧
    ((∀ size, (Client.chunk_size size sending.num_thread).isSome) ↔
      ∃ optarg, lastArgument 't' (getopt_long Client.options other) = some optarg ∧ atoi optarg ≠ 0) := by
  constructor
  · simp only [Server.getWorkerIndex_exact,forall_const,Server.main_thread served]
    exact given_exact (P:=fun n => ¬(65536 : Int) ∣ n.toInt) (by decide)
  · simp only [Client.chunk_size_exact,forall_const,Client.main_thread asked]
    exact given_exact (P:=fun n => n ≠ 0) (by decide)

def line (arguments : List String) : List Str := arguments.map text

def serving : List Str := line ["./remotedict","-t","4","-i","127.0.0.1","-p","6000","-b","1"]

def sending : List Str := line ["./msgclient","-t","2","-i","127.0.0.1","-p","6000","-f","./data/input_data.csv"]

theorem divisors_exact_usage : ∃ arguments other, Server.main serving = some arguments ∧ Client.main sending = some other ∧
    ((∀ m_index, (Server.getWorkerIndex (Server.m_threadCount (Server.m_numWorker arguments.num_thread)) m_index).isSome) ↔
      ∃ optarg, lastArgument 't' (getopt_long Server.options serving) = some optarg ∧ ¬(65536 : Int) ∣ (atoi optarg).toInt) ∧
    ((∀ size, (Client.chunk_size size other.num_thread).isSome) ↔
      ∃ optarg, lastArgument 't' (getopt_long Client.options sending) = some optarg ∧ atoi optarg ≠ 0) := by
  have served : Server.main serving = some ⟨text "127.0.0.1",6000,4,1⟩ := by decide
  have asked : Client.main sending = some ⟨text "127.0.0.1",text "./data/input_data.csv",6000,2⟩ := by decide
  exact ⟨_,_,served,asked,divisors_exact served asked⟩

theorem divisors_zero :
    Server.main (line ["./remotedict","-i","127.0.0.1","-p","6000","-b","1"]) =
      some ⟨text "127.0.0.1",6000,0,1⟩ ∧
    Server.getWorkerIndex (Server.m_threadCount (Server.m_numWorker 0)) 0 = none ∧
    Server.main (line ["./remotedict","-t","65536","-i","127.0.0.1","-p","6000"]) =
      some ⟨text "127.0.0.1",6000,65536,0⟩ ∧
    Server.getWorkerIndex (Server.m_threadCount (Server.m_numWorker 65536)) 0 = none ∧
    Client.main (line ["./msgclient","-t","0","-i","127.0.0.1","-p","6000","-f","in.csv"]) =
      some ⟨text "127.0.0.1",text "in.csv",6000,0⟩ ∧
    Client.chunk_size 10 0 = none := by
  decide

end RemoteDict.CommandLine

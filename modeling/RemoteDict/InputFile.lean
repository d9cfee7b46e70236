import RemoteDict.Client
import RemoteDict.Foundation.Pieces

namespace RemoteDict.InputFile
open Foundation Foundation.Block

-- Helper.h: space, newline, carriage return, tab, form feed, vertical tab.
def WHITESPACE : List Byte := [32,10,13,9,12,11]

def ltrim (s : Str) : Str := s.dropWhile (WHITESPACE.contains ·)

def rtrim (s : Str) : Str := (s.reverse.dropWhile (WHITESPACE.contains ·)).reverse

def trim (s : Str) : Str := rtrim (ltrim s)

-- The C locale.
def toupper (c : Byte) : Byte := if 97 ≤ c ∧ c ≤ 122 then c - 32 else c

def caseInSensStringCompare (str1 str2 : Str) : Bool :=
  decide (str1.length = str2.length) && (str1.zip str2).all fun c => c.1 = c.2 || toupper c.1 = toupper c.2

def newline : Byte := 10
def comma : Byte := 44

-- getline until eof() holds, which is when it meets no newline: what follows the
-- last newline is a line as well, also when it is empty.
def lines (infile : Str) : List Str := Pieces.pieces (· == newline) (infile.length + 1) infile

-- strtok_r reads up to the first zero byte of the line.
def c_str (line : Str) : Str := line.takeWhile (· != 0)

def fields (line : Str) : List Str :=
  (Pieces.tokens (· == comma) ((c_str line).length + 1) (c_str line)).map trim

-- One iteration: msg is pushed with the type its constructor leaves unassigned
-- when no branch is taken.
def message (line_field : List Str) : MessageT :=
  match line_field with
  | [] => {}
  | operation :: rest =>
    if caseInSensStringCompare operation (text "GET") ∧ 2 ≤ line_field.length then {type := some .GET,key := rest.getD 0 []}
    else if caseInSensStringCompare operation (text "SET") ∧ 3 ≤ line_field.length then
      {type := some .SET,key := rest.getD 0 [],value := rest.getD 1 []}
    else if caseInSensStringCompare operation (text "STAT") then {type := some .STAT}
    else {}

def readAndParseInputFile (infile : Str) : List MessageT := (lines infile).map fun line => message (fields line)

-- What a line is to be parsed to: its fields are the pieces between commas that
-- are not empty, without white space around them.
def pieces (line : Str) : List Str := (((c_str line).splitOn comma).filter (!·.isEmpty)).map trim

def SameLetters (left right : Str) : Prop := left.map toupper = right.map toupper

inductive WellFormed (line : Str) : MessageT → Prop where
  | get : pieces line = operation :: key :: rest → SameLetters operation (text "GET") → WellFormed line ⟨some .GET,key,[]⟩
  | set : pieces line = operation :: key :: value :: rest → SameLetters operation (text "SET") →
      WellFormed line ⟨some .SET,key,value⟩
  | stat : pieces line = operation :: rest → SameLetters operation (text "STAT") → WellFormed line ⟨some .STAT,[],[]⟩

inductive Requests : List Str → List MessageT → Prop where
  | nil : Requests [] []
  | request : WellFormed line msg → Requests rest msgs → Requests (line :: rest) (msg :: msgs)
  | other : (∀ msg, ¬WellFormed line msg) → Requests rest msgs → Requests (line :: rest) msgs

theorem ltrim_parts (s : Str) : ∃ before, s = before ++ ltrim s ∧ (∀ c ∈ before, c ∈ WHITESPACE) ∧
    ∀ c ∈ (ltrim s).head?, c ∉ WHITESPACE := by
  refine ⟨s.takeWhile (WHITESPACE.contains ·),List.takeWhile_append_dropWhile.symm,?_,?_⟩
  · intro c member
    simpa using List.mem_takeWhile_imp member
  · intro c member
    have stopped := List.head?_dropWhile_not (WHITESPACE.contains ·) s
    rw [ltrim] at member
    rw [member] at stopped
    simpa using stopped

theorem rtrim_parts (s : Str) : ∃ after, s = rtrim s ++ after ∧ (∀ c ∈ after, c ∈ WHITESPACE) ∧
    ∀ c ∈ (rtrim s).getLast?, c ∉ WHITESPACE := by
  obtain ⟨before,whole,blank,ends⟩ := ltrim_parts s.reverse
  refine ⟨before.reverse,?_,?_,?_⟩
  · have same := congrArg List.reverse whole
    rw [List.reverse_reverse,List.reverse_append] at same
    exact same
  · intro c member
    exact blank c (List.mem_reverse.mp member)
  · rw [rtrim,List.getLast?_reverse]
    exact ends

theorem trim_parts (s : Str) : ∃ before after, s = before ++ trim s ++ after ∧
    (∀ c ∈ before ++ after, c ∈ WHITESPACE) ∧ (∀ c ∈ (trim s).head?, c ∉ WHITESPACE) ∧
    ∀ c ∈ (trim s).getLast?, c ∉ WHITESPACE := by
  obtain ⟨before,whole,left,start⟩ := ltrim_parts s
  obtain ⟨after,rest,right,last⟩ := rtrim_parts (ltrim s)
  refine ⟨before,after,?_,?_,?_,last⟩
  · rw [List.append_assoc,trim,← rest]
    exact whole
  · intro c member
    rcases List.mem_append.mp member with early | late
    · exact left c early
    · exact right c late
  · intro c member
    rw [rest,List.head?_append,← trim,member] at start
    exact start c rfl

theorem lines_exact (infile : Str) : lines infile = infile.splitOn newline :=
  Pieces.pieces_exact (Nat.lt_succ_self _)

theorem fields_exact (line : Str) : fields line = pieces line := by
  rw [fields,Pieces.tokens_exact (Nat.lt_succ_self _)]
  rfl

theorem toupper_same (c d : Byte) : (c = d || toupper c = toupper d) = true ↔ toupper c = toupper d := by
  simp only [Bool.or_eq_true,decide_eq_true_eq]
  exact ⟨fun either => either.elim (congrArg toupper) id,.inr⟩

theorem compare_exact (left right : Str) : caseInSensStringCompare left right = true ↔ SameLetters left right := by
  induction left generalizing right with
  | nil => cases right <;> simp [caseInSensStringCompare,SameLetters]
  | cons c left ih =>
    cases right with
    | nil => simp [caseInSensStringCompare,SameLetters]
    | cons d right =>
      have later := ih right
      unfold caseInSensStringCompare SameLetters at later ⊢
      rw [Bool.and_eq_true,decide_eq_true_eq] at later ⊢
      rw [List.zip_cons_cons,List.all_cons,Bool.and_eq_true,toupper_same,List.length_cons,List.length_cons,Nat.succ_inj,
        List.map_cons,List.map_cons,List.cons_eq_cons,← later]
      exact and_left_comm

theorem message_get (same : SameLetters operation (text "GET")) (key : Str) (rest : List Str) :
    message (operation :: key :: rest) = ⟨some .GET,key,[]⟩ := by
  have taken : caseInSensStringCompare operation (text "GET") = true ∧ 2 ≤ (operation :: key :: rest).length :=
    ⟨(compare_exact _ _).mpr same,by simp⟩
  rw [message,if_pos taken]
  rfl

theorem compare_other (same : SameLetters operation name) (apart : name.map toupper ≠ other.map toupper) :
    caseInSensStringCompare operation other = false := by
  rw [← Bool.not_eq_true,compare_exact]
  intro equal
  exact apart (same.symm.trans equal)

theorem message_set (same : SameLetters operation (text "SET")) (key value : Str) (rest : List Str) :
    message (operation :: key :: value :: rest) = ⟨some .SET,key,value⟩ := by
  have get : caseInSensStringCompare operation (text "GET") = false := compare_other same (by decide)
  have taken : caseInSensStringCompare operation (text "SET") = true ∧ 3 ≤ (operation :: key :: value :: rest).length :=
    ⟨(compare_exact _ _).mpr same,by simp⟩
  rw [message,get,if_neg (by simp),if_pos taken]
  rfl

theorem message_stat (same : SameLetters operation (text "STAT")) (rest : List Str) :
    message (operation :: rest) = ⟨some .STAT,[],[]⟩ := by
  have get : caseInSensStringCompare operation (text "GET") = false := compare_other same (by decide)
  have set : caseInSensStringCompare operation (text "SET") = false := compare_other same (by decide)
  rw [message,get,set,if_neg (by simp),if_neg (by simp),if_pos ((compare_exact _ _).mpr same)]

theorem message_exact (formed : WellFormed line msg) : message (fields line) = msg := by
  rw [fields_exact]
  cases formed with
  | get split same => rw [split,message_get same]
  | set split same => rw [split,message_set same]
  | stat split same => rw [split,message_stat same]

theorem message_other (unformed : ∀ msg, ¬WellFormed line msg) : message (fields line) = {} := by
  rw [fields_exact]
  cases split : pieces line with
  | nil => rfl
  | cons operation rest =>
    unfold message
    dsimp only
    split
    · rename_i taken
      cases rest with
      | nil => exact absurd taken.2 (by simp)
      | cons key rest => exact absurd (.get split ((compare_exact _ _).mp taken.1)) (unformed _)
    · split
      · rename_i taken
        match rest with
        | [] | [_] => exact absurd taken.2 (by simp)
        | key :: value :: rest => exact absurd (.set split ((compare_exact _ _).mp taken.1)) (unformed _)
      · split
        · rename_i taken
          exact absurd (.stat split ((compare_exact _ _).mp taken)) (unformed _)
        · rfl

theorem requests_fewer (requests : Requests found msgs) : msgs.length ≤ found.length := by
  induction requests with
  | nil => exact Nat.le_refl 0
  | request _ _ ih => exact Nat.succ_le_succ ih
  | other _ _ ih => exact Nat.le_succ_of_le ih

theorem requests_all (requests : Requests found msgs) (same : msgs.length = found.length) :
    ∀ line ∈ found, ∃ msg, WellFormed line msg := by
  induction requests with
  | nil =>
    intro line member
    cases member
  | @request _ msg _ _ formed _ ih =>
    intro line member
    rcases List.mem_cons.mp member with rfl | later
    · exact ⟨msg,formed⟩
    · exact ih (Nat.succ.inj same) line later
  | other _ rest _ =>
    have fewer := requests_fewer rest
    rw [same,List.length_cons] at fewer
    exact absurd fewer (Nat.not_succ_le_self _)

theorem requests_formed (formed : ∀ line ∈ found, ∃ msg, WellFormed line msg) :
    Requests found (found.map fun line => message (fields line)) := by
  induction found with
  | nil => exact .nil
  | cons line found ih =>
    obtain ⟨msg,here⟩ := formed line List.mem_cons_self
    have parsed : WellFormed line (message (fields line)) := by
      rw [message_exact here]
      exact here
    exact .request parsed (ih fun line member => formed line (List.mem_cons_of_mem _ member))

theorem input_exact (infile : Str) : Requests (infile.splitOn newline) (readAndParseInputFile infile) ↔
    ∀ line ∈ infile.splitOn newline, ∃ msg, WellFormed line msg := by
  rw [← lines_exact]
  constructor
  · intro requests
    exact requests_all requests (List.length_map _)
  · exact requests_formed

theorem ended_line :
    readAndParseInputFile (text "STAT\n") = [⟨some .STAT,[],[]⟩,{}] ∧
    Requests ((text "STAT\n").splitOn newline) [⟨some .STAT,[],[]⟩] ∧
    ¬Requests ((text "STAT\n").splitOn newline) (readAndParseInputFile (text "STAT\n")) := by
  have found : (text "STAT\n").splitOn newline = [text "STAT",[]] := by
    rw [← lines_exact]
    decide
  have empty : ∀ msg, ¬WellFormed [] msg := by
    intro msg formed
    cases formed <;> rename_i split _ <;> cases split
  rw [found]
  have alone : pieces (text "STAT") = [text "STAT"] := by decide
  refine ⟨by decide,.request (.stat alone rfl) (.other empty .nil),?_⟩
  intro requests
  obtain ⟨msg,formed⟩ := requests_all requests (by decide) [] (by simp)
  exact empty msg formed

end RemoteDict.InputFile

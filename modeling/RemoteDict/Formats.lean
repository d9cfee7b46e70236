import RemoteDict.InputFile
import RemoteDict.Results

namespace RemoteDict.Formats
open Foundation Foundation.Block InputFile

-- What a field can hold: nothing that ends it, and no white space around it.
structure Plain (s : Str) : Prop where
  within : ∀ c ∈ s, c ≠ newline ∧ c ≠ comma ∧ c ≠ 0
  trimmed : trim s = s

-- The messages that a line can be. GET and SET with too few fields, and lines
-- that begin with something else, leave the one without a type.
inductive Formed : MessageT → Prop where
  | get : Plain key → Formed ⟨some .GET,key,[]⟩
  | set : Plain key → Plain value → Formed ⟨some .SET,key,value⟩
  | stat : Formed ⟨some .STAT,[],[]⟩
  | unassigned : Formed {}

-- A file for messages, one on each line. The blank keeps an empty field from
-- being passed over.
def blank : Byte := 32

def columns (msg : MessageT) : List Str :=
  match msg.type with
  | some .GET => [text "GET",blank :: msg.key]
  | some .SET => [text "SET",blank :: msg.key,blank :: msg.value]
  | some .STAT => [text "STAT"]
  | none => []

def joined (columns : List Str) : Str := [comma].intercalate columns

def print (msgs : List MessageT) : Str := [newline].intercalate (msgs.map fun msg => joined (columns msg))

variable {s key value line : Str} {msg : MessageT} {msgs : List MessageT}

theorem ltrim_kept (starts : ∀ c ∈ s.head?, c ∉ WHITESPACE) : ltrim s = s := by
  cases s with
  | nil => rfl
  | cons c s =>
    have kept : ¬WHITESPACE.contains c := by simpa using starts c rfl
    exact List.dropWhile_cons_of_neg kept

theorem rtrim_kept (ends : ∀ c ∈ s.getLast?, c ∉ WHITESPACE) : rtrim s = s := by
  have reversed := ltrim_kept (s:=s.reverse) (by rwa [List.head?_reverse])
  rw [rtrim]
  exact (congrArg List.reverse reversed).trans (List.reverse_reverse s)

theorem trim_idem (s : Str) : trim (trim s) = trim s := by
  obtain ⟨_,_,_,_,starts,ends⟩ := trim_parts s
  rw [trim,ltrim_kept starts,rtrim_kept ends]

theorem trim_blank (s : Str) : trim (blank :: s) = trim s := by
  have skipped : WHITESPACE.contains blank = true := by decide
  rw [trim,trim,ltrim,ltrim,List.dropWhile_cons_of_pos skipped]

theorem mem_trim (member : c ∈ trim s) : c ∈ s := by
  obtain ⟨before,after,whole,_⟩ := trim_parts s
  rw [whole]
  exact List.mem_append_left _ (List.mem_append_right _ member)

theorem mem_c_str (member : c ∈ c_str line) : c ≠ 0 ∧ c ∈ line :=
  ⟨by simpa using List.mem_takeWhile_imp member,(List.takeWhile_sublist _).mem member⟩

theorem pieces_plain (whole : newline ∉ line) : ∀ field ∈ pieces line, Plain field := by
  intro field member
  obtain ⟨piece,split,rfl⟩ := List.mem_map.mp member
  have cut := (List.mem_filter.mp split).1
  rw [List.splitOn_eq_splitOnP] at cut
  have within := Pieces.splitOnP_within cut
  refine ⟨fun c inside => ?_,trim_idem piece⟩
  obtain ⟨apart,there⟩ := within c (mem_trim inside)
  obtain ⟨nonzero,online⟩ := mem_c_str there
  refine ⟨fun same => whole (same ▸ online),?_,nonzero⟩
  simpa using apart

theorem message_formed (whole : newline ∉ line) : Formed (message (fields line)) := by
  by_cases formed : ∃ msg, WellFormed line msg
  · obtain ⟨msg,formed⟩ := formed
    have plain := pieces_plain whole
    rw [message_exact formed]
    cases formed with
    | get split _ =>
      rw [split] at plain
      exact .get (plain _ (by simp))
    | set split _ =>
      rw [split] at plain
      exact .set (plain _ (by simp)) (plain _ (by simp))
    | stat => exact .stat
  · rw [message_other fun msg here => formed ⟨msg,here⟩]
    exact .unassigned

theorem parsed_formed (infile : Str) : readAndParseInputFile infile ≠ [] ∧ ∀ msg ∈ readAndParseInputFile infile, Formed msg := by
  rw [readAndParseInputFile,lines_exact]
  constructor
  · intro empty
    exact List.splitOn_ne_nil newline infile (List.map_eq_nil_iff.mp empty)
  · intro msg member
    obtain ⟨line,split,rfl⟩ := List.mem_map.mp member
    rw [List.splitOn_eq_splitOnP] at split
    refine message_formed fun inside => ?_
    have apart := (Pieces.splitOnP_within split newline inside).1
    simp at apart

theorem pieces_joined {columns : List Str} (within : ∀ column ∈ columns, column ≠ [] ∧ ∀ c ∈ column, c ≠ comma ∧ c ≠ 0) :
    pieces (joined columns) = columns.map trim := by
  have nonzero : ∀ c ∈ joined columns, (c != 0) = true := by
    intro c member
    rcases Pieces.mem_intercalate member with separator | ⟨column,there,inside⟩
    · rw [List.mem_singleton.mp separator]
      decide
    · simpa using ((within column there).2 c inside).2
  rw [pieces,c_str,List.takeWhile_eq_self_iff.mpr nonzero]
  cases columns with
  | nil => rfl
  | cons first rest =>
    rw [joined,List.splitOn_intercalate comma (fun column member inside => ((within column member).2 comma inside).1 rfl)
      (List.cons_ne_nil _ _)]
    refine congrArg (List.map trim) (List.filter_eq_self.mpr fun column member => ?_)
    simpa using (within column member).1

theorem joined_line {columns : List Str} (within : ∀ column ∈ columns, newline ∉ column) : newline ∉ joined columns := by
  intro member
  rcases Pieces.mem_intercalate member with separator | ⟨column,there,inside⟩
  · exact absurd (List.mem_singleton.mp separator) (by decide)
  · exact within column there inside

theorem letters {P : Byte → Prop} [DecidablePred P] {s : Str} (all : (s.all fun c => decide (P c)) = true) : ∀ c ∈ s, P c := by
  intro c member
  exact of_decide_eq_true (List.all_eq_true.mp all c member)

theorem blank_within (plain : Plain s) : ∀ c ∈ blank :: s, c ≠ newline ∧ c ≠ comma ∧ c ≠ 0 := by
  intro c member
  rcases List.mem_cons.mp member with rfl | inside
  · decide
  · exact plain.within c inside

theorem columns_within (formed : Formed msg) :
    ∀ column ∈ columns msg, column ≠ [] ∧ ∀ c ∈ column, c ≠ newline ∧ c ≠ comma ∧ c ≠ 0 := by
  intro column member
  cases formed with
  | get plain =>
    rcases List.mem_pair.mp member with rfl | rfl
    · exact ⟨by decide,letters (by decide)⟩
    · exact ⟨List.cons_ne_nil _ _,blank_within plain⟩
  | set plain also =>
    simp only [columns,List.mem_cons,List.not_mem_nil,or_false] at member
    rcases member with rfl | rfl | rfl
    · exact ⟨by decide,letters (by decide)⟩
    · exact ⟨List.cons_ne_nil _ _,blank_within plain⟩
    · exact ⟨List.cons_ne_nil _ _,blank_within also⟩
  | stat =>
    rw [List.mem_singleton.mp member]
    exact ⟨by decide,letters (by decide)⟩
  | unassigned => cases member

theorem printed_line (formed : Formed msg) : newline ∉ joined (columns msg) :=
  joined_line fun column member inside => ((columns_within formed column member).2 newline inside).1 rfl

theorem message_printed (formed : Formed msg) : message (fields (joined (columns msg))) = msg := by
  have split : pieces (joined (columns msg)) = (columns msg).map trim :=
    pieces_joined fun column member => (columns_within formed column member).imp_right fun within c inside => (within c inside).2
  cases formed with
  | get plain =>
    have read : pieces (joined _) = [text "GET",_] := split.trans (by
      rw [columns,List.map_cons,List.map_singleton,trim_blank,plain.trimmed]; rfl)
    exact message_exact (.get read rfl)
  | set plain also =>
    have read : pieces (joined _) = [text "SET",_,_] := split.trans (by
      rw [columns,List.map_cons,List.map_cons,List.map_singleton,trim_blank,trim_blank,plain.trimmed,also.trimmed]; rfl)
    exact message_exact (.set read rfl)
  | stat => exact message_exact (.stat split rfl)
  | unassigned => rfl

-- The lists of messages that a file can stand for are the lists of such messages
-- that are not empty, and printing one of them gives such a file.
theorem printed_exact (msgs : List MessageT) :
    ((∃ infile, readAndParseInputFile infile = msgs) ↔ msgs ≠ [] ∧ ∀ msg ∈ msgs, Formed msg) ∧
    (readAndParseInputFile (print msgs) = msgs ↔ msgs ≠ [] ∧ ∀ msg ∈ msgs, Formed msg) := by
  have back : msgs ≠ [] ∧ (∀ msg ∈ msgs, Formed msg) → readAndParseInputFile (print msgs) = msgs := by
    rintro ⟨some,formed⟩
    have unbroken : ∀ line ∈ msgs.map fun msg => joined (columns msg), newline ∉ line := by
      intro line member
      obtain ⟨msg,there,rfl⟩ := List.mem_map.mp member
      exact printed_line (formed msg there)
    rw [readAndParseInputFile,lines_exact,print,List.splitOn_intercalate newline unbroken (mt List.map_eq_nil_iff.mp some),
      List.map_map]
    exact (List.map_congr_left fun msg member => message_printed (formed msg member)).trans (List.map_id msgs)
  have forth : ∀ infile, readAndParseInputFile infile = msgs → msgs ≠ [] ∧ ∀ msg ∈ msgs, Formed msg := by
    rintro infile rfl
    exact parsed_formed infile
  exact ⟨⟨fun ⟨infile,read⟩ => forth infile read,fun formed => ⟨print msgs,back formed⟩⟩,forth (print msgs),back⟩

section
open Results

def content (payload : Payload) (type : RequestType) : Option Str :=
  match payload.value_ with
  | some value => some value
  | none => if type = .GET then payload.reason_ else none

def countCells : Option Stat → List Str
  | none => []
  | some stat_val => (stat_val.numgetreq_.map fun n => to_string n.toInt).toList ++
    (stat_val.numsuccgetreq_.map fun n => to_string n.toInt).toList ++
    (stat_val.numfailgetreq_.map fun n => to_string n.toInt).toList

def cells (result : ResultData) : Option (List Str) :=
  result.payload.requesttype_.map fun type => [to_string result.timestamp,getReqType type] ++ result.payload.key_.toList ++
    (content result.payload type).toList ++ countCells result.payload.stats_

def latency (avgLatency : UInt32) : Str := text "Avergage Latency: " ++ to_string avgLatency.toNat ++ text " microseconds"

-- Texts that fill a cell: an empty one would be passed over.
def Filling (s : Str) : Prop := s ≠ [] ∧ Plain s

def Tidy (payload : Payload) : Prop :=
  (∀ key ∈ payload.key_, Filling key) ∧ (∀ value ∈ payload.value_, Filling value) ∧ ∀ reason ∈ payload.reason_, Filling reason

theorem joined_cons (first : Str) (rest : List Str) : joined (first :: rest) = first ++ rest.flatMap column := by
  induction rest generalizing first with
  | nil => simp [joined]
  | cons second rest ih =>
    have split := ih second
    unfold joined at split ⊢
    rw [List.intercalate_cons_cons,split,List.append_assoc,List.flatMap_cons,column,List.append_assoc]
    rfl

theorem columnOf_cells (shown : Option Str) : columnOf shown = shown.toList.flatMap column := by
  cases shown <;> simp [columnOf]

theorem counts_cells (stats : Option Stat) : counts stats = (countCells stats).flatMap column := by
  cases stats with
  | none => rfl
  | some stat_val => simp only [counts,countCells,columnOf_cells,List.flatMap_append]

theorem row_cells (result : ResultData) : row result = (cells result).map fun cells => joined cells ++ [newline] := by
  unfold row cells content
  dsimp only
  cases result.payload.requesttype_ with
  | none => rfl
  | some type =>
    have ends : text "\n" = [newline] := by decide
    rw [Option.map_some,Option.map_some,List.append_assoc,List.append_assoc,List.cons_append,joined_cons,List.cons_append]
    simp only [List.nil_append,List.flatMap_cons,List.flatMap_append,counts_cells,columnOf_cells,ends]
    cases result.payload.value_ with
    | some value => simp
    | none =>
      by_cases asked : type = .GET <;> simp [asked]

def Visible (c : Byte) : Prop := c ∉ WHITESPACE ∧ c ≠ comma ∧ c ≠ 0

instance (c : Byte) : Decidable (Visible c) := inferInstanceAs (Decidable (_ ∧ _))

theorem plain_visible (visible : ∀ c ∈ s, Visible c) : Plain s := by
  constructor
  · intro c member
    exact ⟨fun same => (visible c member).1 (same ▸ by decide),(visible c member).2⟩
  · have starts : ∀ c ∈ s.head?, c ∉ WHITESPACE := fun c first => (visible c (List.mem_of_mem_head? first)).1
    have ends : ∀ c ∈ s.getLast?, c ∉ WHITESPACE := fun c last => (visible c (List.mem_of_mem_getLast? last)).1
    rw [trim,ltrim_kept starts,rtrim_kept ends]

theorem digit_visible : ∀ n < 10, Visible (UInt8.ofNat (48 + n)) := by decide

theorem digits_visible (n : Nat) : ∀ c ∈ digits n, Visible c := by
  intro c member
  obtain ⟨d,there,rfl⟩ := List.mem_map.mp member
  obtain ⟨least,most⟩ := Char.isDigit_iff_toNat.mp (Nat.isDigit_of_mem_toDigits (by decide) (by decide) there)
  have zero : '0'.toNat = 48 := rfl
  have nine : '9'.toNat = 57 := rfl
  have visible := digit_visible (d.toNat - 48) (by omega)
  rwa [Nat.add_sub_cancel' (by omega)] at visible

theorem to_string_filling (n : Int) : Filling (to_string n) := by
  have some : digits n.natAbs ≠ [] := mt List.map_eq_nil_iff.mp Nat.toDigits_ne_nil
  rw [to_string]
  split
  · refine ⟨List.append_ne_nil_of_right_ne_nil _ some,plain_visible fun c member => ?_⟩
    rcases List.mem_append.mp member with sign | digit
    · rw [List.mem_singleton.mp sign]
      decide
    · exact digits_visible _ c digit
  · exact ⟨some,plain_visible (digits_visible _)⟩

theorem getReqType_filling (type : RequestType) : Filling (getReqType type) := by
  refine ⟨by cases type <;> decide,plain_visible ?_⟩
  cases type <;> exact letters (by decide)

theorem cells_filling (tidy : Tidy result.payload) (shown : cells result = some found) : ∀ cell ∈ found, Filling cell := by
  obtain ⟨key,value,reason⟩ := tidy
  obtain ⟨type,_,rfl⟩ := Option.map_eq_some_iff.mp shown
  intro cell member
  simp only [List.mem_append,List.mem_cons,List.not_mem_nil,or_false,Option.mem_toList] at member
  rcases member with (((rfl | rfl) | held) | held) | held
  · exact to_string_filling _
  · exact getReqType_filling _
  · exact key cell held
  · unfold content at held
    split at held
    · rename_i there
      exact value cell (there.trans held)
    · split at held
      · exact reason cell held
      · cases held
  · unfold countCells at held
    split at held
    · cases held
    · simp only [List.mem_append,Option.mem_toList,Option.map_eq_some_iff] at held
      rcases held with (⟨n,_,rfl⟩ | ⟨n,_,rfl⟩) | ⟨n,_,rfl⟩ <;> exact to_string_filling _

theorem filling_cells {row : List Str} (filling : ∀ cell ∈ row, Filling cell) :
    newline ∉ joined row ∧ fields (joined row) = row := by
  constructor
  · exact joined_line fun cell member inside => ((filling cell member).2.within newline inside).1 rfl
  · rw [fields_exact,pieces_joined fun cell member => (filling cell member).imp_right fun plain c inside => (plain.within c inside).2]
    exact (List.map_congr_left fun cell member => (filling cell member).2.trimmed).trans (List.map_id row)

theorem lines_rows (rows : List Str) (unbroken : ∀ row ∈ rows, newline ∉ row) (rest : Str) :
    lines ((rows.map (· ++ [newline])).flatten ++ rest) = rows ++ lines rest := by
  rw [lines_exact,lines_exact]
  induction rows with
  | nil => rfl
  | cons row rows ih =>
    rw [List.forall_mem_cons] at unbroken
    rw [List.map_cons,List.flatten_cons,List.append_assoc,List.append_assoc,List.singleton_append,
      List.splitOn_append_cons_self_of_not_mem unbroken.1,ih unbroken.2,List.cons_append]

theorem latency_plain (n : UInt32) : Plain (latency n) := by
  have number := (to_string_filling n.toNat).2
  have name : ∀ c ∈ text "Avergage Latency: ", c ≠ newline ∧ c ≠ comma ∧ c ≠ 0 := letters (by decide)
  have unit : ∀ c ∈ text " microseconds", c ≠ newline ∧ c ≠ comma ∧ c ≠ 0 := letters (by decide)
  constructor
  · intro c member
    rcases List.mem_append.mp member with front | last
    · exact (List.mem_append.mp front).elim (name c) (number.within c)
    · exact unit c last
  · rw [trim,ltrim_kept,rtrim_kept]
    · intro c last
      rw [latency,List.getLast?_append] at last
      cases last
      decide
    · intro c first
      rw [latency,List.append_assoc,List.head?_append] at first
      cases first
      decide

theorem latency_fields (n : UInt32) : (lines (latencyLine n)).map fields = [[],[],[latency n]] := by
  have plain := latency_plain n
  have whole : latencyLine n = newline :: newline :: blank :: blank :: blank :: blank :: latency n := by
    simp only [latencyLine,latency,List.append_assoc]
    rfl
  have within : ∀ c ∈ blank :: blank :: blank :: blank :: latency n, c ≠ newline ∧ c ≠ comma ∧ c ≠ 0 := by
    intro c member
    simp only [List.mem_cons] at member
    rcases member with rfl | rfl | rfl | rfl | inside
    · decide
    · decide
    · decide
    · decide
    · exact plain.within c inside
  have alone : fields (joined [blank :: blank :: blank :: blank :: latency n]) = [latency n] := by
    rw [fields_exact,pieces_joined,List.map_singleton,trim_blank,trim_blank,trim_blank,trim_blank,plain.trimmed]
    intro column member
    rw [List.mem_singleton.mp member]
    exact ⟨List.cons_ne_nil _ _,fun c inside => (within c inside).2⟩
  have single : joined [blank :: blank :: blank :: blank :: latency n] = blank :: blank :: blank :: blank :: latency n :=
    List.intercalate_singleton
  rw [whole,lines_exact,← List.nil_append (newline :: _),List.splitOn_append_cons_self_of_not_mem List.not_mem_nil,
    ← List.nil_append (newline :: _),List.splitOn_append_cons_self_of_not_mem List.not_mem_nil,
    List.splitOn_eq_singleton fun inside => (within newline inside).1 rfl,← single,List.map_cons,List.map_cons,
    List.map_singleton,alone]
  rfl

theorem saved_parts {sort : List ResultData → List ResultData} (sorts : Sorts sort)
    (some : pool.flatMap Client.m_results ≠ []) (few : (pool.flatMap Client.m_results).length ≤ INT_MAX) :
    ∃ file, saveResults sort pool = .ok (.some file) ∧
      file.rows.flatten = ((sort (pool.flatMap Client.m_results)).filterMap row).flatten ∧
      file.avg_latency = latencyLine (collect pool).2 := by
  have rows := (saveResults_rows sorts).mpr ⟨few,rfl⟩
  unfold saveResults at rows ⊢
  have present : ¬(collect pool).1.isEmpty := by simpa [collect_exact] using some
  rw [if_neg present] at rows ⊢
  cases appended : Indexed.loop INT_MAX ClientRun.Halt.index (fun buffer result => .ok (append buffer result)) 0 {}
      (sort (collect pool).1) with
  | error halt =>
    rw [appended] at rows
    cases rows
  | ok buffer =>
    rw [appended] at rows
    refine ⟨_,rfl,?_,rfl⟩
    rw [← batches_flatten,List.flatten_flatten]
    exact congrArg List.flatten (Except.ok.inj rows)

-- The file of results is read back by the same functions: for each result that
-- has a row the cells of it, two empty lines, and the latency.
theorem saved_readable {sort : List ResultData → List ResultData} (sorts : Sorts sort)
    (some : pool.flatMap Client.m_results ≠ []) (few : (pool.flatMap Client.m_results).length ≤ INT_MAX)
    (tidy : ∀ result ∈ pool.flatMap Client.m_results, Tidy result.payload) :
    ∃ file, saveResults sort pool = .ok (.some file) ∧ (lines (file.rows.flatten ++ file.avg_latency)).map fields =
      (sort (pool.flatMap Client.m_results)).filterMap cells ++ [[],[],[latency (collect pool).2]] := by
  obtain ⟨file,saved,rows,last⟩ := saved_parts sorts some few
  refine ⟨file,saved,?_⟩
  have same := (sorts (pool.flatMap Client.m_results)).1
  rw [rows,last]
  generalize sort (pool.flatMap Client.m_results) = sorted at same ⊢
  have filling : ∀ row ∈ sorted.filterMap cells, ∀ cell ∈ row, Filling cell := by
    intro row member
    obtain ⟨result,there,shown⟩ := List.mem_filterMap.mp member
    exact cells_filling (tidy result (same.mem_iff.mp there)) shown
  have written : sorted.filterMap row = ((sorted.filterMap cells).map joined).map (· ++ [newline]) := by
    rw [List.map_map,List.map_filterMap]
    exact congrArg (List.filterMap · sorted) (funext row_cells)
  have unbroken : ∀ row ∈ (sorted.filterMap cells).map joined, newline ∉ row := by
    intro row member
    obtain ⟨found,there,rfl⟩ := List.mem_map.mp member
    exact (filling_cells (filling found there)).1
  rw [written,lines_rows _ unbroken,List.map_append,latency_fields,List.map_map]
  congr 1
  exact (List.map_congr_left fun row member => (filling_cells (filling row member)).2).trans (List.map_id _)

theorem saved_readable_pair : ∃ file, saveResults byTimestamp pair = .ok (some file) ∧
    (lines (file.rows.flatten ++ file.avg_latency)).map fields =
      (byTimestamp (pair.flatMap Client.m_results)).filterMap cells ++ [[],[],[latency (collect pair).2]] := by
  have filling (s : Str) (some : s ≠ []) (visible : ∀ c ∈ s, Visible c) : Filling s := ⟨some,plain_visible visible⟩
  refine saved_readable byTimestamp_sorts (by decide) (by decide) fun result member => ?_
  have either : result.payload = (stored 0).payload ∨ result.payload = {} := by
    simp only [pair,List.flatMap_cons,List.flatMap_nil,List.cons_append,List.nil_append,List.mem_cons,List.not_mem_nil,or_false]
      at member
    rcases member with rfl | rfl | rfl
    · exact .inl rfl
    · exact .inr rfl
    · exact .inl rfl
  rcases either with same | same <;> rw [same]
  · refine ⟨fun key held => ?_,fun value held => ?_,nofun⟩
    · cases held
      exact filling _ (by decide) (letters (by decide))
    · cases held
      exact filling _ (by decide) (letters (by decide))
  · exact ⟨nofun,nofun,nofun⟩

end

end RemoteDict.Formats

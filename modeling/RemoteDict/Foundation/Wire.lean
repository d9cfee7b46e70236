import Mathlib.Data.List.Basic

namespace Foundation.Wire

abbrev Byte := UInt8

-- Base 128, low digits first; every byte but the last has its top bit set.
def varintDigits : Nat → Nat → List Byte
  | 0,n => [UInt8.ofNat n]
  | fuel+1,n => if n < 128 then [UInt8.ofNat n] else UInt8.ofNat (128 + n % 128) :: varintDigits fuel (n / 128)

def writeVarint (n : Nat) : List Byte := varintDigits n n

def readVarint : List Byte → Option (Nat × List Byte)
  | [] => none
  | byte :: rest =>
    if byte.toNat < 128 then some (byte.toNat,rest)
    else (readVarint rest).map fun (high,tail) => (byte.toNat - 128 + 128 * high,tail)

def readBytes (count : Nat) (bytes : List Byte) : Option (List Byte × List Byte) :=
  if count ≤ bytes.length then some (bytes.take count,bytes.drop count) else none

inductive Value where
  | varint (n : Nat)
  | fixed64 (bytes : List Byte)
  | delimited (bytes : List Byte)
  | fixed32 (bytes : List Byte)
  deriving DecidableEq, Repr

abbrev Field := Nat × Value

def Value.wireType : Value → Nat
  | .varint _ => 0
  | .fixed64 _ => 1
  | .delimited _ => 2
  | .fixed32 _ => 5

def Value.body : Value → List Byte
  | .varint n => writeVarint n
  | .fixed64 bytes => bytes
  | .delimited bytes => writeVarint bytes.length ++ bytes
  | .fixed32 bytes => bytes

def Value.Proper : Value → Prop
  | .fixed64 bytes => bytes.length = 8
  | .fixed32 bytes => bytes.length = 4
  | _ => True

def writeField (field : Field) : List Byte := writeVarint (field.1 * 8 + field.2.wireType) ++ field.2.body

def readValue (wireType : Nat) (bytes : List Byte) : Option (Value × List Byte) :=
  match wireType with
  | 0 => (readVarint bytes).map fun (n,rest) => (.varint n,rest)
  | 1 => (readBytes 8 bytes).map fun (value,rest) => (.fixed64 value,rest)
  | 2 => (readVarint bytes).bind fun (count,rest) =>
      (readBytes count rest).map fun (value,rest) => (.delimited value,rest)
  | 5 => (readBytes 4 bytes).map fun (value,rest) => (.fixed32 value,rest)
  | _ => none

def readField (bytes : List Byte) : Option (Field × List Byte) :=
  (readVarint bytes).bind fun (tag,rest) =>
    if tag / 8 = 0 then none
    else (readValue (tag % 8) rest).map fun (value,rest) => ((tag / 8,value),rest)

theorem varintDigits_read (fuel n : Nat) (enough : n ≤ fuel) (rest : List Byte) :
    readVarint (varintDigits fuel n ++ rest) = some (n,rest) := by
  induction fuel generalizing n with
  | zero =>
    obtain rfl : n = 0 := by omega
    simp [varintDigits,readVarint]
  | succ fuel ih =>
    unfold varintDigits
    split
    · rename_i small
      have value : (UInt8.ofNat n).toNat = n := by rw [UInt8.toNat_ofNat']; omega
      simp [readVarint,value,small]
    · have value : (UInt8.ofNat (128 + n % 128)).toNat = 128 + n % 128 := by rw [UInt8.toNat_ofNat']; omega
      have large : ¬ 128 + n % 128 < 128 := by omega
      have high := ih (n / 128) (by omega)
      rw [List.cons_append,readVarint,value,if_neg large,high]
      simp only [Option.map_some,Option.some.injEq,Prod.mk.injEq,and_true]
      omega

theorem readVarint_write (n : Nat) (rest : List Byte) : readVarint (writeVarint n ++ rest) = some (n,rest) :=
  varintDigits_read n n (Nat.le_refl n) rest

theorem readVarint_append (read : readVarint bytes = some (n,rest)) (more : List Byte) :
    readVarint (bytes ++ more) = some (n,rest ++ more) := by
  induction bytes generalizing n rest with
  | nil => cases read
  | cons byte bytes ih =>
    rw [List.cons_append]
    unfold readVarint at read ⊢
    split at read
    · rename_i small
      cases read
      rw [if_pos small]
    · rename_i large
      obtain ⟨⟨high,tail⟩,found,equal⟩ := Option.map_eq_some_iff.mp read
      cases equal
      rw [if_neg large,ih found]
      rfl

theorem readVarint_consumes (read : readVarint bytes = some (n,rest)) : rest.length < bytes.length := by
  induction bytes generalizing n rest with
  | nil => cases read
  | cons byte bytes ih =>
    unfold readVarint at read
    split at read
    · cases read; simp
    · obtain ⟨⟨high,tail⟩,found,equal⟩ := Option.map_eq_some_iff.mp read
      cases equal
      have := ih found
      simp only [List.length_cons]
      omega

theorem readBytes_some : readBytes count bytes = some (value,rest) ↔
    value.length = count ∧ bytes = value ++ rest := by
  unfold readBytes
  constructor
  · intro read
    split at read
    · rename_i inside
      cases read
      exact ⟨List.length_take_of_le inside,(List.take_append_drop _ _).symm⟩
    · cases read
  · rintro ⟨rfl,rfl⟩
    simp

theorem readValue_write (value : Value) (proper : value.Proper) (rest : List Byte) :
    readValue value.wireType (value.body ++ rest) = some (value,rest) := by
  cases value with
  | varint n => simp [readValue,Value.wireType,Value.body,readVarint_write]
  | fixed64 bytes =>
    have read : readBytes 8 (bytes ++ rest) = some (bytes,rest) := readBytes_some.mpr ⟨proper,rfl⟩
    simp [readValue,Value.wireType,Value.body,read]
  | delimited bytes =>
    have read : readBytes bytes.length (bytes ++ rest) = some (bytes,rest) := readBytes_some.mpr ⟨rfl,rfl⟩
    simp [readValue,Value.wireType,Value.body,readVarint_write,read]
  | fixed32 bytes =>
    have read : readBytes 4 (bytes ++ rest) = some (bytes,rest) := readBytes_some.mpr ⟨proper,rfl⟩
    simp [readValue,Value.wireType,Value.body,read]

theorem readValue_front (read : readValue wireType bytes = some (value,rest)) :
    rest.length ≤ bytes.length ∧ ∀ more, readValue wireType (bytes ++ more) = some (value,rest ++ more) := by
  have fixed : ∀ count : Nat, ∀ wrap : List Byte → Value,
      (readBytes count bytes).map (fun (value,rest) => (wrap value,rest)) = some (value,rest) →
      rest.length ≤ bytes.length ∧ ∀ more, (readBytes count (bytes ++ more)).map
        (fun (value,rest) => (wrap value,rest)) = some (value,rest ++ more) := by
    intro count wrap read
    obtain ⟨⟨taken,tail⟩,found,equal⟩ := Option.map_eq_some_iff.mp read
    cases equal
    obtain ⟨length,rfl⟩ := readBytes_some.mp found
    refine ⟨by simp,fun more => ?_⟩
    rw [List.append_assoc,readBytes_some.mpr ⟨length,rfl⟩]
    rfl
  unfold readValue at read ⊢
  split at read
  · obtain ⟨⟨n,tail⟩,found,equal⟩ := Option.map_eq_some_iff.mp read
    cases equal
    exact ⟨Nat.le_of_lt (readVarint_consumes found),fun more => by rw [readVarint_append found]; rfl⟩
  · exact fixed 8 .fixed64 read
  · obtain ⟨⟨count,tail⟩,found,inner⟩ := Option.bind_eq_some_iff.mp read
    obtain ⟨⟨taken,last⟩,cut,equal⟩ := Option.map_eq_some_iff.mp inner
    cases equal
    obtain ⟨length,rfl⟩ := readBytes_some.mp cut
    have shorter := readVarint_consumes found
    rw [List.length_append] at shorter
    refine ⟨by omega,fun more => ?_⟩
    rw [readVarint_append found,Option.bind_some]
    dsimp only
    rw [List.append_assoc,readBytes_some.mpr ⟨length,rfl⟩]
    rfl
  · exact fixed 4 .fixed32 read
  · cases read

theorem readField_write (field : Field) (number : 0 < field.1) (proper : field.2.Proper) (rest : List Byte) :
    readField (writeField field ++ rest) = some (field,rest) := by
  obtain ⟨key,value⟩ := field
  have low : value.wireType < 8 := by cases value <;> simp [Value.wireType]
  have high : (key * 8 + value.wireType) / 8 = key := by omega
  have type : (key * 8 + value.wireType) % 8 = value.wireType := by omega
  have named : ¬ key = 0 := Nat.ne_of_gt number
  simp only [readField,writeField,List.append_assoc,readVarint_write,Option.bind_some,high,type,
    readValue_write value proper,Option.map_some,if_neg named]

theorem readField_parts (read : readField bytes = some (field,rest)) : ∃ tag tail,
    readVarint bytes = some (tag,tail) ∧ ¬ tag / 8 = 0 ∧ field.1 = tag / 8 ∧
      readValue (tag % 8) tail = some (field.2,rest) := by
  obtain ⟨⟨tag,tail⟩,found,inner⟩ := Option.bind_eq_some_iff.mp read
  dsimp only at inner
  split at inner
  · cases inner
  · rename_i named
    obtain ⟨⟨value,last⟩,body,equal⟩ := Option.map_eq_some_iff.mp inner
    cases equal
    exact ⟨tag,tail,found,named,rfl,body⟩

theorem readField_append (read : readField bytes = some (field,rest)) (more : List Byte) :
    readField (bytes ++ more) = some (field,rest ++ more) := by
  obtain ⟨tag,tail,found,named,number,body⟩ := readField_parts read
  rw [← number] at named
  simp only [readField,readVarint_append found,Option.bind_some,(readValue_front body).2 more,Option.map_some,
    ← number,if_neg named]

theorem readField_consumes (read : readField bytes = some (field,rest)) : rest.length < bytes.length := by
  obtain ⟨tag,tail,found,_,_,body⟩ := readField_parts read
  exact Nat.lt_of_le_of_lt (readValue_front body).1 (readVarint_consumes found)

theorem readField_zero (rest : List Byte) : readField (0 :: rest) = none := by
  simp [readField,readVarint]

theorem readField_cut (field : Field) (number : 0 < field.1) (proper : field.2.Proper)
    (cut : k < (writeField field).length) : readField ((writeField field).take k) = none := by
  cases read : readField ((writeField field).take k) with
  | none => rfl
  | some result =>
    obtain ⟨other,rest⟩ := result
    have whole := readField_append read ((writeField field).drop k)
    rw [List.take_append_drop] at whole
    have plain := readField_write field number proper []
    rw [List.append_nil,whole] at plain
    have empty : rest ++ (writeField field).drop k = [] := (Prod.mk.inj (Option.some.inj plain)).2
    have dropped := congrArg List.length (List.append_eq_nil_iff.mp empty).2
    rw [List.length_drop,List.length_nil] at dropped
    omega

-- `merge` may refuse a field; the record keeps what it was given before.
section Message
variable {Record : Type u} (merge : Record → Field → Bool × Record)

def readFields : Nat → Record → List Byte → Bool × Record
  | _,record,[] => (true,record)
  | 0,record,_ :: _ => (false,record)
  | fuel+1,record,byte :: bytes =>
    match readField (byte :: bytes) with
    | none => (false,record)
    | some (field,rest) =>
      let next := merge record field
      if next.1 then readFields fuel next.2 rest else (false,next.2)

def readMessage (record : Record) (bytes : List Byte) : Bool × Record :=
  readFields merge bytes.length record bytes

theorem readFields_fuel {bytes : List Byte} {size other : Nat} (small : bytes.length ≤ size)
    (large : bytes.length ≤ other) (record : Record) :
    readFields merge size record bytes = readFields merge other record bytes := by
  induction size generalizing record bytes other with
  | zero =>
    obtain rfl := List.length_eq_zero_iff.mp (Nat.le_zero.mp small)
    cases other <;> rfl
  | succ size ih =>
    cases bytes with
    | nil => cases other <;> rfl
    | cons byte bytes =>
      obtain ⟨other,rfl⟩ : ∃ n, other = n+1 := ⟨other-1,by simp at large; omega⟩
      simp only [readFields]
      cases read : readField (byte :: bytes) with
      | none => rfl
      | some result =>
        obtain ⟨field,rest⟩ := result
        have shorter := readField_consumes read
        simp only [List.length_cons] at shorter small large
        simp only [ih (show rest.length ≤ size by omega) (show rest.length ≤ other by omega)]

theorem readMessage_nil (record : Record) : readMessage merge record [] = (true,record) := rfl

theorem readMessage_some (read : readField bytes = some (field,rest)) (record : Record) :
    readMessage merge record bytes =
      if (merge record field).1 then readMessage merge (merge record field).2 rest
      else (false,(merge record field).2) := by
  have shorter := readField_consumes read
  cases bytes with
  | nil => simp at shorter
  | cons byte bytes =>
    simp only [List.length_cons] at shorter
    simp only [readMessage,List.length_cons,readFields,read]
    rw [readFields_fuel merge (show rest.length ≤ bytes.length by omega) (Nat.le_refl _)]

theorem readMessage_none (some : bytes ≠ []) (refused : readField bytes = none) (record : Record) :
    readMessage merge record bytes = (false,record) := by
  cases bytes with
  | nil => exact absurd rfl some
  | cons byte bytes => simp only [readMessage,List.length_cons,readFields,refused]

def writeMessage (fields : List Field) : List Byte := fields.flatMap writeField

def Readable (fields : List Field) : Prop := ∀ field ∈ fields, 0 < field.1 ∧ field.2.Proper

inductive Merges : Record → List Field → Record → Prop where
  | nil : Merges record [] record
  | cons : merge record field = (true,middle) → Merges middle fields next → Merges record (field :: fields) next

theorem Merges.append (left : Merges merge record first middle) (right : Merges merge middle second next) :
    Merges merge record (first ++ second) next := by
  induction left with
  | nil => exact right
  | cons head _ ih => exact .cons head (ih right)

theorem readMessage_write (readable : Readable fields) (merged : Merges merge record fields next) (rest : List Byte) :
    readMessage merge record (writeMessage fields ++ rest) = readMessage merge next rest := by
  induction merged with
  | nil => rfl
  | @cons record field middle fields next first _ ih =>
    have head := readable field (.head _)
    rw [writeMessage,List.flatMap_cons,List.append_assoc,
      readMessage_some merge (readField_write field head.1 head.2 _),first,if_pos rfl]
    exact ih fun other member => readable other (.tail _ member)

-- A cut message is refused, or is the record of fewer fields.
theorem readMessage_cut (readable : Readable fields) (merged : Merges merge record fields next)
    (cut : k < (writeMessage fields).length) :
    ∃ kept middle, kept.length < fields.length ∧ Merges merge record kept middle ∧
      (readMessage merge record ((writeMessage fields).take k)).2 = middle := by
  induction merged generalizing k with
  | nil => simp [writeMessage] at cut
  | @cons record field middle fields next first _ ih =>
    have head := readable field (.head _)
    rw [writeMessage,List.flatMap_cons] at cut ⊢
    by_cases inside : k < (writeField field).length
    · refine ⟨[],record,by simp,.nil,?_⟩
      rw [List.take_append_of_le_length (by omega)]
      by_cases empty : (writeField field).take k = []
      · rw [empty]; rfl
      · rw [readMessage_none merge empty (readField_cut field head.1 head.2 inside)]
    · rw [List.length_append] at cut
      have shorter : k - (writeField field).length < (writeMessage fields).length := by
        rw [writeMessage]; omega
      obtain ⟨kept,last,fewer,path,result⟩ := ih (fun other member => readable other (.tail _ member)) shorter
      refine ⟨field :: kept,last,by simpa using fewer,.cons first path,?_⟩
      rw [List.take_append,List.take_of_length_le (by omega),
        readMessage_some merge (readField_write field head.1 head.2 _),first,if_pos rfl]
      exact result

-- A zero tag ends the reading wherever it follows a message that was accepted.
theorem readMessage_zero (accepted : readMessage merge record bytes = (true,next)) (rest : List Byte) :
    readMessage merge record (bytes ++ 0 :: rest) = (false,next) := by
  induction size : bytes.length using Nat.strongRecOn generalizing bytes record with
  | ind size ih =>
    by_cases empty : bytes = []
    · subst empty
      cases accepted
      exact readMessage_none merge (by simp) (readField_zero rest) _
    · cases read : readField bytes with
      | none => rw [readMessage_none merge empty read] at accepted; cases accepted
      | some result =>
        obtain ⟨field,tail⟩ := result
        rw [readMessage_some merge read] at accepted
        rw [readMessage_some merge (readField_append read _)]
        split at accepted
        · rename_i merged
          rw [if_pos merged]
          exact ih _ (size ▸ readField_consumes read) accepted rfl
        · cases accepted

end Message
end Foundation.Wire

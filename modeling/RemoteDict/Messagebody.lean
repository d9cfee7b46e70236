import RemoteDict.Foundation.Block

namespace RemoteDict
open Foundation.Block

abbrev Str := List Byte

def text (literal : String) : Str := literal.toList.map fun c => UInt8.ofNat c.toNat

def INT_MAX : Nat := 2147483647

inductive Errno where
  | EAGAIN
  | EWOULDBLOCK
  | EINTR
  | other (code : Nat)
  deriving DecidableEq, Repr

-- What ends the defined behaviour of the program: a copy that leaves its block
-- (a negative length, converted to size_t, always does), a read of m_currlen
-- before it was assigned, a null m_bloomFilter, a message without its type.
inductive Fault where
  | copyOutside
  | unassignedLength
  | nullFilter
  | unassignedType
  deriving DecidableEq, Repr

-- messagebody.proto. A trailing underscore marks the stored field, as in the
-- generated class; `none` is a field that is not present.
inductive RequestType where
  | GET
  | SET
  | STAT
  deriving DecidableEq, Repr

structure Stat where
  numgetreq_ : Option Int32 := none
  numsuccgetreq_ : Option Int32 := none
  numfailgetreq_ : Option Int32 := none
  deriving DecidableEq, Repr

structure Payload where
  requesttype_ : Option RequestType := none
  key_ : Option Str := none
  value_ : Option Str := none
  stats_ : Option Stat := none
  reason_ : Option Str := none
  deriving DecidableEq, Repr

namespace Payload

def has_requesttype (m : Payload) : Bool := m.requesttype_.isSome
def has_value (m : Payload) : Bool := m.value_.isSome
def has_reason (m : Payload) : Bool := m.reason_.isSome

def key (m : Payload) : Str := m.key_.getD []
def value (m : Payload) : Str := m.value_.getD []

def set_requesttype (m : Payload) (type : RequestType) : Payload := {m with requesttype_ := some type}
def set_key (m : Payload) (key : Str) : Payload := {m with key_ := some key}
def set_value (m : Payload) (value : Str) : Payload := {m with value_ := some value}
def set_reason (m : Payload) (reason : Str) : Payload := {m with reason_ := some reason}

def mutable_stats (m : Payload) : Stat := m.stats_.getD {}

end Payload

-- The protobuf runtime is not part of the repository: what it writes for a
-- message, and what it answers and leaves in the message for received bytes.
structure Protobuf where
  encode : Payload → List Byte
  ParseFromArray : List Byte → Bool × Payload

namespace Protobuf

def ByteSizeLong (pb : Protobuf) (m : Payload) : Nat := (pb.encode m).length

def SerializeToArray (pb : Protobuf) (m : Payload) (block : List Byte) : Bool × List Byte :=
  if INT_MAX < pb.ByteSizeLong m then (false,block)
  else match store block 0 (pb.encode m) with
    | some written => (true,written)
    | none => (false,block)

-- Documented behaviour that results about the program name where they need it.
def RoundTrip (pb : Protobuf) : Prop :=
  ∀ m : Payload, m.has_requesttype = true → pb.ParseFromArray (pb.encode m) = (true,m)

def ZeroTag (pb : Protobuf) : Prop :=
  (∀ rest, pb.ParseFromArray (0 :: rest) = (false,{})) ∧
  ∀ bytes m rest, pb.ParseFromArray bytes = (true,m) → pb.ParseFromArray (bytes ++ 0 :: rest) = (false,m)

def CutDiffers (pb : Protobuf) : Prop :=
  ∀ m k, m.has_requesttype = true → k < pb.ByteSizeLong m →
    pb.ParseFromArray ((pb.encode m).take k) ≠ (true,m)

theorem serialize_fresh (pb : Protobuf) (m : Payload) (extra : Nat) (small : pb.ByteSizeLong m ≤ INT_MAX) :
    pb.SerializeToArray m (calloc (pb.ByteSizeLong m + extra)) = (true,pb.encode m ++ calloc extra) := by
  have fits : (pb.encode m).length ≤ pb.ByteSizeLong m + extra := Nat.le_add_right _ _
  rw [SerializeToArray,if_neg (by omega),store_calloc fits]
  simp [filled,ByteSizeLong]

theorem RoundTrip.head_nonzero {pb : Protobuf} {m : Payload} (round : pb.RoundTrip) (zero : pb.ZeroTag)
    (typed : m.has_requesttype = true) : (pb.encode m).head? ≠ some 0 := by
  intro leading
  obtain ⟨rest,split⟩ := List.head?_eq_some_iff.mp leading
  have accepted := round m typed
  rw [split,zero.1] at accepted
  cases accepted

theorem RoundTrip.nonempty {pb : Protobuf} {m : Payload} (round : pb.RoundTrip) (zero : pb.ZeroTag)
    (typed : m.has_requesttype = true) : pb.encode m ≠ [] := by
  intro empty
  have accepted := round m typed
  have refused := zero.2 _ m [] accepted
  rw [empty,List.nil_append,zero.1] at refused
  cases refused
  cases typed

end Protobuf
end RemoteDict

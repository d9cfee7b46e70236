import Mathlib.Data.List.TakeDrop
import RemoteDict.Foundation.Machine
import RemoteDict.TcpFlow

namespace RemoteDict.Writes
open Foundation Foundation.Block TcpFlow

-- The variables of socketWriteData at the head of its loop, and what the socket
-- has accepted by then.
structure Head where
  buf : List Byte
  buf_len : Nat
  bytes : Int
  accepted : List Byte
  deriving DecidableEq, Repr

abbrev Fatal (errno : Errno) : Prop := errno ≠ .EAGAIN ∧ errno ≠ .EWOULDBLOCK ∧ errno ≠ .EINTR

-- One more iteration. write takes at most what it is offered.
def iterate (l : Head) : WriteResult → Option Head
  | .failed errno => if l.buf_len = 0 ∨ Fatal errno then none else some l
  | .wrote n =>
    if l.buf_len = 0 ∨ l.buf_len < n then none
    else some ⟨l.buf.drop n,l.buf_len - n,l.bytes + n,l.accepted ++ l.buf.take n⟩

def loop (data : List Byte) : Machine Head WriteResult := ⟨⟨data,data.length,0,[]⟩,iterate⟩

def outcome (l : Head) (results : List WriteResult) : Written :=
  let later := writeLoop l.buf l.buf_len l.bytes results
  ⟨later.ret,l.accepted ++ later.accepted⟩

def Answers : Nat → List WriteResult → Prop
  | _,[] => True
  | left,.failed _ :: rest => Answers left rest
  | left,.wrote n :: rest => left = 0 ∨ 0 < n ∧ n ≤ left ∧ Answers (left - n) rest

structure Held (data : List Byte) (l : Head) : Prop where
  accepted : l.accepted = data.take l.bytes.toNat
  buf : l.buf = data.drop l.bytes.toNat
  positive : 0 ≤ l.bytes
  total : l.bytes + l.buf_len = data.length

variable {data : List Byte} {l next : Head}

theorem Held.whole (held : Held data l) : l.accepted = data ↔ l.buf_len = 0 := by
  have positive := held.positive
  have total := held.total
  rw [held.accepted,List.take_eq_self_iff]
  omega

-- The last head: everything is written, or the loop waits, or it meets an error
-- that it does not retry.
inductive Ends (data : List Byte) (l : Head) (results : List WriteResult) : Prop where
  | done : results = early ++ late → (loop data).run l early = some head → head.buf_len = 0 → Ends data l results
  | waits : (loop data).run l results = some head → 0 < head.buf_len → Ends data l results
  | fatal : results = early ++ .failed errno :: late → (loop data).run l early = some head → 0 < head.buf_len →
      Fatal errno → Ends data l results

theorem Ends.later (stepped : iterate l result = some next) (ends : Ends data next rest) : Ends data l (result :: rest) := by
  cases ends with
  | @done early late head split path done =>
    exact .done (by rw [split,List.cons_append]) ((loop data).run_cons.mpr ⟨next,stepped,path⟩) done
  | waits path left => exact .waits ((loop data).run_cons.mpr ⟨next,stepped,path⟩) left
  | fatal split path left fatal =>
    exact .fatal (by rw [split,List.cons_append]) ((loop data).run_cons.mpr ⟨next,stepped,path⟩) left fatal

def Broken (data : List Byte) (results : List WriteResult) : Prop :=
  ∃ early errno late head, results = early ++ .failed errno :: late ∧ (loop data).run (loop data).start early = some head ∧
    0 < head.buf_len ∧ Fatal errno

inductive Returned (data : List Byte) (results : List WriteResult) : Prop where
  | whole : socketWriteData data results = ⟨some (data.length : Int),data⟩ → Returned data results
  | waits : socketWriteData data results = ⟨none,accepted⟩ → accepted ≠ data → Returned data results
  | fatal : socketWriteData data results = ⟨some (-1),accepted⟩ → accepted ≠ data → Broken data results → Returned data results

def partly : List WriteResult := [.failed .EINTR,.wrote 2,.failed .EAGAIN,.wrote 1]

end RemoteDict.Writes

import RemoteDict.TcpFlow
import RemoteDict.Client
import RemoteDict.Codec

namespace RemoteDict.Response
open Foundation.Block TcpFlow Client

variable {pb : Protobuf} {m request : Payload} {client : Client} {exchange : Exchange} {arrived : List Byte}

theorem writeLoop_whole (length : buf.length = buf_len) (ended : writeLoop buf buf_len bytes results = ⟨some ret,accepted⟩)
    (delivered : ret ≠ -1) : accepted = buf := by
  induction results generalizing buf buf_len bytes accepted with
  | nil =>
    unfold writeLoop at ended
    split at ended
    · rename_i done
      cases ended
      exact (List.eq_nil_of_length_eq_zero (length.trans done)).symm
    · cases ended
  | cons result rest ih =>
    unfold writeLoop at ended
    split at ended
    · rename_i done
      cases ended
      exact (List.eq_nil_of_length_eq_zero (length.trans done)).symm
    · cases result with
      | failed errno =>
        dsimp only at ended
        split at ended
        · cases ended
          exact absurd rfl delivered
        · exact ih length ended
      | wrote n =>
        obtain ⟨answer,joined⟩ := Written.mk.inj ended
        have remaining : (writeLoop (buf.drop n) (buf_len - n) (bytes + n) rest).accepted = buf.drop n :=
          ih (by rw [List.length_drop,length]) (Written.ext answer rfl)
        rw [← joined,remaining,List.take_append_drop]

theorem socketWriteData_whole (ended : socketWriteData buf results = ⟨some ret,accepted⟩) (delivered : ret ≠ -1) :
    accepted = buf := writeLoop_whole rfl ended delivered

theorem sendResponse_small (small : pb.ByteSizeLong m ≤ INT_MAX) : sendResponse pb m = pb.encode m ++ [0] := by
  have limit : INT_MAX = 2147483647 := rfl
  have size : (pb.ByteSizeLong m + 1) % 2^32 = pb.ByteSizeLong m + 1 := by omega
  rw [sendResponse,size,pb.serialize_fresh m 1 small]
  rfl

theorem sendResponse_large (large : INT_MAX < pb.ByteSizeLong m) : sendResponse pb m = calloc ((pb.ByteSizeLong m + 1) % 2^32) := by
  rw [sendResponse,Protobuf.SerializeToArray,if_pos large]

theorem zeros_refused (zero : pb.ZeroTag) (typed : m.has_requesttype = true) (n : Nat) :
    pb.ParseFromArray (calloc n) ≠ (true,m) := by
  intro accepted
  cases n with
  | zero =>
    have refused := zero.2 [] m [] accepted
    rw [List.nil_append,zero.1] at refused
    cases refused
    cases typed
  | succ n =>
    rw [calloc,List.replicate_succ,zero.1] at accepted
    cases accepted

theorem prefix_taken {bytes : List Byte} (front : arrived <+: bytes) :
    arrived.take MAX = bytes.take (min arrived.length MAX) := by
  obtain ⟨rest,rfl⟩ := front
  rw [List.take_append_of_le_length (Nat.min_le_left _ _),List.take_eq_take_iff]
  omega

-- One read of the response parses to it when it brings the encoding and not the
-- byte behind it.
theorem readResponse_exact (round : pb.RoundTrip) (zero : pb.ZeroTag) (cut : pb.CutDiffers)
    (typed : m.has_requesttype = true) (front : arrived <+: sendResponse pb m) :
    readResponse pb arrived = (true,m) ↔ min arrived.length MAX = pb.ByteSizeLong m := by
  rw [readResponse,prefix_taken front]
  have length := front.length_le
  by_cases small : pb.ByteSizeLong m ≤ INT_MAX
  · rw [sendResponse_small small] at length ⊢
    rw [List.length_append,List.length_singleton] at length
    have bound : min arrived.length MAX ≤ pb.ByteSizeLong m + 1 := Nat.le_trans (Nat.min_le_left _ _) length
    rcases Nat.lt_trichotomy (min arrived.length MAX) (pb.ByteSizeLong m) with short | exactly | long
    · rw [List.take_append_of_le_length (Nat.le_of_lt short)]
      exact iff_of_false (cut m _ typed short) (Nat.ne_of_lt short)
    · rw [List.take_left' exactly.symm]
      exact iff_of_true (round m typed) exactly
    · have all : min arrived.length MAX = (pb.encode m ++ [0]).length := by
        rw [List.length_append,List.length_singleton]
        exact Nat.le_antisymm bound long
      rw [all,List.take_length,zero.2 _ m [] (round m typed)]
      exact iff_of_false (by simp) (by simp [Protobuf.ByteSizeLong])
  · have large := Nat.lt_of_not_le small
    have cap : min arrived.length MAX ≤ 80 := Nat.min_le_right _ _
    have limit : INT_MAX = 2147483647 := rfl
    rw [sendResponse_large large,calloc,List.take_replicate]
    exact iff_of_false (zeros_refused zero typed _) (by omega)

theorem sendData_results (client : Client) (built : Client.request msg = .ok (some request)) (framed : sendBuffer order pb request = .ok outgoing)
    (sent : 0 ≤ exchange.written) (read : exchange.arrived = some arrived) :
    ∃ later, sendData order pb client msg exchange = .ok (later,exchange.written) ∧
      later.m_results = client.m_results ++ [⟨(readResponse pb arrived).2,exchange.timestamp⟩] := by
  simp only [sendData,built,framed,read]
  rw [if_neg (by omega)]
  exact ⟨_,rfl,rfl⟩

theorem response_exact (round : pb.RoundTrip) (zero : pb.ZeroTag) (cut : pb.CutDiffers) (typed : m.has_requesttype = true)
    (written : socketWriteData (sendResponse pb m) results = ⟨some ret,bytes⟩) (delivered : ret ≠ -1)
    (front : arrived <+: bytes) (built : Client.request msg = .ok (some request))
    (framed : sendBuffer order pb request = .ok outgoing) (sent : 0 ≤ exchange.written)
    (read : exchange.arrived = some arrived) :
    ((readResponse pb arrived).1 = true ∧ ∃ later, sendData order pb client msg exchange = .ok (later,exchange.written) ∧
      later.m_results = client.m_results ++ [⟨m,exchange.timestamp⟩]) ↔
    min arrived.length MAX = pb.ByteSizeLong m := by
  rw [socketWriteData_whole written delivered] at front
  rw [← readResponse_exact round zero cut typed front]
  obtain ⟨later,ran,appended⟩ := sendData_results client built framed sent read
  constructor
  · rintro ⟨accepted,other,same,results⟩
    rw [ran] at same
    cases same
    rw [appended] at results
    have last : (readResponse pb arrived).2 = m := by simpa using results
    exact Prod.ext accepted last
  · intro parsed
    refine ⟨by rw [parsed],later,ran,?_⟩
    rw [appended,parsed]

def counted : Payload := {requesttype_ := some .STAT,stats_ := some ⟨some 3,some 2,some 1⟩}

def reader : Client := ⟨5,0,[],[]⟩

theorem response_exact_counted :
    ((readResponse Codec.codec (Codec.codec.encode counted)).1 = true ∧
      ∃ later, sendData .little Codec.codec reader ⟨some .STAT,[],[]⟩ ⟨6,some (Codec.codec.encode counted),0,1⟩ = .ok (later,6) ∧
        later.m_results = reader.m_results ++ [⟨counted,0⟩]) ↔
    min (Codec.codec.encode counted).length MAX = Codec.codec.ByteSizeLong counted :=
  have written : socketWriteData (sendResponse Codec.codec counted) [.wrote 11] = ⟨some 11,Codec.codec.encode counted ++ [0]⟩ := by
    decide
  have built : Client.request ⟨some .STAT,[],[]⟩ = .ok (some {requesttype_ := some .STAT}) := by decide
  have framed : sendBuffer .little Codec.codec {requesttype_ := some .STAT} = .ok [2,0,0,0,8,3] := by decide
  response_exact Codec.roundTrip Codec.zeroTag Codec.cutDiffers rfl written (by decide) (List.prefix_append _ _) built framed
    (by decide) rfl

theorem whole_refused :
    (readResponse Codec.codec (sendResponse Codec.codec counted)).1 = false ∧
    readResponse Codec.codec (sendResponse Codec.codec {requesttype_ := some .GET,value_ := some (List.replicate 100 7)}) =
      (false,{requesttype_ := some .GET}) := by decide

end RemoteDict.Response

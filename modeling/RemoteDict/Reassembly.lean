import RemoteDict.Framing
import RemoteDict.Overrun

namespace RemoteDict.Reassembly
open Foundation.Block TcpFlow Framing
open Overrun (taken Sized)

-- The two counters and the buffer when `count` bytes of the frame have been read.
structure Reassembled (payload : List Byte) (count : Nat) (flow : TcpFlow) : Prop where
  length : flow.m_payloadLen = payload.length
  till : flow.m_lenTillnow = count
  header : 4 ≤ flow.m_lenTillnow
  currlen : flow.m_currlen = some (flow.m_lenTillnow - 4)
  inside : flow.m_lenTillnow - 4 ≤ payload.length
  block : ∃ block, flow.m_data = some block ∧ block.length = payload.length ∧
    block.take (flow.m_lenTillnow - 4) = payload.take (flow.m_lenTillnow - 4) ∧
    ∀ byte ∈ block.drop (flow.m_lenTillnow - 4), byte = 0

def chunks {F : Type} (callbacks : List (Callback F)) : List (List Byte) :=
  callbacks.flatMap fun c => taken NUM_READ_TRY c.reads

-- One way TCP can deliver the bytes, or the part of them that arrives. A callback
-- may also read nothing, fail or come to the end of the stream.
structure Delivery (F : Type) (bytes : List Byte) where
  callbacks : List (Callback F)
  sized : ∀ c ∈ callbacks, Sized c.reads
  front : (chunks callbacks).flatten <+: bytes

inductive Stands (payload : List Byte) : List (List Byte) → TcpFlow → Prop where
  | fresh : Fresh flow → Stands payload [] flow
  | filling {read : List (List Byte)} : read ≠ [] → Assembled payload read.flatten.length flow → Stands payload read flow

variable {F : Type} [MembershipFilter F] {order : ByteOrder} {pb : Protobuf} {payload chunk : List Byte}
  {read later : List (List Byte)} {flow next : TcpFlow} {reads : List ReadResult} {fd : Int} {s : Shared F}

-- What has been read begins the frame, with a first read that brings more than
-- the header.
structure Proper (order : ByteOrder) (payload : List Byte) (read : List (List Byte)) : Prop where
  front : read.flatten <+: frame order payload
  long : ∀ first ∈ read.head?, 4 < first.length

theorem Proper.early (proper : Proper order payload (read ++ later)) : Proper order payload read := by
  obtain ⟨front,long⟩ := proper
  rw [List.flatten_append] at front
  refine ⟨(List.prefix_append _ _).trans front,?_⟩
  intro first member
  apply long
  rw [List.head?_append,member]
  rfl

theorem Stands.moved (stands : Stands payload read flow) (fd : Int) : Stands payload read {flow with m_clientFd := fd} := by
  cases stands with
  | fresh fresh => exact .fresh fresh
  | filling some assembled => exact .filling some (assembled.moved fd)

theorem Stands.parsed (stands : Stands payload read flow) (m : Payload) : Stands payload read {flow with m_payload := m} := by
  cases stands with
  | fresh fresh => exact .fresh fresh
  | filling some assembled => exact .filling some (assembled.parsed m)

theorem receive_stands (fits : payload.length + 4 < 2^32) (stands : Stands payload read flow)
    (proper : Proper order payload (read ++ [chunk])) :
    ∃ next, receive order flow chunk = .ok next ∧ Stands payload (read ++ [chunk]) next := by
  obtain ⟨⟨rest,whole⟩,long⟩ := proper
  rw [List.flatten_append,List.flatten_singleton,List.append_assoc] at whole
  have some : read ++ [chunk] ≠ [] := List.append_ne_nil_of_right_ne_nil _ (List.cons_ne_nil _ _)
  have total : (read ++ [chunk]).flatten.length = read.flatten.length + chunk.length := by
    rw [List.flatten_append,List.flatten_singleton,List.length_append]
  cases stands with
  | fresh fresh =>
    have arrived : frame order payload = chunk ++ rest := whole.symm
    obtain ⟨next,received,along,_⟩ := receive_first fresh fits arrived (long chunk rfl)
    refine ⟨next,received,.filling some ?_⟩
    rw [total,List.flatten_nil,List.length_nil,Nat.zero_add]
    exact along
  | filling _ assembled =>
    have arrived : (frame order payload).drop read.flatten.length = chunk ++ rest := by
      rw [← whole,List.drop_left]
    obtain ⟨next,received,along,_⟩ := receive_next assembled fits arrived
    refine ⟨next,received,.filling some ?_⟩
    rw [total]
    exact along

theorem readLoop_stands (fits : payload.length + 4 < 2^32) (stands : Stands payload read flow)
    (proper : Proper order payload (read ++ taken tries reads)) :
    ∃ next gone, readLoop order tries flow reads = .ok (next,gone) ∧ Stands payload (read ++ taken tries reads) next := by
  induction tries generalizing flow read reads with
  | zero => exact ⟨flow,false,rfl,by rwa [taken,List.append_nil]⟩
  | succ tries ih =>
    cases reads with
    | nil => exact ⟨flow,false,rfl,by rwa [taken,List.append_nil]⟩
    | cons result reads =>
      cases result with
      | failed errno =>
        have same : taken (tries + 1) (.failed errno :: reads) = [] := rfl
        rw [same,List.append_nil]
        by_cases again : errno ≠ .EAGAIN
        · exact ⟨flow,true,if_pos again,stands⟩
        · exact ⟨flow,false,if_neg again,stands⟩
      | got chunk =>
        by_cases ended : chunk = []
        · subst ended
          exact ⟨flow,true,rfl,by rwa [taken,List.append_nil]⟩
        · have took : read ++ taken (tries + 1) (.got chunk :: reads) = read ++ [chunk] ++ taken tries reads := by
            rw [List.append_assoc]
            cases chunk with
            | nil => exact absurd rfl ended
            | cons byte chunk => rfl
          rw [took] at proper ⊢
          obtain ⟨middle,received,along⟩ := receive_stands fits stands proper.early
          rw [readLoop_got ended,received]
          exact ih along proper

theorem data_stands (fits : payload.length + 4 < 2^32) (stands : Stands payload read flow)
    (proper : Proper order payload (read ++ taken NUM_READ_TRY reads))
    (left : (data order pb flow fd EV_READ reads s).flow = some next) :
    Stands payload (read ++ taken NUM_READ_TRY reads) next := by
  obtain ⟨last,gone,looped,along⟩ := readLoop_stands fits (stands.moved fd) proper
  cases gone with
  | true =>
    rw [data_deleted looped] at left
    cases left
  | false =>
    rw [data_kept looped] at left
    split at left
    · obtain ⟨m,rfl⟩ := parse_flow left
      exact along.parsed m
    · cases left
      exact along

theorem after_stands {callbacks : List (Callback F)} (fits : payload.length + 4 < 2^32)
    (stands : Stands payload read flow) (proper : Proper order payload (read ++ chunks callbacks))
    (left : after order pb fd flow callbacks = some next) : Stands payload (read ++ chunks callbacks) next := by
  induction callbacks generalizing flow read with
  | nil =>
    cases left
    rwa [chunks,List.flatMap_nil,List.append_nil]
  | cons c callbacks ih =>
    obtain ⟨middle,served,rest⟩ := Option.bind_eq_some_iff.mp left
    rw [chunks,List.flatMap_cons,← List.append_assoc] at proper ⊢
    exact ih (data_stands fits stands proper.early served) proper rest

theorem taken_prefix (fewer : tries ≤ more) (reads : List ReadResult) : taken tries reads <+: taken more reads := by
  induction more generalizing tries reads with
  | zero =>
    cases Nat.le_zero.mp fewer
    exact List.prefix_rfl
  | succ more ih =>
    cases tries with
    | zero => exact List.nil_prefix
    | succ tries =>
      cases reads with
      | nil => exact List.prefix_rfl
      | cons result reads =>
        cases result with
        | failed errno => exact List.prefix_rfl
        | got chunk =>
          cases chunk with
          | nil => exact List.prefix_rfl
          | cons byte chunk => exact (List.prefix_cons_inj _).mpr (ih (Nat.le_of_succ_le_succ fewer) reads)

theorem Stands.assembled (stands : Stands payload read flow) (some : read ≠ []) :
    Assembled payload read.flatten.length flow := by
  cases stands with
  | fresh => exact absurd rfl some
  | filling _ assembled => exact assembled

theorem assembled_reassembled (assembled : Assembled payload count flow) : Reassembled payload count flow := by
  obtain ⟨header,bounded,length,block,currlen,till⟩ := assembled
  have inside : count - 4 ≤ payload.length := by omega
  have written : (payload.take (count - 4)).length = count - 4 := by
    rw [List.length_take,Nat.min_eq_left inside]
  have size : (filled (payload.take (count - 4)) payload.length).length = payload.length := by
    apply filled_length
    rw [written]
    exact inside
  have begins := filled_take (payload.take (count - 4)) payload.length
  have zeros := filled_rest (payload.take (count - 4)) payload.length
  rw [written] at begins zeros
  subst till
  exact ⟨length,rfl,header,currlen,inside,_,block,size,begins,zeros⟩

theorem Stands.reassembled (stands : Stands payload read flow) (some : read ≠ []) :
    Reassembled payload read.flatten.length flow := assembled_reassembled (stands.assembled some)

theorem taken_got (nonempty : ∀ chunk ∈ read, chunk ≠ []) (fewer : read.length ≤ tries) :
    taken tries (read.map .got) = read := by
  induction read generalizing tries with
  | nil => cases tries <;> rfl
  | cons chunk read ih =>
    cases tries with
    | zero => exact absurd fewer (Nat.not_succ_le_zero _)
    | succ tries =>
      have rest := ih (fun other member => nonempty other (.tail _ member)) (Nat.le_of_succ_le_succ fewer)
      have some := nonempty chunk (.head _)
      cases chunk with
      | nil => exact absurd rfl some
      | cons byte chunk => exact congrArg ((byte :: chunk) :: ·) rest

omit [MembershipFilter F] in
theorem segmentation_chunks (split : Segmentation F bytes) :
    chunks (split.callbacks.map callback) = split.callbacks.flatMap (·.2) := by
  rw [chunks,List.flatMap_map]
  apply List.flatMap_congr
  intro c member
  exact taken_got (fun chunk held => (split.sized c member chunk held).1) (split.reading c member).2

-- Reads of the whole frame, as in Framing.
def whole (split : Segmentation F bytes) : Delivery F bytes where
  callbacks := split.callbacks.map callback
  sized := by
    intro c member chunk held
    obtain ⟨given,inside,rfl⟩ := List.mem_map.mp member
    obtain ⟨other,read,same⟩ := List.mem_map.mp held
    cases same
    exact (split.sized given inside chunk read).2
  front := by
    have all : (chunks (split.callbacks.map callback)).flatten = bytes := by
      rw [segmentation_chunks,split.joined]
    exact ⟨[],(List.append_nil _).trans all⟩

theorem delivery_reassembled (fits : payload.length + 4 < 2^32) (delivery : Delivery F (frame order payload))
    (long : ∀ first ∈ (chunks delivery.callbacks).head?, 4 < first.length) (pb : Protobuf) (fd : Int) (addr : Str) :
    ∀ earlier rest, delivery.callbacks = earlier ++ rest → ∀ flow, after order pb fd (new addr) earlier = some flow →
      (chunks earlier ≠ [] → Reassembled payload (chunks earlier).flatten.length flow) ∧
      ∀ c ∈ rest.head?, ∀ tries ≤ NUM_READ_TRY, chunks earlier ++ taken tries c.reads ≠ [] →
        ∃ next gone, readLoop order tries {flow with m_clientFd := fd} c.reads = .ok (next,gone) ∧
          Reassembled payload (chunks earlier ++ taken tries c.reads).flatten.length next := by
  intro earlier rest split flow left
  have proper : Proper order payload (chunks earlier ++ chunks rest) := by
    rw [chunks,chunks,← List.flatMap_append,← split]
    exact ⟨delivery.front,long⟩
  have start : Stands payload [] (new addr) := .fresh (fresh_new addr)
  have stands := after_stands fits start proper.early left
  rw [List.nil_append] at stands
  refine ⟨stands.reassembled,?_⟩
  intro c member tries within some
  obtain ⟨more,rfl⟩ : ∃ more, rest = c :: more := List.head?_eq_some_iff.mp member
  obtain ⟨last,longer⟩ := taken_prefix within c.reads
  have here : Proper order payload (chunks earlier ++ taken tries c.reads) := by
    have all : chunks (c :: more) = taken tries c.reads ++ (last ++ chunks more) := by
      rw [chunks,List.flatMap_cons,← longer,List.append_assoc]
      rfl
    rw [all,← List.append_assoc] at proper
    exact proper.early
  obtain ⟨next,gone,looped,along⟩ := readLoop_stands fits (stands.moved fd) here
  exact ⟨next,gone,looped,along.reassembled some⟩

def getK1Early : Delivery (BloomFilter BloomFilter.small) (frame .little [8,1,18,2,107,49]) := whole early

def firstSix : Callback (BloomFilter BloomFilter.small) := ⟨idle,[.got [6,0,0,0,8,1]]⟩

theorem delivery_reassembled_early : ∃ flow next gone,
    after .little Codec.codec 7 (new (text "0x1")) [firstSix] = some flow ∧ Reassembled [8,1,18,2,107,49] 6 flow ∧
    readLoop .little 1 {flow with m_clientFd := 7} [.got [18,2,107,49]] = .ok (next,gone) ∧
    Reassembled [8,1,18,2,107,49] 10 next := by
  have long : ∀ first ∈ (chunks getK1Early.callbacks).head?, 4 < first.length := by decide
  have left : after .little Codec.codec 7 (new (text "0x1")) [firstSix] = some _ := rfl
  obtain ⟨between,within⟩ := delivery_reassembled (by decide) getK1Early long Codec.codec 7 (text "0x1") [firstSix]
    [⟨idle,[.got [18,2,107,49]]⟩] rfl _ left
  obtain ⟨next,gone,looped,along⟩ := within _ rfl 1 (by decide) (by decide)
  exact ⟨_,next,gone,left,between (by decide),looped,along⟩

end RemoteDict.Reassembly

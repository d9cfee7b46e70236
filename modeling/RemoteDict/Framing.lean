import RemoteDict.TcpFlow
import RemoteDict.Client
import RemoteDict.Codec
import RemoteDict.BloomFilter

namespace RemoteDict.Framing
open Foundation.Block TcpFlow

variable {F : Type} {order : ByteOrder} {pb : Protobuf} {payload rest : List Byte} {count : Nat}
  {flow next : TcpFlow} {chunk : List Byte} {chunks : List (List Byte)}

def frame (order : ByteOrder) (payload : List Byte) : List Byte := order.encode payload.length ++ payload

-- One way TCP can deliver the frame: reads grouped into callbacks, each of
-- which finds the shared objects in some state.
structure Segmentation (F : Type) (bytes : List Byte) where
  callbacks : List (Shared F × List (List Byte))
  reading : ∀ c ∈ callbacks, c.2 ≠ [] ∧ c.2.length ≤ NUM_READ_TRY
  sized : ∀ c ∈ callbacks, ∀ chunk ∈ c.2, chunk ≠ [] ∧ chunk.length ≤ BUFLEN
  joined : (callbacks.flatMap (·.2)).flatten = bytes

def callback (c : Shared F × List (List Byte)) : Callback F := ⟨c.1,c.2.map .got⟩

def parseTrace [MembershipFilter F] (order : ByteOrder) (pb : Protobuf) (fd : Int) (flow : TcpFlow)
    (callbacks : List (Shared F × List (List Byte))) : List (List (List Byte)) :=
  (serve order pb fd flow (callbacks.map callback)).map parses

-- parse() is called once, at the end of the callback with the frame's last byte.
def ParsedOnce (trace : List (List (List Byte))) (callbacks : Nat) (payload : List Byte) : Prop :=
  trace = List.replicate (callbacks - 1) [] ++ [[payload]]

def firstRead (callbacks : List (Shared F × List (List Byte))) : Nat :=
  ((callbacks.flatMap (·.2)).head?.getD []).length

def EndsEarly (callbacks : List (Shared F × List (List Byte))) (size : Nat) : Prop :=
  ∃ earlier later, callbacks = earlier ++ later ∧ earlier ≠ [] ∧ later ≠ [] ∧
    size ≤ (earlier.flatMap (·.2)).flatten.length

-- The reassembly buffer after `count` bytes of the frame, when the first read
-- brought more than the header.
structure Assembled (payload : List Byte) (count : Nat) (flow : TcpFlow) : Prop where
  header : 4 ≤ count
  bounded : count ≤ payload.length + 4
  length : flow.m_payloadLen = payload.length
  block : flow.m_data = some (filled (payload.take (count - 4)) payload.length)
  currlen : flow.m_currlen = some (count - 4)
  till : flow.m_lenTillnow = count

theorem Assembled.moved (assembled : Assembled payload count flow) (fd : Int) :
    Assembled payload count {flow with m_clientFd := fd} := by
  obtain ⟨header,bounded,length,block,currlen,till⟩ := assembled
  exact ⟨header,bounded,length,block,currlen,till⟩

theorem Assembled.parsed (assembled : Assembled payload count flow) (m : Payload) :
    Assembled payload count {flow with m_payload := m} := by
  obtain ⟨header,bounded,length,block,currlen,till⟩ := assembled
  exact ⟨header,bounded,length,block,currlen,till⟩

def Fresh (flow : TcpFlow) : Prop :=
  flow.m_data = none ∧ flow.m_payloadLen = 0 ∧ flow.m_lenTillnow = 0 ∧ flow.m_currlen = none

theorem fresh_new (addr : Str) : Fresh (new addr) := ⟨rfl,rfl,rfl,rfl⟩

theorem frame_length (order : ByteOrder) (payload : List Byte) : (frame order payload).length = payload.length + 4 := by
  simp [frame]; omega

theorem frame_drop (order : ByteOrder) (payload : List Byte) (count : Nat) (header : 4 ≤ count) :
    (frame order payload).drop count = payload.drop (count - 4) := by
  rw [frame,List.drop_append,List.drop_of_length_le (by simpa using header)]
  simp

theorem receive_first (fresh : Fresh flow) (fits : payload.length + 4 < 2^32)
    (arrived : frame order payload = chunk ++ rest) (long : 4 < chunk.length) :
    ∃ next, receive order flow chunk = .ok next ∧ Assembled payload chunk.length next ∧
      next.m_selfAddr = flow.m_selfAddr := by
  obtain ⟨empty,_,zero,_⟩ := fresh
  have total := congrArg List.length arrived
  rw [frame_length,List.length_append] at total
  have size : order.decode ((buffer chunk).take 4) = payload.length := by
    have head := congrArg (List.take 4) arrived
    rw [frame,List.take_left' (order.encode_length _),List.take_append_of_le_length (by omega)] at head
    rw [buffer_header (by omega),← head]
    exact order.decode_encode (by omega)
  have body : chunk.drop 4 = payload.take (chunk.length - 4) := by
    have tail := congrArg (List.drop 4) arrived
    rw [frame_drop _ _ _ (Nat.le_refl 4),List.drop_append_of_le_length (by omega)] at tail
    rw [show payload = chunk.drop 4 ++ rest from tail]
    simp
  rw [receive_empty flow empty (by omega),if_neg (by omega),size,if_neg (by omega),if_neg (by omega)]
  refine ⟨_,rfl,?_,rfl⟩
  exact ⟨by omega,by omega,rfl,by rw [body],rfl,by simp only [zero]; omega⟩

theorem receive_next (assembled : Assembled payload count flow) (fits : payload.length + 4 < 2^32)
    (arrived : (frame order payload).drop count = chunk ++ rest) :
    ∃ next, receive order flow chunk = .ok next ∧ Assembled payload (count + chunk.length) next ∧
      next.m_selfAddr = flow.m_selfAddr := by
  obtain ⟨header,bounded,length,block,currlen,till⟩ := assembled
  rw [frame_drop _ _ _ header] at arrived
  have total := congrArg List.length arrived
  rw [List.length_drop,List.length_append] at total
  have written : (payload.take (count - 4)).length = count - 4 := by rw [List.length_take]; omega
  have grown : payload.take (count - 4) ++ chunk = payload.take (count + chunk.length - 4) := by
    rw [show count + chunk.length - 4 = count - 4 + chunk.length by omega,List.take_add,arrived,List.take_left]
  have stored : store (filled (payload.take (count - 4)) payload.length) (payload.take (count - 4)).length chunk =
      some (filled (payload.take (count - 4) ++ chunk) payload.length) := store_filled (by omega)
  rw [written,grown] at stored
  have wrapped : (count + chunk.length) % 2^32 = count + chunk.length := by omega
  have current : (count - 4 + chunk.length) % 2^32 = count + chunk.length - 4 := by omega
  simp only [receive,block,currlen,till,stored,wrapped,current]
  exact ⟨_,rfl,⟨by omega,by omega,length,rfl,rfl,rfl⟩,rfl⟩

theorem readLoop_assembled (assembled : Assembled payload count flow) (fits : payload.length + 4 < 2^32)
    (arrived : (frame order payload).drop count = chunks.flatten ++ rest)
    (nonempty : ∀ chunk ∈ chunks, chunk ≠ []) (tries : chunks.length ≤ n) :
    ∃ next, readLoop order n flow (chunks.map .got) = .ok (next,false) ∧
      Assembled payload (count + chunks.flatten.length) next ∧ next.m_selfAddr = flow.m_selfAddr := by
  induction chunks generalizing flow count n with
  | nil => cases n <;> exact ⟨flow,rfl,by simpa using assembled,rfl⟩
  | cons chunk chunks ih =>
    obtain ⟨n,rfl⟩ : ∃ more, n = more+1 := ⟨n-1,by simp at tries; omega⟩
    rw [List.flatten_cons,List.append_assoc] at arrived
    obtain ⟨middle,received,along,addr⟩ := receive_next assembled fits arrived
    have remaining : (frame order payload).drop (count + chunk.length) = chunks.flatten ++ rest := by
      rw [← List.drop_drop,arrived,List.drop_left]
    obtain ⟨next,looped,last,same⟩ := ih along remaining (fun c member => nonempty c (.tail _ member)) (by simpa using tries)
    refine ⟨next,?_,?_,same.trans addr⟩
    · rw [List.map_cons,readLoop_got (nonempty chunk (.head _)),received]
      exact looped
    · simpa [Nat.add_assoc] using last

-- A callback that leaves `count` bytes assembled hands them to parse as soon as
-- the count, header included, has reached the payload's length.
def Step (order : ByteOrder) (pb : Protobuf) (F : Type) [MembershipFilter F] (payload : List Byte) (fd : Int)
    (flow : TcpFlow) (chunks : List (List Byte)) (count : Nat) : Prop :=
  ∀ s : Shared F, ∃ next, Assembled payload count next ∧
    data order pb flow fd EV_READ (chunks.map .got) s =
      if payload.length ≤ count then next.parse pb s else ⟨some next,s,[]⟩

theorem step_of_loop [MembershipFilter F]
    (looped : readLoop order NUM_READ_TRY {flow with m_clientFd := fd} (chunks.map .got) = .ok (next,false))
    (along : Assembled payload count next) : Step order pb F payload fd flow chunks count := by
  intro s
  refine ⟨next,along,?_⟩
  rw [data_kept looped,along.length,along.till]

theorem loop_assembled (assembled : Assembled payload count flow) (fits : payload.length + 4 < 2^32)
    (arrived : (frame order payload).drop count = chunks.flatten ++ rest)
    (nonempty : ∀ chunk ∈ chunks, chunk ≠ []) (tries : chunks.length ≤ NUM_READ_TRY) (fd : Int) :
    ∃ next, readLoop order NUM_READ_TRY {flow with m_clientFd := fd} (chunks.map .got) = .ok (next,false) ∧
      Assembled payload (count + chunks.flatten.length) next := by
  obtain ⟨next,looped,along,_⟩ := readLoop_assembled (assembled.moved fd) fits arrived nonempty tries
  exact ⟨next,looped,along⟩

theorem step_assembled [MembershipFilter F] (assembled : Assembled payload count flow) (fits : payload.length + 4 < 2^32)
    (arrived : (frame order payload).drop count = chunks.flatten ++ rest)
    (nonempty : ∀ chunk ∈ chunks, chunk ≠ []) (tries : chunks.length ≤ NUM_READ_TRY) :
    Step order pb F payload fd flow chunks (count + chunks.flatten.length) := by
  obtain ⟨next,looped,along⟩ := loop_assembled assembled fits arrived nonempty tries fd
  exact step_of_loop looped along

theorem loop_fresh (fresh : Fresh flow) (fits : payload.length + 4 < 2^32) (long : 4 < chunk.length)
    (arrived : frame order payload = chunk ++ (chunks.flatten ++ rest))
    (nonempty : ∀ chunk ∈ chunks, chunk ≠ []) (tries : (chunk :: chunks).length ≤ NUM_READ_TRY) (fd : Int) :
    ∃ next, readLoop order NUM_READ_TRY {flow with m_clientFd := fd} ((chunk :: chunks).map .got) = .ok (next,false) ∧
      Assembled payload (chunk.length + chunks.flatten.length) next := by
  have moved : Fresh {flow with m_clientFd := fd} := fresh
  obtain ⟨middle,received,along,_⟩ := receive_first moved fits arrived long
  have remaining : (frame order payload).drop chunk.length = chunks.flatten ++ rest := by
    rw [arrived,List.drop_left]
  have fewer : chunks.length ≤ 49 := by
    change chunks.length + 1 ≤ 50 at tries
    omega
  obtain ⟨next,looped,last,_⟩ := readLoop_assembled along fits remaining nonempty fewer
  have some : chunk ≠ [] := by intro empty; simp [empty] at long
  refine ⟨next,?_,last⟩
  change readLoop order (49+1) _ (.got chunk :: chunks.map .got) = _
  rw [readLoop_got some,received]
  exact looped

theorem step_fresh [MembershipFilter F] (fresh : Fresh flow) (fits : payload.length + 4 < 2^32) (long : 4 < chunk.length)
    (arrived : frame order payload = chunk ++ (chunks.flatten ++ rest))
    (nonempty : ∀ chunk ∈ chunks, chunk ≠ []) (tries : (chunk :: chunks).length ≤ NUM_READ_TRY) :
    Step order pb F payload fd flow (chunk :: chunks) (chunk.length + chunks.flatten.length) := by
  obtain ⟨next,looped,last⟩ := loop_fresh fresh fits long arrived nonempty tries fd
  exact step_of_loop looped last

theorem assembled_received (assembled : Assembled payload (payload.length + 4) flow) : flow.received = payload := by
  have block := assembled.block
  rw [Nat.add_sub_cancel,List.take_length] at block
  rw [received_filled block (Nat.le_refl _) assembled.length,filled_of_length rfl]

theorem parsedOnce_cons (more : 0 < callbacks) :
    ParsedOnce (first :: trace) (callbacks+1) payload ↔ first = [] ∧ ParsedOnce trace callbacks payload := by
  obtain ⟨n,rfl⟩ : ∃ n, callbacks = n+1 := ⟨callbacks-1,by omega⟩
  simp [ParsedOnce,List.replicate_succ]

theorem endsEarly_cons {callbacks : List (Shared F × List (List Byte))} (more : callbacks ≠ []) :
    EndsEarly (c :: callbacks) size ↔
      size ≤ c.2.flatten.length ∨ EndsEarly callbacks (size - c.2.flatten.length) := by
  constructor
  · rintro ⟨earlier,later,split,some,rest,reached⟩
    cases earlier with
    | nil => exact absurd rfl some
    | cons head earlier =>
      obtain ⟨rfl,rfl⟩ := List.cons_eq_cons.mp split
      simp only [List.flatMap_cons,List.flatten_append,List.length_append] at reached
      by_cases first : size ≤ c.2.flatten.length
      · exact .inl first
      · refine .inr ⟨earlier,later,rfl,?_,rest,by omega⟩
        rintro rfl
        simp at reached
        simp at first
        omega
  · rintro (first | ⟨earlier,later,rfl,some,rest,reached⟩)
    · exact ⟨[c],callbacks,rfl,by simp,more,by simpa using first⟩
    · refine ⟨c :: earlier,later,rfl,by simp,rest,?_⟩
      simp only [List.flatMap_cons,List.flatten_append,List.length_append]
      omega

theorem endsEarly_single (c : Shared F × List (List Byte)) : ¬ EndsEarly [c] size := by
  rintro ⟨earlier,later,split,some,rest,_⟩
  cases earlier with
  | nil => exact some rfl
  | cons head earlier =>
    have tail := (List.cons_eq_cons.mp split).2
    exact rest (List.append_eq_nil_iff.mp tail.symm).2

theorem received_count (callbacks : List (Shared F × List (List Byte)))
    (arrived : (frame order payload).drop count = (callbacks.flatMap (·.2)).flatten) (bounded : count ≤ payload.length + 4) :
    count + (callbacks.flatMap (·.2)).flatten.length = payload.length + 4 := by
  have total := congrArg List.length arrived
  rw [List.length_drop,frame_length] at total
  omega

-- The last callback always parses; one before it parses exactly when it ends
-- early, and the trace then differs from the expected one at that place.
theorem trace_step [MembershipFilter F] {callbacks : List (Shared F × List (List Byte))} (c : Shared F × List (List Byte))
    (step : Step order pb F payload fd flow c.2 (count + c.2.flatten.length))
    (arrived : (frame order payload).drop count = ((c :: callbacks).flatMap (·.2)).flatten)
    (bounded : count ≤ payload.length + 4)
    (tail : callbacks ≠ [] → ∀ next, Assembled payload (count + c.2.flatten.length) next →
      (ParsedOnce (parseTrace order pb fd next callbacks) callbacks.length payload ↔
        ¬ EndsEarly callbacks (payload.length - (count + c.2.flatten.length)))) :
    ParsedOnce (parseTrace order pb fd flow (c :: callbacks)) (callbacks.length + 1) payload ↔
      ¬ EndsEarly (c :: callbacks) (payload.length - count) := by
  have total := received_count _ arrived bounded
  simp only [List.flatMap_cons,List.flatten_append,List.length_append] at total
  obtain ⟨next,along,outcome⟩ := step c.1
  by_cases last : callbacks = []
  · subst last
    have whole : count + c.2.flatten.length = payload.length + 4 := by simpa using total
    rw [whole] at along outcome
    rw [if_pos (by omega)] at outcome
    have single : parseTrace order pb fd flow [c] = [[payload]] := by
      simp only [parseTrace,List.map_cons,List.map_nil,serve,callback,outcome]
      rw [← assembled_received along]
      split <;> simp [parse_parses]
    simp [ParsedOnce,single,endsEarly_single]
  · have more : 0 < callbacks.length := List.length_pos_of_ne_nil last
    rw [endsEarly_cons last]
    by_cases early : payload.length ≤ count + c.2.flatten.length
    · have reached : payload.length - count ≤ c.2.flatten.length := by omega
      rw [if_pos early] at outcome
      obtain ⟨trace,first⟩ : ∃ trace, parseTrace order pb fd flow (c :: callbacks) = [next.received] :: trace := by
        simp only [parseTrace,List.map_cons,serve,callback,outcome]
        split <;> exact ⟨_,by simp only [List.map_cons,parse_parses]; rfl⟩
      simp only [first,parsedOnce_cons more,reached,true_or,not_true_eq_false,iff_false]
      rintro ⟨impossible,_⟩
      cases impossible
    · rw [if_neg early] at outcome
      have waits : parseTrace order pb fd flow (c :: callbacks) = [] :: parseTrace order pb fd next callbacks := by
        simp only [parseTrace,List.map_cons,serve,callback,outcome]
        rfl
      have later := tail last next along
      rw [Nat.sub_add_eq] at later
      rw [waits,parsedOnce_cons more,later]
      have short : ¬ payload.length - count ≤ c.2.flatten.length := by omega
      simp only [short,false_or,true_and]

theorem trace_assembled [MembershipFilter F] {callbacks : List (Shared F × List (List Byte))}
    (fits : payload.length + 4 < 2^32) (some : callbacks ≠ []) (assembled : Assembled payload count flow)
    (arrived : (frame order payload).drop count = (callbacks.flatMap (·.2)).flatten)
    (reading : ∀ c ∈ callbacks, c.2.length ≤ NUM_READ_TRY) (sized : ∀ c ∈ callbacks, ∀ chunk ∈ c.2, chunk ≠ []) :
    ParsedOnce (parseTrace order pb fd flow callbacks) callbacks.length payload ↔
      ¬ EndsEarly callbacks (payload.length - count) := by
  induction callbacks generalizing flow count with
  | nil => exact absurd rfl some
  | cons c callbacks ih =>
    have here : (frame order payload).drop count = c.2.flatten ++ (callbacks.flatMap (·.2)).flatten := by
      simpa using arrived
    have step : Step order pb F payload fd flow c.2 (count + c.2.flatten.length) :=
      step_assembled assembled fits here (sized c (.head _)) (reading c (.head _))
    refine trace_step c step arrived assembled.bounded ?_
    intro more next along
    have remaining : (frame order payload).drop (count + c.2.flatten.length) = (callbacks.flatMap (·.2)).flatten := by
      rw [← List.drop_drop,here,List.drop_left]
    exact ih more along remaining (fun d member => reading d (.tail _ member)) (fun d member => sized d (.tail _ member))

-- The states after a first read of at most four bytes, by the bytes received:
-- no buffer yet; a buffer whose fill level is unset; or one that misses the
-- start of the payload because the read before took part of the header.
inductive Astray (order : ByteOrder) (payload : List Byte) : Nat → TcpFlow → Prop where
  | short {n : Nat} {flow : TcpFlow} : 0 < n → n < 4 → flow.m_data = none → flow.m_payloadLen = 0 →
      flow.m_lenTillnow = n → flow.m_currlen = none → Astray order payload n flow
  | unset {n size : Nat} {flow : TcpFlow} : flow.m_data = some (calloc size) → flow.m_payloadLen = size →
      flow.m_currlen = none → Astray order payload n flow
  | shifted {n missed size : Nat} {flow : TcpFlow} : 0 < missed → missed + 4 ≤ n →
      flow.m_data = some (filled (((frame order payload).take n).drop (missed + 4)) size) →
      flow.m_payloadLen = size → n - (missed + 4) ≤ size → flow.m_currlen = some (n - (missed + 4)) →
      Astray order payload n flow

theorem Astray.moved (astray : Astray order payload count flow) : Astray order payload count {flow with m_clientFd := fd} := by
  cases astray with
  | short some few empty length till currlen => exact .short some few empty length till currlen
  | unset block length currlen => exact .unset block length currlen
  | shifted missed inside block length fits currlen => exact .shifted missed inside block length fits currlen

theorem Astray.parsed (astray : Astray order payload count flow) : Astray order payload count {flow with m_payload := m} := by
  cases astray with
  | short some few empty length till currlen => exact .short some few empty length till currlen
  | unset block length currlen => exact .unset block length currlen
  | shifted missed inside block length fits currlen => exact .shifted missed inside block length fits currlen

theorem take_arrived {bytes : List Byte} (arrived : bytes.drop count = chunk ++ rest) :
    bytes.take (count + chunk.length) = bytes.take count ++ chunk := by
  rw [List.take_add,arrived,List.take_left]

theorem receive_astray (astray : Astray order payload count flow) (fits : payload.length + 4 < 2^32)
    (arrived : (frame order payload).drop count = chunk ++ rest) (bounded : count ≤ payload.length + 4)
    (received : receive order flow chunk = .ok next) : Astray order payload (count + chunk.length) next := by
  have total := congrArg List.length arrived
  rw [List.length_drop,frame_length,List.length_append] at total
  have prior := take_arrived arrived
  cases astray with
  | short some few empty length till currlen =>
    rw [receive_empty flow empty (by omega),till] at received
    by_cases still : count + chunk.length < 4
    · rw [if_pos still] at received
      cases received
      exact .short (by omega) still empty length rfl currlen
    · rw [if_neg still] at received
      dsimp only at received
      by_cases header : count + chunk.length = 4
      · rw [if_pos header] at received
        cases received
        exact .unset rfl rfl currlen
      · rw [if_neg header] at received
        split at received
        · cases received
        · rename_i inside
          cases received
          have content : ((frame order payload).take (count + chunk.length)).drop (count + 4) = chunk.drop 4 := by
            rw [prior,List.drop_append,List.drop_of_length_le (by rw [List.length_take]; omega)]
            simp only [List.length_take,frame_length,List.nil_append]
            congr 1
            omega
          refine .shifted some (by omega) ?_ rfl ?_ ?_
          · rw [content]
          · simp only; omega
          · simp only [Option.some.injEq]; omega
  | unset block length currlen =>
    simp [receive,block,currlen] at received
  | shifted late inside block length enough currlen =>
    rename_i missed size
    have written : (((frame order payload).take count).drop (missed + 4)).length = count - (missed + 4) := by
      rw [List.length_drop,List.length_take,frame_length]; omega
    by_cases fit : count - (missed + 4) + chunk.length ≤ size
    · have stored : store (filled (((frame order payload).take count).drop (missed + 4)) size)
          (((frame order payload).take count).drop (missed + 4)).length chunk =
          some (filled (((frame order payload).take count).drop (missed + 4) ++ chunk) size) := store_filled (by omega)
      rw [written] at stored
      have grown : ((frame order payload).take count).drop (missed + 4) ++ chunk =
          ((frame order payload).take (count + chunk.length)).drop (missed + 4) := by
        rw [prior,List.drop_append_of_le_length]
        rw [List.length_take,frame_length]; omega
      have current : (count - (missed + 4) + chunk.length) % 2^32 = count + chunk.length - (missed + 4) := by omega
      simp only [receive,block,currlen,stored,grown,current] at received
      cases received
      exact .shifted late (by omega) rfl length (by omega) rfl
    · have refused : store (filled (((frame order payload).take count).drop (missed + 4)) size)
          (((frame order payload).take count).drop (missed + 4)).length chunk = none :=
        store_filled_none (by omega) (by omega)
      rw [written] at refused
      simp [receive,block,currlen,refused] at received

theorem shifted_zero {bytes : List Byte} (skip : 0 < missed)
    (same : bytes = (bytes.take count).drop missed ++ calloc zeros) (inside : i < bytes.length) : bytes[i]? = some 0 := by
  by_cases copied : i < ((bytes.take count).drop missed).length
  · have later : missed + i < bytes.length := by
      rw [List.length_drop,List.length_take] at copied; omega
    have next := shifted_zero skip same later
    rw [same,List.getElem?_append_left copied,List.getElem?_drop,List.getElem?_take_of_lt]
    · exact next
    · rw [List.length_drop,List.length_take] at copied; omega
  · have total := congrArg List.length same
    rw [List.length_append,calloc_length] at total
    rw [same,List.getElem?_append_right (by omega),calloc,List.getElem?_replicate,if_pos (by omega)]
termination_by bytes.length - i

theorem astray_received (astray : Astray order payload count flow) (proper : payload ≠ [])
    (head : payload.head? ≠ some 0) (bounded : count ≤ payload.length + 4) : flow.received ≠ payload := by
  have zero : payload[0]? ≠ some 0 := by rwa [← List.head?_eq_getElem?]
  have positive : 0 < payload.length := List.length_pos_of_ne_nil proper
  intro equal
  cases astray with
  | short _ _ empty length _ _ =>
    rw [received,empty,length] at equal
    exact proper equal.symm
  | unset block length _ =>
    rename_i size
    rw [← filled_nil] at block
    rw [received_filled block (Nat.zero_le _) length,filled_nil] at equal
    apply zero
    rw [← equal,calloc,List.getElem?_replicate,if_pos]
    rw [← equal,calloc_length] at positive
    exact positive
  | shifted late inside block length enough currlen =>
    rename_i missed size
    have written : (((frame order payload).take count).drop (missed + 4)).length = count - (missed + 4) := by
      rw [List.length_drop,List.length_take,frame_length]; omega
    rw [received_filled block (by omega) length] at equal
    have content : ((frame order payload).take count).drop (missed + 4) = (payload.take (count - 4)).drop missed := by
      rw [Nat.add_comm,← List.drop_drop,List.drop_take,frame_drop _ _ _ (Nat.le_refl 4)]
      rfl
    rw [filled,content] at equal
    exact zero (shifted_zero late equal.symm positive)

theorem receive_short (fresh : Fresh flow) (some : chunk ≠ []) (few : chunk.length ≤ 4) :
    ∃ next, receive order flow chunk = .ok next ∧ Astray order payload chunk.length next := by
  obtain ⟨empty,length,zero,currlen⟩ := fresh
  have positive : 0 < chunk.length := List.length_pos_of_ne_nil some
  rw [receive_empty flow empty (by omega),zero]
  by_cases less : chunk.length < 4
  · rw [if_pos (by omega)]
    exact ⟨_,rfl,.short positive less empty length (by simp) currlen⟩
  · rw [if_neg (by omega)]
    dsimp only
    rw [if_pos (by omega)]
    exact ⟨_,rfl,.unset rfl rfl currlen⟩

theorem readLoop_astray (astray : Astray order payload count flow) (fits : payload.length + 4 < 2^32)
    (arrived : (frame order payload).drop count = chunks.flatten ++ rest) (bounded : count ≤ payload.length + 4)
    (nonempty : ∀ chunk ∈ chunks, chunk ≠ []) (tries : chunks.length ≤ n)
    (looped : readLoop order n flow (chunks.map .got) = .ok (next,deleted)) :
    deleted = false ∧ Astray order payload (count + chunks.flatten.length) next := by
  induction chunks generalizing flow count n with
  | nil => cases n <;> cases looped <;> exact ⟨rfl,by simpa using astray⟩
  | cons chunk chunks ih =>
    obtain ⟨n,rfl⟩ : ∃ more, n = more+1 := ⟨n-1,by simp at tries; omega⟩
    rw [List.flatten_cons,List.append_assoc] at arrived
    have total := congrArg List.length arrived
    rw [List.length_drop,frame_length,List.length_append] at total
    rw [List.map_cons,readLoop_got (nonempty chunk (.head _))] at looped
    cases received : receive order flow chunk with
    | error fault => simp [received] at looped
    | ok middle =>
      rw [received] at looped
      have along := receive_astray astray fits arrived bounded received
      have remaining : (frame order payload).drop (count + chunk.length) = chunks.flatten ++ rest := by
        rw [← List.drop_drop,arrived,List.drop_left]
      rw [List.flatten_cons,List.length_append,← Nat.add_assoc]
      exact ih along remaining (by omega) (fun c member => nonempty c (.tail _ member)) (by simpa using tries) looped

def Strays (order : ByteOrder) (pb : Protobuf) (F : Type) [MembershipFilter F] (payload : List Byte) (fd : Int)
    (flow : TcpFlow) (chunks : List (List Byte)) (count : Nat) : Prop :=
  ∀ s : Shared F, let outcome := data order pb flow fd EV_READ (chunks.map .got) s
    payload ∉ parses outcome.events ∧ ∀ next, outcome.flow = some next → Astray order payload count next

theorem strays_of_loop [MembershipFilter F] (proper : payload ≠ []) (head : payload.head? ≠ some 0)
    (bounded : count ≤ payload.length + 4)
    (looped : ∀ next deleted, readLoop order NUM_READ_TRY {flow with m_clientFd := fd} (chunks.map .got) = .ok (next,deleted) →
      deleted = false ∧ Astray order payload count next) : Strays order pb F payload fd flow chunks count := by
  intro s
  cases ran : readLoop order NUM_READ_TRY {flow with m_clientFd := fd} (chunks.map .got) with
  | error fault =>
    rw [data_faulted ran]
    exact ⟨by simp [parses,parsedBytes],by simp⟩
  | ok result =>
    obtain ⟨next,deleted⟩ := result
    obtain ⟨rfl,astray⟩ := looped next deleted ran
    rw [data_kept ran]
    dsimp only
    split
    · refine ⟨?_,?_⟩
      · rw [parse_parses,List.mem_singleton]
        exact (astray_received astray proper head bounded).symm
      · intro later answered
        obtain ⟨m,rfl⟩ := parse_flow answered
        exact astray.parsed
    · exact ⟨by simp [parses],by rintro _ ⟨⟩; exact astray⟩

theorem trace_strays [MembershipFilter F] {callbacks : List (Shared F × List (List Byte))} (c : Shared F × List (List Byte))
    (strays : Strays order pb F payload fd flow c.2 count)
    (tail : ∀ next, Astray order payload count next → ∀ calls ∈ parseTrace order pb fd next callbacks, payload ∉ calls) :
    ∀ calls ∈ parseTrace order pb fd flow (c :: callbacks), payload ∉ calls := by
  intro calls member
  obtain ⟨absent,later⟩ := strays c.1
  simp only [parseTrace,List.map_cons,serve,callback] at member
  split at member
  · rename_i gone
    rw [List.map_singleton,List.mem_singleton] at member
    exact member ▸ absent
  · rename_i next remains
    rw [List.map_cons] at member
    rcases List.mem_cons.mp member with rfl | rest
    · exact absent
    · exact tail next (later next remains) calls rest

theorem not_parsedOnce (absent : ∀ calls ∈ trace, payload ∉ calls) : ¬ ParsedOnce trace callbacks payload := by
  intro once
  refine absent [payload] ?_ (by simp)
  rw [once]
  simp

theorem trace_astray [MembershipFilter F] {callbacks : List (Shared F × List (List Byte))}
    (fits : payload.length + 4 < 2^32) (proper : payload ≠ []) (head : payload.head? ≠ some 0)
    (astray : Astray order payload count flow) (bounded : count ≤ payload.length + 4)
    (arrived : (frame order payload).drop count = (callbacks.flatMap (·.2)).flatten)
    (reading : ∀ c ∈ callbacks, c.2.length ≤ NUM_READ_TRY) (sized : ∀ c ∈ callbacks, ∀ chunk ∈ c.2, chunk ≠ []) :
    ∀ calls ∈ parseTrace order pb fd flow callbacks, payload ∉ calls := by
  induction callbacks generalizing flow count with
  | nil => intro calls member; cases member
  | cons c callbacks ih =>
    have here : (frame order payload).drop count = c.2.flatten ++ (callbacks.flatMap (·.2)).flatten := by
      simpa using arrived
    have remaining : (frame order payload).drop (count + c.2.flatten.length) = (callbacks.flatMap (·.2)).flatten := by
      rw [← List.drop_drop,here,List.drop_left]
    have total := congrArg List.length here
    rw [List.length_drop,frame_length,List.length_append] at total
    have strays : Strays order pb F payload fd flow c.2 (count + c.2.flatten.length) :=
      strays_of_loop proper head (by omega) fun next deleted looped =>
        readLoop_astray astray.moved fits here bounded (sized c (.head _)) (reading c (.head _)) looped
    exact trace_strays c strays fun next along => ih along (by omega) remaining
      (fun d member => reading d (.tail _ member)) (fun d member => sized d (.tail _ member))

theorem strays_fresh [MembershipFilter F] (fits : payload.length + 4 < 2^32) (proper : payload ≠ [])
    (head : payload.head? ≠ some 0) (fresh : Fresh flow) (few : chunk.length ≤ 4)
    (arrived : frame order payload = chunk ++ (chunks.flatten ++ rest)) (some : chunk ≠ [])
    (nonempty : ∀ chunk ∈ chunks, chunk ≠ []) (tries : (chunk :: chunks).length ≤ NUM_READ_TRY) :
    Strays order pb F payload fd flow (chunk :: chunks) (chunk.length + chunks.flatten.length) := by
  have moved : Fresh {flow with m_clientFd := fd} := fresh
  have total := congrArg List.length arrived
  rw [frame_length,List.length_append,List.length_append] at total
  have remaining : (frame order payload).drop chunk.length = chunks.flatten ++ rest := by
    rw [arrived,List.drop_left]
  have fewer : chunks.length ≤ 49 := by
    change chunks.length + 1 ≤ 50 at tries
    omega
  obtain ⟨middle,received,astray⟩ := receive_short moved some few
  refine strays_of_loop proper head (by omega) fun next deleted looped => ?_
  change readLoop order (49+1) _ (.got chunk :: chunks.map .got) = _ at looped
  rw [readLoop_got some,received] at looped
  exact readLoop_astray astray fits remaining (by omega) nonempty fewer looped

-- The first read decides: more than the header, and the buffer is assembled in
-- step; the header or less, and the payload is never handed to parse.
theorem trace_fresh [MembershipFilter F] (fits : payload.length + 4 < 2^32) (proper : payload ≠ [])
    (head : payload.head? ≠ some 0) (fresh : Fresh flow) (split : Segmentation F (frame order payload)) :
    ParsedOnce (parseTrace order pb fd flow split.callbacks) split.callbacks.length payload ↔
      4 < firstRead split.callbacks ∧ ¬ EndsEarly split.callbacks payload.length := by
  obtain ⟨callbacks,reading,sized,joined⟩ := split
  dsimp only
  cases callbacks with
  | nil =>
    have total := congrArg List.length joined
    rw [frame_length] at total
    simp at total
  | cons c callbacks =>
    obtain ⟨s,chunks⟩ := c
    obtain ⟨some,tries⟩ := reading _ (.head _)
    dsimp only at some tries
    obtain ⟨chunk,chunks,rfl⟩ := List.exists_cons_of_ne_nil some
    have filled := (sized _ (.head _) chunk (.head _)).1
    have others : ∀ other ∈ chunks, other ≠ [] := fun other member => (sized _ (.head _) other (.tail _ member)).1
    have first : firstRead ((s,chunk :: chunks) :: callbacks) = chunk.length := rfl
    have arrived : frame order payload = chunk ++ (chunks.flatten ++ (callbacks.flatMap (·.2)).flatten) := by
      rw [← joined]; simp
    have total := congrArg List.length arrived
    rw [frame_length,List.length_append,List.length_append] at total
    have remaining : (frame order payload).drop (chunk.length + chunks.flatten.length) = (callbacks.flatMap (·.2)).flatten := by
      rw [arrived,← List.drop_drop,List.drop_left,List.drop_left]
    have laterReading : ∀ d ∈ callbacks, d.2.length ≤ NUM_READ_TRY := fun d member => (reading d (.tail _ member)).2
    have laterSized : ∀ d ∈ callbacks, ∀ other ∈ d.2, other ≠ [] := fun d member other present =>
      (sized d (.tail _ member) other present).1
    rw [first]
    by_cases long : 4 < chunk.length
    · have step : Step order pb F payload fd flow (chunk :: chunks) (0 + (chunk :: chunks).flatten.length) := by
        rw [Nat.zero_add,List.flatten_cons,List.length_append]
        exact step_fresh fresh fits long arrived others tries
      have result := trace_step (s,chunk :: chunks) step joined.symm (Nat.zero_le _) fun more next along =>
        trace_assembled fits more along (by simpa using remaining) laterReading laterSized
      simpa only [List.length_cons,long,true_and,Nat.sub_zero] using result
    · have strays : Strays order pb F payload fd flow (chunk :: chunks) (chunk.length + chunks.flatten.length) :=
        strays_fresh fits proper head fresh (by omega) arrived filled others tries
      have absent := trace_strays (s,chunk :: chunks) strays fun next along =>
        trace_astray fits proper head along (by omega) remaining laterReading laterSized
      simp only [long,false_and,iff_false]
      exact not_parsedOnce absent

theorem framing_exact [MembershipFilter F] (round : pb.RoundTrip) (zero : pb.ZeroTag)
    (built : Client.request msg = .ok (some m))
    (serialised : pb.SerializeToArray m (calloc (pb.ByteSizeLong m % 2^32)) = (true,payload))
    (sent : Client.sendBuffer order pb m = .ok bytes) (split : Segmentation F bytes) (fd : Int) (addr : Str) :
    ParsedOnce (parseTrace order pb fd (new addr) split.callbacks) split.callbacks.length payload ↔
      4 < firstRead split.callbacks ∧ ¬ EndsEarly split.callbacks payload.length := by
  have typed := Client.request_typed built
  have small : pb.ByteSizeLong m ≤ INT_MAX := by
    by_cases large : INT_MAX < pb.ByteSizeLong m
    · simp [Protobuf.SerializeToArray,large] at serialised
    · exact Nat.le_of_not_lt large
  have limit : INT_MAX = 2147483647 := rfl
  have fits : (pb.encode m).length + 4 < 2^32 := by
    change pb.ByteSizeLong m + 4 < 2^32
    omega
  have encoded := pb.serialize_fresh m 0 small
  rw [Nat.mod_eq_of_lt (by omega)] at serialised
  rw [Nat.add_zero,serialised] at encoded
  have same : payload = pb.encode m := by simpa [calloc] using encoded
  rw [Client.sendBuffer_frame small] at sent
  cases sent
  subst same
  exact trace_fresh fits (round.nonempty zero typed) (round.head_nonzero zero typed) (fresh_new addr) split

def idle : Shared (BloomFilter BloomFilter.small) := ⟨.new,{}⟩

def getK1 : MessageT := ⟨some .GET,text "k1",[]⟩

-- The frame of GET k1 in one read, and in two callbacks of which the first
-- brings as many bytes as the payload has.
def whole : Segmentation (BloomFilter BloomFilter.small) [6,0,0,0,8,1,18,2,107,49] where
  callbacks := [(idle,[[6,0,0,0,8,1,18,2,107,49]])]
  reading := by simp [NUM_READ_TRY]
  sized := by simp [BUFLEN]
  joined := rfl

def early : Segmentation (BloomFilter BloomFilter.small) [6,0,0,0,8,1,18,2,107,49] where
  callbacks := [(idle,[[6,0,0,0,8,1]]),(idle,[[18,2,107,49]])]
  reading := by simp [NUM_READ_TRY]
  sized := by simp [BUFLEN]
  joined := rfl

theorem framing_exact_whole :
    ParsedOnce (parseTrace .little Codec.codec 7 (new (text "0x1")) whole.callbacks) 1 [8,1,18,2,107,49] ↔
      4 < firstRead whole.callbacks ∧ ¬ EndsEarly whole.callbacks 6 :=
  have built : Client.request getK1 = .ok (some {requesttype_ := some .GET,key_ := some (text "k1")}) := by decide
  framing_exact Codec.roundTrip Codec.zeroTag built (by decide) (by decide) whole 7 (text "0x1")

theorem framing_early :
    Client.request getK1 = .ok (some {requesttype_ := some .GET,key_ := some (text "k1")}) ∧
    Client.sendBuffer .little Codec.codec {requesttype_ := some .GET,key_ := some (text "k1")} =
      .ok [6,0,0,0,8,1,18,2,107,49] ∧
    ¬ ParsedOnce (parseTrace .little Codec.codec 7 (new (text "0x1")) early.callbacks) 2 [8,1,18,2,107,49] := by
  refine ⟨by decide,by decide,?_⟩
  unfold ParsedOnce
  decide

end RemoteDict.Framing

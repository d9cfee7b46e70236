import RemoteDict.Foundation.Potential
import RemoteDict.Network

namespace RemoteDict.Answering
open Foundation TcpFlow KeyValue Connections Network
open Foundation.Block (Byte ByteOrder)
open Handlers (Local steps steps_most steps_advance)
open ServiceWorker (Address)

variable {F : Type} [MembershipFilter F] {ι : Type} [DecidableEq ι]

-- What goes on with the connections there are. Whether one more comes is up to
-- the clients.
def own : Network.Move ι → Bool
  | .connect _ _ _ _ => false
  | .deliver _ _ _ | .advance _ | .collect _ _ _ | .hangup _ _ _ => true

-- What a connection brings with it: its frame and six moves.
def brings (pb : Protobuf) : Network.Move ι → Nat
  | .connect _ _ _ msg =>
    match Client.request msg with
    | .ok (some request) => pb.ByteSizeLong request + 10
    | _ => 0
  | .deliver _ _ _ | .advance _ | .collect _ _ _ | .hangup _ _ _ => 0

-- How many moves are due at most for the connection at a place: a byte for each
-- read, the steps of the handler, the client's read, and the end.
def owed (s : Network.State ι F) (place : ι × Address) : Nat :=
  match s.conns place.1 place.2 with
  | none => 0
  | some c =>
    if c.closed then 1
    else if c.answer.isSome then 2
    else if (s.service.serving place.1).map Prod.fst = some place.2 then steps (s.service.handlers.threads place.1) + 2
    else c.unread.length + 6

section
variable {s next : Network.State ι F} {i : ι} {address : Address} {c : Conn}

omit [MembershipFilter F] [DecidableEq ι] in
theorem owed_most (held : s.conns i address = some c) : owed s (i,address) ≤ c.unread.length + 6 := by
  have most := steps_most (s.service.handlers.threads i)
  simp only [owed,held]
  split
  · omega
  · split
    · omega
    · split <;> omega

omit [MembershipFilter F] [DecidableEq ι] in
theorem owed_gone (gone : s.conns i address = none) : owed s (i,address) = 0 := by
  simp only [owed,gone]

omit [MembershipFilter F] [DecidableEq ι] in
theorem owed_closed (held : s.conns i address = some c) (closed : c.closed = true) : owed s (i,address) = 1 := by
  simp only [owed,held,if_pos closed]

omit [MembershipFilter F] [DecidableEq ι] in
theorem owed_answered (held : s.conns i address = some c) (open_ : c.closed = false) (answer : c.answer = some bytes) :
    owed s (i,address) = 2 := by
  simp [owed,held,open_,answer]

omit [MembershipFilter F] [DecidableEq ι] in
theorem owed_handling (held : s.conns i address = some c) (open_ : c.closed = false) (none : c.answer = none)
    (serves : s.service.serving i = some (address,flow)) : owed s (i,address) = steps (s.service.handlers.threads i) + 2 := by
  simp [owed,held,open_,none,serves]

omit [MembershipFilter F] [DecidableEq ι] in
theorem owed_reading (held : s.conns i address = some c) (open_ : c.closed = false) (none : c.answer = none)
    (idle : ∀ flow, s.service.serving i ≠ some (address,flow)) : owed s (i,address) = c.unread.length + 6 := by
  have apart : (s.service.serving i).map Prod.fst ≠ some address := by
    intro serves
    obtain ⟨⟨_,flow⟩,busy,rfl⟩ := Option.map_eq_some_iff.mp serves
    exact idle flow busy
  simp [owed,held,open_,none,apart]

end

variable {getAddrStr : Address → Str} {order : ByteOrder} {pb : Protobuf} {enable : Bool}

section
variable {s next : Network.State ι F} {i : ι} {address : Address} {c : Conn} {took : Option (Call × Reply)}

omit [MembershipFilter F] in
theorem owed_elsewhere (change : Change pb order enable s next i address notes) (place : ι × Address)
    (apart : place ≠ (i,address)) : owed next place = owed s place := by
  obtain ⟨j,b⟩ := place
  have other : ¬(j = i ∧ b = address) := fun same => apart (Prod.ext same.1 same.2)
  rcases change.elsewhere with same | elsewhere
  · simp only [owed,change.conns j b other,same]
  · by_cases here : j = i
    · subst here
      have away : b ≠ address := fun there => other ⟨rfl,there⟩
      have idle (s : Connections.State ι F) (serving : ∀ flow, s.serving j ≠ some (b,flow)) :
          (s.serving j).map Prod.fst ≠ some b := by
        intro serves
        obtain ⟨⟨_,flow⟩,busy,rfl⟩ := Option.map_eq_some_iff.mp serves
        exact serving flow busy
      have before := idle s.service fun flow => (elsewhere.serving b flow away).1
      have later := idle next.service fun flow => (elsewhere.serving b flow away).2
      simp only [owed,change.conns j b other,if_neg before,if_neg later]
    · obtain ⟨serving,threads⟩ := elsewhere.others j here
      simp only [owed,change.conns j b other,serving,threads]

omit [MembershipFilter F] [DecidableEq ι] in
theorem unanswered (tracks : Tracks getAddrStr pb order enable s) (held : s.conns i address = some c)
    (none : c.answer = none) : c.closed = false := by
  cases closed : c.closed with
  | false => rfl
  | true =>
    have answered := tracks.ended i address c held closed
    rw [none] at answered
    cases answered

theorem connect_owed (stepped : connect getAddrStr order pb s i fd address msg = some next) :
    owed next (i,address) ≤ brings pb (.connect i fd address msg) := by
  obtain ⟨request,service,asked,small,accepts,rfl⟩ := connect_exact.mp stepped
  refine Nat.le_trans (owed_most (withConn_own ..)) ?_
  simp only [brings,asked,Framing.frame_length]
  rw [Protobuf.ByteSizeLong]

theorem deliver_owed (tracks : Tracks getAddrStr pb order enable s)
    (stepped : deliver getAddrStr order pb s i address chunks = some next) :
    owed next (i,address) + 1 ≤ owed s (i,address) := by
  obtain ⟨c,service,held,smooth,called,rfl⟩ := deliver_exact.mp stepped
  obtain ⟨looping,_⟩ := Option.ite_none_right_eq_some.mp called
  obtain ⟨spoken,standing⟩ := tracks.standing i
  have idle := free standing looping
  obtain ⟨took,phase⟩ := tracks.phases i address c held
  have after := owed_most (s:={withConn s i address (some {c with unread := c.unread.drop chunks.flatten.length}) with
    service := service}) (withConn_own ..)
  cases phase with
  | handling _ serves =>
    rw [idle] at serves
    cases serves
  | answered _ _ _ _ _ unread => exact absurd unread smooth.unread
  | reading _ _ unserved _ _ none =>
    rw [owed_reading held (unanswered tracks held none) none unserved]
    obtain ⟨chunk,rest,split⟩ := List.exists_cons_of_ne_nil smooth.reads
    have some := List.length_pos_iff.mpr (smooth.sized chunk (split ▸ .head _)).1
    have fits := smooth.front.length_le
    rw [List.length_drop] at after
    have more : 0 < chunks.flatten.length := by
      rw [split,List.flatten_cons,List.length_append]
      omega
    omega

omit [MembershipFilter F] in
theorem collect_owed (stepped : collect s i address count = some next) : owed next (i,address) + 1 ≤ owed s (i,address) := by
  obtain ⟨c,bytes,held,answer,open_,_,_,rfl⟩ := collect_exact.mp stepped
  rw [owed_answered held open_ answer,owed_closed (withConn_own ..) rfl]

theorem hangup_owed (stepped : hangup getAddrStr order pb s i address result = some next) :
    owed next (i,address) + 1 ≤ owed s (i,address) := by
  obtain ⟨c,service,held,closed,_,called,rfl⟩ := hangup_exact.mp stepped
  have gone : owed {withConn s i address none with service := service} (i,address) = 0 := owed_gone (withConn_own s i address none)
  rw [owed_closed held closed,gone]

omit [MembershipFilter F] [DecidableEq ι] in
theorem handling_none (tracks : Tracks getAddrStr pb order enable s) (held : s.conns i address = some c)
    (serves : s.service.serving i = some (address,flow)) : c.answer = none := by
  obtain ⟨took,phase⟩ := tracks.phases i address c held
  cases phase with
  | reading _ _ idle | answered _ idle => exact absurd serves (idle flow)
  | handling _ _ _ _ _ _ _ none => exact none

theorem advance_owed (tracks : Tracks getAddrStr pb order enable s)
    (holds : Holds enable s.service.handlers.shared.dictionary entries)
    (stepped : advance getAddrStr order pb s i = some next) :
    ∃ address, (∃ flow, s.service.serving i = some (address,flow)) ∧ owed next (i,address) + 1 ≤ owed s (i,address) := by
  cases advance_kinds tracks holds stepped with
  | @runs address flow c there shared serves held inside moved =>
    have none := handling_none tracks held serves
    have open_ := unanswered tracks held none
    have fewer := steps_advance moved
    refine ⟨address,⟨flow,serves⟩,?_⟩
    rw [owed_handling held open_ none serves,owed_handling (s:={s with service := {s.service with handlers :=
      {s.service.handlers with shared := shared,threads := Function.update s.service.handlers.threads i there}}})
      held open_ none serves]
    simp only [Function.update_self]
    omega
  | @answers m address flow c here serves held =>
    have none := handling_none tracks held serves
    have open_ := unanswered tracks held none
    have own := withConn_own s i address (some {c with answer := some (sendResponse pb m)})
    refine ⟨address,⟨flow,serves⟩,?_⟩
    rw [owed_handling held open_ none serves,here]
    exact Nat.succ_le_succ (Nat.le_of_eq (owed_answered own open_ rfl))

theorem step_owed (round : pb.RoundTrip) (sound : enable = true → NoFalseNegatives F) (injective : getAddrStr.Injective)
    (tracks : Tracks getAddrStr pb order enable s) (holds : Holds enable s.service.handlers.shared.dictionary entries)
    (stepped : Network.step getAddrStr order pb s move = some next) :
    ∃ place, (∀ other, other ≠ place → owed next other = owed s other) ∧
      owed next place + (own move).toNat ≤ owed s place + brings pb move := by
  cases move with
  | connect i fd address msg =>
    refine ⟨(i,address),owed_elsewhere (connect_change injective tracks stepped).2,?_⟩
    exact Nat.le_trans (connect_owed stepped) (Nat.le_add_left _ _)
  | deliver i address chunks =>
    exact ⟨(i,address),owed_elsewhere (deliver_change round tracks stepped).2,deliver_owed tracks stepped⟩
  | advance i =>
    obtain ⟨_,address,⟨flow,serves⟩,change⟩ := advance_change sound tracks holds stepped
    obtain ⟨also,⟨later,busy⟩,paid⟩ := advance_owed tracks holds stepped
    cases serves.symm.trans busy
    exact ⟨(i,address),owed_elsewhere change,paid⟩
  | collect i address count => exact ⟨(i,address),owed_elsewhere (collect_change tracks stepped).2,collect_owed stepped⟩
  | hangup i address result => exact ⟨(i,address),owed_elsewhere (hangup_change tracks stepped).2,hangup_owed stepped⟩

end

def Due (getAddrStr : Address → Str) (order : ByteOrder) (pb : Protobuf) (enable : Bool) (s : Network.State ι F) (n : Nat) : Prop :=
  Tracks getAddrStr pb order enable s ∧ (∃ entries, Holds enable s.service.handlers.shared.dictionary entries) ∧
  Potential.Backed (owed s) n

theorem network_paid (round : pb.RoundTrip) (sound : enable = true → NoFalseNegatives F) (injective : getAddrStr.Injective) :
    (network ι F getAddrStr order pb enable).Paid (Due getAddrStr order pb enable) (fun move => 1 * (own move).toNat)
      (brings pb) := by
  rintro s n move next ⟨tracks,⟨entries,holds⟩,backed⟩ stepped
  obtain ⟨place,others,paid⟩ := step_owed round sound injective tracks holds stepped
  obtain ⟨k,later,total⟩ := backed.change others
  obtain ⟨further,_,there⟩ := step_holds tracks holds stepped
  refine ⟨k,⟨step_tracks round sound injective tracks holds stepped,⟨further,there⟩,later⟩,?_⟩
  dsimp only
  omega

theorem start_due : Due getAddrStr order pb enable (network ι F getAddrStr order pb enable).start 0 :=
  ⟨start_tracks,⟨_,start_holds enable⟩,Potential.backed_empty fun _ => rfl⟩

def Moves (getAddrStr : Address → Str) (order : ByteOrder) (pb : Protobuf) (s : Network.State ι F) : Prop :=
  ∃ move, own move = true ∧ (Network.step getAddrStr order pb s move).isSome = true

section
variable {s : Network.State ι F} {i : ι} {address : Address} {c : Conn}

theorem busy_moves (clear : s.service.handlers.fault = none) (busy : s.service.handlers.threads i ≠ .idle) :
    Moves getAddrStr order pb s := by
  obtain ⟨result,moved⟩ := Option.isSome_iff_exists.mp (Handlers.advance_moves busy s.service.handlers.shared)
  have stepped : Handlers.step s.service.handlers (.advance i) = some _ := Handlers.step_advance.mpr ⟨clear,result,moved,rfl⟩
  have advanced : (Connections.step getAddrStr order pb s.service (.advance i)).isSome = true := by
    rw [Connections.step,Connections.advance,stepped]
    rfl
  obtain ⟨service,served⟩ := Option.isSome_iff_exists.mp advanced
  refine ⟨.advance i,rfl,Option.isSome_iff_exists.mpr ?_⟩
  cases found : answering s i with
  | none => exact ⟨_,advance_exact.mpr ⟨service,served,.inl ⟨found,rfl⟩⟩⟩
  | some parts => exact ⟨_,advance_exact.mpr ⟨service,served,.inr ⟨_,_,_,found,rfl⟩⟩⟩

theorem callback_moves (order : ByteOrder) (pb : Protobuf) {s : Connections.State ι F}
    (sound : ServiceWorker.Sound getAddrStr (s.workers i)) (looping : inLoop s i = true)
    (live : (s.workers i).heap address = some flow) (reads : List ReadResult) :
    ∃ next, Connections.step getAddrStr order pb s (.data i address reads) = some next := by
  obtain ⟨clear,rests⟩ := of_decide_eq_true looping
  obtain ⟨fd,event⟩ := Option.isSome_iff_exists.mp
    (AList.lookup_isSome.mpr ((sound.registered address).mpr (sound.owned address flow live)))
  rw [Connections.step,if_pos looping,callback,event,live]
  dsimp only
  cases arrive order pb flow fd reads with
  | stopped | gone | waiting => exact ⟨_,rfl⟩
  | request flow type m => exact ⟨_,congrArg (Option.map _) (Handlers.step_receive.mpr ⟨clear,rests,rfl⟩)⟩

theorem smooth_one {chunk : List Byte} (some : chunk ≠ []) (sized : chunk.length ≤ BUFLEN) (front : chunk <+: c.unread)
    (first : c.unread.length = pb.ByteSizeLong c.request + 4 → 4 < chunk.length)
    (last : chunk = c.unread ∨ chunk.length + 4 < c.unread.length) : Smooth pb c [chunk] := by
  have same : [chunk].flatten = chunk := List.flatten_singleton
  refine ⟨List.cons_ne_nil _ _,(by decide : 1 ≤ NUM_READ_TRY),?_,?_,?_,?_⟩
  · intro other member
    rw [List.mem_singleton.mp member]
    exact ⟨some,sized⟩
  · rw [same]
    exact front
  · intro whole other here
    cases here
    exact first whole
  · rw [same]
    exact last

-- Reads of a kind that the server copes with are always possible: all that is
-- left if one read holds it, and else nearly all of what one read holds.
theorem smooth_exists (round : pb.RoundTrip) (zero : pb.ZeroTag) (asks : Asks pb c) (more : c.unread ≠ []) :
    ∃ chunks, Smooth pb c chunks := by
  have limit : BUFLEN = 1200 := rfl
  by_cases short : c.unread.length ≤ BUFLEN
  · refine ⟨[c.unread],smooth_one more short (List.prefix_refl _) (fun whole => ?_) (.inl rfl)⟩
    have nonempty := List.length_pos_iff.mpr (round.nonempty zero (Client.request_typed asks.request))
    rw [whole,Protobuf.ByteSizeLong]
    omega
  · have length : (c.unread.take 1195).length = 1195 := by
      rw [List.length_take]
      omega
    have some : c.unread.take 1195 ≠ [] := List.ne_nil_of_length_pos (by omega)
    refine ⟨[c.unread.take 1195],smooth_one some (by omega) (List.take_prefix _ _) (fun _ => ?_) (.inr ?_)⟩
    · omega
    · omega

omit [MembershipFilter F] [DecidableEq ι] in
theorem within_busy (within : Within enable m type here took) : here ≠ .idle := by
  cases within <;> nofun

-- There is no deadlock: for each connection somebody can move, except that a
-- client's read of an answer of no bytes waits for ever.
theorem conn_moves (round : pb.RoundTrip) (zero : pb.ZeroTag) (tracks : Tracks getAddrStr pb order enable s)
    (held : s.conns i address = some c) (worded : c.answer ≠ some []) : Moves getAddrStr order pb s := by
  by_cases rests : s.service.handlers.threads i = .idle
  · have looping : inLoop s.service i = true := decide_eq_true ⟨tracks.clear,rests⟩
    obtain ⟨took,phase⟩ := tracks.phases i address c held
    cases phase with
    | reading live _ _ _ more =>
      obtain ⟨chunks,smooth⟩ := smooth_exists round zero (tracks.asks i address c held) more
      obtain ⟨service,called⟩ := callback_moves order pb (tracks.sound i) looping live (chunks.map .got)
      exact ⟨.deliver i address chunks,rfl,Option.isSome_iff_exists.mpr ⟨_,deliver_exact.mpr ⟨c,service,held,smooth,called,rfl⟩⟩⟩
    | handling _ _ _ _ _ within => exact absurd rests (within_busy within)
    | @answered _ _ _ response live _ _ _ answer =>
      cases closed : c.closed with
      | false =>
        have some : 0 < (sendResponse pb response).length := by
          refine List.length_pos_iff.mpr fun none => worded ?_
          rw [answer,none]
        have one : 1 ≤ min MAX (sendResponse pb response).length := Nat.le_min.mpr ⟨by decide,some⟩
        exact ⟨.collect i address 1,rfl,Option.isSome_iff_exists.mpr
          ⟨_,collect_exact.mpr ⟨c,_,held,answer,closed,Nat.one_pos,one,rfl⟩⟩⟩
      | true =>
        obtain ⟨service,called⟩ := callback_moves order pb (tracks.sound i) looping live [.got []]
        exact ⟨.hangup i address (.got []),rfl,Option.isSome_iff_exists.mpr
          ⟨_,hangup_exact.mpr ⟨c,service,held,closed,rfl,called,rfl⟩⟩⟩
  · exact busy_moves tracks.clear rests

end

-- Every request is answered: in each run, whatever the order of its steps, the
-- connections there are take no more moves than their bytes and ten for each, and
-- until the last of them has had its answer and is closed there is a move, unless
-- each that is left has been given an answer of no bytes.
theorem network_answers (round : pb.RoundTrip) (zero : pb.ZeroTag) (sound : NoFalseNegatives F) (injective : getAddrStr.Injective)
    (path : (network ι F getAddrStr order pb enable).run (network ι F getAddrStr order pb enable).start moves = some last) :
    moves.countP own ≤ (moves.map (brings pb)).sum ∧
    ((∀ i address c, last.conns i address = some c → c.answer = some []) ∨
      ∃ move, own move = true ∧ ((network ι F getAddrStr order pb enable).step last move).isSome = true) := by
  obtain ⟨k,⟨tracks,_,_⟩,paid⟩ := (network_paid round (fun _ => sound) injective).run start_due path
  rw [Potential.sum_kind] at paid
  refine ⟨by omega,?_⟩
  by_cases wordless : ∀ i address c, last.conns i address = some c → c.answer = some []
  · exact .inl wordless
  · simp only [not_forall] at wordless
    obtain ⟨i,address,c,held,worded⟩ := wordless
    exact .inr (conn_moves round zero tracks held worded)

theorem network_answers_crossing : ∃ last, town.run town.start (Network.crossing.take 4) = some last ∧
    (Network.crossing.take 4).countP own ≤ ((Network.crossing.take 4).map (brings Codec.codec)).sum ∧
    ((∀ i address c, last.conns i address = some c → c.answer = some []) ∨
      ∃ move, own move = true ∧ (town.step last move).isSome = true) := by
  have path : town.run town.start (Network.crossing.take 4) = some _ := rfl
  exact ⟨_,path,network_answers Codec.roundTrip Codec.zeroTag (BloomFilter.noFalseNegatives _)
    ServiceWorker.pointer_injective path⟩

end RemoteDict.Answering

import Mathlib.Data.List.AList
import Mathlib.Data.Nat.Digits.Defs
import RemoteDict.Foundation.Machine
import RemoteDict.Foundation.Table
import RemoteDict.Overrun

namespace RemoteDict.ServiceWorker
open Foundation Foundation.Block

abbrev Address := Nat

-- The objects that are live, the table, whose entry holds the only shared_ptr to
-- its flow, and the flows whose m_clientEvent is in the loop, with the descriptor.
structure State where
  m_processExiting : Bool
  heap : Address → Option TcpFlow
  m_tcpSessions : AList fun _ : Str => Address
  events : AList fun _ : Address => Int

-- ~TcpFlow, when the last shared_ptr goes.
def destroy (s : State) (address : Address) : State :=
  {s with heap := Function.update s.heap address none,events := s.events.erase address}

-- insert leaves a key that is there as it is; sp then ends the flow on return.
def processEvent (getAddrStr : Address → Str) (s : State) (fd : Int) (address : Address) : State :=
  if s.m_processExiting then s
  else
    let addr := getAddrStr address
    let added := {s with
      heap := Function.update s.heap address (some (TcpFlow.new addr))
      events := s.events.insert address fd}
    if addr ∈ s.m_tcpSessions then destroy added address
    else {added with m_tcpSessions := s.m_tcpSessions.insert addr address}

def deleteTcpFlow (s : State) (tcpFlow : Str) : State :=
  match s.m_tcpSessions.lookup tcpFlow with
  | none => s
  | some address => destroy {s with m_tcpSessions := s.m_tcpSessions.erase tcpFlow} address

def cleanState (s : State) : State :=
  (s.m_tcpSessions.entries.map Sigma.snd).foldl destroy {s with m_tcpSessions := ∅}

-- What a callback's acts do here. A copy outside of its block writes over what
-- lies there: the state it leaves is not the program's to say and comes with the
-- move. A null filter ends the process.
def perform (spilled : State) (s : State) : Event → Option State
  | .delete addr => some (deleteTcpFlow s addr)
  | .fault fault => if Overrun.outside fault then some spilled else none
  | .parse _ | .handle _ | .respond _ => some s

def keep (s : State) (address : Address) : Option TcpFlow → State
  | some flow => {s with heap := Function.update s.heap address (some flow)}
  | none => s

variable {F : Type} [MembershipFilter F]

-- The loop calls back with the flow's address for as long as its event is there;
-- when the flow is not, what follows is not defined either.
def data (order : ByteOrder) (pb : Protobuf) (s : State) (address : Address) (callback : TcpFlow.Callback F)
    (spilled : State) : Option State :=
  match s.events.lookup address,s.heap address with
  | none,_ => none
  | some _,none => some spilled
  | some fd,some flow =>
    let outcome := TcpFlow.data order pb flow fd EV_READ callback.reads callback.shared
    outcome.events.foldlM (perform spilled) (keep s address outcome.flow)

-- The address is the one that new returns in processEvent; stop() raises the
-- flag from another thread.
inductive Move (F : Type) where
  | processEvent (fd : Int) (address : Address)
  | data (address : Address) (callback : TcpFlow.Callback F) (spilled : State)
  | cleanState
  | stop

def act (getAddrStr : Address → Str) (order : ByteOrder) (pb : Protobuf) (s : State) : Move F → Option State
  | .processEvent fd address => if (s.heap address).isNone then some (processEvent getAddrStr s fd address) else none
  | .data address callback spilled => data order pb s address callback spilled
  | .cleanState => some (cleanState s)
  | .stop => some {s with m_processExiting := true}

def new : State := ⟨false,fun _ => none,∅,∅⟩

def worker (getAddrStr : Address → Str) (order : ByteOrder) (pb : Protobuf) : Machine State (Move F) where
  start := new
  step := act getAddrStr order pb

structure Mirrors (getAddrStr : Address → Str) (s : State) : Prop where
  distinct : s.m_tcpSessions.keys.Nodup
  addressed : ∀ key address, s.m_tcpSessions.lookup key = some address →
    key = getAddrStr address ∧ ∃ flow, s.heap address = some flow ∧ flow.m_selfAddr = key
  registered : ∀ address, address ∈ s.events ↔ ∃ key, s.m_tcpSessions.lookup key = some address
  owned : ∀ address flow, s.heap address = some flow → ∃ key, s.m_tcpSessions.lookup key = some address

-- One flow's callback, seen from the others: each is as it was, under its key,
-- and no entry is new.
structure Alone (s next : State) (address : Address) : Prop where
  flows : ∀ other, other ≠ address → next.heap other = s.heap other
  entries : ∀ key other, other ≠ address → s.m_tcpSessions.lookup key = some other →
    next.m_tcpSessions.lookup key = some other
  fewer : ∀ key other, next.m_tcpSessions.lookup key = some other → s.m_tcpSessions.lookup key = some other

def Fit (order : ByteOrder) (s : State) : Move F → Prop
  | .data address callback _ =>
    ∀ flow, s.heap address = some flow → Overrun.Fits order flow (Overrun.taken NUM_READ_TRY callback.reads)
  | _ => True

def Sized : Move F → Prop
  | .data _ callback _ => Overrun.Sized callback.reads
  | _ => True

structure Sound (getAddrStr : Address → Str) (s : State) : Prop extends Mirrors getAddrStr s where
  receiving : ∀ address flow, s.heap address = some flow → Overrun.Sound flow

section
variable {getAddrStr : Address → Str} {order : ByteOrder} {pb : Protobuf} {s next : State} {address : Address}

theorem new_sound : Sound getAddrStr new := by
  refine ⟨⟨List.nodup_nil,?_,?_,?_⟩,?_⟩
  · intro key address held
    cases held
  · intro address
    simp [new]
  · intro address flow live
    cases live
  · intro address flow live
    cases live

theorem Sound.vacant (sound : Sound getAddrStr s) (injective : getAddrStr.Injective) (fresh : s.heap address = none) :
    getAddrStr address ∉ s.m_tcpSessions := by
  intro member
  obtain ⟨other,held⟩ := Option.isSome_iff_exists.mp (AList.lookup_isSome.mpr member)
  obtain ⟨same,flow,live,_⟩ := sound.addressed _ _ held
  rw [← injective same,fresh] at live
  cases live

theorem Sound.added (sound : Sound getAddrStr s) (injective : getAddrStr.Injective) (fresh : s.heap address = none) (fd : Int) :
    Sound getAddrStr (processEvent getAddrStr s fd address) := by
  have vacant := sound.vacant injective fresh
  unfold processEvent
  by_cases exiting : s.m_processExiting = true
  · rw [if_pos exiting]
    exact sound
  · rw [if_neg exiting,if_neg vacant]
    refine ⟨⟨AList.keys_nodup _,?_,?_,?_⟩,?_⟩
    · intro key other held
      rcases (Table.lookup_insert_exact vacant).mp held with ⟨rfl,rfl⟩ | earlier
      · exact ⟨rfl,TcpFlow.new _,Function.update_self ..,rfl⟩
      · obtain ⟨same,flow,live,named⟩ := sound.addressed _ _ earlier
        have apart : other ≠ address := by
          intro same
          rw [same,fresh] at live
          cases live
        exact ⟨same,flow,Table.update_exact.mpr (.inr ⟨apart,live⟩),named⟩
    · intro other
      simp only [AList.mem_insert,Table.lookup_insert_exact vacant,sound.registered]
      constructor
      · rintro (rfl | ⟨key,held⟩)
        · exact ⟨_,.inl ⟨rfl,rfl⟩⟩
        · exact ⟨key,.inr held⟩
      · rintro ⟨key,⟨_,rfl⟩ | held⟩
        · exact .inl rfl
        · exact .inr ⟨key,held⟩
    · intro other flow live
      rcases Table.update_exact.mp live with ⟨same,_⟩ | ⟨_,alive⟩
      · exact ⟨_,(Table.lookup_insert_exact vacant).mpr (.inl ⟨rfl,same⟩)⟩
      · obtain ⟨key,held⟩ := sound.owned other flow alive
        exact ⟨key,(Table.lookup_insert_exact vacant).mpr (.inr held)⟩
    · intro other flow live
      rcases Table.update_exact.mp live with ⟨_,new⟩ | ⟨_,alive⟩
      · cases new
        exact Overrun.new_sound _
      · exact sound.receiving other flow alive

theorem Sound.apart (sound : Sound getAddrStr s) (held : s.m_tcpSessions.lookup key = some address)
    (there : s.m_tcpSessions.lookup k = some other) : other ≠ address ↔ k ≠ key := by
  apply not_congr
  constructor
  · intro same
    rw [(sound.addressed _ _ there).1,(sound.addressed _ _ held).1,same]
  · intro same
    rw [same,held] at there
    exact (Option.some.inj there).symm

theorem Sound.removed (sound : Sound getAddrStr s) (held : s.m_tcpSessions.lookup key = some address) :
    Sound getAddrStr (deleteTcpFlow s key) := by
  unfold deleteTcpFlow
  rw [held]
  refine ⟨⟨AList.keys_nodup _,?_,?_,?_⟩,?_⟩
  · intro k other remains
    obtain ⟨differ,there⟩ := Table.lookup_erase_exact.mp remains
    obtain ⟨same,flow,live,addr⟩ := sound.addressed _ _ there
    exact ⟨same,flow,Table.update_exact.mpr (.inr ⟨(sound.apart held there).mpr differ,live⟩),addr⟩
  · intro other
    simp only [destroy,AList.mem_erase,Table.lookup_erase_exact,sound.registered]
    constructor
    · rintro ⟨differ,k,there⟩
      exact ⟨k,(sound.apart held there).mp differ,there⟩
    · rintro ⟨k,differ,there⟩
      exact ⟨(sound.apart held there).mpr differ,k,there⟩
  · intro other flow live
    rcases Table.update_exact.mp live with ⟨_,gone⟩ | ⟨differ,alive⟩
    · cases gone
    · obtain ⟨k,there⟩ := sound.owned other flow alive
      exact ⟨k,Table.lookup_erase_exact.mpr ⟨(sound.apart held there).mp differ,there⟩⟩
  · intro other flow live
    rcases Table.update_exact.mp live with ⟨_,gone⟩ | ⟨_,alive⟩
    · cases gone
    · exact sound.receiving other flow alive

theorem removed_alone (held : s.m_tcpSessions.lookup key = some address) : Alone s (deleteTcpFlow s key) address := by
  unfold deleteTcpFlow
  rw [held]
  refine ⟨fun other differ => Function.update_of_ne differ ..,?_,?_⟩
  · intro k other differ there
    refine Table.lookup_erase_exact.mpr ⟨?_,there⟩
    rintro rfl
    rw [held] at there
    exact differ (Option.some.inj there).symm
  · intro k other remains
    exact (Table.lookup_erase_exact.mp remains).2

theorem Sound.kept (sound : Sound getAddrStr s) (live : s.heap address = some flow) (same : later.m_selfAddr = flow.m_selfAddr)
    (receiving : Overrun.Sound later) : Sound getAddrStr (keep s address (some later)) := by
  refine ⟨⟨sound.distinct,?_,sound.registered,?_⟩,?_⟩
  · intro key other held
    obtain ⟨named,there,alive,addr⟩ := sound.addressed _ _ held
    by_cases own : other = address
    · subst own
      cases live.symm.trans alive
      exact ⟨named,later,Function.update_self ..,same.trans addr⟩
    · exact ⟨named,there,Table.update_exact.mpr (.inr ⟨own,alive⟩),addr⟩
  · intro other there alive
    rcases Table.update_exact.mp alive with ⟨own,_⟩ | ⟨_,before⟩
    · rw [own]
      exact sound.owned _ _ live
    · exact sound.owned other there before
  · intro other there alive
    rcases Table.update_exact.mp alive with ⟨_,now⟩ | ⟨_,before⟩
    · cases now
      exact receiving
    · exact sound.receiving other there before

theorem kept_alone (later : TcpFlow) : Alone s (keep s address (some later)) address :=
  ⟨fun _ differ => Function.update_of_ne differ ..,fun _ _ _ held => held,fun _ _ held => held⟩

theorem destroyed_heap (addresses : List Address) (s : State) :
    (addresses.foldl destroy s).heap address = if address ∈ addresses then none else s.heap address := by
  induction addresses generalizing s with
  | nil => rfl
  | cons first addresses ih =>
    rw [List.foldl_cons,ih]
    by_cases same : address = first
    · subst same
      simp [destroy]
    · simp [destroy,same]

theorem destroyed_events (addresses : List Address) (s : State) :
    address ∈ (addresses.foldl destroy s).events ↔ address ∉ addresses ∧ address ∈ s.events := by
  induction addresses generalizing s with
  | nil => simp
  | cons first addresses ih =>
    rw [List.foldl_cons,ih]
    simp only [destroy,AList.mem_erase,List.mem_cons,not_or]
    tauto

theorem destroyed_table (addresses : List Address) (s : State) :
    (addresses.foldl destroy s).m_tcpSessions = s.m_tcpSessions := by
  induction addresses generalizing s with
  | nil => rfl
  | cons first addresses ih => exact ih (destroy s first)

theorem Sound.cleaned (sound : Sound getAddrStr s) : Sound getAddrStr (cleanState s) := by
  have emptied : ∀ other, (cleanState s).heap other = none := by
    intro other
    rw [cleanState,destroyed_heap]
    split
    · rfl
    · rename_i missing
      show s.heap other = none
      cases live : s.heap other with
      | none => rfl
      | some flow =>
        obtain ⟨key,held⟩ := sound.owned _ _ live
        exact absurd (Table.mem_entries held) missing
  have table : (cleanState s).m_tcpSessions = ∅ := destroyed_table _ _
  refine ⟨⟨AList.keys_nodup _,?_,?_,?_⟩,?_⟩
  · intro key other held
    rw [table] at held
    cases held
  · intro other
    rw [table,cleanState,destroyed_events]
    constructor
    · rintro ⟨missing,watched⟩
      obtain ⟨key,held⟩ := (sound.registered other).mp watched
      exact absurd (Table.mem_entries held) missing
    · rintro ⟨_,held⟩
      cases held
  · intro other flow live
    rw [emptied] at live
    cases live
  · intro other flow live
    rw [emptied] at live
    cases live

theorem perform_quiet {events : List Event} (quietly : ∀ event ∈ events, TcpFlow.quiet event) (spilled s : State) :
    events.foldlM (perform spilled) s = some s := by
  induction events with
  | nil => rfl
  | cons event events ih =>
    have first := quietly event (.head _)
    have rest := ih fun other member => quietly other (.tail _ member)
    cases event <;> first | exact rest | cases first

theorem perform_last {before : List Event} (quietly : ∀ event ∈ before, TcpFlow.quiet event) (spilled s : State) (last : Event) :
    (before ++ [last]).foldlM (perform spilled) s = perform spilled s last := by
  rw [List.foldlM_append,perform_quiet quietly]
  show [last].foldlM (perform spilled) s = perform spilled s last
  rw [List.foldlM_cons]
  exact bind_pure (perform spilled s last)

theorem quiet_inside (quietly : TcpFlow.quiet event) : Overrun.overruns event = false := by
  cases event with
  | fault fault => cases quietly
  | _ => rfl

theorem Sound.watched (sound : Sound getAddrStr s) (event : s.events.lookup address = some fd) :
    ∃ flow, s.heap address = some flow ∧ s.m_tcpSessions.lookup flow.m_selfAddr = some address := by
  have member : address ∈ s.events := AList.lookup_isSome.mp (by rw [event]; rfl)
  obtain ⟨key,held⟩ := (sound.registered address).mp member
  obtain ⟨_,flow,live,rfl⟩ := sound.addressed _ _ held
  exact ⟨flow,live,held⟩

end

section
variable {F : Type} [MembershipFilter F] {getAddrStr : Address → Str} {order : ByteOrder} {pb : Protobuf} {s next : State}
  {address : Address} {callback : TcpFlow.Callback F}

theorem data_sound (sound : Sound getAddrStr s) (sized : Overrun.Sized callback.reads)
    (fit : Fit order s (.data address callback spilled)) (called : data order pb s address callback spilled = some next) :
    Sound getAddrStr next ∧ Alone s next address := by
  unfold data at called
  cases event : s.events.lookup address with
  | none =>
    rw [event] at called
    cases called
  | some fd =>
    obtain ⟨flow,live,held⟩ := sound.watched event
    rw [event,live] at called
    dsimp only at called
    have ended := TcpFlow.data_ends order pb flow fd EV_READ callback.reads callback.shared
    have fits := Overrun.data_fits order pb (sound.receiving _ _ live) sized fd callback.shared
    generalize TcpFlow.data order pb flow fd EV_READ callback.reads callback.shared = outcome at called ended fits
    rcases fits with ⟨_,_,past⟩ | ⟨inside,_,left⟩
    · refine absurd (fit flow live) ?_
      simpa using past []
    · cases ended with
      | stays _ same quietly =>
        rw [perform_quiet quietly] at called
        cases called
        exact ⟨sound.kept live same (left _ rfl).1,kept_alone _⟩
      | erased _ quietly =>
        rw [perform_last quietly] at called
        cases called
        exact ⟨sound.removed held,removed_alone held⟩
      | faulted _ fault quietly =>
        have within : Overrun.outside fault = false := inside (.fault fault) (by simp)
        rw [perform_last quietly] at called
        simp [perform,within] at called

theorem data_spilled (sound : Sound getAddrStr s) (sized : Overrun.Sized callback.reads) (watched : address ∈ s.events)
    (past : ¬Fit order s (.data address callback spilled)) : data order pb s address callback spilled = some spilled := by
  obtain ⟨fd,event⟩ := Option.isSome_iff_exists.mp (AList.lookup_isSome.mpr watched)
  obtain ⟨flow,live,_⟩ := sound.watched event
  have ended := TcpFlow.data_ends order pb flow fd EV_READ callback.reads callback.shared
  have fits := Overrun.data_fits order pb (sound.receiving _ _ live) sized fd callback.shared
  unfold data
  rw [event,live]
  dsimp only
  generalize TcpFlow.data order pb flow fd EV_READ callback.reads callback.shared = outcome at ended fits ⊢
  rcases fits with ⟨overrun,_,_⟩ | ⟨_,fits,_⟩
  · cases ended with
    | stays _ _ quietly => exact absurd (fun event member => quiet_inside (quietly event member)) overrun
    | erased _ quietly =>
      refine absurd ?_ overrun
      intro event member
      rcases List.mem_append.mp member with earlier | last
      · exact quiet_inside (quietly event earlier)
      · cases List.mem_singleton.mp last
        rfl
    | faulted _ fault quietly =>
      rw [perform_last quietly]
      refine if_pos (of_not_not fun within => overrun ?_)
      intro event member
      rcases List.mem_append.mp member with earlier | last
      · exact quiet_inside (quietly event earlier)
      · cases List.mem_singleton.mp last
        exact Bool.eq_false_iff.mpr within
  · refine absurd ?_ past
    intro there alive
    cases live.symm.trans alive
    exact fits

theorem act_sound (injective : getAddrStr.Injective) {move : Move F} (sound : Sound getAddrStr s) (sized : Sized move)
    (fit : Fit order s move) (stepped : act getAddrStr order pb s move = some next) : Sound getAddrStr next := by
  cases move with
  | processEvent fd address =>
    obtain ⟨fresh,same⟩ := Option.ite_none_right_eq_some.mp stepped
    cases same
    exact sound.added injective (Option.isNone_iff_eq_none.mp fresh) fd
  | data address callback spilled => exact (data_sound sound sized fit stepped).1
  | cleanState =>
    cases stepped
    exact sound.cleaned
  | stop =>
    cases stepped
    exact ⟨⟨sound.distinct,sound.addressed,sound.registered,sound.owned⟩,sound.receiving⟩

-- Every run of a worker whose callbacks read no more than was announced, and what
-- the first callback that reads more can leave.
theorem sessions_exact (injective : getAddrStr.Injective) {moves : List (Move F)}
    (path : (worker getAddrStr order pb).run new moves = some last) (sized : ∀ move ∈ moves, Sized move)
    (fit : ∀ s move, (worker getAddrStr order pb).Takes new moves s move → Fit order s move) :
    (∀ s, (worker getAddrStr order pb).Visits new moves s → Mirrors getAddrStr s) ∧
    (∀ s address callback spilled, (worker getAddrStr order pb).Takes new moves s (.data address callback spilled) →
      ∃ next, (worker getAddrStr order pb).step s (.data address callback spilled) = some next ∧ Alone s next address) ∧
    ∀ address (callback : TcpFlow.Callback F) spilled, address ∈ last.events → Overrun.Sized callback.reads →
      ¬Fit order last (.data address callback spilled) →
      (worker getAddrStr order pb).step last (.data address callback spilled) = some spilled := by
  have small : ∀ s move, (worker getAddrStr order pb).Takes new moves s move → Sized move := by
    rintro s move ⟨earlier,later,rfl,_⟩
    exact sized move (by simp)
  have runs := (worker getAddrStr order pb).run_exact.mp path
  have kept : ∀ (s : State) (move : Move F) next, Sound getAddrStr s → Sized move ∧ Fit order s move →
      (worker getAddrStr order pb).step s move = some next → Sound getAddrStr next :=
    fun _ _ _ sound good stepped => act_sound injective sound good.1 good.2 stepped
  have sound := (worker getAddrStr order pb).throughout kept new_sound runs fun s move taken => ⟨small s move taken,fit s move taken⟩
  refine ⟨fun s seen => (sound s seen).toMirrors,?_,?_⟩
  · intro s address callback spilled taken
    obtain ⟨next,stepped,_⟩ := (worker getAddrStr order pb).takes_step runs taken
    have before : Sound getAddrStr s := by
      obtain ⟨earlier,later,split,reached⟩ := taken
      exact sound s ⟨earlier,_,split,reached⟩
    exact ⟨next,stepped,(data_sound before (small _ _ taken) (fit _ _ taken) stepped).2⟩
  · intro address callback spilled watched sized past
    exact data_spilled (sound last ⟨moves,[],(List.append_nil _).symm,path⟩) sized watched past

end

def hex (digit : Nat) : Byte := UInt8.ofNat (if digit < 10 then 48 + digit else 87 + digit)

def pointer (address : Address) : Str := text "0x" ++ (Nat.digits 16 address).reverse.map hex

def nibble (c : Byte) : Nat := if c < 58 then c.toNat - 48 else c.toNat - 87

theorem pointer_injective : pointer.Injective := by
  have digit : ∀ n < 16, nibble (hex n) = n := by decide
  have back : ∀ address, ((Nat.digits 16 address).reverse.map hex).map nibble = (Nat.digits 16 address).reverse := by
    intro address
    rw [List.map_map]
    refine (List.map_congr_left fun n member => ?_).trans (List.map_id _)
    exact digit n (Nat.digits_lt_base (by decide) (List.mem_reverse.mp member))
  intro first second same
  have digits := congrArg (List.map nibble) (List.append_cancel_left same)
  rw [back,back] at digits
  exact Nat.digits.injective 16 (List.reverse_injective digits)

def frame : List Byte := [6,0,0,0,8,1,18,2,107,49]

def answering : List (Move (BloomFilter BloomFilter.small)) :=
  [.processEvent 7 0x1000,.data 0x1000 ⟨Overrun.calm,[.got frame]⟩ new]

abbrev serving : Machine State (Move (BloomFilter BloomFilter.small)) := worker pointer .little Codec.codec

theorem answering_fits {s : State} {move} (taken : serving.Takes new answering s move) :
    Fit .little s move := by
  obtain ⟨earlier,later,split,reached⟩ := taken
  cases earlier with
  | nil =>
    cases split
    trivial
  | cons first earlier =>
    cases earlier with
    | nil =>
      cases split
      cases reached
      intro flow live
      cases live
      show 4 ≤ frame.length ∧ frame.length - 4 + 0 ≤ ByteOrder.little.decode ((TcpFlow.buffer frame).take 4)
      decide
    | cons second earlier => simp [answering] at split

theorem sessions_exact_answered : ∃ last, serving.run new answering = some last ∧
    (∀ s, serving.Visits new answering s → Mirrors pointer s) ∧
    (∀ s address callback spilled, serving.Takes new answering s (.data address callback spilled) →
      ∃ next, serving.step s (.data address callback spilled) = some next ∧ Alone s next address) ∧
    ∀ address callback spilled, address ∈ last.events → Overrun.Sized callback.reads →
      ¬Fit .little last (.data address callback spilled) →
      serving.step last (.data address callback spilled) = some spilled := by
  have path : serving.run new answering = some _ := rfl
  refine ⟨_,path,sessions_exact pointer_injective path ?_ fun s move => answering_fits⟩
  simp [answering,Sized,Overrun.Sized,BUFLEN,frame]

-- A whole STAT request and a hundred bytes behind it, which land where the other
-- flow's members lie.
def flood : TcpFlow.Callback (BloomFilter BloomFilter.small) :=
  ⟨Overrun.calm,[.got ([2,0,0,0,8,3] ++ List.replicate 100 255)]⟩

def crowding : List (Move (BloomFilter BloomFilter.small)) := [.processEvent 7 0x1000,.processEvent 8 0x1200]

def crowded : State := processEvent pointer (processEvent pointer new 7 0x1000) 8 0x1200

def overwritten : State :=
  {crowded with heap := Function.update crowded.heap 0x1200 (some {TcpFlow.new (pointer 0x1200) with m_payloadLen := 2^32-1})}

theorem neighbour_overwritten : serving.run new crowding = some crowded ∧
    serving.step crowded (.data 0x1000 flood overwritten) = some overwritten ∧
    (crowded.heap 0x1200).map TcpFlow.m_payloadLen = some 0 ∧
    (overwritten.heap 0x1200).map TcpFlow.m_payloadLen = some (2^32-1) ∧ ¬Alone crowded overwritten 0x1000 := by
  refine ⟨rfl,rfl,rfl,rfl,fun alone => ?_⟩
  have same := congrArg (Option.map TcpFlow.m_payloadLen) (alone.flows 0x1200 (by decide))
  have different : (overwritten.heap 0x1200).map TcpFlow.m_payloadLen ≠ (crowded.heap 0x1200).map TcpFlow.m_payloadLen := by decide
  exact different same

end RemoteDict.ServiceWorker

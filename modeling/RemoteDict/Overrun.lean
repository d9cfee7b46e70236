import RemoteDict.TcpFlow
import RemoteDict.Codec
import RemoteDict.BloomFilter

namespace RemoteDict.Overrun
open Foundation.Block TcpFlow

variable {F : Type} [MembershipFilter F] {order : ByteOrder} {pb : Protobuf} {flow next : TcpFlow} {s : Shared F}
  {chunk : List Byte} {later : List (List Byte)}

-- A memcpy whose destination is not inside of m_data, or not known.
def outside : Fault → Bool
  | .copyOutside | .unassignedLength => true
  | .nullFilter | .unassignedType => false

def overruns : Event → Bool
  | .fault fault => outside fault
  | _ => false

def Inside (events : List Event) : Prop := ∀ event ∈ events, overruns event = false

-- The chunks that one callback reads.
def taken : Nat → List ReadResult → List (List Byte)
  | 0,_ => []
  | _+1,[] => []
  | tries+1,result :: rest =>
    match result with
    | .got [] | .failed _ => []
    | .got chunk => chunk :: taken tries rest

-- What the server reads from the connection, until the flow is gone.
def readings (order : ByteOrder) (pb : Protobuf) (fd : Int) : TcpFlow → List (Callback F) → List (List Byte)
  | _,[] => []
  | flow,callback :: rest =>
    taken NUM_READ_TRY callback.reads ++
      match (data order pb flow fd EV_READ callback.reads callback.shared).flow with
      | none => []
      | some flow => readings order pb fd flow rest

-- The chunk that completes four bytes announces the size with its own first
-- bytes: nothing may follow when it ends there, and else no more than announced.
def Within (order : ByteOrder) : Nat → List (List Byte) → Prop
  | _,[] => True
  | before,chunk :: later =>
    if before + chunk.length < 4 then Within order (before + chunk.length) later
    else if before + chunk.length = 4 then later = []
    else 4 ≤ chunk.length ∧ chunk.length - 4 + later.flatten.length ≤ order.decode ((buffer chunk).take 4)

instance decidableWithin (order : ByteOrder) : (before : Nat) → (chunks : List (List Byte)) → Decidable (Within order before chunks)
  | _,[] => .isTrue trivial
  | before,chunk :: later =>
    have := decidableWithin order (before + chunk.length) later
    inferInstanceAs (Decidable (if before + chunk.length < 4 then Within order (before + chunk.length) later
      else if before + chunk.length = 4 then later = []
      else 4 ≤ chunk.length ∧ chunk.length - 4 + later.flatten.length ≤ order.decode ((buffer chunk).take 4)))

def Fits (order : ByteOrder) (flow : TcpFlow) (later : List (List Byte)) : Prop :=
  match flow.m_data,flow.m_currlen with
  | none,_ => Within order flow.m_lenTillnow later
  | some _,none => later = []
  | some block,some currlen => currlen + later.flatten.length ≤ block.length

instance (order : ByteOrder) (flow : TcpFlow) (later : List (List Byte)) : Decidable (Fits order flow later) := by
  unfold Fits
  split <;> infer_instance

structure Sound (flow : TcpFlow) : Prop where
  waiting : flow.m_data = none → flow.m_lenTillnow < 4 ∧ flow.m_currlen = none
  inside : ∀ block currlen, flow.m_data = some block → flow.m_currlen = some currlen →
    currlen ≤ block.length ∧ block.length < 2^32

theorem announced_lt (order : ByteOrder) (chunk : List Byte) : order.decode ((buffer chunk).take 4) < 2^32 := by
  have few : ((buffer chunk).take 4).length ≤ 4 := by
    rw [List.length_take]
    exact Nat.min_le_left _ _
  have most : 256^((buffer chunk).take 4).length ≤ 256^4 := Nat.pow_le_pow_right (by decide) few
  exact Nat.lt_of_lt_of_le (order.decode_lt _) most

theorem new_sound (addr : Str) : Sound (new addr) := ⟨fun _ => ⟨Nat.zero_lt_succ 3,rfl⟩,fun _ _ data => by cases data⟩

theorem Sound.empty (sound : Sound flow) : Fits order flow [] := by
  unfold Fits
  split
  · trivial
  · rfl
  · rename_i block currlen data length
    exact (sound.inside block currlen data length).1

theorem flatten_cons_length (chunk : List Byte) (later : List (List Byte)) :
    (chunk :: later).flatten.length = chunk.length + later.flatten.length := by
  rw [List.flatten_cons,List.length_append]

theorem receive_block (sound : Sound flow) (data : flow.m_data = some block) :
    (∃ fault, receive order flow chunk = .error fault ∧ outside fault = true ∧ ∀ later, ¬Fits order flow (chunk :: later)) ∨
    ∃ next, receive order flow chunk = .ok next ∧ Sound next ∧
      ∀ later, Fits order flow (chunk :: later) ↔ Fits order next later := by
  cases length : flow.m_currlen with
  | none =>
    refine .inl ⟨.unassignedLength,?_,rfl,fun later => ?_⟩
    · simp only [receive,data,length]
    · simp [Fits,data,length]
  | some currlen =>
    obtain ⟨inside,small⟩ := sound.inside block currlen data length
    cases stored : store block currlen chunk with
    | none =>
      have past := store_none.mp stored
      refine .inl ⟨.copyOutside,?_,rfl,fun later => ?_⟩
      · simp only [receive,data,length,stored]
      · simp only [Fits,data,length,flatten_cons_length]
        omega
    | some written =>
      have fits : currlen + chunk.length ≤ block.length := by
        by_contra past
        rw [store_none.mpr (by omega)] at stored
        cases stored
      have same : written.length = block.length := store_length stored
      have wrapped : (currlen + chunk.length) % 2^32 = currlen + chunk.length := by omega
      refine .inr ⟨{flow with
        m_lenTillnow := (flow.m_lenTillnow + chunk.length) % 2^32
        m_data := Option.some written,m_currlen := Option.some (currlen + chunk.length)},?_,⟨nofun,?_⟩,fun later => ?_⟩
      · simp only [receive,data,length,stored,wrapped]
      · rintro _ _ ⟨⟩ ⟨⟩
        omega
      · simp only [Fits,data,length,flatten_cons_length,same]
        omega

theorem receive_header (sound : Sound flow) (empty : flow.m_data = none) (sized : chunk.length ≤ BUFLEN) :
    (∃ fault, receive order flow chunk = .error fault ∧ outside fault = true ∧ ∀ later, ¬Fits order flow (chunk :: later)) ∨
    ∃ next, receive order flow chunk = .ok next ∧ Sound next ∧
      ∀ later, Fits order flow (chunk :: later) ↔ Fits order next later := by
  obtain ⟨short,unset⟩ := sound.waiting empty
  have limit : BUFLEN = 1200 := rfl
  have before : ∀ later, Fits order flow (chunk :: later) = Within order flow.m_lenTillnow (chunk :: later) := by
    intro later
    simp only [Fits,empty]
  rw [receive_empty flow empty (by omega)]
  by_cases partly : flow.m_lenTillnow + chunk.length < 4
  · rw [if_pos partly]
    refine .inr ⟨_,rfl,⟨fun _ => ⟨partly,unset⟩,fun _ _ held => ?_⟩,fun later => ?_⟩
    · rw [show flow.m_data = some _ from held] at empty
      cases empty
    · rw [before,Within,if_pos partly]
      simp only [Fits,empty]
  · rw [if_neg partly]
    dsimp only
    by_cases exactly : flow.m_lenTillnow + chunk.length = 4
    · rw [if_pos exactly]
      refine .inr ⟨_,rfl,⟨nofun,fun _ _ _ held => ?_⟩,fun later => ?_⟩
      · rw [show flow.m_currlen = some _ from held] at unset
        cases unset
      · rw [before,Within,if_neg partly,if_pos exactly]
        simp only [Fits,unset]
    · rw [if_neg exactly]
      by_cases past : chunk.length < 4 ∨ order.decode ((buffer chunk).take 4) < chunk.length - 4
      · rw [if_pos past]
        refine .inl ⟨_,rfl,rfl,fun later => ?_⟩
        rw [before,Within,if_neg partly,if_neg exactly]
        omega
      · rw [if_neg past]
        have fits : (chunk.drop 4).length ≤ order.decode ((buffer chunk).take 4) := by
          rw [List.length_drop]
          omega
        have size := filled_length fits
        have small := announced_lt order chunk
        refine .inr ⟨_,rfl,⟨nofun,?_⟩,fun later => ?_⟩
        · rintro _ _ ⟨⟩ ⟨⟩
          rw [size]
          omega
        · rw [before,Within,if_neg partly,if_neg exactly]
          simp only [Fits,size]
          omega

theorem receive_fits (sound : Sound flow) (sized : chunk.length ≤ BUFLEN) :
    (∃ fault, receive order flow chunk = .error fault ∧ outside fault = true ∧ ∀ later, ¬Fits order flow (chunk :: later)) ∨
    ∃ next, receive order flow chunk = .ok next ∧ Sound next ∧
      ∀ later, Fits order flow (chunk :: later) ↔ Fits order next later := by
  cases data : flow.m_data with
  | none => exact receive_header sound data sized
  | some block => exact receive_block sound data

def Sized (reads : List ReadResult) : Prop := ∀ chunk, .got chunk ∈ reads → chunk.length ≤ BUFLEN

def fitsBuffer : ReadResult → Bool
  | .got chunk => chunk.length ≤ BUFLEN
  | .failed _ => true

instance (reads : List ReadResult) : Decidable (Sized reads) :=
  decidable_of_iff (∀ result ∈ reads, fitsBuffer result = true)
    ⟨fun all _ member => of_decide_eq_true (all _ member),fun sized result member => by
      cases result with
      | got chunk => exact decide_eq_true (sized chunk member)
      | failed errno => rfl⟩

theorem readLoop_fits (sound : Sound flow) (sized : Sized reads) :
    (∃ fault, readLoop order n flow reads = .error fault ∧ outside fault = true ∧
      ∀ later, ¬Fits order flow (taken n reads ++ later)) ∨
    ∃ next gone, readLoop order n flow reads = .ok (next,gone) ∧ Sound next ∧
      ∀ later, Fits order flow (taken n reads ++ later) ↔ Fits order next later := by
  induction n generalizing flow reads with
  | zero => exact .inr ⟨flow,false,rfl,sound,fun _ => Iff.rfl⟩
  | succ n ih =>
    cases reads with
    | nil => exact .inr ⟨flow,false,rfl,sound,fun _ => Iff.rfl⟩
    | cons result reads =>
      cases result with
      | failed errno =>
        refine .inr ⟨flow,decide (errno ≠ .EAGAIN),?_,sound,fun _ => Iff.rfl⟩
        simp only [readLoop]
        split <;> simp_all
      | got chunk =>
        cases chunk with
        | nil => exact .inr ⟨flow,true,rfl,sound,fun _ => Iff.rfl⟩
        | cons byte chunk =>
          have rest : Sized reads := fun other member => sized other (.tail _ member)
          have took : taken (n+1) (.got (byte :: chunk) :: reads) = (byte :: chunk) :: taken n reads := rfl
          rw [readLoop_got (List.cons_ne_nil _ _),took]
          rcases receive_fits sound (sized _ (.head _)) with
            ⟨fault,refused,past,none⟩ | ⟨middle,stored,along,step⟩
          · rw [refused]
            exact .inl ⟨fault,rfl,past,fun later => none _⟩
          · rw [stored]
            rcases ih along rest with ⟨fault,refused,past,none⟩ | ⟨next,gone,looped,last,steps⟩
            · exact .inl ⟨fault,refused,past,fun later fits => none later ((step _).mp fits)⟩
            · exact .inr ⟨next,gone,looped,last,fun later => (step _).trans (steps later)⟩

theorem Sound.moved (sound : Sound flow) (fd : Int) : Sound {flow with m_clientFd := fd} := ⟨sound.waiting,sound.inside⟩

theorem Sound.parsed (sound : Sound flow) (m : Payload) : Sound {flow with m_payload := m} := ⟨sound.waiting,sound.inside⟩

-- What the callback has found is defined exactly when its chunks fit.
theorem arrive_fits (order : ByteOrder) (pb : Protobuf) (sound : Sound flow) (sized : Sized reads) (fd : Int) :
    ((∃ fault, arrive order pb flow fd reads = .stopped fault) ↔ ¬Fits order flow (taken NUM_READ_TRY reads)) ∧
    ∀ next, (arrive order pb flow fd reads = .waiting next ∨ ∃ type m, arrive order pb flow fd reads = .request next type m) →
      Sound next := by
  unfold arrive
  rcases readLoop_fits (sound.moved fd) sized with ⟨fault,refused,past,none⟩ | ⟨middle,gone,looped,along,steps⟩
  · rw [refused]
    have unfit := none []
    rw [List.append_nil] at unfit
    exact ⟨iff_of_true ⟨fault,rfl⟩ unfit,by simp⟩
  · have here : Fits order flow (taken NUM_READ_TRY reads) := by
      have fits := (steps []).mpr along.empty
      rwa [List.append_nil] at fits
    rw [looped]
    cases gone with
    | true => exact ⟨iff_of_false nofun (not_not_intro here),by simp⟩
    | false =>
      dsimp only
      split
      · split
        · refine ⟨iff_of_false nofun (not_not_intro here),fun next found => ?_⟩
          simp at found
          exact found ▸ along
        · exact ⟨iff_of_false nofun (not_not_intro here),by simp⟩
      · refine ⟨iff_of_false nofun (not_not_intro here),fun next found => ?_⟩
        simp at found
        exact found ▸ along

theorem parse_inside (pb : Protobuf) (flow : TcpFlow) (s : Shared F) : Inside (flow.parse pb s).events := by
  cases typed : (pb.ParseFromArray flow.received).2.requesttype_ with
  | none =>
    rw [parse_untyped typed]
    simp [Inside,overruns]
  | some type =>
    cases ran : handle type (pb.ParseFromArray flow.received).2 s with
    | error fault =>
      rw [parse_faulted typed ran,handle_fault ran]
      simp [Inside,overruns,outside]
    | ok result =>
      rw [parse_handled typed ran]
      simp [Inside,overruns]

theorem data_fits (order : ByteOrder) (pb : Protobuf) (sound : Sound flow) (sized : Sized reads) (fd : Int) (s : Shared F) :
    (¬Inside (data order pb flow fd EV_READ reads s).events ∧ (data order pb flow fd EV_READ reads s).flow = none ∧
      ∀ later, ¬Fits order flow (taken NUM_READ_TRY reads ++ later)) ∨
    (Inside (data order pb flow fd EV_READ reads s).events ∧ Fits order flow (taken NUM_READ_TRY reads) ∧
      ∀ next, (data order pb flow fd EV_READ reads s).flow = some next → Sound next ∧
        ∀ later, Fits order flow (taken NUM_READ_TRY reads ++ later) ↔ Fits order next later) := by
  rcases readLoop_fits (sound.moved fd) sized with ⟨fault,refused,past,none⟩ | ⟨middle,gone,looped,along,steps⟩
  · rw [data_faulted refused]
    refine .inl ⟨fun inside => ?_,rfl,none⟩
    have copied : outside fault = false := inside _ (.head _)
    rw [copied] at past
    cases past
  · have here : Fits order flow (taken NUM_READ_TRY reads) := by
      have fits := (steps []).mpr along.empty
      rwa [List.append_nil] at fits
    refine .inr ?_
    cases gone with
    | true =>
      rw [data_deleted looped]
      refine ⟨by simp [Inside,overruns],here,fun next left => ?_⟩
      cases left
    | false =>
      rw [data_kept looped]
      split
      · refine ⟨parse_inside pb middle s,here,fun next answered => ?_⟩
        obtain ⟨m,rfl⟩ := parse_flow answered
        exact ⟨along.parsed m,steps⟩
      · refine ⟨nofun,here,?_⟩
        rintro _ ⟨⟩
        exact ⟨along,steps⟩

theorem serve_fits {callbacks : List (Callback F)} (sound : Sound flow) (sized : ∀ c ∈ callbacks, Sized c.reads) (fd : Int) :
    (∀ events ∈ serve order pb fd flow callbacks, Inside events) ↔ Fits order flow (readings order pb fd flow callbacks) := by
  induction callbacks generalizing flow with
  | nil => exact iff_of_true nofun sound.empty
  | cons c callbacks ih =>
    have rest : ∀ d ∈ callbacks, Sized d.reads := fun d member => sized d (.tail _ member)
    simp only [serve,readings]
    rcases data_fits order pb sound (sized c (.head _)) fd c.shared with ⟨past,gone,none⟩ | ⟨inside,here,left⟩
    · rw [gone]
      refine iff_of_false (fun all => past (all _ (.head _))) (none _)
    · cases flow' : (data order pb flow fd EV_READ c.reads c.shared).flow with
      | none =>
        dsimp only
        rw [List.append_nil]
        exact iff_of_true (by simpa using inside) here
      | some next =>
        obtain ⟨along,step⟩ := left next flow'
        dsimp only
        rw [step,← ih along rest]
        simp [inside]

theorem overrun_exact {callbacks : List (Callback F)} (sized : ∀ c ∈ callbacks, Sized c.reads) (fd : Int) (addr : Str) :
    (∀ events ∈ serve order pb fd (new addr) callbacks, Inside events) ↔
      Within order 0 (readings order pb fd (new addr) callbacks) :=
  serve_fits (new_sound addr) sized fd

def calm : Shared (BloomFilter BloomFilter.small) := ⟨.new,{}⟩

theorem overrun_exact_whole :
    (∀ events ∈ serve .little Codec.codec 7 (new (text "0x1")) [⟨calm,[.got [6,0,0,0,8,1,18,2,107,49]]⟩], Inside events) ↔
      Within .little 0 (readings .little Codec.codec 7 (new (text "0x1")) [⟨calm,[.got [6,0,0,0,8,1,18,2,107,49]]⟩]) :=
  overrun_exact (by simp [Sized,BUFLEN]) 7 (text "0x1")

theorem overrun_streams :
    serve .little Codec.codec 7 (new (text "0x1")) [⟨calm,[.got [1,0,0,0,8,1]]⟩] = [[.fault .copyOutside]] ∧
    serve .little Codec.codec 7 (new (text "0x1")) [⟨calm,[.got [1,0,0,0],.got [8]]⟩] = [[.fault .unassignedLength]] ∧
    (serve .little Codec.codec 7 (new (text "0x1")) [⟨calm,[.got [6,0,0,0,8,1,18,2,107,49]]⟩,⟨calm,[.got [0]]⟩]).getLast? =
      some [.fault .copyOutside] := by decide

end RemoteDict.Overrun

import RemoteDict.Connections

namespace RemoteDict.Sequential
open Foundation KeyValue Connections
open Foundation.Block (ByteOrder)
open Handlers (Local)
open Linearization (Linearizable Point points_effect)
open ServiceWorker (Address)

structure Tallies (stats : Stats) (store : Store) : Prop where
  asked : stats.m_numGetReq = UInt64.ofNat store.asked
  succeeded : stats.m_numGetReqSucc = UInt64.ofNat store.succeeded
  failed : stats.m_numGetReqFail = UInt64.ofNat store.failed

-- What the only worker has still to do to the counters, and what it has learnt
-- that nobody else can change.
def Keeps (stats : Stats) (store : Store) : Local → Prop
  | .idle | .ready _ _ | .done _ => Tallies stats store
  | .counted _ => Tallies stats {store with asked := store.asked + 1}
  | .looked _ true _ => Tallies stats.incrGetReqSucc store
  | .looked _ false _ => Tallies stats.incrGetReqFail store
  | .tested _ => Tallies stats store ∧ ¬Full store.entries
  | .readAll _ all => Tallies stats store ∧ all = stats.m_numGetReq
  | .readSucc _ all succ => Tallies stats store ∧ all = stats.m_numGetReq ∧ succ = stats.m_numGetReqSucc

variable {F : Type} [MembershipFilter F] {here there : Local} {s shared : Shared F} {data : Store} {m : Payload}

theorem Tallies.counts (tallies : Tallies stats data) : (Reply.counts stats.m_numGetReq.toUInt32.toInt32
    stats.m_numGetReqSucc.toUInt32.toInt32 stats.m_numGetReqFail.toUInt32.toInt32) = (data.serve .stat).1 := by
  have width (n : Nat) : (UInt64.ofNat n).toUInt32.toInt32 = Int32.ofNat n := by
    rw [UInt64.toUInt32_ofNat']
    rfl
  rw [tallies.asked,tallies.succeeded,tallies.failed,width,width,width]
  rfl

theorem look_keeps (holds : Holds false s.dictionary data.entries) (tallies : Tallies s.stats {data with asked := data.asked + 1})
    (looked : s.dictionary.get m.key [] = .ok (ret,value)) :
    (data.serve (.get m.key)).1 = look s.dictionary m.key ∧ (data.serve (.get m.key)).2.entries = data.entries ∧
      Keeps s.stats (data.serve (.get m.key)).2 (.looked m ret value) := by
  rw [s.dictionary.get_disabled holds.mode,holds.entries] at looked
  rw [look,holds.entries,Store.serve]
  obtain ⟨asked,succeeded,failed⟩ := tallies
  cases held : data.entries m.key with
  | none =>
    rw [held] at looked
    cases looked
    exact ⟨rfl,rfl,asked,succeeded,by rw [Stats.incrGetReqFail,failed,UInt64.ofNat_add]; rfl⟩
  | some value =>
    rw [held] at looked
    cases looked
    exact ⟨rfl,rfl,asked,by rw [Stats.incrGetReqSucc,succeeded,UInt64.ofNat_add]; rfl,failed⟩

theorem serves (data : Store) (call : Call) (reply : Reply) (served : (data.serve call).1 = reply) :
    store.run data [(call,reply)] = some (data.serve call).2 := by
  subst served
  exact store.run_singleton.trans (store_step data call)

theorem advance_keeps (holds : Holds false s.dictionary data.entries) (keeps : Keeps s.stats data here)
    (moved : Handlers.advance here s = some (.ok (there,shared))) :
    ∃ later, store.run data (effect s here).toList = some later ∧ Holds false shared.dictionary later.entries ∧
      Keeps shared.stats later there := by
  cases Handlers.advance_exact.mp moved with
  | counts =>
    obtain ⟨asked,succeeded,failed⟩ := keeps
    exact ⟨data,rfl,holds,by rw [Stats.incrGetReq,asked,UInt64.ofNat_add]; rfl,succeeded,failed⟩
  | @refuses m full =>
    have served : data.serve (.set m.key m.value) = (.refused,data) := if_pos (holds.full.mp full)
    simp only [effect,full,if_true]
    refine ⟨_,serves data _ _ (congrArg Prod.fst served),?_⟩
    rw [served]
    exact ⟨holds,keeps⟩
  | tests room =>
    simp only [effect,room]
    refine ⟨data,rfl,holds,keeps,fun full => ?_⟩
    rw [holds.full.mpr full] at room
    cases room
  | readsAll => exact ⟨data,rfl,holds,keeps,rfl⟩
  | @looks ret value m looked =>
    obtain ⟨served,same,kept⟩ := look_keeps holds keeps looked
    refine ⟨_,serves data _ _ served,?_,kept⟩
    rw [same]
    exact holds
  | finds | misses => exact ⟨data,rfl,holds,keeps⟩
  | @stores dictionary m stored =>
    obtain ⟨tallies,room⟩ := keeps
    have served : data.serve (.set m.key m.value) = (.stored,{data with entries := put data.entries m.key m.value}) := if_neg room
    refine ⟨_,serves data _ _ (congrArg Prod.fst served),?_⟩
    rw [served]
    exact ⟨holds.stores stored,tallies.asked,tallies.succeeded,tallies.failed⟩
  | readsSucc => exact ⟨data,rfl,holds,keeps.1,keeps.2,rfl⟩
  | tells =>
    obtain ⟨tallies,rfl,rfl⟩ := keeps
    exact ⟨data,serves data _ _ tallies.counts.symm,holds,tallies⟩
  | leaves => exact ⟨data,rfl,holds,keeps⟩

variable {getAddrStr : Address → Str} {order : ByteOrder} {pb : Protobuf} {before after : State Unit F}

def Related (s : State Unit F) (data : Store) : Prop :=
  Holds false s.handlers.shared.dictionary data.entries ∧ Keeps s.handlers.shared.stats data (s.handlers.threads ())

theorem steps_related (related : Related before data) (steps : Steps order pb before after move) :
    ∃ later, store.run data ((note order pb before move).filterMap Point.effect) = some later ∧ Related after later := by
  obtain ⟨holds,keeps⟩ := related
  cases steps with
  | rests silent shared threads _ =>
    refine ⟨data,by rw [silent]; rfl,?_⟩
    rw [Related,shared,threads]
    exact ⟨holds,keeps⟩
  | begins begins here shared _ threads _ =>
    rw [here] at keeps
    refine ⟨data,by rw [begins]; rfl,?_⟩
    rw [Related,shared,threads,Function.update_self]
    exact ⟨holds,keeps⟩
  | runs runs moved _ threads _ =>
    obtain ⟨later,ran,there,kept⟩ := advance_keeps holds keeps moved
    refine ⟨later,?_,there,?_⟩
    · rw [runs,points_effect]
      exact ran
    · rw [threads,Function.update_self]
      exact kept
  | ends ends here _ shared threads _ =>
    rw [here] at keeps
    refine ⟨data,by rw [ends]; rfl,?_⟩
    rw [Related,shared,threads,Function.update_self]
    exact ⟨holds,keeps⟩

-- One worker and no filter: the answers of every run are those of the store to
-- the requests in their order, the counts included.
theorem service_sequential (path : (service Unit F getAddrStr order pb false).run
      (service Unit F getAddrStr order pb false).start moves = some last) :
    Linearizable store (Means pb false) ((service Unit F getAddrStr order pb false).journal (observe order pb)
      (service Unit F getAddrStr order pb false).start moves) := by
  have begins : ∀ (s : State Unit F) i spoken, Standing pb false s i spoken →
      Linearization.Beginning (Means pb false) i spoken := fun _ _ _ standing => standing.begins
  have acts : ∀ (s : State Unit F) data move next, Related s data → (∀ i, ∃ spoken, Standing pb false s i spoken) →
      (service Unit F getAddrStr order pb false).step s move = some next →
      ∃ later, store.run data ((note order pb s move).filterMap Point.effect) = some later ∧ Related next later :=
    fun s data move next related standing stepped => steps_related related (step_steps related.1.built standing stepped)
  have speaks : ∀ (s : State Unit F) data move next i spoken, Related s data → (∀ i, ∃ spoken, Standing pb false s i spoken) →
      Standing pb false s i spoken → (service Unit F getAddrStr order pb false).step s move = some next →
      Standing pb false next i (spoken ++ (note order pb s move).filter (Linearization.ofThread i)) ∨
        Standing pb false next i [] ∧
          Linearization.Sentence (Means pb false) i (spoken ++ (note order pb s move).filter (Linearization.ofThread i)) :=
    fun s data move next i spoken related standing here stepped =>
      steps_standing nofun related.1 here (step_steps related.1.built standing stepped)
  have related : Related (service Unit F getAddrStr order pb false).start store.start :=
    ⟨start_holds false,rfl,rfl,rfl⟩
  exact ⟨_,Linearization.journal_visible note_visible,
    Linearization.linear_journal begins acts speaks related (fun _ => .idle) path⟩

def both : List (Move Unit) :=
  [.processEvent () 7 0x1000,.processEvent () 8 0x2000,.data () 0x1000 [.got storing],.advance (),.advance (),.advance (),
    .data () 0x2000 [.got looking],.advance (),.advance (),.advance (),.advance ()]

abbrev single := service Unit (BloomFilter BloomFilter.small) ServiceWorker.pointer .little Codec.codec false

theorem service_sequential_both : ∃ last, single.run single.start both = some last ∧
    Linearizable store (Means Codec.codec false) (single.journal (observe .little Codec.codec) single.start both) := by
  have path : single.run single.start both = some _ := rfl
  exact ⟨_,path,service_sequential path⟩

end RemoteDict.Sequential

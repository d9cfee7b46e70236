import RemoteDict.Foundation.Machine

namespace Foundation.Machine
variable {State : Type u} {Event : Type v} {Record : Type w} (m : Machine State Event) (note : State → Event → List Record)

-- What the steps of a run write down, each from the state it is taken in.
def journal : State → List Event → List Record
  | _,[] => []
  | s,event :: rest =>
    match m.step s event with
    | none => []
    | some next => note s event ++ journal next rest

variable {m note} {s middle next last : State} {event : Event}

theorem journal_cons (first : m.step s event = some middle) :
    m.journal note s (event :: rest) = note s event ++ m.journal note middle rest := by
  simp only [journal,first]

theorem journal_append (path : m.run s early = some middle) :
    m.journal note s (early ++ late) = m.journal note s early ++ m.journal note middle late := by
  induction early generalizing s with
  | nil =>
    cases path
    rfl
  | cons event early ih =>
    obtain ⟨between,first,rest⟩ := m.run_cons.mp path
    rw [List.cons_append,journal_cons first,journal_cons first,ih rest,List.append_assoc]

theorem journal_events (path : m.run s events = some last) : m.journal (fun _ event => [event]) s events = events := by
  induction events generalizing s with
  | nil => rfl
  | cons event events ih =>
    obtain ⟨middle,first,rest⟩ := m.run_cons.mp path
    rw [journal_cons first,ih rest]
    rfl

theorem journal_agrees {Agrees : State → List Record → Prop}
    (kept : ∀ s records event next, Agrees s records → m.step s event = some next →
      Agrees next (records ++ note s event))
    (records : List Record) (here : Agrees s records) (path : m.run s events = some last) :
    Agrees last (records ++ m.journal note s events) := by
  induction events generalizing s records with
  | nil =>
    cases path
    rw [journal,List.append_nil]
    exact here
  | cons event events ih =>
    obtain ⟨middle,first,rest⟩ := m.run_cons.mp path
    rw [journal_cons first,← List.append_assoc]
    exact ih _ (kept _ _ _ _ here first) rest

theorem journal_split (path : m.run s events = some last) (split : m.journal note s events = before ++ record :: after) :
    ∃ earlier event later middle start rest, events = earlier ++ event :: later ∧ m.run s earlier = some middle ∧
      (m.step middle event).isSome ∧ note middle event = start ++ record :: rest ∧
      before = m.journal note s earlier ++ start := by
  induction events generalizing s before with
  | nil => simp [journal] at split
  | cons event events ih =>
    obtain ⟨middle,first,tail⟩ := m.run_cons.mp path
    rw [journal_cons first] at split
    rcases List.append_eq_append_iff.mp split with ⟨gap,here,there⟩ | ⟨gap,here,there⟩
    · obtain ⟨earlier,later,rest,state,start,more,rfl,reached,enabled,noted,same⟩ := ih tail there
      refine ⟨event :: earlier,later,rest,state,start,more,rfl,?_,enabled,noted,?_⟩
      · exact m.run_cons.mpr ⟨middle,first,reached⟩
      · rw [here,same,journal_cons first,List.append_assoc]
    · cases gap with
      | nil =>
        rw [List.nil_append] at there
        obtain ⟨earlier,later,rest,state,start,more,rfl,reached,enabled,noted,same⟩ :=
          ih tail (show _ = [] ++ record :: after from there.symm)
        refine ⟨event :: earlier,later,rest,state,start,more,rfl,?_,enabled,noted,?_⟩
        · exact m.run_cons.mpr ⟨middle,first,reached⟩
        · rw [List.append_nil] at here
          rw [journal_cons first,List.append_assoc,← same,List.append_nil,here]
      | cons found gap =>
        obtain ⟨rfl,_⟩ := List.cons_eq_cons.mp there
        exact ⟨[],event,events,s,before,gap,rfl,rfl,by simp [first],here,rfl⟩

theorem mem_journal (path : m.run s events = some last) :
    record ∈ m.journal note s events ↔ ∃ t event, m.Takes s events t event ∧ record ∈ note t event := by
  induction events generalizing s with
  | nil =>
    constructor
    · intro member
      cases member
    · rintro ⟨t,event,⟨earlier,later,split,_⟩,_⟩
      simp at split
  | cons event events ih =>
    obtain ⟨middle,first,rest⟩ := m.run_cons.mp path
    simp only [journal_cons first,List.mem_append,ih rest,m.takes_cons first]
    constructor
    · rintro (here | ⟨t,taken,takes,member⟩)
      · exact ⟨s,event,.inl ⟨rfl,rfl⟩,here⟩
      · exact ⟨t,taken,.inr takes,member⟩
    · rintro ⟨t,taken,⟨rfl,rfl⟩ | takes,member⟩
      · exact .inl member
      · exact .inr ⟨t,taken,takes,member⟩

-- One voice of a journal: whole sentences, and then what it said of the next.
def Speaks (Sentence : List Record → Prop) (said records : List Record) : Prop :=
  ∃ whole : List (List Record), (∀ sentence ∈ whole, Sentence sentence) ∧ records = whole.flatten ++ said

theorem Speaks.more (speaks : Speaks Sentence said records) (words : List Record) :
    Speaks Sentence (said ++ words) (records ++ words) := by
  obtain ⟨whole,sentences,rfl⟩ := speaks
  exact ⟨whole,sentences,List.append_assoc _ _ _⟩

theorem Speaks.ends (speaks : Speaks Sentence said records) (sentence : Sentence (said ++ words)) :
    Speaks Sentence [] (records ++ words) := by
  obtain ⟨whole,sentences,rfl⟩ := speaks
  refine ⟨whole ++ [said ++ words],fun other member => ?_,by simp⟩
  rcases List.mem_append.mp member with old | new
  · exact sentences other old
  · rw [List.mem_singleton.mp new]
    exact sentence

theorem journal_speaks {Valid : State → Prop} {Sentence : List Record → Prop} {said : State → List Record}
    (voice : Record → Bool) (stays : ∀ s event next, Valid s → m.step s event = some next → Valid next)
    (kept : ∀ s event next, Valid s → m.step s event = some next →
      said next = said s ++ (note s event).filter voice ∨
        said next = [] ∧ Sentence (said s ++ (note s event).filter voice))
    (valid : Valid s) (silent : said s = []) (path : m.run s events = some last) :
    Speaks Sentence (said last) ((m.journal note s events).filter voice) := by
  have step : ∀ s records event next, Valid s ∧ Speaks Sentence (said s) (List.filter voice records) →
      m.step s event = some next → Valid next ∧ Speaks Sentence (said next) ((records ++ note s event).filter voice) := by
    intro s records event next ⟨valid,speaks⟩ stepped
    refine ⟨stays s event next valid stepped,?_⟩
    rw [List.filter_append]
    rcases kept s event next valid stepped with same | ⟨same,sentence⟩
    · rw [same]
      exact speaks.more _
    · rw [same]
      exact speaks.ends sentence
  have start : Speaks Sentence (said s) (List.filter voice []) := by
    rw [silent]
    exact ⟨[],fun _ member => absurd member List.not_mem_nil,rfl⟩
  exact (journal_agrees step [] ⟨valid,start⟩ path).2

end Foundation.Machine

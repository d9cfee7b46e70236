import RemoteDict.Foundation.Journal
import RemoteDict.Foundation.Precedence

namespace Foundation.Linearization

-- What a concurrent run shows of its calls, and between the two ends of each
-- call the point at which it takes effect on a sequential object.
inductive Act (ι : Type u) (Request : Type v) (Response : Type w) where
  | invoked (i : ι) (request : Request)
  | returned (i : ι) (response : Response)
  deriving DecidableEq, Repr

inductive Point (ι : Type u) (Request : Type v) (Response : Type w) (Call : Type x) (Reply : Type y) where
  | act (act : Act ι Request Response)
  | took (i : ι) (call : Call) (reply : Reply)
  deriving DecidableEq, Repr

def Act.thread : Act ι Request Response → ι
  | .invoked i _ | .returned i _ => i

variable {ι : Type u} {Request : Type v} {Response : Type w} {Call : Type x} {Reply : Type y} {State : Type z}

namespace Point

def thread : Point ι Request Response Call Reply → ι
  | .act shown => shown.thread
  | .took i _ _ => i

def visible : Point ι Request Response Call Reply → Option (Act ι Request Response)
  | .act shown => some shown
  | .took _ _ _ => none

def effect : Point ι Request Response Call Reply → Option (Call × Reply)
  | .act _ => none
  | .took _ call reply => some (call,reply)

end Point

def points (i : ι) (took : Option (Call × Reply)) : List (Point ι Request Response Call Reply) :=
  took.toList.map fun event => .took i event.1 event.2

def ofThread [DecidableEq ι] (i : ι) (point : Point ι Request Response Call Reply) : Bool := decide (point.thread = i)

theorem points_effect (i : ι) (took : Option (Call × Reply)) :
    (points i took : List (Point ι Request Response Call Reply)).filterMap Point.effect = took.toList := by
  cases took <;> rfl

theorem points_visible (i : ι) (took : Option (Call × Reply)) :
    (points i took : List (Point ι Request Response Call Reply)).filterMap Point.visible = [] := by
  cases took <;> rfl

theorem points_thread [DecidableEq ι] (i j : ι) (took : Option (Call × Reply)) :
    (points i took : List (Point ι Request Response Call Reply)).filter (ofThread j) = if i = j then points i took else [] := by
  cases took with
  | none => exact (ite_self _).symm
  | some event => by_cases same : i = j <;> simp [points,ofThread,Point.thread,same]

theorem acts_visible (acts : List (Act ι Request Response)) :
    (acts.map .act : List (Point ι Request Response Call Reply)).filterMap Point.visible = acts := by
  rw [List.filterMap_map]
  exact List.filterMap_some

theorem acts_effect (acts : List (Act ι Request Response)) :
    (acts.map .act : List (Point ι Request Response Call Reply)).filterMap Point.effect = [] := by
  rw [List.filterMap_map,List.filterMap_eq_nil_iff]
  exact fun _ _ => rfl

theorem points_or {took more : Option (Call × Reply)} (once : took.isSome → more = none) (i : ι) :
    (points i (took.or more) : List (Point ι Request Response Call Reply)) = points i took ++ points i more := by
  cases took with
  | none => rfl
  | some event =>
    rw [once rfl,Option.or_none]
    exact (List.append_nil _).symm

-- A call from its request to its response, and the beginnings of one. `Means`
-- ties what goes over the wire to the call and to its reply.
inductive Sentence (Means : Request → Call → Reply → Response → Prop) (i : ι) :
    List (Point ι Request Response Call Reply) → Prop where
  | call : Means request call reply response →
      Sentence Means i [.act (.invoked i request),.took i call reply,.act (.returned i response)]

inductive Beginning (Means : Request → Call → Reply → Response → Prop) (i : ι) :
    List (Point ι Request Response Call Reply) → Prop where
  | silent : Beginning Means i []
  | invoked : Beginning Means i [.act (.invoked i request)]
  | took : Means request call reply response → Beginning Means i [.act (.invoked i request),.took i call reply]

-- The effects, in their order, are a run of the sequential object, and each
-- thread goes through its calls one by one. So a call that begins after another
-- one has returned takes effect after it.
structure Linear [DecidableEq ι] (m : Machine State (Call × Reply)) (Means : Request → Call → Reply → Response → Prop)
    (log : List (Point ι Request Response Call Reply)) : Prop where
  sequential : ∃ s, m.run m.start (log.filterMap Point.effect) = some s
  threads : ∀ i, ∃ said, Beginning Means i said ∧ Machine.Speaks (Sentence Means i) said (log.filter (ofThread i))

def Linearizable [DecidableEq ι] (m : Machine State (Call × Reply)) (Means : Request → Call → Reply → Response → Prop)
    (history : List (Act ι Request Response)) : Prop :=
  ∃ log, log.filterMap Point.visible = history ∧ Linear m Means log

-- Where no thread has more than one call, its part of the log is that call or
-- the beginning of it.
inductive Course (Means : Request → Call → Reply → Response → Prop) (i : ι) :
    List (Point ι Request Response Call Reply) → Prop where
  | begun : Beginning Means i said → Course Means i said
  | whole : Sentence Means i said → Course Means i said

def Act.asks : Act ι Request Response → Bool
  | .invoked _ _ => true
  | .returned _ _ => false

def Point.asks : Point ι Request Response Call Reply → Bool
  | .act shown => shown.asks
  | .took _ _ _ => false

theorem Point.visible_exact {point : Point ι Request Response Call Reply} : point.visible = some shown ↔ point = .act shown := by
  cases point <;> simp [Point.visible]

theorem act_mem {log : List (Point ι Request Response Call Reply)} : shown ∈ log.filterMap Point.visible ↔ .act shown ∈ log := by
  simp [List.mem_filterMap,Point.visible_exact]

theorem act_before {log : List (Point ι Request Response Call Reply)} :
    [one,other].Sublist (log.filterMap Point.visible) ↔ [.act one,.act other].Sublist log := by
  simp [Precedence.before_filterMap,Point.visible_exact]

def Single [DecidableEq ι] (history : List (Act ι Request Response)) : Prop :=
  ∀ i, (history.filter fun act => decide (act.thread = i)).countP Act.asks ≤ 1

section
variable [DecidableEq ι] {history more : List (Act ι Request Response)}

theorem Single.answers (single : Single history) (quiet : ∀ act ∈ more, act.asks = false) : Single (history ++ more) := by
  intro i
  have none : (more.filter fun act => decide (act.thread = i)).countP Act.asks = 0 := by
    refine List.countP_eq_zero.mpr fun act member => ?_
    rw [quiet act (List.mem_of_mem_filter member)]
    exact Bool.false_ne_true
  rw [List.filter_append,List.countP_append,none]
  exact single i

theorem Single.begins (single : Single history) (fresh : ∀ other, .invoked i other ∉ history) (request : Request) :
    Single (history ++ [.invoked i request]) := by
  intro j
  rw [List.filter_append,List.countP_append]
  by_cases same : i = j
  · subst same
    have none : (history.filter fun act => decide (act.thread = i)).countP Act.asks = 0 := by
      refine List.countP_eq_zero.mpr fun act member asks => ?_
      obtain ⟨there,mine⟩ := List.mem_filter.mp member
      cases act with
      | returned => cases asks
      | invoked k other =>
        obtain rfl : k = i := of_decide_eq_true mine
        exact fresh other there
    rw [none,Nat.zero_add]
    exact Nat.le_trans List.countP_le_length (List.length_filter_le _ _)
  · have apart : ([.invoked i request] : List (Act ι Request Response)).filter (fun act => decide (act.thread = j)) = [] := by
      simp [Act.thread,same]
    rw [apart]
    exact single j

end

section
variable [DecidableEq ι] {m : Machine State (Call × Reply)} {Means : Request → Call → Reply → Response → Prop} {i : ι}
  {log said records : List (Point ι Request Response Call Reply)}

omit [DecidableEq ι] in
theorem Beginning.asks (begins : Beginning Means i said) : said = [] ∨ said.countP Point.asks = 1 := by
  cases begins with
  | silent => exact .inl rfl
  | invoked | took => exact .inr rfl

omit [DecidableEq ι] in
theorem speaks_course (speaks : Machine.Speaks (Sentence Means i) said records) (begins : Beginning Means i said)
    (single : records.countP Point.asks ≤ 1) : Course Means i records := by
  obtain ⟨whole,sentences,rfl⟩ := speaks
  have one : ∀ sentence ∈ whole, sentence.countP Point.asks = 1 := by
    intro sentence member
    cases sentences sentence member
    rfl
  cases whole with
  | nil => exact .begun begins
  | cons first rest =>
    have here := one first (.head _)
    rw [List.flatten_cons,List.append_assoc,List.countP_append,List.countP_append] at single
    have silent : said = [] := begins.asks.resolve_right fun asked => by omega
    cases rest with
    | nil =>
      rw [silent,List.flatten_cons,List.flatten_nil,List.append_nil,List.append_nil]
      exact .whole (sentences first (.head _))
    | cons second rest =>
      have there := one second (.tail _ (.head _))
      rw [List.flatten_cons,List.countP_append] at single
      omega

theorem log_single (single : Single (log.filterMap Point.visible)) (i : ι) : (log.filter (ofThread i)).countP Point.asks ≤ 1 := by
  refine Nat.le_trans (Nat.le_of_eq ?_) (single i)
  rw [List.countP_filter,List.countP_filter,List.countP_filterMap]
  refine List.countP_congr fun point _ => ?_
  cases point with
  | act shown => rfl
  | took j call reply => simp [Point.asks,Point.visible]

theorem Linear.course (linear : Linear m Means log) (single : Single (log.filterMap Point.visible)) (i : ι) :
    Course Means i (log.filter (ofThread i)) := by
  obtain ⟨said,begins,speaks⟩ := linear.threads i
  exact speaks_course speaks begins (log_single single i)

omit [DecidableEq ι] in
theorem Course.nodup (course : Course Means i records) : records.Nodup := by
  cases course with
  | begun begins => cases begins <;> simp
  | whole sentence =>
    cases sentence
    simp

theorem Linear.nodup (linear : Linear m Means log) (single : Single (log.filterMap Point.visible)) : log.Nodup := by
  refine List.nodup_iff_sublist.mpr fun point twice => ?_
  have own := twice.filter (ofThread point.thread)
  have mine : ofThread point.thread point = true := decide_eq_true rfl
  rw [List.filter_cons_of_pos mine,List.filter_cons_of_pos mine,List.filter_nil] at own
  exact Precedence.before_irrefl (linear.course single point.thread).nodup own

structure Took (Means : Request → Call → Reply → Response → Prop) (log : List (Point ι Request Response Call Reply)) (i : ι)
    (request : Request) (call : Call) (reply : Reply) : Prop where
  asked : [.act (.invoked i request),.took i call reply].Sublist log
  only : ∀ other, .act (.invoked i other) ∈ log → other = request
  means : ∃ response, Means request call reply response
  answered : ∀ response, .act (.returned i response) ∈ log →
    [.took i call reply,.act (.returned i response)].Sublist log ∧ Means request call reply response

theorem ofThread_mem (point : Point ι Request Response Call Reply) (mine : point.thread = i) :
    point ∈ log ↔ point ∈ log.filter (ofThread i) := by
  rw [List.mem_filter,and_iff_left]
  exact decide_eq_true mine

theorem Linear.took (linear : Linear m Means log) (single : Single (log.filterMap Point.visible))
    (member : .took i call reply ∈ log) : ∃ request, Took Means log i request call reply := by
  have course := linear.course single i
  have part := List.filter_sublist (p:=ofThread i) (l:=log)
  have inside := (ofThread_mem (i:=i) (.took i call reply) rfl).mp member
  have others (response : Response) : .act (.returned i response) ∈ log ↔ .act (.returned i response) ∈ log.filter (ofThread i) :=
    ofThread_mem _ rfl
  have asks (request : Request) : .act (.invoked i request) ∈ log ↔ .act (.invoked i request) ∈ log.filter (ofThread i) :=
    ofThread_mem _ rfl
  generalize log.filter (ofThread i) = own at course part inside others asks
  cases course with
  | begun begins =>
    cases begins with
    | silent => simp at inside
    | invoked => simp at inside
    | @took request _ _ response means =>
      obtain ⟨rfl,rfl⟩ : call = _ ∧ reply = _ := by simpa using inside
      refine ⟨request,part,fun other asked => ?_,⟨response,means⟩,fun response answered => ?_⟩
      · simpa using (asks other).mp asked
      · simpa using (others response).mp answered
  | whole sentence =>
    cases sentence with
    | @call request _ _ response means =>
      obtain ⟨rfl,rfl⟩ : call = _ ∧ reply = _ := by simpa using inside
      refine ⟨request,?_,fun other asked => ?_,⟨response,means⟩,fun other answered => ?_⟩
      · exact (List.sublist_append_left [_,_] [_]).trans part
      · simpa using (asks other).mp asked
      · have same : other = response := by simpa using (others other).mp answered
        subst same
        exact ⟨(List.sublist_cons_self _ _).trans part,means⟩

theorem Linear.returned (linear : Linear m Means log) (single : Single (log.filterMap Point.visible))
    (member : .act (.returned i response) ∈ log) : ∃ request call reply, Took Means log i request call reply := by
  have course := linear.course single i
  have inside := (ofThread_mem (i:=i) (.act (.returned i response)) rfl).mp member
  have found : ∃ call reply, .took i call reply ∈ log.filter (ofThread i) := by
    generalize log.filter (ofThread i) = own at course inside
    cases course with
    | begun begins => cases begins <;> simp at inside
    | whole sentence =>
      cases sentence
      exact ⟨_,_,.tail _ (.head _)⟩
  obtain ⟨call,reply,there⟩ := found
  obtain ⟨request,took⟩ := linear.took single ((ofThread_mem (i:=i) (.took i call reply) rfl).mpr there)
  exact ⟨request,call,reply,took⟩

end

variable {Concrete : Type a} {Label : Type b} {m : Machine State (Call × Reply)} {c : Machine Concrete Label}
  {Means : Request → Call → Reply → Response → Prop} {note : Concrete → Label → List (Point ι Request Response Call Reply)}

-- It is enough to say where in each step the calls take effect: `Related` ties
-- the states, `Stands` says how far each thread is with its call.
theorem linear_journal [DecidableEq ι] {Related : Concrete → State → Prop}
    {Stands : Concrete → ι → List (Point ι Request Response Call Reply) → Prop}
    (begins : ∀ s i said, Stands s i said → Beginning Means i said)
    (acts : ∀ s t label next, Related s t → (∀ i, ∃ said, Stands s i said) → c.step s label = some next →
      ∃ u, m.run t ((note s label).filterMap Point.effect) = some u ∧ Related next u)
    (speaks : ∀ s t label next i said, Related s t → (∀ i, ∃ said, Stands s i said) → Stands s i said →
      c.step s label = some next →
      Stands next i (said ++ (note s label).filter (ofThread i)) ∨
        Stands next i [] ∧ Sentence Means i (said ++ (note s label).filter (ofThread i)))
    (related : Related c.start m.start) (silent : ∀ i, Stands c.start i [])
    (path : c.run c.start labels = some last) : Linear m Means (c.journal note c.start labels) := by
  let Agrees (s : Concrete) (log : List (Point ι Request Response Call Reply)) : Prop :=
    (∃ t, m.run m.start (log.filterMap Point.effect) = some t ∧ Related s t) ∧
    ∀ i, ∃ said, Stands s i said ∧ Machine.Speaks (Sentence Means i) said (log.filter (ofThread i))
  have kept : ∀ s log label next, Agrees s log → c.step s label = some next → Agrees next (log ++ note s label) := by
    rintro s log label next ⟨⟨t,ran,here⟩,standing⟩ stepped
    obtain ⟨u,further,there⟩ := acts s t label next here (fun i => (standing i).imp fun _ stands => stands.1) stepped
    refine ⟨⟨u,?_,there⟩,fun i => ?_⟩
    · rw [List.filterMap_append]
      exact m.run_join ran further
    · obtain ⟨said,stands,spoken⟩ := standing i
      rw [List.filter_append]
      rcases speaks s t label next i said here (fun i => (standing i).imp fun _ stands => stands.1) stands stepped with more | ⟨done,sentence⟩
      · exact ⟨_,more,spoken.more _⟩
      · exact ⟨[],done,spoken.ends sentence⟩
  have first : Agrees c.start [] :=
    ⟨⟨m.start,rfl,related⟩,fun i => ⟨[],silent i,[],fun _ member => absurd member List.not_mem_nil,rfl⟩⟩
  obtain ⟨⟨t,ran,_⟩,standing⟩ := Machine.journal_agrees kept [] first path
  refine ⟨⟨t,ran⟩,fun i => ?_⟩
  obtain ⟨said,stands,spoken⟩ := standing i
  exact ⟨said,begins _ _ _ stands,spoken⟩

theorem journal_visible {observe : Concrete → Label → List (Act ι Request Response)}
    (shown : ∀ s label, (note s label).filterMap Point.visible = observe s label) :
    (c.journal note s labels).filterMap Point.visible = c.journal observe s labels := by
  induction labels generalizing s with
  | nil => rfl
  | cons label labels ih =>
    simp only [Machine.journal]
    cases c.step s label with
    | none => rfl
    | some next => simp only [List.filterMap_append,shown,ih]

end Foundation.Linearization

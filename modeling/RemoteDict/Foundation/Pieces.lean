import Mathlib.Data.List.TakeWhile

namespace Foundation.Pieces
variable {α : Type u} (p : α → Bool)

-- The piece before the first separator, and what follows the separator when
-- there is one.
def cut : List α → List α × Option (List α)
  | [] => ([],none)
  | x :: rest => if p x then ([],some rest) else (x :: (cut rest).1,(cut rest).2)

-- Pieces are cut off until one ends without a separator.
def pieces : Nat → List α → List (List α)
  | 0,_ => []
  | fuel+1,l =>
    match cut p l with
    | (piece,none) => [piece]
    | (piece,some rest) => piece :: pieces fuel rest

-- A token: separators are skipped before it, and the one that ends it is taken.
def token (l : List α) : Option (List α × List α) :=
  let start := l.dropWhile p
  if start.isEmpty then none
  else some (start.takeWhile (!p ·),(start.dropWhile (!p ·)).drop 1)

def tokens : Nat → List α → List (List α)
  | 0,_ => []
  | fuel+1,l =>
    match token p l with
    | none => []
    | some (first,rest) => first :: tokens fuel rest

variable {p} {l rest piece : List α}

theorem cut_end (ended : cut p l = (piece,none)) : l.splitOnP p = [piece] := by
  induction l generalizing piece with
  | nil =>
    cases ended
    rfl
  | cons x l ih =>
    unfold cut at ended
    split at ended
    · cases ended
    · rename_i inside
      obtain ⟨rfl,last⟩ := Prod.mk.inj ended
      have later : cut p l = ((cut p l).1,none) := Prod.ext rfl last
      rw [List.splitOnP_cons_eq_if_modifyHead,if_neg inside,ih later]
      rfl

theorem cut_more (separated : cut p l = (piece,some rest)) :
    l.splitOnP p = piece :: rest.splitOnP p ∧ rest.length < l.length := by
  induction l generalizing piece with
  | nil => cases separated
  | cons x l ih =>
    unfold cut at separated
    split at separated
    · rename_i separator
      cases separated
      rw [List.splitOnP_cons_eq_if_modifyHead,if_pos separator]
      exact ⟨rfl,Nat.lt_succ_self _⟩
    · rename_i inside
      obtain ⟨rfl,more⟩ := Prod.mk.inj separated
      have later : cut p l = ((cut p l).1,some rest) := Prod.ext rfl more
      obtain ⟨split,shorter⟩ := ih later
      rw [List.splitOnP_cons_eq_if_modifyHead,if_neg inside,split]
      exact ⟨rfl,Nat.lt_succ_of_lt shorter⟩

theorem pieces_exact (enough : l.length < fuel) : pieces p fuel l = l.splitOnP p := by
  induction fuel generalizing l with
  | zero => exact absurd enough (Nat.not_lt_zero _)
  | succ fuel ih =>
    unfold pieces
    split
    · rename_i piece ended
      exact (cut_end ended).symm
    · rename_i piece rest separated
      obtain ⟨split,shorter⟩ := cut_more separated
      rw [split,ih (by omega)]

def words (p : α → Bool) (l : List α) : List (List α) := (l.splitOnP p).filter (!·.isEmpty)

theorem words_dropWhile (l : List α) : words p (l.dropWhile p) = words p l := by
  induction l with
  | nil => rfl
  | cons x l ih =>
    by_cases separator : p x
    · rw [List.dropWhile_cons_of_pos separator,ih,words,words,List.splitOnP_cons_eq_if_modifyHead,if_pos separator]
      rfl
    · rw [List.dropWhile_cons_of_neg separator]

theorem token_none (ended : token p l = none) : words p l = [] := by
  unfold token at ended
  dsimp only at ended
  split at ended
  · rename_i empty
    rw [← words_dropWhile,List.isEmpty_iff.mp empty]
    rfl
  · cases ended

theorem words_word (within : ∀ x ∈ word, p x = false) (nonempty : word ≠ []) (l : List α)
    (ends : ∀ x ∈ l.head?, p x = true) : words p (word ++ l) = word :: words p (l.drop 1) := by
  have kept (later : List (List α)) : (word :: later).filter (!·.isEmpty) = word :: later.filter (!·.isEmpty) := by
    rw [List.filter_cons]
    simp [nonempty]
  cases l with
  | nil =>
    rw [List.append_nil,words,List.splitOnP_eq_singleton within,kept]
    rfl
  | cons separator more =>
    have cutting : p separator = true := ends separator rfl
    rw [words,List.splitOnP_append_cons_of_forall_mem within separator cutting more,kept]
    rfl

theorem token_some (taken : token p l = some (piece,rest)) :
    words p l = piece :: words p rest ∧ rest.length < l.length := by
  unfold token at taken
  dsimp only at taken
  split at taken
  · cases taken
  · rename_i present
    cases taken
    have shorter := List.length_dropWhile_le p l
    have inside := List.head?_dropWhile_not p l
    rw [← words_dropWhile l]
    generalize l.dropWhile p = start at present shorter inside ⊢
    have whole : start.takeWhile (!p ·) ++ start.dropWhile (!p ·) = start := List.takeWhile_append_dropWhile
    have within : ∀ x ∈ start.takeWhile (!p ·), p x = false := by
      intro x member
      simpa using List.mem_takeWhile_imp member
    have nonempty : start.takeWhile (!p ·) ≠ [] := by
      cases start with
      | nil => exact absurd rfl present
      | cons x more =>
        rw [List.takeWhile_cons_of_pos (by simpa using inside)]
        exact List.cons_ne_nil _ _
    have ends : ∀ x ∈ (start.dropWhile (!p ·)).head?, p x = true := by
      intro x member
      have stopped := List.head?_dropWhile_not (!p ·) start
      rw [member] at stopped
      simpa using stopped
    have lengths := congrArg List.length whole
    have positive := List.length_pos_iff.mpr nonempty
    constructor
    · have split := words_word within nonempty _ ends
      rw [whole] at split
      exact split
    · rw [List.length_append] at lengths
      rw [List.length_drop]
      omega

theorem tokens_exact (enough : l.length < fuel) : tokens p fuel l = words p l := by
  induction fuel generalizing l with
  | zero => exact absurd enough (Nat.not_lt_zero _)
  | succ fuel ih =>
    unfold tokens
    split
    · rename_i ended
      exact (token_none ended).symm
    · rename_i first rest taken
      obtain ⟨split,shorter⟩ := token_some taken
      rw [split,ih (by omega)]

theorem splitOnP_within (member : piece ∈ l.splitOnP p) : ∀ x ∈ piece, p x = false ∧ x ∈ l := by
  induction l generalizing piece with
  | nil =>
    rw [List.splitOnP_nil,List.mem_singleton] at member
    intro x inside
    rw [member] at inside
    cases inside
  | cons y l ih =>
    rw [List.splitOnP_cons_eq_if_modifyHead] at member
    have later : ∀ {other}, other ∈ l.splitOnP p → ∀ x ∈ other, p x = false ∧ x ∈ y :: l :=
      fun there x inside => (ih there x inside).imp_right (List.mem_cons_of_mem _)
    by_cases separator : p y
    · rw [if_pos separator] at member
      rcases List.mem_cons.mp member with rfl | there
      · exact fun x inside => absurd inside List.not_mem_nil
      · exact later there
    · rw [if_neg separator] at member
      cases split : l.splitOnP p with
      | nil => exact absurd split (List.splitOnP_ne_nil p l)
      | cons first rest =>
        rw [split,List.modifyHead_cons] at member
        rcases List.mem_cons.mp member with rfl | there
        · intro x inside
          rcases List.mem_cons.mp inside with rfl | more
          · exact ⟨Bool.eq_false_iff.mpr separator,List.mem_cons_self⟩
          · exact later (split ▸ List.mem_cons_self) x more
        · exact later (split ▸ List.mem_cons_of_mem _ there)

theorem mem_intercalate {separator : List α} {ls : List (List α)} (member : x ∈ separator.intercalate ls) :
    x ∈ separator ∨ ∃ l ∈ ls, x ∈ l := by
  induction ls with
  | nil => cases member
  | cons first rest ih =>
    cases rest with
    | nil =>
      rw [List.intercalate_singleton] at member
      exact .inr ⟨first,List.mem_singleton_self first,member⟩
    | cons second rest =>
      rw [List.intercalate_cons_cons] at member
      rcases List.mem_append.mp member with early | late
      · exact (List.mem_append.mp early).elim (fun here => .inr ⟨first,List.mem_cons_self,here⟩) .inl
      · exact (ih late).imp_right fun ⟨l,there,inside⟩ => ⟨l,List.mem_cons_of_mem _ there,inside⟩

end Foundation.Pieces

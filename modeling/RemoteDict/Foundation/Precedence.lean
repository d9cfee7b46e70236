import Mathlib.Data.List.Nodup

namespace Foundation.Precedence
variable {α : Type u} {β : Type v} {l : List α} {x y z : α}

-- One element stands before another in a list: the two are a sublist of it.
theorem before_cons : [x,y].Sublist (z :: l) ↔ (x = z ∧ y ∈ l) ∨ [x,y].Sublist l := by
  rw [List.sublist_cons_iff,or_comm]
  refine or_congr_left ⟨?_,?_⟩
  · rintro ⟨_,same,rest⟩
    cases same
    exact ⟨rfl,List.singleton_sublist.mp rest⟩
  · rintro ⟨rfl,member⟩
    exact ⟨[y],rfl,List.singleton_sublist.mpr member⟩

theorem before_left (before : [x,y].Sublist l) : x ∈ l := before.subset (.head _)
theorem before_right (before : [x,y].Sublist l) : y ∈ l := before.subset (.tail _ (.head _))

theorem before_append {early late : List α} (here : x ∈ early) (there : y ∈ late) : [x,y].Sublist (early ++ late) :=
  List.Sublist.append (List.singleton_sublist.mpr here) (List.singleton_sublist.mpr there)

theorem before_trans (once : l.Nodup) (first : [x,y].Sublist l) (second : [y,z].Sublist l) : [x,z].Sublist l := by
  induction l with
  | nil => cases first
  | cons w l ih =>
    obtain ⟨fresh,once⟩ := List.nodup_cons.mp once
    rcases before_cons.mp first with ⟨rfl,there⟩ | early
    · rcases before_cons.mp second with ⟨rfl,_⟩ | late
      · exact absurd there fresh
      · exact before_cons.mpr (.inl ⟨rfl,before_right late⟩)
    · rcases before_cons.mp second with ⟨rfl,_⟩ | late
      · exact absurd (before_right early) fresh
      · exact before_cons.mpr (.inr (ih once early late))

theorem before_irrefl (once : l.Nodup) : ¬[x,x].Sublist l := List.nodup_iff_sublist.mp once x

theorem before_asymm (once : l.Nodup) (first : [x,y].Sublist l) : ¬[y,x].Sublist l :=
  fun second => before_irrefl once (before_trans once first second)

theorem before_split {early late : List α} (once : (early ++ y :: late).Nodup) :
    [x,y].Sublist (early ++ y :: late) ↔ x ∈ early := by
  constructor
  · intro before
    rcases List.mem_append.mp (before_left before) with there | there
    · exact there
    · rcases List.mem_cons.mp there with rfl | there
      · exact absurd before (before_irrefl once)
      · have turned : [y,x].Sublist (y :: late) := before_cons.mpr (.inl ⟨rfl,there⟩)
        exact absurd before (before_asymm once (turned.trans (List.sublist_append_right _ _)))
  · intro member
    exact before_append member (.head _)

theorem before_filterMap {f : α → Option β} {u v : β} :
    [u,v].Sublist (l.filterMap f) ↔ ∃ x y, [x,y].Sublist l ∧ f x = some u ∧ f y = some v := by
  constructor
  · intro before
    induction l with
    | nil => cases before
    | cons w l ih =>
      cases shown : f w with
      | none =>
        rw [List.filterMap_cons_none shown] at before
        obtain ⟨x,y,there,parts⟩ := ih before
        exact ⟨x,y,there.cons w,parts⟩
      | some t =>
        rw [List.filterMap_cons_some shown] at before
        rcases before_cons.mp before with ⟨rfl,member⟩ | later
        · obtain ⟨y,there,also⟩ := List.mem_filterMap.mp member
          exact ⟨w,y,before_cons.mpr (.inl ⟨rfl,there⟩),shown,also⟩
        · obtain ⟨x,y,there,parts⟩ := ih later
          exact ⟨x,y,there.cons w,parts⟩
  · rintro ⟨x,y,before,here,there⟩
    have shown := before.filterMap f
    rwa [List.filterMap_cons_some here,List.filterMap_cons_some there,List.filterMap_nil] at shown

end Foundation.Precedence

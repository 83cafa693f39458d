import Mathlib.Data.List.Sort

/-! Sorting a list by a key: when the order in which the list is given makes no difference. -/

namespace Sorting

variable {α κ : Type} [LinearOrder κ] {key : α → κ} {l l' : List α} {a b : α}

/-- The list in the order of the keys; elements with the same key keep their order. -/
def sortOn (key : α → κ) (l : List α) : List α := l.insertionSort fun a b => key a ≤ key b

theorem sortOn_perm (key : α → κ) (l : List α) : (sortOn key l).Perm l := List.perm_insertionSort _ l

theorem pairwise_sortOn (key : α → κ) (l : List α) : (sortOn key l).Pairwise fun a b => key a ≤ key b := by
  have total : Std.Total fun a b : α => key a ≤ key b := ⟨fun _ _ => le_total _ _⟩
  have trans : IsTrans α fun a b => key a ≤ key b := ⟨fun _ _ _ => le_trans⟩
  exact List.pairwise_insertionSort _ l

/-- Two elements of a list without duplicates come in one order only. -/
theorem not_sublist_swap (nodup : l.Nodup) (h : [a, b].Sublist l) : ¬ [b, a].Sublist l := by
  induction l with
  | nil => cases h
  | cons x l ih =>
    obtain ⟨hx, nodup⟩ := List.nodup_cons.mp nodup
    intro h'
    cases h with
    | cons _ h =>
      cases h' with
      | cons _ h' => exact ih nodup h h'
      | cons_cons _ h' => exact hx (h.subset (by simp))
    | cons_cons _ h =>
      cases h' with
      | cons _ h' => exact hx (h'.subset (by simp))
      | cons_cons _ h' => exact hx (h.subset (by simp))

/-- Different keys leave one order. -/
theorem sortOn_congr (distinct : (l.map key).Nodup) (hl : l'.Perm l) : sortOn key l' = sortOn key l := by
  have perm : (sortOn key l').Perm (sortOn key l) := ((sortOn_perm key l').trans hl).trans (sortOn_perm key l).symm
  refine perm.eq_of_pairwise (fun a b ha hb hab hba => ?_) (pairwise_sortOn key l') (pairwise_sortOn key l)
  have ha' : a ∈ l := hl.subset ((sortOn_perm key l').subset ha)
  have hb' : b ∈ l := (sortOn_perm key l).subset hb
  exact List.inj_on_of_nodup_map distinct ha' hb' (le_antisymm hab hba)

/-- Two elements with the same key are sorted into the order in which they are given. -/
theorem distinct_of_sortOn_congr (nodup : l.Nodup) (h : ∀ l' : List α, l'.Perm l → sortOn key l' = sortOn key l) :
    (l.map key).Nodup := by
  refine List.pairwise_map.mpr (List.pairwise_iff_forall_sublist.mpr fun {a b} hab heq => ?_)
  obtain ⟨rest, hl⟩ := hab.exists_perm_append
  have swapped : (b :: a :: rest).Perm l := (List.Perm.swap a b rest).trans hl.symm
  have first : [a, b].Sublist (sortOn key l) := by
    rw [← h _ hl.symm]
    exact List.pair_sublist_insertionSort heq.le (List.sublist_append_left [a, b] rest)
  have second : [b, a].Sublist (sortOn key l) := by
    rw [← h _ swapped]
    exact List.pair_sublist_insertionSort heq.ge (List.sublist_append_left [b, a] rest)
  exact not_sublist_swap ((sortOn_perm key l).nodup_iff.mpr nodup) first second

end Sorting

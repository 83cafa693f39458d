import Mathlib.Logic.Hydra
import Mathlib.Order.WellFounded
import SquadLink.Lib.Lts

/-! Systems that come to rest. What is left to do has ranks; a step does one thing that is left, and what it leaves
    to do instead is of lower rank. However much that is, the steps come to an end. -/

namespace Settling

variable {ρ σ α : Type} {r : ρ → ρ → Prop} {m m' : Multiset ρ}

/-- One thing is done, things of lower rank come in its place, and some may get lost. -/
def Spends (r : ρ → ρ → Prop) (m' m : Multiset ρ) : Prop := ∃ a t, (∀ b ∈ t, r b a) ∧ m' + {a} ≤ m + t

/-- What gets lost is cut off one by one. -/
theorem cutExpand_of_lost (m lost : Multiset ρ) : Relation.ReflTransGen (Relation.CutExpand r) m (m + lost) := by
  induction lost using Multiset.induction with
  | empty => rw [add_zero]
  | cons b lost ih =>
    refine ih.tail ⟨0, b, fun _ h => absurd h (Multiset.notMem_zero _), ?_⟩
    rw [add_zero, add_assoc, add_comm lost, Multiset.singleton_add]

theorem Spends.cutExpand (h : Spends r m' m) : Relation.TransGen (Relation.CutExpand r) m' m := by
  obtain ⟨a, t, lower, le⟩ := h
  obtain ⟨lost, heq⟩ := Multiset.le_iff_exists_add.mp le
  have cut : Relation.CutExpand r (m' + lost) m := ⟨t, a, lower, by rw [heq, add_right_comm]⟩
  exact Relation.TransGen.tail' (cutExpand_of_lost m' lost) cut

theorem wellFounded_spends (wf : WellFounded r) : WellFounded (Spends r) :=
  Subrelation.wf Spends.cutExpand wf.cutExpand.transGen

/-! ### Transition systems -/

section
variable {step : σ → α → Option σ} {ok : σ → α → σ → Prop} {known : σ → Prop} {left : σ → Multiset ρ} {s : σ}

/-- A step that `ok` admits. -/
def Goes (step : σ → α → Option σ) (ok : σ → α → σ → Prop) (s t : σ) : Prop := ∃ a, ok s a t ∧ step s a = some t

/-- Steps that spend what is left do not go on forever. -/
theorem no_endless_run (wf : WellFounded r)
    (spends : ∀ s t, known s → Goes step ok s t → known t ∧ Spends r (left t) (left s)) (hs : known s) (f : ℕ → σ)
    (start : f 0 = s) : ¬ ∀ n, Goes step ok (f n) (f (n + 1)) := by
  intro goes
  have all (n : ℕ) : known (f n) := by
    induction n with
    | zero => exact start ▸ hs
    | succ n ih => exact (spends _ _ ih (goes n)).1
  have descends (n : ℕ) : Spends r (left (f (n + 1))) (left (f n)) := (spends _ _ (all n) (goes n)).2
  exact (wellFounded_iff_isEmpty_descending_chain.mp (wellFounded_spends wf)).false ⟨fun n => left (f n), descends⟩

/-- Every state has a run to one where no step is left. -/
theorem exists_rest (wf : WellFounded r)
    (spends : ∀ s t, known s → Goes step ok s t → known t ∧ Spends r (left t) (left s)) (hs : known s) :
    ∃ t, Lts.Reach step ok s t ∧ ∀ u, ¬ Goes step ok t u := by
  induction h : left s using (wellFounded_spends wf).induction generalizing s with
  | _ m ih =>
    subst h
    by_cases rest : ∀ u, ¬ Goes step ok s u
    · exact ⟨s, .refl, rest⟩
    · push Not at rest
      obtain ⟨u, goes⟩ := rest
      obtain ⟨hu, less⟩ := spends s u hs goes
      obtain ⟨t, reach, final⟩ := ih _ less hu rfl
      obtain ⟨a, hok, hstep⟩ := goes
      exact ⟨t, (Lts.Reach.refl.step a hok hstep).trans reach, final⟩

end

end Settling

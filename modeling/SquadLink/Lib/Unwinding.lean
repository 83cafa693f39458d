import SquadLink.Lib.Lts

/-! Non-interference by unwinding. Some of the actions of a system are seen; two states agree if they look the same to
    whoever sees these actions alone. -/

namespace Unwinding

variable {σ α : Type} {step : σ → α → Option σ} {ok : σ → α → σ → Prop} {sees : α → Bool} {known : σ → Prop}
  {agree : σ → σ → Prop} {s s' t t' : σ} {as bs : List α}

/-- An unseen step changes nothing that is seen; a seen one can be taken from every state that looks the same, and leads
    to states that look the same again. `known` is an invariant of the runs. -/
structure Conditions (step : σ → α → Option σ) (ok : σ → α → σ → Prop) (sees : α → Bool) (known : σ → Prop)
    (agree : σ → σ → Prop) : Prop where
  keeps : ∀ {s a s'}, known s → ok s a s' → step s a = some s' → known s'
  unseen : ∀ {s a s' t}, known s → agree s t → sees a = false → ok s a s' → step s a = some s' → agree s' t
  seen : ∀ {s a s' t}, known s → known t → agree s t → sees a = true → ok s a s' → step s a = some s' →
    ∃ t', ok t a t' ∧ step t a = some t' ∧ agree s' t'

/-- The unseen actions of a run can be left out. -/
theorem Conditions.purge (c : Conditions step ok sees known agree) (hs : known s) (ht : known t) (hst : agree s t)
    (run : Lts.Run step ok s as s') :
    known s' ∧ ∃ t', Lts.Run step ok t (as.filter sees) t' ∧ known t' ∧ agree s' t' := by
  induction run with
  | nil => exact ⟨hs, t, .nil, ht, hst⟩
  | snoc a _ hok hstep ih =>
    obtain ⟨hu, v, run, hv, huv⟩ := ih
    refine ⟨c.keeps hu hok hstep, ?_⟩
    rw [List.filter_append]
    cases hsee : sees a with
    | false =>
      rw [List.filter_cons_of_neg (by simp [hsee]), List.filter_nil, List.append_nil]
      exact ⟨v, run, hv, c.unseen hu huv hsee hok hstep⟩
    | true =>
      obtain ⟨v', hok', hstep', agrees⟩ := c.seen hu hv huv hsee hok hstep
      rw [List.filter_cons_of_pos hsee, List.filter_nil]
      exact ⟨v', run.snoc a hok' hstep', c.keeps hv hok' hstep', agrees⟩

/-- A run's actions determine where it ends. -/
theorem run_unique (run : Lts.Run step ok s as t) : ∀ {t'}, Lts.Run step ok s as t' → t' = t := by
  induction run with
  | nil =>
    intro t' run'
    generalize hnil : ([] : List α) = l at run'
    cases run' with
    | nil => rfl
    | snoc a _ _ _ => exact absurd hnil.symm (List.append_ne_nil_of_right_ne_nil _ (List.cons_ne_nil a []))
  | @snoc u v as a _ _ hstep ih =>
    intro t' run'
    generalize hsnoc : as ++ [a] = l at run'
    cases run' with
    | nil => exact absurd hsnoc (List.append_ne_nil_of_right_ne_nil _ (List.cons_ne_nil a []))
    | snoc b run' _ hstep' =>
      obtain ⟨rfl, hab⟩ := List.append_inj' hsnoc rfl
      cases hab
      rw [ih run', hstep] at hstep'
      exact (Option.some.inj hstep').symm

/-- Runs with the same seen actions end in states that look the same. -/
theorem Conditions.runs_agree (c : Conditions step ok sees known agree) (hs : known s) (hss : agree s s)
    (meet : ∀ {t t' u}, agree t u → agree t' u → agree t t') (run : Lts.Run step ok s as t)
    (run' : Lts.Run step ok s bs t') (same : bs.filter sees = as.filter sees) : agree t t' := by
  obtain ⟨-, u, purged, -, htu⟩ := c.purge hs hs hss run
  obtain ⟨-, u', purged', -, htu'⟩ := c.purge hs hs hss run'
  rw [same] at purged'
  cases run_unique purged purged'
  exact meet htu htu'

end Unwinding

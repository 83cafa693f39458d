import Mathlib.Data.Finset.Card

/-! Guessing games. A system keeps a secret and answers requests; whoever asks chooses the next request by the answers so
    far. A request is right for at most one secret, and only so many requests can be right for any. Then for all secrets
    but that many the answers are those of a system without the secret. -/

namespace Guessing

variable {κ σ τ α ρ : Type}

/-- The requests made and their answers, over `n` rounds. The game ends early where a request is not answered. -/
def play (step : σ → α → Option (ρ × σ)) (strategy : List (α × ρ) → α) : ℕ → σ → List (α × ρ) → List (α × ρ)
  | 0, _, seen => seen
  | n + 1, s, seen =>
    match step s (strategy seen) with
    | none => seen
    | some (answer, s') => play step strategy n s' (seen ++ [(strategy seen, answer)])

/-- The system without the secret. It also says for which secret a request would have been right. -/
abbrev Ideal (κ τ α ρ : Type) := τ → α → Option (Option κ × ρ × τ)

def Ideal.step (ideal : Ideal κ τ α ρ) (t : τ) (a : α) : Option (ρ × τ) := (ideal t a).map Prod.snd

/-- How the system with the secret `k` goes along with the one without, where no more than `left` requests can be right. -/
structure Conditions (real : σ → α → Option (ρ × σ)) (ideal : Ideal κ τ α ρ) (left : τ → ℕ) (hides : κ → σ → τ → Prop) :
    Prop where
  spends : ∀ {k s t a guess answer t'}, hides k s t → ideal t a = some (guess, answer, t') →
    left t' + guess.toList.length ≤ left t
  ends : ∀ {k s t a}, hides k s t → ideal t a = none → real s a = none
  same : ∀ {k s t a guess answer t'}, hides k s t → ideal t a = some (guess, answer, t') → guess ≠ some k →
    ∃ s', real s a = some (answer, s') ∧ hides k s' t'

section
variable {real : σ → α → Option (ρ × σ)} {ideal : Ideal κ τ α ρ} {left : τ → ℕ} {hides : κ → σ → τ → Prop}

/-- Whatever the strategy, all secrets but `left t` give the answers that the system without one gives. -/
theorem Conditions.all_but_few [DecidableEq κ] (c : Conditions real ideal left hides)
    (strategy : List (α × ρ) → α) (n : ℕ) :
    ∀ (t : τ) (seen : List (α × ρ)), ∃ found : Finset κ, found.card ≤ left t ∧
      ∀ k ∉ found, ∀ s, hides k s t → play real strategy n s seen = play ideal.step strategy n t seen := by
  induction n with
  | zero => exact fun t seen => ⟨∅, Nat.zero_le _, fun _ _ _ _ => rfl⟩
  | succ n ih =>
    intro t seen
    by_cases hidden : ∃ k s, hides k s t
    · obtain ⟨k₀, s₀, hs₀⟩ := hidden
      cases hi : ideal t (strategy seen) with
      | none =>
        refine ⟨∅, Nat.zero_le _, fun k _ s hs => ?_⟩
        simp only [play, Ideal.step, c.ends hs hi, hi, Option.map_none]
      | some next =>
        obtain ⟨guess, answer, t'⟩ := next
        obtain ⟨found, few, rest⟩ := ih t' (seen ++ [(strategy seen, answer)])
        refine ⟨guess.toList.toFinset ∪ found, ?_, fun k hk s hs => ?_⟩
        · have bound := c.spends hs₀ hi
          have one := List.toFinset_card_le guess.toList
          have union := Finset.card_union_le guess.toList.toFinset found
          omega
        · rw [Finset.notMem_union, List.mem_toFinset, Option.mem_toList] at hk
          obtain ⟨s', hreal, hs'⟩ := c.same hs hi hk.1
          simp only [play, Ideal.step, hreal, hi, Option.map_some]
          exact rest k hk.2 s' hs'
    · exact ⟨∅, Nat.zero_le _, fun k _ s hs => absurd ⟨k, s, hs⟩ hidden⟩

/-- What holds of every request and its answer while an invariant does. -/
theorem play_forall {step : σ → α → Option (ρ × σ)} {known : σ → Prop} {P : α × ρ → Prop}
    (keeps : ∀ s a answer s', known s → step s a = some (answer, s') → known s' ∧ P (a, answer))
    (strategy : List (α × ρ) → α) (n : ℕ) :
    ∀ (s : σ) (seen : List (α × ρ)), known s → (∀ q ∈ seen, P q) → ∀ q ∈ play step strategy n s seen, P q := by
  induction n with
  | zero => exact fun _ _ _ all => all
  | succ n ih =>
    intro s seen hs all
    simp only [play]
    cases hstep : step s (strategy seen) with
    | none => exact all
    | some next =>
      obtain ⟨answer, s'⟩ := next
      obtain ⟨hs', here⟩ := keeps s _ answer s' hs hstep
      refine ih s' _ hs' fun q hq => ?_
      rcases List.mem_append.mp hq with hq | hq
      · exact all q hq
      · exact List.mem_singleton.mp hq ▸ here

end

end Guessing

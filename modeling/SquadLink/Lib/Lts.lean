/-! Labelled transition systems given by a partial step function: runs whose steps all meet a side
    condition, the invariant rule for them, and the execution of a written-out list of actions. -/

namespace Lts

variable {σ α : Type}

/-! ### Histories

A history grows at its end, so an entry of the grown history is an old one or one of those added. -/

/-- Where an entry of a grown history stands. -/
theorem split_grown {ε : Type} {old new pre post : List ε} {x : ε} (h : old ++ new = pre ++ x :: post) :
    (∃ mid, old = pre ++ x :: mid ∧ post = mid ++ new) ∨ ∃ mid, pre = old ++ mid ∧ new = mid ++ x :: post := by
  rcases List.append_eq_append_iff.mp h with ⟨mid, hpre, hnew⟩ | ⟨mid, hold, hx⟩
  · exact Or.inr ⟨mid, hpre, hnew⟩
  · rcases List.cons_eq_append_iff.mp hx with ⟨rfl, hnew⟩ | ⟨mid', rfl, hpost⟩
    · exact Or.inr ⟨[], by simpa using hold.symm, hnew⟩
    · exact Or.inl ⟨mid', hold, hpost⟩

theorem split_snoc {ε : Type} {old pre post : List ε} {x y : ε} (h : old ++ [y] = pre ++ x :: post) :
    (∃ mid, old = pre ++ x :: mid ∧ post = mid ++ [y]) ∨ (pre = old ∧ x = y ∧ post = []) := by
  rcases split_grown h with hold | ⟨mid, rfl, hnew⟩
  · exact Or.inl hold
  · rcases List.singleton_eq_append_iff.mp hnew with ⟨rfl, hx⟩ | ⟨-, hx⟩
    · cases hx
      exact Or.inr ⟨List.append_nil old, rfl, rfl⟩
    · cases hx

/-- What holds of each entry of a list and the entries before it. -/
theorem forall_split_snoc {ε : Type} {P : List ε → ε → Prop} {l : List ε} {y : ε} :
    (∀ pre x post, l ++ [y] = pre ++ x :: post → P pre x) ↔ (∀ pre x post, l = pre ++ x :: post → P pre x) ∧ P l y := by
  constructor
  · intro h
    exact ⟨fun pre x post hl => h pre x (post ++ [y]) (by simp [hl]), h l y [] rfl⟩
  · rintro ⟨h, hy⟩ pre x post hl
    rcases split_snoc hl with ⟨mid, hl, -⟩ | ⟨rfl, rfl, -⟩
    · exact h pre x mid hl
    · exact hy

/-! ### Runs -/

/-- `Reach step ok s t`: a run from `s` to `t` whose steps all meet `ok`, which reads the state before a
    step, its action and the state after it. -/
inductive Reach (step : σ → α → Option σ) (ok : σ → α → σ → Prop) (s : σ) : σ → Prop
  | refl : Reach step ok s s
  | step {t u : σ} (a : α) : Reach step ok s t → ok t a u → step t a = some u → Reach step ok s u

/-- The side condition that every step meets. -/
def anyStep (_ : σ) (_ : α) (_ : σ) : Prop := True

namespace Reach
variable {step : σ → α → Option σ} {ok ok' : σ → α → σ → Prop} {s t u : σ}

theorem trans (h₁ : Reach step ok s t) (h₂ : Reach step ok t u) : Reach step ok s u := by
  induction h₂ with
  | refl => exact h₁
  | step a _ hok hs ih => exact ih.step a hok hs

theorem mono (hle : ∀ t a u, ok t a u → ok' t a u) (h : Reach step ok s t) : Reach step ok' s t := by
  induction h with
  | refl => exact .refl
  | step a _ hok hs ih => exact ih.step a (hle _ _ _ hok) hs

theorem any (h : Reach step ok s t) : Reach step anyStep s t := h.mono fun _ _ _ _ => trivial

/-- The invariant rule: what holds at the start and is kept by every step that meets the side
    condition holds at the end of every run. -/
theorem invariant {P : σ → Prop} (h : Reach step ok s t) (init : P s)
    (keep : ∀ t a u, P t → ok t a u → step t a = some u → P u) : P t := by
  induction h with
  | refl => exact init
  | step a _ hok hs ih => exact keep _ a _ ih hok hs

/-- The invariant rule on top of an invariant `Q` that is already known. -/
theorem invariant_over {P Q : σ → Prop} (h : Reach step ok s t) (known : ∀ t, Reach step ok s t → Q t)
    (init : P s) (keep : ∀ t a u, Q t → Q u → P t → ok t a u → step t a = some u → P u) : P t := by
  induction h with
  | refl => exact init
  | step a hr hok hs ih => exact keep _ a _ (known _ hr) (known _ (hr.step a hok hs)) ih hok hs

/-- A run goes through to a system that follows every step by a step of its own, with a side condition of its own, or by
    standing still. -/
theorem simulate_over {τ β : Type} {step' : τ → β → Option τ} {ok' : τ → β → τ → Prop} {f : σ → τ} (h : Reach step ok s t)
    (sim : ∀ t a u, ok t a u → step t a = some u → f u = f t ∨ ∃ b, ok' (f t) b (f u) ∧ step' (f t) b = some (f u)) :
    Reach step' ok' (f s) (f t) := by
  induction h with
  | refl => exact .refl
  | @step t u a _ hok hs ih =>
    rcases sim t a u hok hs with heq | ⟨b, hok', hb⟩
    · exact heq ▸ ih
    · exact ih.step b hok' hb

theorem simulate {τ β : Type} {step' : τ → β → Option τ} {f : σ → τ} (h : Reach step ok s t)
    (sim : ∀ t a u, ok t a u → step t a = some u → f u = f t ∨ ∃ b, step' (f t) b = some (f u)) :
    Reach step' anyStep (f s) (f t) :=
  h.simulate_over fun t a u hok hs => (sim t a u hok hs).imp_right fun ⟨b, hb⟩ => ⟨b, trivial, hb⟩

/-- A run over other labels, each of which stands for an action. -/
theorem relabel {β : Type} (f : β → α) (h : Reach (fun s b => step s (f b)) (fun s b t => ok s (f b) t) s t) :
    Reach step ok s t := by
  induction h with
  | refl => exact .refl
  | step b _ hok hs ih => exact ih.step (f b) hok hs

end Reach

/-- `Run step ok s as t`: a run from `s` to `t` by the actions `as`, whose steps all meet `ok`. -/
inductive Run (step : σ → α → Option σ) (ok : σ → α → σ → Prop) (s : σ) : List α → σ → Prop
  | nil : Run step ok s [] s
  | snoc {t u : σ} {as : List α} (a : α) : Run step ok s as t → ok t a u → step t a = some u →
      Run step ok s (as ++ [a]) u

theorem Run.reach {step : σ → α → Option σ} {ok : σ → α → σ → Prop} {s t : σ} {as : List α}
    (h : Run step ok s as t) : Reach step ok s t := by
  induction h with
  | nil => exact .refl
  | snoc a _ hok hs ih => exact ih.step a hok hs

theorem Run.any {step : σ → α → Option σ} {ok : σ → α → σ → Prop} {s t : σ} {as : List α} (h : Run step ok s as t) :
    Run step anyStep s as t := by
  induction h with
  | nil => exact .nil
  | snoc a _ _ hs ih => exact ih.snoc a trivial hs

theorem Run.append {step : σ → α → Option σ} {ok : σ → α → σ → Prop} {s t u : σ} {as bs : List α}
    (h₁ : Run step ok s as t) (h₂ : Run step ok t bs u) : Run step ok s (as ++ bs) u := by
  induction h₂ with
  | nil => exact (List.append_nil as).symm ▸ h₁
  | snoc b _ hok hs ih => exact List.append_assoc .. ▸ ih.snoc b hok hs

/-- A run goes through the step of each of its actions. -/
theorem Run.split {step : σ → α → Option σ} {ok : σ → α → σ → Prop} {s t : σ} {as : List α} (h : Run step ok s as t) :
    ∀ {pre post : List α} {a : α}, as = pre ++ a :: post →
      ∃ u v, Run step ok s pre u ∧ ok u a v ∧ step u a = some v ∧ Run step ok v post t := by
  induction h with
  | nil => intro pre post a h; cases pre <;> cases h
  | @snoc t v as b hr hok hs ih =>
    intro pre post a h
    rcases split_snoc h with ⟨post, has, rfl⟩ | ⟨rfl, rfl, rfl⟩
    · obtain ⟨u, w, hpre, hok', hs', hpost⟩ := ih has
      exact ⟨u, w, hpre, hok', hs', hpost.snoc b hok hs⟩
    · exact ⟨t, v, hr, hok, hs, .nil⟩

/-- A run that loses a property has a step that loses it. -/
theorem Run.crosses {step : σ → α → Option σ} {ok : σ → α → σ → Prop} {P : σ → Prop} {s t : σ} {as : List α}
    (h : Run step ok s as t) (hs : P s) (ht : ¬ P t) :
    ∃ pre a post u v, as = pre ++ a :: post ∧ Run step ok s pre u ∧ P u ∧ step u a = some v ∧
      ¬ P v ∧ Run step ok v post t := by
  induction h with
  | nil => exact absurd hs ht
  | @snoc t u as a hr hok hstep ih =>
    by_cases hp : P t
    · exact ⟨as, a, [], t, u, rfl, hr, hp, hstep, ht, .nil⟩
    · obtain ⟨pre, b, post, v, w, rfl, hpre, hv, hb, hw, hpost⟩ := ih hp
      exact ⟨pre, b, post ++ [a], v, w, by simp, hpre, hv, hb, hw, hpost.snoc a hok hstep⟩

/-- The state after a list of actions, if every one of them is enabled. -/
def exec (step : σ → α → Option σ) : σ → List α → Option σ
  | s, [] => some s
  | s, a :: as => (step s a).bind fun t => exec step t as

theorem exec_append {step : σ → α → Option σ} :
    ∀ (as bs : List α) (s : σ), exec step s (as ++ bs) = (exec step s as).bind fun t => exec step t bs
  | [], _, _ => rfl
  | a :: as, bs, s => by
    simp only [List.cons_append, exec]
    cases step s a with
    | none => rfl
    | some t => exact exec_append as bs t

theorem Reach.of_exec {step : σ → α → Option σ} {ok : σ → α → σ → Prop}
    (all : ∀ t a u, step t a = some u → ok t a u) :
    ∀ {as : List α} {s t : σ}, exec step s as = some t → Reach step ok s t
  | [], s, t, h => by
    cases Option.some.inj h
    exact .refl
  | a :: as, s, t, h => by
    obtain ⟨u, hu, h⟩ := Option.bind_eq_some_iff.mp h
    exact (Reach.refl.step a (all _ _ _ hu) hu).trans (Reach.of_exec all h)

theorem Run.of_exec {step : σ → α → Option σ} :
    ∀ {as : List α} {s t : σ}, exec step s as = some t → Run step anyStep s as t
  | [], s, t, h => by
    cases Option.some.inj h
    exact .nil
  | a :: as, s, t, h => by
    obtain ⟨u, hu, h⟩ := Option.bind_eq_some_iff.mp h
    exact (Run.nil.snoc a trivial hu).append (Run.of_exec h)

/-- The execution of a list of actions whose steps all pass the test `ok`. -/
def execOk (step : σ → α → Option σ) (ok : σ → α → σ → Bool) : σ → List α → Option σ
  | s, [] => some s
  | s, a :: as => (step s a).bind fun t => if ok s a t then execOk step ok t as else none

theorem Run.of_execOk {step : σ → α → Option σ} {test : σ → α → σ → Bool} {ok : σ → α → σ → Prop}
    (sound : ∀ t a u, test t a u = true → ok t a u) :
    ∀ {as : List α} {s t : σ}, execOk step test s as = some t → Run step ok s as t
  | [], s, t, h => by
    cases Option.some.inj h
    exact .nil
  | a :: as, s, t, h => by
    obtain ⟨u, hu, h⟩ := Option.bind_eq_some_iff.mp h
    by_cases htest : test s a u = true
    · rw [if_pos htest] at h
      exact (Run.nil.snoc a (sound _ _ _ htest) hu).append (Run.of_execOk sound h)
    · rw [if_neg htest] at h
      cases h

theorem Reach.of_execOk {step : σ → α → Option σ} {test : σ → α → σ → Bool} {ok : σ → α → σ → Prop}
    (sound : ∀ t a u, test t a u = true → ok t a u) {as : List α} {s t : σ} (h : execOk step test s as = some t) :
    Reach step ok s t := (Run.of_execOk sound h).reach

end Lts

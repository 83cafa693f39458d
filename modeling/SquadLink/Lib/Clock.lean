import Mathlib.Data.List.Induction
import Mathlib.Order.Lattice
import Mathlib.Order.Nat
import SquadLink.Lib.Lts

/-! Calls that carry the clock value at which they happen: lists of them along which the clock never goes
    back, and the two inductions over such lists, for a fold and for a run. -/

namespace Clock

variable {σ α τ : Type} [Preorder τ] [OrderBot τ] {time : α → τ} {as : List α} {a : α}

/-- The clock never goes back from one call to a later one. -/
def Timely (time : α → τ) (as : List α) : Prop := as.Pairwise fun a b => time a ≤ time b

instance [DecidableLE τ] : Decidable (Timely time as) :=
  inferInstanceAs (Decidable (as.Pairwise fun a b => time a ≤ time b))

/-- The clock value of the last call. -/
def last (time : α → τ) (as : List α) : τ := (as.getLast?.map time).getD ⊥

@[simp] theorem last_nil : last time [] = ⊥ := rfl

@[simp] theorem last_snoc : last time (as ++ [a]) = time a := by simp [last]

theorem Timely.le_last (h : Timely time as) : ∀ a ∈ as, time a ≤ last time as := by
  induction as using List.reverseRecOn with
  | nil => intro a ha; cases ha
  | append_singleton as b _ =>
    intro a ha
    rw [last_snoc]
    rcases List.mem_append.mp ha with ha | ha
    · exact (List.pairwise_append.mp h).2.2 a ha b (List.mem_singleton_self b)
    · exact List.mem_singleton.mp ha ▸ le_refl _

theorem timely_snoc : Timely time (as ++ [a]) ↔ Timely time as ∧ last time as ≤ time a := by
  constructor
  · intro h
    refine ⟨(List.pairwise_append.mp h).1, ?_⟩
    induction as using List.reverseRecOn with
    | nil => exact bot_le
    | append_singleton as b _ =>
      rw [last_snoc]
      exact (List.pairwise_append.mp h).2.2 b (by simp) a (List.mem_singleton_self a)
  · rintro ⟨h, hle⟩
    refine List.pairwise_append.mpr ⟨h, List.pairwise_singleton _ a, fun b hb c hc => ?_⟩
    rw [List.mem_singleton.mp hc]
    exact (h.le_last b hb).trans hle

omit [OrderBot τ] in
theorem Timely.insert {before after extra : List α} {c : α} (h : Timely time (before ++ c :: after))
    (same : ∀ b ∈ extra, time b = time c) : Timely time (before ++ (extra ++ c :: after)) := by
  obtain ⟨hbefore, hafter, hcross⟩ := List.pairwise_append.mp h
  have late : ∀ b ∈ extra, ∀ d ∈ c :: after, time b ≤ time d := fun b hb d hd => by
    rw [same b hb]
    rcases List.mem_cons.mp hd with rfl | hd
    · exact le_refl _
    · exact (List.pairwise_cons.mp hafter).1 d hd
  have alone : extra.Pairwise fun a b => time a ≤ time b :=
    List.pairwise_of_forall_mem_list fun a ha b hb => by rw [same a ha, same b hb]
  refine List.pairwise_append.mpr ⟨hbefore, List.pairwise_append.mpr ⟨alone, hafter, late⟩, fun a ha b hb => ?_⟩
  rcases List.mem_append.mp hb with hb | hb
  · rw [same b hb]
    exact hcross a ha c List.mem_cons_self
  · exact hcross a ha b hb

/-- What holds at the start and is kept by every call at a time not before the last one holds after a
    fold over timely calls. -/
theorem Timely.foldl {f : σ → α → σ} {s : σ} {P : τ → σ → Prop} (h : Timely time as) (init : P ⊥ s)
    (keep : ∀ t s a, P t s → t ≤ time a → P (time a) (f s a)) : P (last time as) (as.foldl f s) := by
  induction as using List.reverseRecOn with
  | nil => exact init
  | append_singleton as a ih =>
    obtain ⟨h, hle⟩ := timely_snoc.mp h
    rw [List.foldl_append, last_snoc]
    exact keep _ _ a (ih h) hle

/-- The invariant rule for a run of timely calls, for what holds of the calls so far and the state. -/
theorem Timely.run {step : σ → α → Option σ} {ok : σ → α → σ → Prop} {s t : σ} {P : List α → σ → Prop}
    (h : Timely time as) (run : Lts.Run step ok s as t) (init : P [] s)
    (keep : ∀ as t a u, Timely time as → P as t → last time as ≤ time a → ok t a u → step t a = some u → P (as ++ [a]) u) :
    P as t := by
  induction run with
  | nil => exact init
  | @snoc t u as a _ hok hs ih =>
    obtain ⟨h, hle⟩ := timely_snoc.mp h
    exact keep as t a u h (ih h) hle hok hs

/-- Timely calls stand in the order of any clock value: first those before it, then the others. -/
theorem Timely.split {τ : Type} [LinearOrder τ] {time : α → τ} (c : τ) : ∀ {as : List α}, Timely time as →
    ∃ before after, as = before ++ after ∧ (∀ a ∈ before, time a < c) ∧ ∀ a ∈ after, c ≤ time a
  | [], _ => ⟨[], [], rfl, List.forall_mem_nil _, List.forall_mem_nil _⟩
  | a :: as, h => by
    obtain ⟨hle, h⟩ := List.pairwise_cons.mp h
    rcases lt_or_ge (time a) c with hlt | hge
    · obtain ⟨before, after, rfl, hbefore, hafter⟩ := Timely.split c h
      refine ⟨a :: before, after, rfl, fun b hb => ?_, hafter⟩
      rcases List.mem_cons.mp hb with rfl | hb
      · exact hlt
      · exact hbefore b hb
    · refine ⟨[], a :: as, rfl, List.forall_mem_nil _, fun b hb => ?_⟩
      rcases List.mem_cons.mp hb with rfl | hb
      · exact hge
      · exact hge.trans (hle b hb)

/-! ### Windows

Calls are counted in windows of one length that do not overlap. -/

section
variable {time start : α → ℕ} {length : ℕ} {calls : List α} {p : α → Bool} {m : ℕ}

/-- Every call falls into its window, and the windows of the calls do not overlap. -/
structure Tiled (time start : α → ℕ) (length : ℕ) (calls : List α) : Prop where
  inside : ∀ a ∈ calls, start a ≤ time a ∧ time a < start a + length
  apart : ∀ a ∈ calls, ∀ b ∈ calls, start a = start b ∨ start a + length ≤ start b ∨ start b + length ≤ start a

theorem Tiled.snoc {c : α} (h : Tiled time start length calls) (hc : start c ≤ time c ∧ time c < start c + length)
    (behind : ∀ a ∈ calls, start a = start c ∨ start a + length ≤ start c) : Tiled time start length (calls ++ [c]) := by
  refine ⟨fun a ha => ?_, fun a ha b hb => ?_⟩
  · rcases List.mem_append.mp ha with ha | ha
    · exact h.inside a ha
    · exact List.mem_singleton.mp ha ▸ hc
  · rcases List.mem_append.mp ha with ha | ha <;> rcases List.mem_append.mp hb with hb | hb
    · exact h.apart a ha b hb
    · rw [List.mem_singleton.mp hb]
      exact (behind a ha).imp_right Or.inl
    · rw [List.mem_singleton.mp ha]
      exact (behind b hb).imp Eq.symm Or.inr
    · rw [List.mem_singleton.mp ha, List.mem_singleton.mp hb]
      exact Or.inl rfl

/-- Calls that all fall into one window are no more than any window holds. -/
theorem countP_le_of_start_eq {q : α → Bool} (bound : ∀ s, calls.countP (fun a => p a && start a == s) ≤ m)
    (same : ∀ a ∈ calls, ∀ b ∈ calls, q a = true → q b = true → start a = start b) :
    calls.countP (fun a => p a && q a) ≤ m := by
  by_cases hq : ∃ a ∈ calls, q a = true
  · obtain ⟨a, ha, hqa⟩ := hq
    refine le_trans (List.countP_mono_left fun b hb hpb => ?_) (bound (start a))
    rw [Bool.and_eq_true] at hpb ⊢
    exact ⟨hpb.1, beq_iff_eq.mpr (same b hb a ha hpb.2 hqa)⟩
  · refine le_of_eq_of_le (List.countP_eq_zero.mpr fun a ha hpa => hq ⟨a, ha, ?_⟩) (Nat.zero_le m)
    exact (Bool.and_eq_true_iff.mp hpa).2

/-- An interval as long as a window meets at most two windows: one that began before it, and one that
    begins in it. -/
theorem Tiled.countP_interval_le (h : Tiled time start length calls)
    (bound : ∀ s, calls.countP (fun a => p a && start a == s) ≤ m) (t : ℕ) :
    calls.countP (fun a => p a && (decide (t ≤ time a) && decide (time a < t + length))) ≤ 2 * m := by
  have early : calls.countP (fun a => p a && (decide (start a < t) && decide (t ≤ time a))) ≤ m := by
    refine countP_le_of_start_eq bound fun a ha b hb hqa hqb => ?_
    simp only [Bool.and_eq_true, decide_eq_true_eq] at hqa hqb
    have := h.inside a ha
    have := h.inside b hb
    rcases h.apart a ha b hb with heq | hlt | hlt <;> omega
  have late : calls.countP (fun a => p a && (decide (t ≤ start a) && decide (time a < t + length))) ≤ m := by
    refine countP_le_of_start_eq bound fun a ha b hb hqa hqb => ?_
    simp only [Bool.and_eq_true, decide_eq_true_eq] at hqa hqb
    have := h.inside a ha
    have := h.inside b hb
    rcases h.apart a ha b hb with heq | hlt | hlt <;> omega
  rw [List.countP_eq_countP_filter_add calls _ fun a => decide (start a < t), List.countP_filter, List.countP_filter,
    Nat.two_mul]
  refine Nat.add_le_add (le_trans (List.countP_mono_left fun a _ hp => ?_) early)
    (le_trans (List.countP_mono_left fun a _ hp => ?_) late)
  · simp only [Bool.and_eq_true, decide_eq_true_eq] at hp ⊢
    exact ⟨hp.1.1, hp.2, hp.1.2.1⟩
  · simp only [Bool.and_eq_true, Bool.not_eq_true', decide_eq_true_eq, decide_eq_false_iff_not, not_lt] at hp ⊢
    exact ⟨hp.1.1, hp.2, hp.1.2.2⟩

end

end Clock

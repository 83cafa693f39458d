import Mathlib.Data.List.Basic

/-! Backtracking regular expressions: a matcher gives what it can take from the front of a text, in the order in
    which it is tried, each with what follows it. -/

namespace Matching

variable {α : Type}

abbrev Matcher (α : Type) := List α → List (List α × List α)

/-- `x`. -/
def lit [DecidableEq α] (x : α) : Matcher α
  | [] => []
  | c :: s => if c = x then [([c], s)] else []

/-- `[p]+`: the longest run first. -/
def plus (p : α → Bool) : Matcher α
  | [] => []
  | c :: s => if p c then ((plus p s).map fun m => (c :: m.1, m.2)) ++ [([c], s)] else []

/-- One matcher after the other. -/
def seq (m n : Matcher α) : Matcher α := fun s => (m s).flatMap fun a => (n a.2).map fun b => (a.1 ++ b.1, b.2)

/-- The first match at the leftmost place that has one. -/
def search (m : Matcher α) : List α → Option (List α)
  | [] => (m []).head?.map Prod.fst
  | c :: s => ((m (c :: s)).head?.map Prod.fst).or (search m s)

section
variable {m n : Matcher α} {p : α → Bool} {s v r : List α}

theorem mem_lit [DecidableEq α] {x : α} : (v, r) ∈ lit x s ↔ v = [x] ∧ s = x :: r := by
  cases s with
  | nil => simp [lit]
  | cons c s =>
    by_cases hc : c = x
    · subst hc
      simp [lit, eq_comm]
    · simp [lit, hc]

theorem mem_plus : (v, r) ∈ plus p s ↔ s = v ++ r ∧ v ≠ [] ∧ ∀ c ∈ v, p c = true := by
  induction s generalizing v with
  | nil =>
    refine iff_of_false List.not_mem_nil ?_
    rintro ⟨h, hne, -⟩
    exact hne (List.append_eq_nil_iff.mp h.symm).1
  | cons c s ih =>
    by_cases hc : p c = true
    · rw [plus, if_pos hc, List.mem_append, List.mem_map, List.mem_singleton]
      constructor
      · rintro (⟨⟨v, r⟩, hv, heq⟩ | heq)
        · cases heq
          obtain ⟨rfl, -, hall⟩ := ih.mp hv
          exact ⟨rfl, List.cons_ne_nil c v, List.forall_mem_cons.mpr ⟨hc, hall⟩⟩
        · cases heq
          exact ⟨rfl, List.cons_ne_nil c [], List.forall_mem_singleton.mpr hc⟩
      · rintro ⟨hs, hne, hall⟩
        cases v with
        | nil => exact absurd rfl hne
        | cons d v =>
          obtain ⟨rfl, rfl⟩ := List.cons.inj hs
          cases v with
          | nil => exact Or.inr rfl
          | cons e v =>
            have rest := ih.mpr ⟨rfl, List.cons_ne_nil e v, (List.forall_mem_cons.mp hall).2⟩
            exact Or.inl ⟨(e :: v, r), rest, rfl⟩
    · rw [plus, if_neg hc]
      refine iff_of_false List.not_mem_nil ?_
      rintro ⟨hs, hne, hall⟩
      cases v with
      | nil => exact hne rfl
      | cons d v =>
        cases (List.cons.inj hs).1
        exact hc (hall c List.mem_cons_self)

theorem mem_seq : (v, r) ∈ seq m n s ↔ ∃ a rest b, (a, rest) ∈ m s ∧ (b, r) ∈ n rest ∧ v = a ++ b := by
  simp only [seq, List.mem_flatMap, List.mem_map, Prod.mk.injEq, Prod.exists]
  constructor
  · rintro ⟨a, rest, ha, b, r, hb, rfl, rfl⟩
    exact ⟨a, rest, b, ha, hb, rfl⟩
  · rintro ⟨a, rest, b, ha, hb, rfl⟩
    exact ⟨a, rest, ha, b, r, hb, rfl, rfl⟩

/-- What a search finds was matched somewhere in the text. -/
theorem mem_of_search (h : search m s = some v) : ∃ pre suf r, s = pre ++ suf ∧ (v, r) ∈ m suf := by
  have here {s : List α} (h : (m s).head?.map Prod.fst = some v) : ∃ r, (v, r) ∈ m s := by
    obtain ⟨⟨v, r⟩, hh, rfl⟩ := Option.map_eq_some_iff.mp h
    exact ⟨r, List.mem_of_mem_head? hh⟩
  induction s with
  | nil =>
    obtain ⟨r, hr⟩ := here h
    exact ⟨[], [], r, rfl, hr⟩
  | cons c s ih =>
    rcases Option.or_eq_some_iff.mp h with h | ⟨-, h⟩
    · obtain ⟨r, hr⟩ := here h
      exact ⟨[], c :: s, r, rfl, hr⟩
    · obtain ⟨pre, suf, r, rfl, hr⟩ := ih h
      exact ⟨c :: pre, suf, r, rfl, hr⟩

/-- A search comes back empty-handed only if there is no match anywhere. -/
theorem search_eq_none : search m s = none ↔ ∀ pre suf, s = pre ++ suf → m suf = [] := by
  have here (s : List α) : (m s).head?.map Prod.fst = none ↔ m s = [] := by
    rw [Option.map_eq_none_iff, List.head?_eq_none_iff]
  induction s with
  | nil =>
    rw [search, here]
    constructor
    · intro h pre suf hs
      rw [(List.append_eq_nil_iff.mp hs.symm).2]
      exact h
    · exact fun h => h [] [] rfl
  | cons c s ih =>
    rw [search, Option.or_eq_none_iff, here]
    refine (and_congr_right fun _ => ih).trans ?_
    constructor
    · rintro ⟨h, hrest⟩ pre suf hs
      cases pre with
      | nil =>
        rw [List.nil_append] at hs
        exact hs ▸ h
      | cons d pre => exact hrest pre suf (List.cons.inj hs).2
    · exact fun h => ⟨h [] (c :: s) rfl, fun pre suf hs => h (c :: pre) suf (by rw [hs]; rfl)⟩

end

end Matching

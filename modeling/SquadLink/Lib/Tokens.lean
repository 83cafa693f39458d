import Mathlib.Algebra.Ring.Nat
import Mathlib.Order.Nat
import Mathlib.Tactic.ByContra

/-! Tokens of one kind that lie at places: `n i` of them at place `i`. Tokens move from one place to another and
    get lost. Neither makes two of one. -/

namespace Tokens

variable {ι : Type}

/-- There is at most one token. -/
def Single (n : ι → Nat) : Prop := (∀ i, n i ≤ 1) ∧ ∀ i j, 0 < n i → 0 < n j → i = j

/-- There is no token. -/
def None (n : ι → Nat) : Prop := ∀ i, n i = 0

/-- Tokens got lost, and some of those at one place may have moved to another one. -/
inductive Shift (n n' : ι → Nat) : Prop
  | lost (le : ∀ i, n' i ≤ n i)
  | moved (src dst : ι) (x : Nat) (ne : src ≠ dst) (taken : n' src + x ≤ n src) (put : n' dst ≤ n dst + x)
      (le : ∀ i, i ≠ src → i ≠ dst → n' i ≤ n i)

section
variable {n n' : ι → Nat}

theorem None.single (h : None n) : Single n :=
  ⟨fun i => (h i).le.trans (Nat.zero_le 1), fun i _ hi => absurd hi (by rw [h i]; exact Nat.lt_irrefl 0)⟩

theorem None.mono (h : None n) (le : ∀ i, n' i ≤ n i) : None n' := fun i => Nat.le_zero.mp ((le i).trans (h i).le)

theorem Single.mono (h : Single n) (le : ∀ i, n' i ≤ n i) : Single n' :=
  ⟨fun i => (le i).trans (h.1 i), fun i j hi hj => h.2 i j (hi.trans_le (le i)) (hj.trans_le (le j))⟩

/-- Where one token lies there is no other place with one. -/
theorem Single.other (h : Single n) {i j : ι} (hi : 0 < n i) (hj : j ≠ i) : n j = 0 :=
  Nat.eq_zero_of_not_pos fun pos => hj (h.2 j i pos hi)

/-- Over different places there is one token in all. -/
theorem Single.sum_le (h : Single n) {l : List ι} (nodup : l.Nodup) : (l.map n).sum ≤ 1 := by
  induction l with
  | nil => exact Nat.zero_le 1
  | cons i l ih =>
    obtain ⟨hi, nodup⟩ := List.nodup_cons.mp nodup
    rw [List.map_cons, List.sum_cons]
    by_cases pos : 0 < n i
    · have rest : (l.map n).sum = 0 := by
        refine List.sum_eq_zero_iff_forall_eq_nat.mpr fun m hm => ?_
        obtain ⟨j, hj, rfl⟩ := List.mem_map.mp hm
        exact h.other pos fun he => hi (he ▸ hj)
      have := h.1 i
      omega
    · have := ih nodup
      omega

/-- Once the token is taken away nothing is left. -/
theorem Single.taken (h : Single n) {i : ι} (taken : n' i + 1 ≤ n i) (le : ∀ j, j ≠ i → n' j ≤ n j) : None n' := by
  intro j
  have one := h.1 i
  by_cases hj : j = i
  · subst hj
    omega
  · have := h.other (i := i) (j := j) (by omega) hj
    have := le j hj
    omega

theorem Single.at {d : ι} (one : n d ≤ 1) (elsewhere : ∀ i, i ≠ d → n i = 0) : Single n := by
  have at_d : ∀ i, 0 < n i → i = d := fun i hi => by
    by_contra hne
    rw [elsewhere i hne] at hi
    exact Nat.lt_irrefl 0 hi
  refine ⟨fun i => ?_, fun i j hi hj => (at_d i hi).trans (at_d j hj).symm⟩
  by_cases hi : i = d
  · exact hi ▸ one
  · rw [elsewhere i hi]
    exact Nat.zero_le 1

/-- A token put down where there was none. -/
theorem None.put (h : None n) {d : ι} (put : n' d ≤ 1) (le : ∀ i, i ≠ d → n' i ≤ n i) : Single n' :=
  .at put fun i hi => Nat.le_zero.mp ((le i hi).trans (h i).le)

theorem Shift.none (h : Shift n n') (empty : None n) : None n' := by
  cases h with
  | lost le => exact empty.mono le
  | moved src dst x ne taken put le =>
    have hsrc := empty src
    have hdst := empty dst
    intro i
    by_cases hs : i = src
    · subst hs; omega
    · by_cases hd : i = dst
      · subst hd; omega
      · exact Nat.le_zero.mp ((le i hs hd).trans (empty i).le)

theorem Shift.single (h : Shift n n') (single : Single n) : Single n' := by
  cases h with
  | lost le => exact single.mono le
  | moved src dst x ne taken put le =>
    by_cases hx : x = 0
    · subst hx
      refine single.mono fun i => ?_
      by_cases hs : i = src
      · subst hs; omega
      · by_cases hd : i = dst
        · subst hd; omega
        · exact le i hs hd
    · -- The moved token was the only one.
      have pos : 0 < n src := by omega
      have one := single.1 src
      have put_one : n' dst ≤ 1 := by
        have := single.other pos (Ne.symm ne)
        omega
      refine .at put_one fun i hd => ?_
      by_cases hs : i = src
      · subst hs; omega
      · have := single.other pos hs
        have := le i hs hd
        omega

end

end Tokens

import Mathlib.Data.List.Basic

/-! Substituting texts for symbols: several passes one after the other against one pass for all symbols, and
    the reading back of a substitution whose texts all start with the same mark. -/

namespace Substitution

variable {α : Type} [DecidableEq α]

/-- One pass: every occurrence of one symbol becomes a text. -/
def replace (k : α) (text s : List α) : List α := s.flatMap fun c => if c = k then text else [c]

/-- The passes of a list of rules, the first rule first. -/
def passes (rules : List (α × List α)) (s : List α) : List α := rules.foldl (fun s r => replace r.1 r.2 s) s

/-- What becomes of one symbol if all rules are applied at once. -/
def subst : List (α × List α) → α → List α
  | [], c => [c]
  | r :: rules, c => if c = r.1 then r.2 else subst rules c

/-- No text contains the symbol of a later rule. -/
def Ordered (rules : List (α × List α)) : Prop := rules.Pairwise fun r q => q.1 ∉ r.2

/-- What the first rule whose text stands here was substituted for, else the symbol itself; `skip` symbols of
    a text are still to be passed over. -/
def readBack (rules : List (α × List α)) : Nat → List α → List α
  | _, [] => []
  | skip + 1, _ :: s => readBack rules skip s
  | 0, c :: s =>
    match rules.find? fun r => r.2.isPrefixOf (c :: s) with
    | some r => r.1 :: readBack rules (r.2.length - 1) s
    | none => c :: readBack rules 0 s

/-- Every text is the mark and something without another mark, no text starts another one, and the mark has a
    rule of its own. -/
structure Marked (mark : α) (rules : List (α × List α)) : Prop where
  texts : ∀ r ∈ rules, ∃ rest, r.2 = mark :: rest ∧ mark ∉ rest
  prefixFree : ∀ r ∈ rules, ∀ q ∈ rules, r.2 <+: q.2 → r = q
  markRule : mark ∈ rules.map Prod.fst

section
variable {rules : List (α × List α)} {r : α × List α} {c k mark : α} {s : List α}

theorem subst_of_notMem (h : c ∉ rules.map Prod.fst) : subst rules c = [c] := by
  induction rules with
  | nil => rfl
  | cons q rules ih =>
    rw [List.map_cons, List.mem_cons, not_or] at h
    rw [subst, if_neg h.1, ih h.2]

/-- A symbol keeps its place, or one of the rules puts its text there. -/
theorem subst_cases (rules : List (α × List α)) (c : α) :
    (c ∉ rules.map Prod.fst ∧ subst rules c = [c]) ∨ ∃ r ∈ rules, r.1 = c ∧ subst rules c = r.2 := by
  induction rules with
  | nil => exact Or.inl ⟨List.not_mem_nil, rfl⟩
  | cons q rules ih =>
    by_cases hc : c = q.1
    · exact Or.inr ⟨q, List.mem_cons_self, hc.symm, if_pos hc⟩
    · rw [subst, if_neg hc]
      refine ih.imp (fun ⟨hn, hs⟩ => ⟨?_, hs⟩) fun ⟨r, hr, hk, hs⟩ => ⟨r, List.mem_cons_of_mem q hr, hk, hs⟩
      rw [List.map_cons, List.mem_cons, not_or]
      exact ⟨hc, hn⟩

/-! ### Passes -/

/-- A text in which no rule has its symbol is left as it is. -/
theorem flatMap_subst_of_notMem (h : ∀ q ∈ rules, q.1 ∉ s) : s.flatMap (subst rules) = s := by
  induction s with
  | nil => rfl
  | cons c s ih =>
    have none : c ∉ rules.map Prod.fst := fun hc => by
      obtain ⟨q, hq, rfl⟩ := List.mem_map.mp hc
      exact h q hq List.mem_cons_self
    rw [List.flatMap_cons, subst_of_notMem none, ih fun q hq hs => h q hq (List.mem_cons_of_mem c hs)]
    rfl

/-- Passes in such an order come to one substitution of all symbols at once: what an earlier pass puts in, no
    later pass changes. -/
theorem passes_eq (ordered : Ordered rules) (s : List α) : passes rules s = s.flatMap (subst rules) := by
  induction rules generalizing s with
  | nil => simp [passes, subst]
  | cons r rules ih =>
    obtain ⟨first, ordered⟩ := List.pairwise_cons.mp ordered
    have rest : passes (r :: rules) s = passes rules (replace r.1 r.2 s) := rfl
    rw [rest, ih ordered, replace, List.flatMap_assoc]
    refine List.flatMap_congr fun c _ => ?_
    rw [subst]
    split
    · exact flatMap_subst_of_notMem first
    · rw [List.flatMap_singleton]

/-! ### What the result contains -/

/-- A symbol with a rule that is in no text is gone. -/
theorem notMem_flatMap_subst (hk : k ∈ rules.map Prod.fst) (h : ∀ r ∈ rules, k ∉ r.2) :
    k ∉ s.flatMap (subst rules) := by
  intro hm
  obtain ⟨c, -, hc⟩ := List.mem_flatMap.mp hm
  rcases subst_cases rules c with ⟨hn, hs⟩ | ⟨r, hr, -, hs⟩
  · rw [hs, List.mem_singleton] at hc
    exact hn (hc ▸ hk)
  · exact h r hr (hs ▸ hc)

/-- Every mark in the result starts one of the texts. -/
theorem mark_starts (marked : Marked mark rules) {pre post : List α} (h : s.flatMap (subst rules) = pre ++ mark :: post) :
    ∃ r ∈ rules, r.2 <+: mark :: post := by
  induction s generalizing pre with
  | nil => simp at h
  | cons c s ih =>
    rw [List.flatMap_cons] at h
    rcases List.append_eq_append_iff.mp h with ⟨mid, -, hs⟩ | ⟨mid, hc, hpost⟩
    · exact ih hs
    · cases mid with
      | nil => exact @ih [] (by simpa using hpost.symm)
      | cons x mid =>
        obtain ⟨rfl, hpost⟩ := List.cons.inj hpost
        rcases subst_cases rules c with ⟨hn, hs⟩ | ⟨r, hr, -, hs⟩
        · -- The mark does not keep its place.
          rw [hs] at hc
          have : mark = c := by
            have hm : mark ∈ [c] := hc ▸ by simp
            exact List.mem_singleton.mp hm
          exact absurd marked.markRule (this ▸ hn)
        · obtain ⟨rest, htext, clean⟩ := marked.texts r hr
          rw [hs, htext] at hc
          cases pre with
          | nil =>
            obtain ⟨-, rfl⟩ := List.cons.inj hc
            exact ⟨r, hr, by rw [htext, hpost]; exact List.prefix_append (mark :: rest) _⟩
          | cons y pre =>
            refine absurd ?_ clean
            rw [(List.cons.inj hc).2]
            simp

/-! ### Reading back -/

theorem readBack_drop (rules : List (α × List α)) :
    ∀ (n : Nat) (s : List α), readBack rules n s = readBack rules 0 (s.drop n)
  | 0, s => rfl
  | n + 1, [] => rfl
  | n + 1, c :: s => by rw [readBack, List.drop_succ_cons, readBack_drop rules n s]

/-- The text of a rule is read back as its symbol. -/
theorem readBack_text (marked : Marked mark rules) (hr : r ∈ rules) (s : List α) :
    readBack rules 0 (r.2 ++ s) = r.1 :: readBack rules 0 s := by
  obtain ⟨rest, htext, -⟩ := marked.texts r hr
  have found : rules.find? (fun q => q.2.isPrefixOf (mark :: (rest ++ s))) = some r := by
    cases hf : rules.find? fun q => q.2.isPrefixOf (mark :: (rest ++ s)) with
    | none =>
      refine absurd (List.find?_eq_none.mp hf r hr) (not_not.mpr ?_)
      rw [List.isPrefixOf_iff_prefix, htext]
      exact List.prefix_append (mark :: rest) s
    | some q =>
      have hq : q ∈ rules := List.mem_of_find?_eq_some hf
      have hp : q.2 <+: r.2 ++ s := by
        have here := List.find?_some hf
        rw [htext]
        exact List.isPrefixOf_iff_prefix.mp here
      -- Of two texts that both stand here one starts the other.
      rcases List.prefix_or_prefix_of_prefix hp (List.prefix_append r.2 s) with h | h
      · rw [marked.prefixFree q hq r hr h]
      · rw [marked.prefixFree r hr q hq h]
  rw [htext, List.cons_append, readBack, found]
  simp only [htext, List.length_cons, Nat.add_sub_cancel]
  rw [readBack_drop, List.drop_left]

/-- A symbol without a rule is read back as itself. -/
theorem readBack_other (marked : Marked mark rules) (hc : c ∉ rules.map Prod.fst) (s : List α) :
    readBack rules 0 (c :: s) = c :: readBack rules 0 s := by
  have none : rules.find? (fun q => q.2.isPrefixOf (c :: s)) = none := by
    refine List.find?_eq_none.mpr fun q hq hp => ?_
    obtain ⟨rest, htext, -⟩ := marked.texts q hq
    rw [List.isPrefixOf_iff_prefix, htext, List.cons_prefix_cons] at hp
    exact hc (hp.1 ▸ marked.markRule)
  rw [readBack, none]

/-- Reading back undoes the substitution. -/
theorem readBack_flatMap_subst (marked : Marked mark rules) (s : List α) :
    readBack rules 0 (s.flatMap (subst rules)) = s := by
  induction s with
  | nil => rfl
  | cons c s ih =>
    rw [List.flatMap_cons]
    rcases subst_cases rules c with ⟨hn, hs⟩ | ⟨r, hr, rfl, hs⟩
    · rw [hs, List.singleton_append, readBack_other marked hn, ih]
    · rw [hs, readBack_text marked hr, ih]

end

end Substitution

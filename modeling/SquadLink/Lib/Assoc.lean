import Mathlib.Data.List.AList

/-! Sweeping a finite map: every value is kept, perhaps changed, or dropped. -/

namespace Assoc

variable {κ β : Type} [DecidableEq κ] {keep : β → Option β}

/-- The entries whose values `keep` keeps, as it leaves them. -/
def sweep (keep : β → Option β) (l : List (Sigma fun _ : κ => β)) : List (Sigma fun _ : κ => β) :=
  l.filterMap fun e => (keep e.2).map fun b => ⟨e.1, b⟩

omit [DecidableEq κ] in
theorem mem_keys_sweep {k : κ} : ∀ {l : List (Sigma fun _ : κ => β)}, k ∈ (sweep keep l).keys → k ∈ l.keys
  | [], h => by cases h
  | e :: l, h => by
    rw [List.keys_cons, List.mem_cons]
    rw [sweep, List.filterMap_cons] at h
    cases hk : keep e.2 with
    | none =>
      rw [hk] at h
      exact Or.inr (mem_keys_sweep h)
    | some b =>
      simp only [hk, Option.map_some, List.keys_cons, List.mem_cons] at h
      exact h.imp_right mem_keys_sweep

omit [DecidableEq κ] in
theorem nodupKeys_sweep : ∀ {l : List (Sigma fun _ : κ => β)}, l.NodupKeys → (sweep keep l).NodupKeys
  | [], _ => List.nodupKeys_nil
  | e :: l, h => by
    rw [List.nodupKeys_cons] at h
    rw [sweep, List.filterMap_cons]
    cases hk : keep e.2 with
    | none => exact nodupKeys_sweep h.2
    | some b => exact List.nodupKeys_cons.mpr ⟨fun hm => h.1 (mem_keys_sweep hm), nodupKeys_sweep h.2⟩

theorem dlookup_sweep (k : κ) : ∀ {l : List (Sigma fun _ : κ => β)}, l.NodupKeys →
    (sweep keep l).dlookup k = (l.dlookup k).bind keep
  | [], _ => rfl
  | ⟨j, b⟩ :: l, h => by
    rw [List.nodupKeys_cons] at h
    have rest := dlookup_sweep k h.2
    rw [sweep, List.filterMap_cons]
    by_cases hj : k = j
    · subst hj
      rw [List.dlookup_cons_eq, Option.bind_some]
      cases keep b with
      | none => exact List.dlookup_eq_none.mpr fun hm => h.1 (mem_keys_sweep hm)
      | some b' => exact @List.dlookup_cons_eq κ (fun _ => β) _ _ k b'
    · rw [List.dlookup_cons_ne l ⟨j, b⟩ hj, ← rest]
      cases keep b with
      | none => rfl
      | some b' => exact List.dlookup_cons_ne _ (⟨j, b'⟩ : Sigma fun _ : κ => β) hj

/-- `HashMap::retain`, where `keep` also says what becomes of a kept value. -/
def retain (keep : β → Option β) (m : AList fun _ : κ => β) : AList fun _ : κ => β :=
  { entries := sweep keep m.entries, nodupKeys := nodupKeys_sweep m.nodupKeys }

theorem lookup_retain (m : AList fun _ : κ => β) (k : κ) : (retain keep m).lookup k = (m.lookup k).bind keep :=
  dlookup_sweep k m.nodupKeys

end Assoc

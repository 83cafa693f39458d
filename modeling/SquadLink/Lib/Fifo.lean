import Mathlib.Data.List.AList

/-! Bounded FIFO channels with a non-blocking send (a send to a full channel is dropped), and messages
    addressed to the channels of a directory, a finite map whose values carry an address. -/

namespace Fifo

variable {ι κ α β : Type}

/-- A non-blocking send: it appends, or does nothing when the channel is full. -/
def push (cap : Nat) (q : List α) (x : α) : List α := if q.length < cap then q ++ [x] else q

/-- Several sends in a row. -/
def pushAll (cap : Nat) (q : List α) (xs : List α) : List α := xs.foldl (push cap) q

@[simp] theorem pushAll_nil (cap : Nat) (q : List α) : pushAll cap q [] = q := rfl

@[simp] theorem pushAll_cons (cap : Nat) (q : List α) (x : α) (xs : List α) :
    pushAll cap q (x :: xs) = pushAll cap (push cap q x) xs := rfl

theorem pushAll_append (cap : Nat) (q xs ys : List α) :
    pushAll cap q (xs ++ ys) = pushAll cap (pushAll cap q xs) ys := List.foldl_append

theorem pushAll_of_full {cap : Nat} {q : List α} (full : ¬ q.length < cap) :
    ∀ xs : List α, pushAll cap q xs = q
  | [] => rfl
  | x :: xs => by rw [pushAll_cons, push, if_neg full, pushAll_of_full full xs]

/-- Only a first part of what is sent arrives. -/
theorem pushAll_eq_take (cap : Nat) :
    ∀ (q xs : List α), ∃ k, pushAll cap q xs = q ++ xs.take k
  | q, [] => ⟨0, by simp⟩
  | q, x :: xs => by
    by_cases room : q.length < cap
    · obtain ⟨k, hk⟩ := pushAll_eq_take cap (q ++ [x]) xs
      exact ⟨k + 1, by rw [pushAll_cons, push, if_pos room, hk]; simp⟩
    · exact ⟨0, by rw [pushAll_of_full room]; simp⟩

/-- Everything arrives when the channel is not full in the end. -/
theorem pushAll_of_lt {cap : Nat} :
    ∀ {q xs : List α}, (pushAll cap q xs).length < cap → pushAll cap q xs = q ++ xs
  | q, [], _ => by simp
  | q, x :: xs, h => by
    by_cases room : q.length < cap
    · rw [pushAll_cons, push, if_pos room] at h ⊢
      rw [pushAll_of_lt h, List.append_assoc, List.singleton_append]
    · rw [pushAll_of_full room] at h
      exact absurd h room

theorem mem_pushAll {cap : Nat} {q xs : List α} {y : α} (h : y ∈ pushAll cap q xs) : y ∈ q ∨ y ∈ xs := by
  obtain ⟨k, hk⟩ := pushAll_eq_take cap q xs
  rw [hk, List.mem_append] at h
  exact h.imp_right List.mem_of_mem_take

/-! ### Addressed messages -/

section Addressed
variable [DecidableEq ι]

/-- The messages of `out` addressed to `i`, in order. -/
def sentTo (i : ι) (out : List (ι × α)) : List α := out.filterMap fun p => if p.1 = i then some p.2 else none

@[simp] theorem sentTo_nil (i : ι) : sentTo i ([] : List (ι × α)) = [] := rfl

theorem sentTo_cons (i j : ι) (x : α) (out : List (ι × α)) :
    sentTo i ((j, x) :: out) = if j = i then x :: sentTo i out else sentTo i out := by
  unfold sentTo
  by_cases h : j = i <;> simp [h]

theorem sentTo_append (i : ι) (xs ys : List (ι × α)) : sentTo i (xs ++ ys) = sentTo i xs ++ sentTo i ys :=
  List.filterMap_append

theorem mem_sentTo {i : ι} {x : α} {out : List (ι × α)} : x ∈ sentTo i out ↔ (i, x) ∈ out := by
  unfold sentTo
  simp only [List.mem_filterMap, Option.ite_none_right_eq_some, Option.some.injEq, Prod.exists]
  constructor
  · rintro ⟨j, y, hm, rfl, rfl⟩
    exact hm
  · intro h
    exact ⟨i, x, h, rfl, rfl⟩

end Addressed

/-! ### Directories -/

section Directory
variable [DecidableEq κ] {addr : β → ι} {g : κ → Option α}

/-- One message, chosen by the key, for the address of every entry it is chosen for. -/
def broadcast (addr : β → ι) (g : κ → Option α) (dir : AList fun _ : κ => β) : List (ι × α) :=
  dir.entries.filterMap fun e => (g e.1).map fun x => (addr e.2, x)

theorem mem_broadcast {dir : AList fun _ : κ => β} {i : ι} {x : α} :
    (i, x) ∈ broadcast addr g dir ↔ ∃ k b, dir.lookup k = some b ∧ addr b = i ∧ g k = some x := by
  simp only [broadcast, List.mem_filterMap, Option.map_eq_some_iff, Prod.mk.injEq, Sigma.exists]
  constructor
  · rintro ⟨k, b, hm, y, hg, ha, rfl⟩
    exact ⟨k, b, AList.mem_lookup_iff.mpr hm, ha, hg⟩
  · rintro ⟨k, b, hm, ha, hg⟩
    exact ⟨k, b, AList.mem_lookup_iff.mp hm, x, hg, ha, rfl⟩

variable [DecidableEq ι]

theorem sentTo_broadcast_of_absent {dir : AList fun _ : κ => β} {i : ι}
    (absent : ∀ k b, dir.lookup k = some b → addr b ≠ i) : sentTo i (broadcast addr g dir) = [] := by
  rw [List.eq_nil_iff_forall_not_mem]
  intro x hx
  obtain ⟨k, b, hk, ha, -⟩ := mem_broadcast.mp (mem_sentTo.mp hx)
  exact absent k b hk ha

omit [DecidableEq κ] in
theorem sentTo_filterMap_entries {i : ι} {k : κ} {b : β} (hb : addr b = i) :
    ∀ {l : List (Sigma fun _ : κ => β)}, l.NodupKeys → ⟨k, b⟩ ∈ l → (∀ e ∈ l, addr e.2 = i → e.1 = k) →
      sentTo i (l.filterMap fun e => (g e.1).map fun x => (addr e.2, x)) = (g k).toList
  | [], _, hm, _ => absurd hm (List.not_mem_nil)
  | e :: l, hnd, hm, only => by
    rw [List.nodupKeys_cons] at hnd
    have rest : ∀ e' ∈ l, addr e'.2 = i → e'.1 = k := fun e' he' => only e' (List.mem_cons_of_mem _ he')
    -- Whether the entry at the head is the one for `i`, every other entry of key `k` is excluded.
    have tail_nil : e.1 = k → sentTo i (l.filterMap fun e => (g e.1).map fun x => (addr e.2, x)) = [] := by
      intro hk
      rw [List.eq_nil_iff_forall_not_mem]
      intro x hx
      obtain ⟨e', he', hx⟩ := List.mem_filterMap.mp (mem_sentTo.mp hx)
      obtain ⟨y, -, hy⟩ := Option.map_eq_some_iff.mp hx
      have hek := rest e' he' (Prod.mk.injEq _ _ _ _ ▸ hy).1
      rw [hk, ← hek] at hnd
      exact hnd.1 (List.mem_keys_of_mem he')
    by_cases he : addr e.2 = i
    · have hk := only e (List.mem_cons_self) he
      rw [List.filterMap_cons]
      cases hg : g e.1 with
      | none => simp [tail_nil hk, ← hk, hg]
      | some x => simp [sentTo_cons, he, tail_nil hk, ← hk, hg]
    · have hm' : ⟨k, b⟩ ∈ l := by
        rcases List.mem_cons.mp hm with h | h
        · exact absurd (h ▸ hb) he
        · exact h
      rw [List.filterMap_cons, ← sentTo_filterMap_entries hb hnd.2 hm' rest]
      cases hg : g e.1 with
      | none => rfl
      | some x => simp [sentTo_cons, he]

/-- An address that one entry alone carries gets exactly that entry's message. -/
theorem sentTo_broadcast_of_lookup {dir : AList fun _ : κ => β} {i : ι} {k : κ} {b : β}
    (hk : dir.lookup k = some b) (hb : addr b = i)
    (only : ∀ k' b', dir.lookup k' = some b' → addr b' = i → k' = k) :
    sentTo i (broadcast addr g dir) = (g k).toList :=
  sentTo_filterMap_entries hb dir.nodupKeys (AList.mem_lookup_iff.mp hk)
    fun e he ha => only e.1 e.2 (AList.mem_lookup_iff.mpr he) ha

end Directory

end Fifo

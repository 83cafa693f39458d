import Mathlib.Data.List.Basic
import Mathlib.Data.List.Induction

/-! Stages of a stream: components with a state that are fed a stream in chunks and put out another one.
    What a stage puts out does not depend on how the stream is cut; stages that work item by item, stages
    that collect blocks of one size, and chains of stages are such components. -/

/-- A component to which the cuts between chunks make no difference. -/
structure Stage (σ α β : Type) where
  process : σ → List α → σ × List β
  process_nil : ∀ s, process s [] = (s, [])
  process_append : ∀ s l m, process s (l ++ m) =
    ((process (process s l).1 m).1, (process s l).2 ++ (process (process s l).1 m).2)

namespace Stage

variable {σ τ α β γ : Type}

section
variable (S : Stage σ α β)

/-- The stage fed with one chunk after the other. -/
def feed : σ → List (List α) → σ × List β
  | s, [] => (s, [])
  | s, l :: chunks => ((feed (S.process s l).1 chunks).1, (S.process s l).2 ++ (feed (S.process s l).1 chunks).2)

/-- The cuts between the chunks make no difference. -/
theorem feed_eq_process : ∀ (chunks : List (List α)) (s : σ), S.feed s chunks = S.process s chunks.flatten
  | [], s => (S.process_nil s).symm
  | l :: chunks, s => by rw [feed, feed_eq_process chunks, List.flatten_cons, S.process_append]

end

/-! ### Item by item -/

/-- One item after the other, each with any number of outputs. -/
def pass (f : σ → α → σ × List β) : σ → List α → σ × List β
  | s, [] => (s, [])
  | s, a :: l => ((pass f (f s a).1 l).1, (f s a).2 ++ (pass f (f s a).1 l).2)

section
variable {f : σ → α → σ × List β} {s : σ} {a : α} {l : List α}

theorem pass_append (m : List α) : ∀ (l : List α) (s : σ), pass f s (l ++ m) =
    ((pass f (pass f s l).1 m).1, (pass f s l).2 ++ (pass f (pass f s l).1 m).2)
  | [], _ => rfl
  | a :: l, s => by rw [List.cons_append, pass, pass_append m l, pass, List.append_assoc]

theorem pass_snoc : pass f s (l ++ [a]) = ((f (pass f s l).1 a).1, (pass f s l).2 ++ (f (pass f s l).1 a).2) := by
  rw [pass_append, pass, pass, List.append_nil]

/-- What each item keeps holds after all of them. -/
theorem pass_invariant {P : σ → Prop} (keep : ∀ s a, P s → P (f s a).1) : ∀ (l : List α) (s : σ), P s → P (pass f s l).1
  | [], _, h => h
  | a :: l, s, h => pass_invariant keep l _ (keep s a h)

/-- A constant stream through a component that stays in its state. -/
theorem pass_replicate {out : List β} (h : f s a = (s, out)) :
    ∀ n, pass f s (List.replicate n a) = (s, (List.replicate n out).flatten)
  | 0 => rfl
  | n + 1 => by rw [List.replicate_succ, pass, h, pass_replicate h n, List.replicate_succ, List.flatten_cons]

end

def ofItem (f : σ → α → σ × List β) : Stage σ α β where
  process := pass f
  process_nil _ := rfl
  process_append s l m := pass_append m l s

/-! ### Chains -/

/-- The output of one stage is the input of the next. -/
def chain (S : Stage σ α β) (T : Stage τ β γ) : Stage (σ × τ) α γ where
  process s l := (((S.process s.1 l).1, (T.process s.2 (S.process s.1 l).2).1), (T.process s.2 (S.process s.1 l).2).2)
  process_nil s := by rw [S.process_nil, T.process_nil]
  process_append s l m := by rw [S.process_append, T.process_append]

/-! ### Blocks -/

/-- What is drained of a buffer: the state and the outputs after its complete blocks, and the rest. -/
structure Drained (σ α β : Type) where
  state : σ
  out : List β
  rest : List α

/-- Blocks of `n` items are taken from the front of a buffer as long as it holds one. -/
def drain (n : ℕ) (f : σ → List α → σ × List β) (s : σ) (buf : List α) : Drained σ α β :=
  if 0 < n ∧ n ≤ buf.length then
    let r := f s (buf.take n)
    let d := drain n f r.1 (buf.drop n)
    { d with out := r.2 ++ d.out }
  else { state := s, out := [], rest := buf }
termination_by buf.length
decreasing_by
  rw [List.length_drop]
  omega

section
variable {n : ℕ} {f : σ → List α → σ × List β} {s : σ} {buf : List α}

theorem drain_short (h : buf.length < n) : drain n f s buf = { state := s, out := [], rest := buf } := by
  rw [drain, if_neg (by omega)]

theorem drain_block (pos : 0 < n) (h : n ≤ buf.length) : drain n f s buf =
    { drain n f (f s (buf.take n)).1 (buf.drop n) with
      out := (f s (buf.take n)).2 ++ (drain n f (f s (buf.take n)).1 (buf.drop n)).out } := by
  rw [drain, if_pos ⟨pos, h⟩]

/-- A buffer is drained one block at a time until less than a block is left. -/
theorem drain_induction {P : List α → Prop} (pos : 0 < n) (short : ∀ buf, buf.length < n → P buf)
    (block : ∀ buf, n ≤ buf.length → P (buf.drop n) → P buf) (buf : List α) : P buf := by
  induction h : buf.length using Nat.strongRecOn generalizing buf with
  | ind len ih =>
    by_cases hlen : buf.length < n
    · exact short buf hlen
    · have hle := Nat.not_lt.mp hlen
      have shorter : (buf.drop n).length < len := by
        rw [List.length_drop]
        omega
      exact block buf hle (ih _ shorter (buf.drop n) rfl)

theorem drain_rest_length (pos : 0 < n) (buf : List α) : ∀ s, (drain n f s buf).rest.length < n := by
  induction buf using drain_induction pos with
  | short buf h =>
    intro s
    rwa [drain_short h]
  | block buf h ih =>
    intro s
    rw [drain_block pos h]
    exact ih _

/-- Draining does not wait for the end of the stream. -/
theorem drain_append (pos : 0 < n) (m : List α) (buf : List α) : ∀ s, drain n f s (buf ++ m) =
    { drain n f (drain n f s buf).state ((drain n f s buf).rest ++ m) with
      out := (drain n f s buf).out ++ (drain n f (drain n f s buf).state ((drain n f s buf).rest ++ m)).out } := by
  induction buf using drain_induction pos with
  | short buf h =>
    intro s
    rw [drain_short h]
    rfl
  | block buf h ih =>
    intro s
    have long : n ≤ (buf ++ m).length := by
      rw [List.length_append]
      omega
    rw [drain_block pos long, drain_block pos h, List.take_append_of_le_length h, List.drop_append_of_le_length h, ih]
    simp only [List.append_assoc]

end

/-- Blocks of `n` items; what is left of the input is held back. -/
def ofBlocks (n : ℕ) (pos : 0 < n) (f : σ → List α → σ × List β) :
    Stage (σ × { held : List α // held.length < n }) α β where
  process s l :=
    let d := drain n f s.1 (s.2.val ++ l)
    ((d.state, ⟨d.rest, drain_rest_length pos _ _⟩), d.out)
  process_nil s := by simp only [List.append_nil, drain_short s.2.property]
  process_append s l m := by simp only [← List.append_assoc, drain_append pos m (s.2.val ++ l)]

/-- The complete blocks of a list. -/
def blocksOf (n : ℕ) (l : List α) : List (List α) := (List.range (l.length / n)).map fun i => (l.drop (n * i)).take n

section
variable {n : ℕ} {f : σ → List α → σ × List β} {s : σ} {buf : List α}

theorem blocksOf_short (h : buf.length < n) : blocksOf n buf = [] := by
  rw [blocksOf, Nat.div_eq_of_lt h]
  rfl

theorem blocksOf_block (pos : 0 < n) (h : n ≤ buf.length) : blocksOf n buf = buf.take n :: blocksOf n (buf.drop n) := by
  have count : buf.length / n = (buf.drop n).length / n + 1 := by
    rw [List.length_drop, Nat.div_eq_sub_div pos h]
  rw [blocksOf, count, List.range_succ_eq_map, List.map_cons, List.map_map, Nat.mul_zero, List.drop_zero, blocksOf]
  refine congrArg _ (List.map_congr_left fun i _ => ?_)
  rw [Function.comp_apply, List.drop_drop, Nat.mul_succ, Nat.add_comm]

theorem blocksOf_replicate (n m : ℕ) (a : α) :
    blocksOf n (List.replicate m a) = List.replicate (m / n) (List.replicate n a) := by
  rw [blocksOf, List.length_replicate]
  refine List.eq_replicate_iff.mpr ⟨by rw [List.length_map, List.length_range], fun block hb => ?_⟩
  obtain ⟨i, hi, rfl⟩ := List.mem_map.mp hb
  have inside : n * (i + 1) ≤ m := Nat.le_trans (Nat.mul_le_mul_left n (List.mem_range.mp hi)) (Nat.mul_div_le m n)
  rw [List.drop_replicate, List.take_replicate, Nat.min_eq_left (by rw [Nat.mul_succ] at inside; omega)]

theorem drop_blocks (pos : 0 < n) (h : n ≤ buf.length) :
    buf.drop (n * (buf.length / n)) = (buf.drop n).drop (n * ((buf.drop n).length / n)) := by
  rw [List.drop_drop, List.length_drop, Nat.div_eq_sub_div pos h, Nat.mul_succ, Nat.add_comm]

/-- Draining a buffer is one pass over its blocks, and leaves what stands behind them. -/
theorem drain_eq_pass (pos : 0 < n) (buf : List α) : ∀ s, drain n f s buf =
    { state := (pass f s (blocksOf n buf)).1, out := (pass f s (blocksOf n buf)).2,
      rest := buf.drop (n * (buf.length / n)) } := by
  induction buf using drain_induction pos with
  | short buf h =>
    intro s
    rw [drain_short h, blocksOf_short h, Nat.div_eq_of_lt h]
    rfl
  | block buf h ih =>
    intro s
    rw [drain_block pos h, ih, blocksOf_block pos h, drop_blocks pos h]
    rfl

/-- The blocks and what stands behind them are the list. -/
theorem flatten_blocksOf (pos : 0 < n) (buf : List α) :
    (blocksOf n buf).flatten ++ buf.drop (n * (buf.length / n)) = buf := by
  induction buf using drain_induction pos with
  | short buf h =>
    rw [blocksOf_short h, Nat.div_eq_of_lt h]
    rfl
  | block buf h ih =>
    rw [blocksOf_block pos h, drop_blocks pos h, List.flatten_cons, List.append_assoc, ih, List.take_append_drop]

/-- A stage of blocks fed with a whole stream. -/
theorem process_ofBlocks (pos : 0 < n) (buf : List α) (s : σ) (none : ([] : List α).length < n) :
    ((ofBlocks n pos f).process (s, ⟨[], none⟩) buf).2 = (pass f s (blocksOf n buf)).2 ∧
      (blocksOf n buf).flatten ++ ((ofBlocks n pos f).process (s, ⟨[], none⟩) buf).1.2.val = buf := by
  simp only [ofBlocks, List.nil_append, drain_eq_pass pos, flatten_blocksOf pos, and_self]

end

end Stage

import Mathlib.Data.List.GetD
import Mathlib.Data.Rat.Floor
import Mathlib.Data.PNat.Basic
import Mathlib.Tactic.FieldSimp
import Mathlib.Tactic.Linarith
import Mathlib.Tactic.Positivity
import Mathlib.Tactic.Ring
import SquadLink.Lib.Stage

/-! The streaming linear resampler (`companion-core/src/audio.rs`, `Resampler`) over exact arithmetic. -/

namespace SquadLink

/-- The sample rate of Opus. -/
def opusSr : ℕ+ := 48000

/-- Streaming linear resampler, phase preserved across calls. -/
structure Resampler where
  step : ℚ
  t : ℚ
  prev : ℚ
  havePrev : Bool
  step_pos : 0 < step
  t_nonneg : 0 ≤ t

namespace Resampler

def new (src dst : ℕ+) : Resampler :=
  { step := src / dst, t := 0, prev := 0, havePrev := false, step_pos := by positivity, t_nonneg := le_rfl }

/-- Outputs still to come before the phase reaches 1. -/
def due (r : Resampler) (t : ℚ) : ℕ := ⌈(1 - t) / r.step⌉₊

theorem due_add_step (r : Resampler) (t : ℚ) : r.due (t + r.step) = r.due t - 1 := by
  have shift : (1 - (t + r.step)) / r.step = (1 - t) / r.step - 1 := by
    have := r.step_pos.ne'
    field_simp
    ring
  rw [due, due, shift, Nat.ceil_sub_one]

theorem due_pos {r : Resampler} {t : ℚ} (h : t < 1) : 0 < r.due t :=
  Nat.ceil_pos.mpr (div_pos (sub_pos.mpr h) r.step_pos)

theorem due_eq_zero {r : Resampler} {t : ℚ} (h : ¬ t < 1) : r.due t = 0 :=
  Nat.ceil_eq_zero.mpr (div_nonpos_of_nonpos_of_nonneg (sub_nonpos.mpr (not_lt.mp h)) r.step_pos.le)

/-- The `while` loop: the samples between the previous one and `cur`, and the phase behind them. -/
def emit (r : Resampler) (cur t : ℚ) : ℚ × List ℚ :=
  if t < 1 then
    let rest := emit r cur (t + r.step)
    (rest.1, (r.prev + (cur - r.prev) * t) :: rest.2)
  else (t, [])
termination_by r.due t
decreasing_by
  rename_i h
  rw [due_add_step]
  exact Nat.sub_lt (due_pos h) one_pos

theorem emit_eq (r : Resampler) (cur t : ℚ) : r.emit cur t =
    (t + r.due t * r.step, (List.range (r.due t)).map fun j : ℕ => r.prev + (cur - r.prev) * (t + j * r.step)) := by
  induction h : r.due t generalizing t with
  | zero =>
    have late : ¬ t < 1 := fun hlt => (due_pos hlt).ne' h
    rw [emit, if_neg late, Nat.cast_zero, zero_mul, add_zero]
    rfl
  | succ n ih =>
    have before : t < 1 := by
      by_contra late
      rw [due_eq_zero late] at h
      cases h
    have hn : r.due (t + r.step) = n := by rw [due_add_step, h, Nat.add_sub_cancel]
    have shifted : ∀ j : ℕ, t + r.step + j * r.step = t + ((j + 1 : ℕ) : ℚ) * r.step := fun j => by
      push_cast
      ring
    rw [emit, if_pos before, ih (t + r.step) hn, List.range_succ_eq_map, List.map_cons, List.map_map,
      Nat.cast_zero, zero_mul, add_zero, shifted]
    simp only [shifted, Function.comp_def, Nat.succ_eq_add_one]

/-- The loop ends with the phase behind the current sample. -/
theorem one_le_emit (r : Resampler) (cur t : ℚ) : 1 ≤ (r.emit cur t).1 := by
  have enough : (1 - t) / r.step ≤ r.due t := Nat.le_ceil _
  rw [div_le_iff₀ r.step_pos] at enough
  rw [emit_eq]
  linarith

/-- One input sample. -/
def push (r : Resampler) (cur : ℚ) : Resampler × List ℚ :=
  if !r.havePrev then ({ r with prev := cur, havePrev := true }, [])
  else
    let e := r.emit cur r.t
    ({ r with t := e.1 - 1, prev := cur, t_nonneg := sub_nonneg.mpr (r.one_le_emit cur r.t) }, e.2)

/-- `process`: the cuts between its calls make no difference. -/
def stage : Stage Resampler ℚ ℚ := Stage.ofItem push

/-! ### How much comes out -/

section
variable {r : Resampler} {a : ℚ}

theorem push_first (h : r.havePrev = false) :
    (r.push a).2 = [] ∧ (r.push a).1.havePrev = true ∧ (r.push a).1.step = r.step ∧ (r.push a).1.t = r.t := by
  unfold push
  rw [h]
  exact ⟨rfl, rfl, rfl, rfl⟩

theorem push_next (h : r.havePrev = true) : (r.push a).2.length = r.due r.t ∧ (r.push a).1.havePrev = true ∧
    (r.push a).1.step = r.step ∧ (r.push a).1.t = r.t + r.due r.t * r.step - 1 := by
  unfold push
  rw [h]
  simp only [Bool.not_true, Bool.false_eq_true, if_false, emit_eq, List.length_map, List.length_range]
  exact ⟨trivial, trivial, trivial, trivial⟩

theorem push_step (r : Resampler) (a : ℚ) : (r.push a).1.step = r.step := by
  cases h : r.havePrev with
  | false => exact (push_first h).2.2.1
  | true => exact (push_next h).2.2.1

theorem process_step (r : Resampler) (l : List ℚ) : (stage.process r l).1.step = r.step :=
  Stage.pass_invariant (P := fun r' => r'.step = r.step) (fun _ _ h => (push_step _ _).trans h) l r rfl

/-- Every output moves the phase on by a step, and every input takes one off it. -/
theorem phase_of_started : ∀ (l : List ℚ) {r : Resampler}, r.havePrev = true →
    (stage.process r l).1.t = r.t + (stage.process r l).2.length * r.step - l.length ∧
      (stage.process r l).2.length = ⌈(l.length - r.t) / r.step⌉₊
  | [], r, _ => by
    have none : ⌈((0 : ℕ) - r.t) / r.step⌉₊ = 0 :=
      Nat.ceil_eq_zero.mpr (div_nonpos_of_nonpos_of_nonneg (by simpa using r.t_nonneg) r.step_pos.le)
    rw [stage.process_nil, List.length_nil, none]
    simp
  | a :: l, r, h => by
    obtain ⟨number, started, step, phase⟩ := @push_next r a h
    obtain ⟨rest_phase, rest_number⟩ := phase_of_started l started
    have cons : stage.process r (a :: l) =
        ((stage.process (r.push a).1 l).1, (r.push a).2 ++ (stage.process (r.push a).1 l).2) := rfl
    have fewer : r.due r.t ≤ ⌈((a :: l).length - r.t) / r.step⌉₊ := by
      refine Nat.ceil_mono (div_le_div_of_nonneg_right ?_ r.step_pos.le)
      have : (1 : ℚ) ≤ (a :: l).length := Nat.one_le_cast.mpr (Nat.succ_pos _)
      linarith
    have distance : (l.length - (r.push a).1.t) / (r.push a).1.step = ((a :: l).length - r.t) / r.step - r.due r.t := by
      have := r.step_pos.ne'
      rw [phase, step, List.length_cons]
      push_cast
      field_simp
      ring
    rw [distance, Nat.ceil_sub_natCast] at rest_number
    rw [cons, List.length_append, number, rest_phase, phase, step, List.length_cons]
    refine ⟨by push_cast; ring, ?_⟩
    rw [rest_number, ← List.length_cons (a := a)]
    exact Nat.add_sub_cancel' fewer

/-- The first sample of all only starts the resampler; every other one takes one off the phase. -/
theorem phase (r : Resampler) (l : List ℚ) : ∃ n : ℚ, (l.length : ℚ) - 1 ≤ n ∧ n ≤ l.length ∧
    (stage.process r l).1.t = r.t + (stage.process r l).2.length * r.step - n ∧
    (stage.process r l).2.length = ⌈(n - r.t) / r.step⌉₊ := by
  cases h : r.havePrev with
  | true =>
    obtain ⟨phase, number⟩ := phase_of_started l h
    exact ⟨l.length, by linarith, le_rfl, phase, number⟩
  | false =>
    cases l with
    | nil =>
      have none : ⌈(0 - r.t) / r.step⌉₊ = 0 :=
        Nat.ceil_eq_zero.mpr (div_nonpos_of_nonpos_of_nonneg (sub_nonpos.mpr r.t_nonneg) r.step_pos.le)
      refine ⟨0, by simp, by simp, ?_, ?_⟩
      · rw [stage.process_nil]
        simp
      · rw [stage.process_nil, none]
        rfl
    | cons a l =>
      obtain ⟨nothing, started, step, same⟩ := @push_first r a h
      obtain ⟨phase, number⟩ := phase_of_started l started
      have cons : stage.process r (a :: l) =
          ((stage.process (r.push a).1 l).1, (r.push a).2 ++ (stage.process (r.push a).1 l).2) := rfl
      rw [step, same] at phase number
      refine ⟨l.length, ?_, ?_, ?_, ?_⟩
      · simp
      · simp
      · rw [cons, nothing, List.nil_append, phase]
      · rw [cons, nothing, List.nil_append, number]

/-- `m` inputs give at most as many outputs as there are steps in `m`. -/
theorem length_process_le (r : Resampler) (l : List ℚ) : (stage.process r l).2.length ≤ ⌈(l.length : ℚ) / r.step⌉₊ := by
  obtain ⟨n, -, all, -, number⟩ := r.phase l
  rw [number]
  exact Nat.ceil_mono (div_le_div_of_nonneg_right ((sub_le_self n r.t_nonneg).trans all) r.step_pos.le)

/-- The phase falls behind by the inputs that are not made up for by outputs. -/
theorem phase_process_le (r : Resampler) (l : List ℚ) :
    (stage.process r l).1.t ≤ r.t + (stage.process r l).2.length * r.step - (l.length - 1) := by
  obtain ⟨n, but_one, -, phase, -⟩ := r.phase l
  rw [phase]
  exact sub_le_sub_left but_one _

end

/-! ### The ideal signal -/

/-- The value at position `p` of a signal, linear between its samples. -/
def interpolate (x : List ℚ) (p : ℚ) : ℚ :=
  x.getD ⌊p⌋₊ 0 + (x.getD (⌊p⌋₊ + 1) 0 - x.getD ⌊p⌋₊ 0) * Int.fract p

/-- How many positions `k * step` lie before the last of `n` samples. -/
def count (step : ℚ) (n : ℕ) : ℕ := ⌈((n - 1 : ℕ) : ℚ) / step⌉₊

/-- The resampler after the samples `x`, with the outputs so far: they are the signal at the positions
    before the last sample, and the phase is the distance of the next one behind it. -/
structure Follows (step : ℚ) (x : List ℚ) (r : Resampler) (out : List ℚ) : Prop where
  rate : r.step = step
  started : r.havePrev = !x.isEmpty
  prev : ∀ a ∈ x.getLast?, r.prev = a
  phase : r.t = count step x.length * step - (x.length - 1 : ℕ)
  outputs : out = (List.range (count step x.length)).map fun k : ℕ => interpolate x (k * step)

section
variable {step : ℚ} {x : List ℚ} {r : Resampler} {out : List ℚ} {a : ℚ} {n k : ℕ}

theorem lt_count_iff (pos : 0 < step) : k < count step n ↔ k * step < ((n - 1 : ℕ) : ℚ) := by
  rw [count, Nat.lt_ceil, lt_div_iff₀ pos]

theorem count_zero : count step 0 = 0 := by simp [count]

theorem count_one : count step 1 = 0 := by simp [count]

theorem count_mono (pos : 0 < step) {m : ℕ} (h : n ≤ m) : count step n ≤ count step m := by
  refine Nat.ceil_mono (div_le_div_of_nonneg_right ?_ pos.le)
  exact Nat.cast_le.mpr (Nat.sub_le_sub_right h 1)

/-- A position before the last sample lies between two samples. -/
theorem floor_lt_of_lt_count (pos : 0 < step) (h : k < count step n) : ⌊(k * step : ℚ)⌋₊ + 1 < n := by
  have before := (lt_count_iff pos).mp h
  have hfloor : ⌊(k * step : ℚ)⌋₊ < n - 1 := (Nat.floor_lt (by positivity)).mpr before
  omega

theorem interpolate_append (pos : 0 < step) (h : k < count step x.length) (m : List ℚ) :
    interpolate (x ++ m) (k * step) = interpolate x (k * step) := by
  have hlt := floor_lt_of_lt_count pos h
  unfold interpolate
  rw [List.getD_append _ _ _ _ (by omega), List.getD_append _ _ _ _ hlt]

/-- A position between the last two samples. -/
theorem interpolate_last {p : ℚ} (hx : x ≠ []) (low : ((x.length - 1 : ℕ) : ℚ) ≤ p) (high : p < x.length) :
    interpolate (x ++ [a]) p = x.getLast hx + (a - x.getLast hx) * (p - (x.length - 1 : ℕ)) := by
  have len := List.length_pos_of_ne_nil hx
  have hp : 0 ≤ p := (Nat.cast_nonneg _).trans low
  have hfloor : ⌊p⌋₊ = x.length - 1 := by
    refine (Nat.floor_eq_iff hp).mpr ⟨low, ?_⟩
    have : ((x.length - 1 : ℕ) : ℚ) + 1 = x.length := by exact_mod_cast Nat.sub_add_cancel len
    rwa [this]
  have hfract : Int.fract p = p - (x.length - 1 : ℕ) := by
    rw [Int.fract, ← hfloor, natCast_floor_eq_intCast_floor hp]
  have left : (x ++ [a]).getD (x.length - 1) 0 = x.getLast hx := by
    rw [List.getD_append _ _ _ _ (by omega), List.getD_eq_getElem _ _ (by omega), List.getLast_eq_getElem]
  have right : (x ++ [a]).getD (x.length - 1 + 1) 0 = a := by
    rw [Nat.sub_add_cancel len, List.getD_append_right _ _ _ _ le_rfl, Nat.sub_self]
    rfl
  rw [interpolate, hfloor, hfract, left, right]

theorem follows_new (src dst : ℕ+) : Follows (src / dst) [] (new src dst) [] where
  rate := rfl
  started := rfl
  prev _ h := by cases h
  phase := by simp [new, count]
  outputs := by simp [count]

theorem Follows.length (h : Follows step x r out) : out.length = count step x.length := by
  rw [h.outputs, List.length_map, List.length_range]

/-- What is due when the next sample comes in are the positions up to it. -/
theorem Follows.due (h : Follows step x r out) (pos : 0 < step) (hx : x ≠ []) :
    count step x.length + r.due r.t = count step (x.length + 1) := by
  have len := List.length_pos_of_ne_nil hx
  have whole : ((x.length - 1 : ℕ) : ℚ) + 1 = x.length := by exact_mod_cast Nat.sub_add_cancel len
  have distance : (1 - r.t) / r.step = ((x.length + 1 - 1 : ℕ) : ℚ) / step - count step x.length := by
    rw [h.rate, h.phase, Nat.add_sub_cancel, ← whole]
    field_simp
    ring
  rw [Resampler.due, distance, Nat.ceil_sub_natCast]
  exact Nat.add_sub_cancel' (count_mono pos (Nat.le_succ _))

/-- With one more sample, the positions up to it are put out. -/
theorem Follows.push (h : Follows step x r out) (pos : 0 < step) (a : ℚ) :
    Follows step (x ++ [a]) (r.push a).1 (out ++ (r.push a).2) := by
  by_cases hx : x = []
  · subst hx
    have fresh : r.havePrev = false := h.started
    have nothing : out = [] := by simpa [count_zero] using h.outputs
    simp only [Resampler.push, fresh, Bool.not_false, if_true]
    refine ⟨h.rate, rfl, fun b hb => by simpa using hb, ?_, ?_⟩
    · simpa [count_zero, count_one] using h.phase
    · simp [nothing, count_one]
  · have len := List.length_pos_of_ne_nil hx
    have whole : ((x.length - 1 : ℕ) : ℚ) + 1 = x.length := by exact_mod_cast Nat.sub_add_cancel len
    have started : r.havePrev = true := by rw [h.started, List.isEmpty_eq_false_iff.mpr hx, Bool.not_false]
    have prev : r.prev = x.getLast hx := h.prev _ (List.getLast?_eq_some_getLast hx)
    have due := h.due pos hx
    simp only [Resampler.push, started, Bool.not_true, Bool.false_eq_true, if_false, emit_eq]
    refine ⟨h.rate, by simp, fun b hb => by simpa using hb, ?_, ?_⟩
    · show r.t + r.due r.t * r.step - 1 = _
      rw [List.length_append, List.length_singleton, ← due, Nat.add_sub_cancel, h.rate, h.phase]
      push_cast
      rw [← whole]
      ring
    · have old : ∀ k ∈ List.range (count step x.length), interpolate x (k * step) = interpolate (x ++ [a]) (k * step) :=
        fun k hk => (interpolate_append pos (List.mem_range.mp hk) [a]).symm
      have new : ∀ j ∈ List.range (r.due r.t), r.prev + (a - r.prev) * (r.t + j * r.step) =
          interpolate (x ++ [a]) ((count step x.length + j : ℕ) * step) := fun j hj => by
        have low : ((x.length - 1 : ℕ) : ℚ) ≤ (count step x.length + j : ℕ) * step := by
          have : ((x.length - 1 : ℕ) : ℚ) / step ≤ count step x.length := Nat.le_ceil _
          rw [div_le_iff₀ pos] at this
          have ahead : (0 : ℚ) ≤ j * step := mul_nonneg (Nat.cast_nonneg j) pos.le
          push_cast
          linarith
        have high : (count step x.length + j : ℕ) * step < (x.length : ℚ) := by
          have inside : count step x.length + j < count step (x.length + 1) := by
            rw [← due]
            exact Nat.add_lt_add_left (List.mem_range.mp hj) _
          have := (lt_count_iff pos).mp inside
          rwa [Nat.add_sub_cancel] at this
        rw [interpolate_last hx low high, prev, h.rate, h.phase]
        push_cast
        ring
      rw [List.length_append, List.length_singleton, ← due, List.range_add, List.map_append, List.map_map, h.outputs,
        List.map_congr_left old, List.map_congr_left new]
      rfl

theorem follows (src dst : ℕ+) (x : List ℚ) :
    Follows (src / dst) x (stage.process (new src dst) x).1 (stage.process (new src dst) x).2 := by
  have pos : (0 : ℚ) < src / dst := by positivity
  induction x using List.reverseRecOn with
  | nil => exact follows_new src dst
  | append_singleton x a ih =>
    have step := ih.push pos a
    have snoc : stage.process (new src dst) (x ++ [a]) = _ := Stage.pass_snoc
    rw [snoc]
    exact step

/-- A constant signal stays constant. -/
theorem process_replicate (src dst : ℕ+) (n : ℕ) (v : ℚ) :
    (stage.process (new src dst) (List.replicate n v)).2 = List.replicate (count (src / dst) n) v := by
  have h := follows src dst (List.replicate n v)
  refine List.eq_replicate_iff.mpr ⟨by rw [h.length, List.length_replicate], fun w hw => ?_⟩
  rw [h.outputs] at hw
  obtain ⟨k, hk, rfl⟩ := List.mem_map.mp hw
  have inside := floor_lt_of_lt_count (by positivity) (List.mem_range.mp hk)
  rw [List.length_replicate] at inside
  rw [interpolate, List.getD_replicate _ inside, List.getD_replicate _ (Nat.lt_of_succ_lt inside),
    sub_self, zero_mul, add_zero]

end

/-- However the input is cut, the output is the signal at the multiples of `src / dst` before its last
    sample. -/
theorem feed_ideal (src dst : ℕ+) (chunks : List (List ℚ)) :
    (stage.feed (new src dst) chunks).2.length = ⌈((chunks.flatten.length - 1 : ℕ) * dst / src : ℚ)⌉₊ ∧
      ∀ k (hk : k < (stage.feed (new src dst) chunks).2.length), ∃ hi : ⌊(k * src / dst : ℚ)⌋₊ + 1 < chunks.flatten.length,
        (stage.feed (new src dst) chunks).2[k] = chunks.flatten[⌊(k * src / dst : ℚ)⌋₊] +
          (chunks.flatten[⌊(k * src / dst : ℚ)⌋₊ + 1] - chunks.flatten[⌊(k * src / dst : ℚ)⌋₊]) *
          Int.fract (k * src / dst : ℚ) := by
  have pos : (0 : ℚ) < src / dst := by positivity
  have h := follows src dst chunks.flatten
  rw [← stage.feed_eq_process] at h
  have position : ∀ k : ℕ, (k * (src / dst) : ℚ) = k * src / dst := fun k => (mul_div_assoc _ _ _).symm
  have number : (stage.feed (new src dst) chunks).2.length = ⌈((chunks.flatten.length - 1 : ℕ) * dst / src : ℚ)⌉₊ := by
    rw [h.length, count, div_div_eq_mul_div]
  refine ⟨number, fun k hk => ?_⟩
  have inside : k < count (src / dst) chunks.flatten.length := h.length ▸ hk
  have hi : ⌊(k * src / dst : ℚ)⌋₊ + 1 < chunks.flatten.length := position k ▸ floor_lt_of_lt_count pos inside
  refine ⟨hi, ?_⟩
  have value : (stage.feed (new src dst) chunks).2[k] = interpolate chunks.flatten (k * (src / dst)) := by
    rw [List.getElem_of_eq h.outputs hk, List.getElem_map, List.getElem_range]
  rw [value, interpolate, position, List.getD_eq_getElem _ _ hi, List.getD_eq_getElem _ _ (Nat.lt_of_succ_lt hi)]

end Resampler

end SquadLink

import Mathlib.Algebra.Order.Field.Basic
import Mathlib.Analysis.Convex.Basic
import Mathlib.Tactic.Linarith
import Mathlib.Tactic.NormNum
import Mathlib.Tactic.Positivity

/-! The capture-path DSP chain (`companion-core/src/audio.rs`, `Dsp`): noise gate, compressor and limiter,
    one sample at a time, over any ordered field; and the normalisation of its settings at the desktop's
    command boundary (`companion/src-tauri/src/main.rs`, `set_dsp`). -/

namespace SquadLink

/-- All three stages are toggleable and live. Thresholds and ceiling are linear. -/
structure DspConfig (K : Type) where
  gate : Bool
  gateThreshold : K
  compressor : Bool
  compThreshold : K
  compRatio : K
  compMakeup : K
  limiter : Bool
  limiterCeiling : K

/-- Per-stream DSP state, with its five smoothing coefficients. -/
structure Dsp (K : Type) [Zero K] [One K] [Preorder K] where
  gateEnv : K
  gateGain : K
  compEnv : K
  limGain : K
  atk : Set.Ioo (0 : K) 1
  rel : Set.Ioo (0 : K) 1
  gateOpen : Set.Ioo (0 : K) 1
  gateClose : Set.Ioo (0 : K) 1
  limRel : Set.Ioo (0 : K) 1

section
variable {K : Type} [Field K] [LinearOrder K] [IsStrictOrderedRing K]

def clamp (lo hi v : K) : K := max lo (min v hi)

namespace DspConfig

def default : DspConfig K :=
  { gate := true, gateThreshold := 15 / 1000, compressor := true, compThreshold := 15 / 100, compRatio := 3,
    compMakeup := 14 / 10, limiter := true, limiterCeiling := 97 / 100 }

/-- The ceiling that the limiter goes by. -/
def ceil (c : DspConfig K) : K := clamp (5 / 100) 1 c.limiterCeiling

/-- A value that is not finite is replaced, any other one clamped. -/
def norm (v : Option K) (lo hi dflt : K) : K :=
  match v with
  | some v => clamp lo hi v
  | none => dflt

/-- Normalization at the IPC boundary; `none` stands for NaN and the infinities. -/
def setDsp (cfg : DspConfig (Option K)) : DspConfig K :=
  { gate := cfg.gate
    gateThreshold := norm cfg.gateThreshold 0 (5 / 10) (15 / 1000)
    compressor := cfg.compressor
    compThreshold := norm cfg.compThreshold (1 / 100) 1 (15 / 100)
    compRatio := norm cfg.compRatio 1 20 3
    compMakeup := norm cfg.compMakeup (1 / 10) 4 (14 / 10)
    limiter := cfg.limiter
    limiterCeiling := norm cfg.limiterCeiling (5 / 100) 1 (97 / 100) }

/-- The factor that the compressor puts on a sample. -/
def compGain (c : DspConfig K) (env : K) : K :=
  if c.compThreshold < env then
    (c.compThreshold + (env - c.compThreshold) / max c.compRatio 1) / max env (1 / 1000000)
  else 1

end DspConfig

namespace Dsp

def new (atk rel gateOpen gateClose limRel : Set.Ioo (0 : K) 1) : Dsp K :=
  { gateEnv := 0, gateGain := 1, compEnv := 0, limGain := 1, atk, rel, gateOpen, gateClose, limRel }

def nextGateEnv (d : Dsp K) (a : K) : K := if d.gateEnv < a then a else d.rel * d.gateEnv + (1 - d.rel) * a

def nextGateGain (d : Dsp K) (env : K) (c : DspConfig K) : K :=
  let target := if c.gateThreshold ≤ env then 1 else 0
  let coef := if d.gateGain < target then d.gateOpen else d.gateClose
  coef * d.gateGain + (1 - coef) * target

/-- The noise gate. -/
def gated (d : Dsp K) (x : K) (c : DspConfig K) : Dsp K × K :=
  if c.gate then
    let env := d.nextGateEnv |x|
    let gain := d.nextGateGain env c
    ({ d with gateEnv := env, gateGain := gain }, x * gain)
  else (d, x)

def nextCompEnv (d : Dsp K) (a : K) : K :=
  let coef := if d.compEnv < a then d.atk else d.rel
  coef * d.compEnv + (1 - coef) * a

/-- The compressor. -/
def compressed (d : Dsp K) (s : K) (c : DspConfig K) : Dsp K × K :=
  if c.compressor then
    let env := d.nextCompEnv |s|
    ({ d with compEnv := env }, s * c.compGain env * c.compMakeup)
  else (d, s)

/-- The gain that brings a peak down to the ceiling. -/
def limTarget (peak : K) (c : DspConfig K) : K := if c.ceil < peak then c.ceil / peak else 1

/-- The limiter gain after a peak. -/
def nextLimGain (d : Dsp K) (peak : K) (c : DspConfig K) : K :=
  if limTarget peak c < d.limGain then limTarget peak c  -- instant attack: never let a peak through
  else d.limRel * d.limGain + (1 - d.limRel)  -- release → 1

/-- The limiter. -/
def limited (d : Dsp K) (s : K) (c : DspConfig K) : Dsp K × K :=
  if c.limiter then ({ d with limGain := d.nextLimGain |s| c }, s * d.nextLimGain |s| c) else (d, s)

/-- The sample that reaches the limiter, and the state before it. -/
def driven (d : Dsp K) (x : K) (c : DspConfig K) : Dsp K × K :=
  let g := d.gated x c
  g.1.compressed g.2 c

def process (d : Dsp K) (x : K) (c : DspConfig K) : Dsp K × K :=
  let r := (d.driven x c).1.limited (d.driven x c).2 c
  (r.1, clamp (-1) 1 r.2)  -- final safety net

/-- The state after samples, each processed with the settings of its moment. -/
def run (d : Dsp K) (log : List (K × DspConfig K)) : Dsp K := log.foldl (fun d p => (d.process p.1 p.2).1) d

/-- The divisors of the divisions that the processing of a sample performs. -/
def divisors (d : Dsp K) (x : K) (c : DspConfig K) : List K :=
  let env := (d.driven x c).1.compEnv
  let peak := |(d.driven x c).2|
  (if c.compressor && c.compThreshold < env then [max c.compRatio 1, max env (1 / 1000000)] else []) ++
    (if c.limiter && c.ceil < peak then [peak] else [])

section
variable {d : Dsp K} {x s peak g : K} {c : DspConfig K} {S : Set K}

/-! ### The limiter gain -/

theorem ceil_pos (c : DspConfig K) : 0 < c.ceil := lt_max_of_lt_left (by norm_num)

theorem ceil_le (c : DspConfig K) : c.ceil ≤ 1 := max_le (by norm_num) (min_le_right _ _)

/-- A smoothed value stays in a convex set with the old and the new one. -/
theorem smooth_mem (hS : Convex K S) (coef : Set.Ioo (0 : K) 1) {a b : K} (ha : a ∈ S) (hb : b ∈ S) :
    coef * a + (1 - coef) * b ∈ S :=
  hS ha hb coef.2.1.le (sub_nonneg.mpr coef.2.2.le) (add_sub_cancel _ _)

theorem release_mem (hg : d.limGain ∈ Set.Ioc (0 : K) 1) : d.limRel * d.limGain + (1 - d.limRel) ∈ Set.Ioc (0 : K) 1 := by
  have := smooth_mem (convex_Ioc 0 1) d.limRel hg (Set.right_mem_Ioc.mpr one_pos)
  rwa [mul_one] at this

theorem limTarget_mem (peak : K) (c : DspConfig K) : limTarget peak c ∈ Set.Ioc (0 : K) 1 := by
  unfold limTarget
  split
  · rename_i h
    have pos := (ceil_pos c).trans h
    exact ⟨div_pos (ceil_pos c) pos, (div_le_one pos).mpr h.le⟩
  · exact Set.right_mem_Ioc.mpr one_pos

theorem nextLimGain_mem (hg : d.limGain ∈ Set.Ioc (0 : K) 1) : d.nextLimGain peak c ∈ Set.Ioc (0 : K) 1 := by
  unfold nextLimGain
  split
  · exact limTarget_mem peak c
  · exact release_mem hg

/-- A gain of at most the target brings the peak down to the ceiling, and no other one does. -/
theorem mul_le_ceil_iff (hp : 0 ≤ peak) (hg : g ≤ 1) : peak * g ≤ c.ceil ↔ peak ≤ c.ceil ∨ g ≤ limTarget peak c := by
  unfold limTarget
  split
  · rename_i h
    have pos := (ceil_pos c).trans h
    rw [le_div_iff₀' pos, or_iff_right (not_le.mpr h)]
  · rename_i h
    have h := not_lt.mp h
    exact iff_of_true ((mul_le_of_le_one_right hp hg).trans h) (Or.inl h)

omit [IsStrictOrderedRing K] in
/-- The new gain is at most what the peak needs after an attack, or after a release from far below. -/
theorem nextLimGain_le_iff : d.nextLimGain peak c ≤ limTarget peak c ↔
    limTarget peak c < d.limGain ∨ d.limRel * d.limGain + (1 - d.limRel) ≤ limTarget peak c := by
  unfold nextLimGain
  split
  · rename_i h
    exact iff_of_true le_rfl (Or.inl h)
  · rename_i h
    rw [or_iff_right h]

/-! ### Runs -/

/-- The limiter neither amplifies nor mutes. -/
def Damped (d : Dsp K) : Prop := d.limGain ∈ Set.Ioc (0 : K) 1

omit [IsStrictOrderedRing K] in
theorem gated_lim (d : Dsp K) (x : K) (c : DspConfig K) :
    (d.gated x c).1.limGain = d.limGain ∧ (d.gated x c).1.limRel = d.limRel := by
  unfold gated
  split <;> exact ⟨rfl, rfl⟩

omit [IsStrictOrderedRing K] in
theorem compressed_lim (d : Dsp K) (s : K) (c : DspConfig K) :
    (d.compressed s c).1.limGain = d.limGain ∧ (d.compressed s c).1.limRel = d.limRel := by
  unfold compressed
  split <;> exact ⟨rfl, rfl⟩

omit [IsStrictOrderedRing K] in
/-- The stages before the limiter leave its part of the state alone. -/
theorem driven_lim (d : Dsp K) (x : K) (c : DspConfig K) :
    (d.driven x c).1.limGain = d.limGain ∧ (d.driven x c).1.limRel = d.limRel :=
  ⟨(compressed_lim _ _ c).1.trans (gated_lim d x c).1, (compressed_lim _ _ c).2.trans (gated_lim d x c).2⟩

theorem Damped.process (h : d.Damped) (x : K) (c : DspConfig K) : (d.process x c).1.Damped := by
  have driven : (d.driven x c).1.Damped := by rwa [Damped, (driven_lim d x c).1]
  unfold Dsp.process limited
  split
  · exact nextLimGain_mem driven
  · exact driven

theorem damped_new (atk rel gateOpen gateClose limRel : Set.Ioo (0 : K) 1) :
    (new atk rel gateOpen gateClose limRel).Damped :=
  Set.right_mem_Ioc.mpr one_pos

theorem damped_run (h : d.Damped) (log : List (K × DspConfig K)) : (d.run log).Damped := by
  induction log generalizing d with
  | nil => exact h
  | cons p log ih => exact ih (h.process p.1 p.2)

/-! ### Peaks -/

theorem abs_clamp (v : K) : |clamp (-1) 1 v| = min |v| 1 := by
  unfold clamp
  rcases le_total v 1 with high | high
  · rw [min_eq_left high]
    rcases le_total (-1) v with low | low
    · rw [max_eq_right low, min_eq_left (abs_le.mpr ⟨low, high⟩)]
    · have : 1 ≤ |v| := (le_neg.mp low).trans (neg_le_abs v)
      rw [max_eq_left low, abs_neg, abs_one, min_eq_right this]
  · have : 1 ≤ |v| := high.trans (le_abs_self v)
    rw [min_eq_right high, max_eq_right (by linarith), abs_one, min_eq_right this]

/-- The sample is within the ceiling where it reaches the limiter, or the final clamp is the ceiling, or the
    limiter attacks, or it releases from so far below that it stays within what the sample needs. -/
def Tame (d : Dsp K) (x : K) (c : DspConfig K) : Prop :=
  let peak := |(d.driven x c).2|
  peak ≤ c.ceil ∨ c.ceil = 1 ∨ limTarget peak c < d.limGain ∨ d.limRel * d.limGain + (1 - d.limRel) ≤ limTarget peak c

theorem Damped.process_le_ceil_iff (h : d.Damped) (on : c.limiter = true) : |(d.process x c).2| ≤ c.ceil ↔ d.Tame x c := by
  obtain ⟨same_gain, same_rel⟩ := driven_lim d x c
  have gain : (d.driven x c).1.nextLimGain |(d.driven x c).2| c ∈ Set.Ioc (0 : K) 1 :=
    nextLimGain_mem (by rw [same_gain]; exact h)
  have loud : 1 ≤ c.ceil ↔ c.ceil = 1 := ⟨fun hle => le_antisymm (ceil_le c) hle, fun heq => heq.ge⟩
  rw [Dsp.process, limited, if_pos on, abs_clamp, min_le_iff, abs_mul, abs_of_pos gain.1, loud,
    mul_le_ceil_iff (abs_nonneg _) gain.2, nextLimGain_le_iff, same_gain, same_rel]
  unfold Tame
  tauto

end

/-- In every state that samples and changes of the settings lead to, the limiter keeps a sample within the
    ceiling exactly when the sample is tame. -/
theorem limiter_iff (atk rel gateOpen gateClose limRel : Set.Ioo (0 : K) 1) (log : List (K × DspConfig K)) (x : K)
    (c : DspConfig K) (on : c.limiter = true) :
    |(((new atk rel gateOpen gateClose limRel).run log).process x c).2| ≤ c.ceil ↔
      ((new atk rel gateOpen gateClose limRel).run log).Tame x c :=
  (damped_run (damped_new atk rel gateOpen gateClose limRel) log).process_le_ceil_iff on

end Dsp

end

namespace Dsp

/-! ### A sustained loud passage -/

def halfway : Set.Ioo (0 : ℚ) 1 := ⟨1 / 2, by norm_num, by norm_num⟩

/-- Only the limiter is on, with its ceiling at a half. -/
def limiterOnly : DspConfig ℚ :=
  { gate := false, gateThreshold := 0, compressor := false, compThreshold := 1, compRatio := 1, compMakeup := 1,
    limiter := true, limiterCeiling := 1 / 2 }

/-- Of a sustained loud passage the second sample is let through, and the third one is held again. -/
theorem limiter_sustained :
    ¬ |(((new halfway halfway halfway halfway halfway).run [(1, limiterOnly)]).process 1 limiterOnly).2| ≤
      limiterOnly.ceil ∧
      |(((new halfway halfway halfway halfway halfway).run [(1, limiterOnly), (1, limiterOnly)]).process 1 limiterOnly).2| ≤
        limiterOnly.ceil := by
  have second : ¬ ((new halfway halfway halfway halfway halfway).run [(1, limiterOnly)]).Tame 1 limiterOnly := by
    unfold Tame
    decide +kernel
  have third : ((new halfway halfway halfway halfway halfway).run
      [(1, limiterOnly), (1, limiterOnly)]).Tame 1 limiterOnly := by
    unfold Tame
    decide +kernel
  exact ⟨fun within => second ((limiter_iff halfway halfway halfway halfway halfway _ 1 limiterOnly rfl).mp within),
    (limiter_iff halfway halfway halfway halfway halfway _ 1 limiterOnly rfl).mpr third⟩

/-- The first sample is brought down to the ceiling, the second one is let through. -/
theorem second_peak_exceeds_ceiling : ¬ ∀ (atk rel gateOpen gateClose limRel : Set.Ioo (0 : ℚ) 1)
    (log : List (ℚ × DspConfig ℚ)) (x : ℚ) (c : DspConfig ℚ), c.limiter = true →
    |(((new atk rel gateOpen gateClose limRel).run log).process x c).2| ≤ c.ceil := by
  intro h
  have exceeded := h halfway halfway halfway halfway halfway [(1, limiterOnly)] 1 limiterOnly rfl
  revert exceeded
  decide +kernel

end Dsp

end SquadLink

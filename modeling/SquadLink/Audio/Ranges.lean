import Mathlib.Tactic.FieldSimp
import SquadLink.Audio.Dsp

/-! The DSP chain stays in range (`companion-core/src/audio.rs`, `Dsp::process`): one invariant of its three
    coupled stages, for samples of full scale and settings that the desktop app lets through. -/

namespace SquadLink

section
variable {K : Type} [Field K] [LinearOrder K] [IsStrictOrderedRing K]

/-- The default settings, or settings that were normalised. -/
def DspConfig.Admissible (c : DspConfig K) : Prop := c = .default ∨ ∃ raw, c = .setDsp raw

namespace Dsp

/-- Gate gain and both envelopes lie between 0 and 1, and the limiter neither amplifies nor mutes. -/
structure InRange (d : Dsp K) : Prop where
  gateGain : d.gateGain ∈ Set.Icc (0 : K) 1
  gateEnv : d.gateEnv ∈ Set.Icc (0 : K) 1
  compEnv : d.compEnv ∈ Set.Icc (0 : K) 1
  damped : d.Damped

section
variable {d : Dsp K} {x s env v lo hi dflt : K} {c : DspConfig K}

/-! ### Settings -/

omit [Field K] [IsStrictOrderedRing K] in
theorem clamp_mem (h : lo ≤ hi) (v : K) : clamp lo hi v ∈ Set.Icc lo hi :=
  ⟨le_max_left _ _, max_le h (min_le_right _ _)⟩

omit [Field K] [IsStrictOrderedRing K] in
theorem norm_mem (h : lo ≤ hi) (hd : dflt ∈ Set.Icc lo hi) (v : Option K) :
    DspConfig.norm v lo hi dflt ∈ Set.Icc lo hi := by
  cases v with
  | none => exact hd
  | some v => exact clamp_mem h v

/-- The threshold of the compressor is never zero. -/
theorem compThreshold_pos (h : c.Admissible) : 0 < c.compThreshold := by
  rcases h with rfl | ⟨raw, rfl⟩
  · norm_num [DspConfig.default]
  · have threshold : DspConfig.norm raw.compThreshold (1 / 100) 1 (15 / 100) ∈ Set.Icc (1 / 100 : K) 1 :=
      norm_mem (by norm_num) ⟨by norm_num, by norm_num⟩ raw.compThreshold
    exact lt_of_lt_of_le (by norm_num) threshold.1

/-! ### The stages -/

theorem unit_of_abs (h : |x| ≤ 1) : |x| ∈ Set.Icc (0 : K) 1 := ⟨abs_nonneg x, h⟩

theorem nextGateEnv_mem (h : d.InRange) (hx : |x| ≤ 1) : d.nextGateEnv |x| ∈ Set.Icc (0 : K) 1 := by
  unfold nextGateEnv
  split
  · exact unit_of_abs hx
  · exact smooth_mem (convex_Icc 0 1) d.rel h.gateEnv (unit_of_abs hx)

theorem nextGateGain_mem (h : d.InRange) (env : K) (c : DspConfig K) : d.nextGateGain env c ∈ Set.Icc (0 : K) 1 := by
  have target : (if c.gateThreshold ≤ env then 1 else 0 : K) ∈ Set.Icc (0 : K) 1 := by
    split
    · exact Set.right_mem_Icc.mpr zero_le_one
    · exact Set.left_mem_Icc.mpr zero_le_one
  exact smooth_mem (convex_Icc 0 1) _ h.gateGain target

/-- The gate keeps the invariant and does not amplify. -/
theorem InRange.gated (h : d.InRange) (hx : |x| ≤ 1) (c : DspConfig K) :
    (d.gated x c).1.InRange ∧ |(d.gated x c).2| ≤ 1 := by
  unfold Dsp.gated
  split
  · have gain := nextGateGain_mem h (d.nextGateEnv |x|) c
    refine ⟨⟨gain, nextGateEnv_mem h hx, h.compEnv, h.damped⟩, ?_⟩
    rw [abs_mul, abs_of_nonneg gain.1]
    exact mul_le_one₀ hx gain.1 gain.2
  · exact ⟨h, hx⟩

/-- The compressor keeps the invariant. -/
theorem InRange.compressed (h : d.InRange) (hs : |s| ≤ 1) (c : DspConfig K) : (d.compressed s c).1.InRange := by
  unfold Dsp.compressed
  split
  · exact ⟨h.gateGain, h.gateEnv, smooth_mem (convex_Icc 0 1) _ h.compEnv (unit_of_abs hs), h.damped⟩
  · exact h

theorem InRange.driven (h : d.InRange) (hx : |x| ≤ 1) (c : DspConfig K) : (d.driven x c).1.InRange :=
  (h.gated hx c).1.compressed (h.gated hx c).2 c

/-- One sample. -/
theorem InRange.process (h : d.InRange) (hx : |x| ≤ 1) (c : DspConfig K) : (d.process x c).1.InRange := by
  have driven := h.driven hx c
  unfold Dsp.process limited
  split
  · exact ⟨driven.gateGain, driven.gateEnv, driven.compEnv, nextLimGain_mem driven.damped⟩
  · exact driven

theorem inRange_new (atk rel gateOpen gateClose limRel : Set.Ioo (0 : K) 1) :
    (new atk rel gateOpen gateClose limRel).InRange where
  gateGain := Set.right_mem_Icc.mpr zero_le_one
  gateEnv := Set.left_mem_Icc.mpr zero_le_one
  compEnv := Set.left_mem_Icc.mpr zero_le_one
  damped := damped_new atk rel gateOpen gateClose limRel

theorem inRange_run {log : List (K × DspConfig K)} (scaled : ∀ p ∈ log, |p.1| ≤ 1) (h : d.InRange) :
    (d.run log).InRange := by
  induction log generalizing d with
  | nil => exact h
  | cons p log ih =>
    obtain ⟨first, rest⟩ := List.forall_mem_cons.mp scaled
    exact ih rest (h.process first p.2)

/-! ### Factors and divisors -/

/-- The compressor attenuates and never mutes. -/
theorem compGain_mem (pos : 0 < c.compThreshold) (env : K) : c.compGain env ∈ Set.Ioc (0 : K) 1 := by
  unfold DspConfig.compGain
  split
  · rename_i above
    have ratio : (1 : K) ≤ max c.compRatio 1 := le_max_right _ _
    have floor : (0 : K) < max env (1 / 1000000) := lt_max_of_lt_right (by norm_num)
    have excess : 0 < env - c.compThreshold := sub_pos.mpr above
    have shrunk : (env - c.compThreshold) / max c.compRatio 1 ≤ env - c.compThreshold := div_le_self excess.le ratio
    have bounded : c.compThreshold + (env - c.compThreshold) / max c.compRatio 1 ≤ max env (1 / 1000000) := by
      have : env ≤ max env (1 / 1000000) := le_max_left _ _
      linarith
    have numerator : 0 < c.compThreshold + (env - c.compThreshold) / max c.compRatio 1 :=
      add_pos pos (div_pos excess (one_pos.trans_le ratio))
    exact ⟨div_pos numerator floor, (div_le_one floor).mpr bounded⟩
  · exact Set.right_mem_Ioc.mpr one_pos

theorem divisors_ne_zero (d : Dsp K) (x : K) (c : DspConfig K) : ∀ q ∈ d.divisors x c, q ≠ 0 := by
  intro q hq
  rcases List.mem_append.mp hq with hq | hq
  · split at hq
    · rcases List.mem_cons.mp hq with rfl | hq
      · exact (one_pos.trans_le (le_max_right _ _)).ne'
      · rw [List.mem_singleton.mp hq]
        exact (lt_max_of_lt_right (by norm_num)).ne'
    · cases hq
  · split at hq
    · rename_i above
      rw [Bool.and_eq_true, decide_eq_true_eq] at above
      rw [List.mem_singleton.mp hq]
      exact ((ceil_pos c).trans above.2).ne'
    · cases hq

/-- What comes out is of full scale at most. -/
theorem process_mem (d : Dsp K) (x : K) (c : DspConfig K) : (d.process x c).2 ∈ Set.Icc (-1 : K) 1 :=
  clamp_mem (neg_le_self zero_le_one) _

end

/-- After any samples of full scale, with admissible settings that change at any time, the state is in range;
    and for the next sample, the compressor's factor and the divisors are, and the result fits `i16`. -/
theorem chain_in_range (atk rel gateOpen gateClose limRel : Set.Ioo (0 : K) 1) (log : List (K × DspConfig K))
    (ok : ∀ p ∈ log, |p.1| ≤ 1 ∧ p.2.Admissible) :
    ((new atk rel gateOpen gateClose limRel).run log).InRange ∧ ∀ (x : K) (c : DspConfig K), |x| ≤ 1 → c.Admissible →
      c.compGain (((new atk rel gateOpen gateClose limRel).run log).driven x c).1.compEnv ∈ Set.Ioc (0 : K) 1 ∧
      (∀ q ∈ ((new atk rel gateOpen gateClose limRel).run log).divisors x c, q ≠ 0) ∧
      (((new atk rel gateOpen gateClose limRel).run log).process x c).2 * 32767 ∈ Set.Icc (-32768 : K) 32767 := by
  have inRange := inRange_run (fun p hp => (ok p hp).1) (inRange_new atk rel gateOpen gateClose limRel)
  refine ⟨inRange, fun x c _ hc => ⟨compGain_mem (compThreshold_pos hc) _, divisors_ne_zero _ x c, ?_⟩⟩
  obtain ⟨low, high⟩ := process_mem ((new atk rel gateOpen gateClose limRel).run log) x c
  exact ⟨by linarith, by linarith⟩

end Dsp

end

namespace Dsp

/-- Settings as they may come in, with values that are not finite. -/
def rawConfig : DspConfig (Option ℚ) :=
  { gate := true, gateThreshold := none, compressor := true, compThreshold := some 0, compRatio := none,
    compMakeup := some 9, limiter := true, limiterCeiling := some 2 }

theorem chain_in_range_sample :
    ((new halfway halfway halfway halfway halfway).run [(1, .default), (-1, .setDsp rawConfig)]).InRange := by
  refine (chain_in_range halfway halfway halfway halfway halfway [(1, .default), (-1, .setDsp rawConfig)] fun p hp => ?_).1
  rcases List.mem_cons.mp hp with rfl | hp
  · exact ⟨by norm_num, Or.inl rfl⟩
  · rw [List.mem_singleton.mp hp]
    exact ⟨by norm_num, Or.inr ⟨rawConfig, rfl⟩⟩

end Dsp

end SquadLink

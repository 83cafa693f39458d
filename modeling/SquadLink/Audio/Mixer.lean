import SquadLink.Audio.Buffers
import SquadLink.Audio.Capture

/-! The mixer loop (`companion-core/src/audio.rs`, `mixer_loop`): the playback ring is refilled to a target
    from the mix map, while playback callbacks take samples from its front. The hyperbolic tangent is a
    parameter, and the sums of the mix are unbounded. -/

namespace SquadLink

/-- `f32 as i32`: towards zero, saturating. -/
def toI32 (v : ℚ) : ℤ := clamp (-2147483648) 2147483647 (if 0 ≤ v then ⌊v⌋ else ⌈v⌉)

/-- Output gains: one master and one for each peer; a missing one leaves the samples unchanged. -/
structure Gains where
  master : Option ℚ
  peers : HashMap ℚ

namespace Gains

def masterV (g : Gains) : ℚ := g.master.getD 1

def peerV (g : Gains) (peer : String) : ℚ := (g.peers.lookup peer).getD 1

end Gains

/-- Samples are added to the first part of a frame. -/
def addTo : List ℤ → List ℤ → List ℤ
  | x :: mixed, s :: b => (x + s) :: addTo mixed b
  | mixed, [] => mixed
  | [], _ => []

namespace MixMap

/-- A partial frame contributes what it has; the rest is silence. -/
def mixed (gains : Gains) (m : MixMap) : List ℤ :=
  m.entries.foldl (fun acc e => addTo acc ((e.2.take frameSize).map fun s : ℤ => toI32 (s * gains.peerV e.1)))
    (List.replicate frameSize 0)

end MixMap

/-- About 60 ms of playback. -/
def playTarget (outRate : ℕ+) : ℕ := outRate * 60 / 1000

/-- About half a second of playback. -/
def playCap (outRate : ℕ+) : ℕ := outRate / 2

/-- The resampler of the mixer and the playback ring, which a push cuts down to its cap. -/
structure Playback (outRate : ℕ+) where
  down : Resampler
  play : List ℤ
  rate : down.step = 48000 / outRate
  within : play.length ≤ playCap outRate

variable {outRate : ℕ+}

namespace Playback

theorem new_rate (outRate : ℕ+) : (Resampler.new opusSr outRate).step = 48000 / outRate := by simp [Resampler.new, opusSr]

def start : Playback outRate :=
  { down := .new opusSr outRate, play := [], rate := new_rate outRate, within := Nat.zero_le _ }

/-- The mixed frame as it goes into the resampler, soft-limited. -/
def softLimited (tanh : ℚ → ℚ) (gains : Gains) (m : MixMap) : List ℚ :=
  (m.mixed gains).map fun v : ℤ => tanh ((v : ℚ) * gains.masterV / 32768)

/-- The next frame at the output rate. -/
def produced (tanh : ℚ → ℚ) (gains : Gains) (m : MixMap) (r : Playback outRate) : List ℤ :=
  (Resampler.stage.process r.down (softLimited tanh gains m)).2.map fun v => toI16 (v * 32767)

/-- The resampler behind the frame. -/
def resampled (tanh : ℚ → ℚ) (gains : Gains) (m : MixMap) (r : Playback outRate) : Playback outRate :=
  { r with
    down := (Resampler.stage.process r.down (softLimited tanh gains m)).1
    rate := (Resampler.process_step r.down _).trans r.rate }

/-- Samples are pushed into the ring, and the ring is cut down to its cap. -/
def push (r : Playback outRate) (o : List ℤ) : Playback outRate :=
  { r with play := trimFront (playCap outRate) (r.play ++ o), within := length_trimFront_le }

/-- One round of the refill. -/
def topUp (tanh : ℚ → ℚ) (gains : Gains) (m : MixMap) (r : Playback outRate) : Playback outRate :=
  (r.resampled tanh gains m).push (r.produced tanh gains m)

/-- The output callback takes samples from the front. -/
def take (r : Playback outRate) (n : ℕ) : Playback outRate :=
  { r with play := r.play.drop n, within := (List.drop_sublist n r.play).length_le.trans r.within }

@[simp] theorem play_take (r : Playback outRate) (n : ℕ) : (r.take n).play = r.play.drop n := rfl

end Playback

/-- Where the mixer thread stands: at the stop flag, before the length of the ring is read, before a frame is
    mixed, and before its samples are pushed. -/
inductive MixerPc
  | outer
  | checking
  | mixing
  | pushing (o : List ℤ)
  | stopped

/-- The mixer with what it shares with the other threads, and the samples pushed and played so far, which no
    step reads. -/
structure MixerState (outRate : ℕ+) where
  pc : MixerPc
  stop : Bool
  gains : Gains
  mix : MixMap
  ring : Playback outRate
  pushed : List ℤ
  played : List ℤ

/-- A step of the mixer, an output callback, and what the other threads make of the gains and the mix map. -/
inductive MixerAct
  | mixer
  | callback (n : ℕ)
  | others (gains : Gains) (mix : MixMap)
  | stop

namespace MixerState

def start (gains : Gains) : MixerState outRate :=
  { pc := .outer, stop := false, gains, mix := ∅, ring := .start, pushed := [], played := [] }

def mixerStep (tanh : ℚ → ℚ) (st : MixerState outRate) : Option (MixerState outRate) :=
  match st.pc with
  | .outer => some { st with pc := if st.stop then .stopped else .checking }
  | .checking => some { st with pc := if st.ring.play.length < playTarget outRate then .mixing else .outer }
  | .mixing => some { st with
      pc := .pushing (st.ring.produced tanh st.gains st.mix)
      mix := st.mix.drain
      ring := st.ring.resampled tanh st.gains st.mix }
  | .pushing o => some { st with pc := .checking, ring := st.ring.push o, pushed := st.pushed ++ o }
  | .stopped => none

def step (tanh : ℚ → ℚ) (st : MixerState outRate) : MixerAct → Option (MixerState outRate)
  | .mixer => st.mixerStep tanh
  | .callback n => some { st with ring := st.ring.take n, played := st.played ++ st.ring.play.take n }
  | .others gains mix => some { st with gains, mix }
  | .stop => some { st with stop := true }

end MixerState

/-! ### A mixed frame -/

theorem length_addTo : ∀ mixed b : List ℤ, (addTo mixed b).length = mixed.length
  | x :: mixed, s :: b => by rw [addTo, List.length_cons, List.length_cons, length_addTo mixed b]
  | [], [] => rfl
  | _ :: _, [] => rfl
  | [], _ :: _ => rfl

theorem addTo_replicate (x s : ℤ) : ∀ n, addTo (List.replicate n x) (List.replicate n s) = List.replicate n (x + s)
  | 0 => rfl
  | n + 1 => by rw [List.replicate_succ, List.replicate_succ, addTo, addTo_replicate x s n, List.replicate_succ]

/-- A whole frame is mixed from whatever the map holds. -/
theorem length_mixed (gains : Gains) (m : MixMap) : (m.mixed gains).length = frameSize := by
  have keep : ∀ (entries : List (Sigma fun _ : String => List ℤ)) (acc : List ℤ),
      (entries.foldl (fun acc e =>
        addTo acc ((e.2.take frameSize).map fun s : ℤ => toI32 (s * gains.peerV e.1))) acc).length = acc.length := by
    intro entries
    induction entries with
    | nil => exact fun _ => rfl
    | cons e entries ih => exact fun acc => (ih _).trans (length_addTo _ _)
  exact (keep _ _).trans List.length_replicate

namespace Playback

section
variable {tanh : ℚ → ℚ} {gains : Gains} {m : MixMap} {r : Playback outRate} {o : List ℤ}

theorem length_softLimited : (softLimited tanh gains m).length = frameSize := by
  rw [softLimited, List.length_map, length_mixed]

/-- A frame is at most a fiftieth of a second, rounded up. -/
theorem length_produced : 50 * (r.produced tanh gains m).length < outRate + 50 := by
  have few := Resampler.length_process_le r.down (softLimited tanh gains m)
  have fiftieth : ((softLimited tanh gains m).length : ℚ) / r.down.step = outRate / 50 := by
    have : (outRate : ℚ) ≠ 0 := by positivity
    rw [length_softLimited, r.rate, frameSize]
    field_simp
    norm_num
  rw [fiftieth] at few
  have ceil : ((⌈(outRate / 50 : ℚ)⌉₊ : ℕ) : ℚ) < outRate / 50 + 1 := Nat.ceil_lt_add_one (by positivity)
  have bound : (((r.produced tanh gains m).length : ℕ) : ℚ) < outRate / 50 + 1 := by
    rw [produced, List.length_map]
    exact lt_of_le_of_lt (Nat.cast_le.mpr few) ceil
  have : ((50 * (r.produced tanh gains m).length : ℕ) : ℚ) < ((outRate + 50 : ℕ) : ℚ) := by
    push_cast
    linarith
  exact Nat.cast_lt.mp this

/-- Below the target there is room for a frame within the cap. -/
theorem room (short : r.play.length < playTarget outRate) (frame : 50 * o.length < outRate + 50) :
    (r.play ++ o).length ≤ playCap outRate := by
  rw [List.length_append, playCap]
  rw [playTarget] at short
  omega

theorem play_push_of_room (h : (r.play ++ o).length ≤ playCap outRate) : (r.push o).play = r.play ++ o := trimFront_within h

theorem play_topUp (short : r.play.length < playTarget outRate) :
    (r.topUp tanh gains m).play = r.play ++ r.produced tanh gains m := play_push_of_room (room short length_produced)

/-! ### The refill -/

/-- Input samples of the resampler that the refill still needs at most: those for the missing outputs, and
    those that the phase is ahead. -/
def missing (r : Playback outRate) : ℕ := ⌈(playTarget outRate - r.play.length : ℚ) * r.down.step + r.down.t⌉₊

/-- Whatever a frame adds to the ring, the refill comes nearer to its end by the samples of the frame but one. -/
theorem missing_topUp (short : r.play.length < playTarget outRate) : (r.topUp tanh gains m).missing < r.missing := by
  have behind := Resampler.phase_process_le r.down (softLimited tanh gains m)
  rw [length_softLimited] at behind
  have step : (r.topUp tanh gains m).down.step = r.down.step := Resampler.process_step r.down _
  have phase : (r.topUp tanh gains m).down.t = (Resampler.stage.process r.down (softLimited tanh gains m)).1.t := rfl
  have grown : ((r.topUp tanh gains m).play.length : ℚ) =
      r.play.length + (Resampler.stage.process r.down (softLimited tanh gains m)).2.length := by
    rw [play_topUp short, List.length_append, produced, List.length_map, Nat.cast_add]
  have nearer : (playTarget outRate - (r.topUp tanh gains m).play.length : ℚ) * (r.topUp tanh gains m).down.step +
      (r.topUp tanh gains m).down.t ≤ (playTarget outRate - r.play.length : ℚ) * r.down.step + r.down.t - 1 := by
    rw [step, phase, grown]
    norm_num [frameSize] at behind
    linarith
  have far : (0 : ℚ) < (playTarget outRate - r.play.length : ℚ) * r.down.step + r.down.t := by
    have gap : (0 : ℚ) < playTarget outRate - r.play.length := sub_pos.mpr (Nat.cast_lt.mpr short)
    exact add_pos_of_pos_of_nonneg (mul_pos gap r.down.step_pos) r.down.t_nonneg
  calc (r.topUp tanh gains m).missing
      ≤ ⌈(playTarget outRate - r.play.length : ℚ) * r.down.step + r.down.t - 1⌉₊ := Nat.ceil_mono nearer
    _ = r.missing - 1 := Nat.ceil_sub_one _
    _ < r.missing := Nat.sub_lt (Nat.ceil_pos.mpr far) one_pos

end

/-- The inner loop, while nothing is played. Before round `i` the other threads make of the mix map and the
    gains what `others i` says. -/
def refill (tanh : ℚ → ℚ) (others : ℕ → MixMap → Gains × MixMap) (i : ℕ) (m : MixMap) (r : Playback outRate) :
    Playback outRate :=
  if r.play.length < playTarget outRate then
    let found := others i m
    refill tanh others (i + 1) found.2.drain (r.topUp tanh found.1 found.2)
  else r
termination_by r.missing
decreasing_by
  rename_i short
  exact missing_topUp short

theorem target_le_refill (tanh : ℚ → ℚ) (others : ℕ → MixMap → Gains × MixMap) (i : ℕ) (m : MixMap) (r : Playback outRate) :
    playTarget outRate ≤ (r.refill tanh others i m).play.length := by
  fun_induction refill tanh others i m r with
  | case1 i m r short found ih => exact ih
  | case2 i m r full => exact Nat.not_lt.mp full

end Playback

/-! ### Runs -/

namespace MixerState

/-- The samples about to be pushed fit into the ring. -/
def Fits (ring : Playback outRate) : MixerPc → Prop
  | .mixing => ring.play.length < playTarget outRate
  | .pushing o => (ring.play ++ o).length ≤ playCap outRate
  | _ => True

/-- The samples pushed are those played and those in the ring, in order. -/
structure Inv (st : MixerState outRate) : Prop where
  fits : Fits st.ring st.pc
  order : st.pushed = st.played ++ st.ring.play

section
variable {tanh : ℚ → ℚ} {st st' : MixerState outRate}

theorem inv_start (gains : Gains) : (start gains : MixerState outRate).Inv := ⟨trivial, rfl⟩

/-- Playing makes room. -/
theorem fits_take {ring : Playback outRate} {pc : MixerPc} (h : Fits ring pc) (n : ℕ) : Fits (ring.take n) pc := by
  have fewer : (ring.take n).play.length ≤ ring.play.length := (List.drop_sublist n ring.play).length_le
  cases pc with
  | mixing => exact lt_of_le_of_lt fewer h
  | pushing o =>
    rw [Fits, List.length_append] at h ⊢
    omega
  | outer => trivial
  | checking => trivial
  | stopped => trivial

theorem Inv.mixerStep (h : st.Inv) (hs : st.mixerStep tanh = some st') : st'.Inv := by
  unfold MixerState.mixerStep at hs
  split at hs
  · cases hs
    refine ⟨?_, h.order⟩
    cases st.stop <;> trivial
  · cases hs
    refine ⟨?_, h.order⟩
    by_cases short : st.ring.play.length < playTarget outRate
    · rw [if_pos short]
      exact short
    · rw [if_neg short]
      trivial
  · rename_i hpc
    cases hs
    have short : Fits st.ring .mixing := hpc ▸ h.fits
    exact ⟨Playback.room short Playback.length_produced, h.order⟩
  · rename_i o hpc
    cases hs
    have room : Fits st.ring (.pushing o) := hpc ▸ h.fits
    refine ⟨trivial, ?_⟩
    rw [Playback.play_push_of_room room, ← List.append_assoc, ← h.order]
  · cases hs

theorem Inv.step {a : MixerAct} (h : st.Inv) (hs : st.step tanh a = some st') : st'.Inv := by
  cases a with
  | mixer => exact h.mixerStep hs
  | callback n =>
    cases hs
    refine ⟨fits_take h.fits n, ?_⟩
    show st.pushed = st.played ++ st.ring.play.take n ++ st.ring.play.drop n
    rw [List.append_assoc, List.take_append_drop, h.order]
  | others gains mix =>
    cases hs
    exact ⟨h.fits, h.order⟩
  | stop =>
    cases hs
    exact ⟨h.fits, h.order⟩

theorem inv_of_run {gains : Gains} (run : Lts.Reach (step tanh) Lts.anyStep (start gains) st) : st.Inv :=
  run.invariant (inv_start gains) fun _ _ _ h _ hs => h.step hs

/-- The state behind a round of the refill, in which the mixer finds these gains and this mix map. -/
def topUp (tanh : ℚ → ℚ) (gains : Gains) (mix : MixMap) (st : MixerState outRate) : MixerState outRate :=
  { st with
    gains
    mix := mix.drain
    ring := st.ring.topUp tanh gains mix
    pushed := st.pushed ++ st.ring.produced tanh gains mix }

theorem reach_topUp (gains : Gains) (mix : MixMap) (h : st.pc = .checking)
    (short : st.ring.play.length < playTarget outRate) :
    Lts.Reach (step tanh) Lts.anyStep st (st.topUp tanh gains mix) := by
  have checked : Lts.Reach (step tanh) Lts.anyStep st { st with gains, mix, pc := .mixing } := by
    refine (Lts.Reach.refl.step (.others gains mix) trivial rfl).step .mixer trivial ?_
    rw [step, mixerStep]
    simp only [h, if_pos short]
  refine (checked.step .mixer trivial rfl).step .mixer trivial ?_
  rw [step, mixerStep, topUp, h]
  rfl

end

/-- The refill is what the thread does while nothing is played. -/
theorem reach_refill (tanh : ℚ → ℚ) (others : ℕ → MixMap → Gains × MixMap) (i : ℕ)
    (st : MixerState outRate) (h : st.pc = .checking) :
    ∃ st' : MixerState outRate, Lts.Reach (step tanh) Lts.anyStep st st' ∧ st'.pc = .outer ∧ st'.played = st.played ∧
      st'.ring = st.ring.refill tanh others i st.mix := by
  generalize hr : st.ring = r
  generalize hm : st.mix = m
  fun_induction Playback.refill tanh others i m r generalizing st with
  | case1 i m r short found ih =>
    cases hr
    cases hm
    obtain ⟨st', run, done, played, ring⟩ := ih (st.topUp tanh found.1 found.2) h rfl rfl
    exact ⟨st', (reach_topUp found.1 found.2 h short).trans run, done, played, ring⟩
  | case2 i m r full =>
    cases hr
    refine ⟨{ st with pc := .outer }, Lts.Reach.refl.step .mixer trivial ?_, rfl, rfl, rfl⟩
    rw [step, mixerStep]
    simp only [h, if_neg full]

/-- The refill ends between the target and the cap, and in every run the samples pushed into the ring fit into
    it, and are those played and those still in it, in order. -/
theorem refill_keeps_audio (tanh : ℚ → ℚ) :
    (∀ (others : ℕ → MixMap → Gains × MixMap) (i : ℕ) (m : MixMap) (r : Playback outRate),
      playTarget outRate ≤ (r.refill tanh others i m).play.length ∧
        (r.refill tanh others i m).play.length ≤ playCap outRate) ∧
    ∀ (gains : Gains) (st : MixerState outRate), Lts.Reach (step tanh) Lts.anyStep (start gains) st →
      (∀ o, st.pc = .pushing o → (st.ring.play ++ o).length ≤ playCap outRate) ∧ st.pushed = st.played ++ st.ring.play := by
  refine ⟨fun others i m r => ⟨Playback.target_le_refill tanh others i m r, (r.refill tanh others i m).within⟩,
    fun gains st run => ?_⟩
  have inv := inv_of_run run
  exact ⟨fun o hpc => show Fits st.ring (.pushing o) from hpc ▸ inv.fits, inv.order⟩

def unset : Gains := { master := none, peers := ∅ }

/-- A peer sends a constant signal at half of full scale. -/
def talk : MixMap := (∅ : MixMap).push "bob" (List.replicate 960 16384) 19200

theorem produced_talk : (Playback.start : Playback 48000).produced id unset talk = List.replicate 959 16383 := by
  have mixed : talk.mixed unset = List.replicate 960 16384 := by
    have value : toI32 ((16384 : ℤ) * unset.peerV "bob") = 16384 := by decide +kernel
    have entries : talk.entries = [⟨"bob", List.replicate 960 16384⟩] := by
      have within : (MixMap.buffer ∅ "bob" ++ List.replicate 960 16384).length ≤ 19200 := by
        rw [List.length_append, List.length_replicate]
        decide
      rw [talk, MixMap.push, trimFront_within within]
      rfl
    rw [MixMap.mixed, entries, List.foldl_cons, List.foldl_nil, frameSize, List.take_replicate,
      Nat.min_self, List.map_replicate, value, addTo_replicate, zero_add]
  have value : id (((16384 : ℤ) : ℚ) * unset.masterV / 32768) = 1 / 2 := by decide +kernel
  have pushed : toI16 (1 / 2 * 32767) = 16383 := by decide +kernel
  rw [Playback.produced, Playback.softLimited, mixed, List.map_replicate, value, Playback.start,
    Resampler.process_replicate, List.map_replicate, pushed]
  norm_num [Resampler.count, opusSr]

/-- Somebody talks, a frame is mixed and pushed, and a callback plays a part of it. -/
theorem refill_keeps_audio_talk :
    (playTarget 48000 ≤ ((Playback.start : Playback 48000).refill id (fun _ m => (unset, m)) 0 talk).play.length ∧
      ((Playback.start : Playback 48000).refill id (fun _ m => (unset, m)) 0 talk).play.length ≤ playCap 48000) ∧
    ∃ st : MixerState 48000, Lts.Reach (step id) Lts.anyStep (start unset) st ∧ st.played = List.replicate 480 16383 ∧
      st.ring.play = List.replicate 479 16383 ∧ st.pushed = st.played ++ st.ring.play := by
  let first : MixerState 48000 := { start unset with pc := .checking }
  let played : MixerState 48000 := { first.topUp id unset talk with
    ring := (first.topUp id unset talk).ring.take 480
    played := [] ++ (first.topUp id unset talk).ring.play.take 480 }
  have run : Lts.Reach (step id) Lts.anyStep (start unset) played :=
    ((Lts.Reach.refl.step (u := first) .mixer trivial rfl).trans (reach_topUp unset talk rfl (by decide))).step
      (.callback 480) trivial rfl
  have ring : (first.topUp id unset talk).ring.play = List.replicate 959 16383 := by
    have grown : ((Playback.start : Playback 48000).topUp id unset talk).play =
        [] ++ Playback.start.produced id unset talk :=
      Playback.play_topUp (by decide)
    rw [produced_talk, List.nil_append] at grown
    exact grown
  have taken : played.played = List.replicate 480 16383 := by
    show [] ++ (first.topUp id unset talk).ring.play.take 480 = _
    rw [ring, List.take_replicate, List.nil_append, Nat.min_eq_left (by decide)]
  have rest : played.ring.play = List.replicate 479 16383 := by
    show ((first.topUp id unset talk).ring.take 480).play = _
    rw [Playback.play_take, ring, List.drop_replicate]
  exact ⟨(refill_keeps_audio id).1 _ 0 talk .start, played, run, taken, rest,
    ((refill_keeps_audio id).2 unset played run).2⟩

end MixerState

end SquadLink

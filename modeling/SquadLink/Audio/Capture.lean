import SquadLink.Audio.Dsp
import SquadLink.Audio.Resampler

/-! The capture loop (`companion-core/src/audio.rs`, `encode_loop`): captured samples are resampled, denoised
    in blocks of 480 and processed in frames of 960. The denoiser and the DSP chain are parameters; the
    encoder's bitrate is left out. -/

namespace SquadLink

/-- `f32 as i16`: towards zero, saturating. -/
def toI16 (v : ℚ) : ℤ := clamp (-32768) 32767 (if 0 ≤ v then ⌊v⌋ else ⌈v⌉)

/-- A device sample as a fraction of full scale. -/
def scaled (s : ℤ) : ℚ := s / 32768

/-- The components with a state of their own: one block at a time, and one sample at a time. -/
structure Processors (δ σ : Type) where
  denoise : δ → List ℚ → δ × Vector ℚ 480
  dsp : σ → DspConfig ℚ → ℚ → σ × ℚ

/-- What the loop reads of the shared flags and settings for a frame. -/
structure Knobs where
  transmit : Bool
  dtx : Bool
  monitor : Bool
  cfg : DspConfig ℚ

/-- A processed frame, with what was read for it. -/
structure Finished where
  knobs : Knobs
  frame : List ℤ

def silent (frame : List ℤ) : Bool := frame.all fun s => |s| < 250

namespace Finished

/-- The frame is passed to the encoder. -/
def encodes (f : Finished) : Bool := f.knobs.transmit && !(f.knobs.dtx && silent f.frame)

end Finished

/-- The frames passed to the encoder. -/
def encoded (fs : List Finished) : List (List ℤ) := (fs.filter Finished.encodes).map (·.frame)

/-- What a poll of the capture buffer finds: the samples, and the flags and settings for the frames that
    are completed by them. -/
structure Poll where
  captured : List ℤ
  read : ℕ → Knobs

/-- The state of the loop. -/
structure Capture (δ σ : Type) where
  up : Resampler
  den : δ
  dsp : σ
  buf48 : List ℚ
  clean : List ℚ

variable {δ σ : Type}

namespace Processors

/-- RNNoise works in i16-scaled samples. -/
def denoiseBlock (P : Processors δ σ) (s : δ) (block : List ℚ) : δ × List ℚ :=
  let r := P.denoise s (block.map fun v => v * 32768)
  (r.1, r.2.toList.map fun v => clamp (-1) 1 (v / 32768))

/-- One frame with the settings as they were read for it. -/
def processFrame (P : Processors δ σ) (cfg : DspConfig ℚ) (s : σ) (block : List ℚ) : σ × List ℤ :=
  Stage.pass (fun s v => ((P.dsp s cfg v).1, [toI16 ((P.dsp s cfg v).2 * 32767)])) s block

/-- The next frame of a poll. -/
def nextFrame (P : Processors δ σ) (read : ℕ → Knobs) (s : σ × ℕ) (block : List ℚ) : (σ × ℕ) × List Finished :=
  let r := P.processFrame (read s.2).cfg s.1 block
  ((r.1, s.2 + 1), [{ knobs := read s.2, frame := r.2 }])

end Processors

namespace Capture

def start (inRate : ℕ+) (den : δ) (dsp : σ) : Capture δ σ :=
  { up := .new inRate opusSr, den, dsp, buf48 := [], clean := [] }

/-- One iteration. -/
def poll (P : Processors δ σ) (st : Capture δ σ) (p : Poll) : Capture δ σ × List Finished :=
  if p.captured.isEmpty then (st, [])
  else
    let up := Resampler.stage.process st.up (p.captured.map scaled)
    let den := Stage.drain 480 P.denoiseBlock st.den (st.buf48 ++ up.2)
    let dsp := Stage.drain 960 (P.nextFrame p.read) (st.dsp, 0) (st.clean ++ den.out)
    ({ up := up.1, den := den.state, dsp := dsp.state.1, buf48 := den.rest, clean := dsp.rest }, dsp.out)

def run (P : Processors δ σ) : Capture δ σ → List Poll → Capture δ σ × List Finished
  | st, [] => (st, [])
  | st, p :: polls => ((run P (st.poll P p).1 polls).1, (st.poll P p).2 ++ (run P (st.poll P p).1 polls).2)

end Capture

/-! ### Frames of a fixed setting -/

/-- Transmission is on and DTX off, with these settings. -/
structure Knobs.Sending (c : DspConfig ℚ) (k : Knobs) : Prop where
  transmit : k.transmit = true
  dtx : k.dtx = false
  cfg : k.cfg = c

namespace Processors

/-- A frame of the fixed setting. -/
def sentFrame (P : Processors δ σ) (c : DspConfig ℚ) (s : σ) (block : List ℚ) : σ × List (List ℤ) :=
  ((P.processFrame c s block).1, [(P.processFrame c s block).2])

end Processors

section
variable {P : Processors δ σ} {c : DspConfig ℚ} {read : ℕ → Knobs}

theorem encoded_append (fs gs : List Finished) : encoded (fs ++ gs) = encoded fs ++ encoded gs := by
  rw [encoded, List.filter_append, List.map_append]
  rfl

theorem encoded_sending {k : Knobs} (h : k.Sending c) (frame : List ℤ) : encoded [{ knobs := k, frame }] = [frame] := by
  have encodes : Finished.encodes { knobs := k, frame } = true := by
    rw [Finished.encodes, h.transmit, h.dtx]
    rfl
  rw [encoded, List.filter_cons_of_pos encodes]
  rfl

/-- With a fixed setting it does not matter for which frame of the poll it was read. -/
theorem drain_sending (on : ∀ i, (read i).Sending c) (buf : List ℚ) : ∀ s : σ × ℕ,
    (Stage.drain 960 (P.nextFrame read) s buf).state.1 = (Stage.drain 960 (P.sentFrame c) s.1 buf).state ∧
    encoded (Stage.drain 960 (P.nextFrame read) s buf).out = (Stage.drain 960 (P.sentFrame c) s.1 buf).out ∧
    (Stage.drain 960 (P.nextFrame read) s buf).rest = (Stage.drain 960 (P.sentFrame c) s.1 buf).rest := by
  have pos : 0 < 960 := by decide
  induction buf using Stage.drain_induction pos with
  | short buf h =>
    intro s
    rw [Stage.drain_short h, Stage.drain_short h]
    exact ⟨rfl, rfl, rfl⟩
  | block buf h ih =>
    intro s
    obtain ⟨state, out, rest⟩ := ih (P.nextFrame read s (buf.take 960)).1
    have first : encoded (P.nextFrame read s (buf.take 960)).2 = (P.sentFrame c s.1 (buf.take 960)).2 := by
      rw [Processors.nextFrame, encoded_sending (on s.2), (on s.2).cfg]
      rfl
    have next : (P.nextFrame read s (buf.take 960)).1.1 = (P.sentFrame c s.1 (buf.take 960)).1 := by
      rw [Processors.nextFrame, (on s.2).cfg]
      rfl
    rw [next] at state out rest
    rw [Stage.drain_block pos h, Stage.drain_block pos h]
    refine ⟨state, ?_, rest⟩
    rw [encoded_append, first, out]

/-! ### The loop as a chain of stages -/

/-- The state of the chain: resampler, denoiser with what it holds back, DSP with what it holds back. -/
abbrev ChainState (δ σ : Type) : Type :=
  (Resampler × (δ × { held : List ℚ // held.length < 480 })) × (σ × { held : List ℚ // held.length < 960 })

def Processors.chain (P : Processors δ σ) (c : DspConfig ℚ) : Stage (ChainState δ σ) ℚ (List ℤ) :=
  .chain (.chain Resampler.stage (.ofBlocks 480 (by decide) P.denoiseBlock)) (.ofBlocks 960 (by decide) (P.sentFrame c))

/-- The state of the loop is that of the chain. -/
structure Capture.Mirrors (st : Capture δ σ) (t : ChainState δ σ) : Prop where
  up : st.up = t.1.1
  den : st.den = t.1.2.1
  buf48 : st.buf48 = t.1.2.2.val
  dsp : st.dsp = t.2.1
  clean : st.clean = t.2.2.val

variable {st : Capture δ σ} {t : ChainState δ σ}

theorem Capture.Mirrors.held (h : st.Mirrors t) : st.buf48.length < 480 ∧ st.clean.length < 960 := by
  rw [h.buf48, h.clean]
  exact ⟨t.1.2.2.property, t.2.2.property⟩

/-- An iteration processes its samples as one chunk. -/
theorem Capture.Mirrors.poll (h : st.Mirrors t) {p : Poll} (on : ∀ i, (p.read i).Sending c) :
    (st.poll P p).1.Mirrors ((P.chain c).process t (p.captured.map scaled)).1 ∧
      encoded (st.poll P p).2 = ((P.chain c).process t (p.captured.map scaled)).2 := by
  unfold Capture.poll
  split
  · rename_i hempty
    rw [List.isEmpty_iff.mp hempty, List.map_nil, (P.chain c).process_nil]
    exact ⟨h, rfl⟩
  · obtain ⟨state, out, rest⟩ := @drain_sending δ σ P c p.read on
      (st.clean ++ (Stage.drain 480 P.denoiseBlock st.den
        (st.buf48 ++ (Resampler.stage.process st.up (p.captured.map scaled)).2)).out) (st.dsp, 0)
    rw [h.up, h.den, h.buf48, h.dsp, h.clean] at state out rest
    simp only [h.up, h.den, h.buf48, h.dsp, h.clean]
    exact ⟨⟨rfl, rfl, rfl, state, rest⟩, out⟩

theorem Capture.Mirrors.run : ∀ {polls : List Poll} {st : Capture δ σ} {t : ChainState δ σ}, st.Mirrors t →
    (∀ p ∈ polls, ∀ i, (p.read i).Sending c) →
    (st.run P polls).1.Mirrors ((P.chain c).feed t (polls.map fun p => p.captured.map scaled)).1 ∧
      encoded (st.run P polls).2 = ((P.chain c).feed t (polls.map fun p => p.captured.map scaled)).2
  | [], _, _, h, _ => ⟨h, rfl⟩
  | p :: polls, st, t, h, on => by
    obtain ⟨first, rest⟩ := List.forall_mem_cons.mp on
    obtain ⟨next, out⟩ := h.poll (P := P) first
    obtain ⟨last, outs⟩ := next.run rest
    rw [List.map_cons, Stage.feed, Capture.run]
    exact ⟨last, by rw [encoded_append, out, outs]⟩

/-! ### All samples at once -/

/-- The captured samples at 48 kHz. -/
def resampled (inRate : ℕ+) (samples : List ℤ) : List ℚ :=
  (Resampler.stage.process (.new inRate opusSr) (samples.map scaled)).2

/-- The complete blocks of the stream, denoised in order. -/
def Processors.denoised (P : Processors δ σ) (den : δ) (stream : List ℚ) : List ℚ :=
  (Stage.pass P.denoiseBlock den (Stage.blocksOf 480 stream)).2

/-- The complete frames of the denoised stream, processed in order. -/
def Processors.framed (P : Processors δ σ) (c : DspConfig ℚ) (dsp : σ) (stream : List ℚ) : List (List ℤ) :=
  (Stage.pass (P.sentFrame c) dsp (Stage.blocksOf 960 stream)).2

/-- However the captured samples are split over the polls, the encoder is passed the frames of the whole
    stream, and what is held back is what is left of it behind its complete blocks and frames. -/
theorem frames_of_polls (P : Processors δ σ) (inRate : ℕ+) (den : δ) (dsp : σ) (c : DspConfig ℚ) (polls : List Poll)
    (on : ∀ p ∈ polls, ∀ i, (p.read i).Sending c) :
    encoded ((Capture.start inRate den dsp).run P polls).2 =
        P.framed c dsp (P.denoised den (resampled inRate (polls.flatMap (·.captured)))) ∧
      (Stage.blocksOf 480 (resampled inRate (polls.flatMap (·.captured)))).flatten ++
          ((Capture.start inRate den dsp).run P polls).1.buf48 = resampled inRate (polls.flatMap (·.captured)) ∧
      ((Capture.start inRate den dsp).run P polls).1.buf48.length < 480 ∧
      (Stage.blocksOf 960 (P.denoised den (resampled inRate (polls.flatMap (·.captured))))).flatten ++
          ((Capture.start inRate den dsp).run P polls).1.clean =
          P.denoised den (resampled inRate (polls.flatMap (·.captured))) ∧
      ((Capture.start inRate den dsp).run P polls).1.clean.length < 960 := by
  have mirrors : (Capture.start inRate den dsp).Mirrors
      (((.new inRate opusSr, (den, ⟨[], by decide⟩)), (dsp, ⟨[], by decide⟩)) : ChainState δ σ) := ⟨rfl, rfl, rfl, rfl, rfl⟩
  obtain ⟨last, out⟩ := mirrors.run (P := P) on
  have whole : (polls.map fun p => p.captured.map scaled).flatten = (polls.flatMap (·.captured)).map scaled := by
    rw [List.map_flatMap, List.flatMap_def]
  rw [Stage.feed_eq_process, whole] at last out
  obtain ⟨denoised, behind⟩ := Stage.process_ofBlocks (f := P.denoiseBlock) (by decide : 0 < 480)
    (resampled inRate (polls.flatMap (·.captured))) den (by decide)
  obtain ⟨framed, rest⟩ := Stage.process_ofBlocks (f := P.sentFrame c) (by decide : 0 < 960)
    (P.denoised den (resampled inRate (polls.flatMap (·.captured)))) dsp (by decide)
  refine ⟨out.trans ?_, ?_, last.held.1, ?_, last.held.2⟩
  · exact (congrArg (fun l =>
      ((Stage.ofBlocks 960 _ (P.sentFrame c)).process (dsp, ⟨[], by decide⟩) l).2) denoised).trans framed
  · rw [last.buf48]
    exact behind
  · have held := congrArg
        (fun l => ((Stage.ofBlocks 960 (by decide) (P.sentFrame c)).process (dsp, ⟨[], by decide⟩) l).1.2.val) denoised
    rw [last.clean]
    exact (congrArg _ held).trans rest

/-- Components that pass everything on. -/
def transparent : Processors Unit Unit :=
  { denoise := fun _ block => ((), Vector.ofFn fun i => block.getD i 0), dsp := fun _ _ v => ((), v) }

def onAir (monitor : Bool) : Knobs := { transmit := true, dtx := false, monitor, cfg := .default }

theorem Processors.length_denoiseBlock (P : Processors δ σ) (s : δ) (block : List ℚ) :
    (P.denoiseBlock s block).2.length = 480 := by
  simp only [denoiseBlock, List.length_map, Vector.length_toList]

theorem transparent_denoiseBlock {v : ℚ} (low : -1 ≤ v) (high : v ≤ 1) :
    transparent.denoiseBlock () (List.replicate 480 v) = ((), List.replicate 480 v) := by
  have same : (transparent.denoiseBlock () (List.replicate 480 v)).2 = List.replicate 480 v := by
    refine List.eq_replicate_iff.mpr ⟨Processors.length_denoiseBlock .., fun w hw => ?_⟩
    simp only [Processors.denoiseBlock, transparent, Vector.toList_ofFn, List.map_replicate] at hw
    obtain ⟨x, hx, rfl⟩ := List.mem_map.mp hw
    obtain ⟨i, rfl⟩ := List.mem_ofFn.mp hx
    have scale : v * 32768 / 32768 = v := by ring
    rw [List.getD_replicate _ i.isLt, scale, clamp, min_eq_left high, max_eq_right low]
  exact Prod.ext (Subsingleton.elim _ _) same

theorem transparent_sentFrame (c : DspConfig ℚ) (v : ℚ) :
    transparent.sentFrame c () (List.replicate 960 v) = ((), [List.replicate 960 (toI16 (v * 32767))]) := by
  have same :=
    Stage.pass_replicate (f := fun s v => ((transparent.dsp s c v).1, [toI16 ((transparent.dsp s c v).2 * 32767)]))
    (s := ()) (a := v) rfl 960
  rw [List.flatten_replicate_singleton] at same
  rw [Processors.sentFrame, Processors.processFrame, same]
  simp only [transparent]

/-- Two polls with an empty one between them, and the monitor on for the last one: two blocks of a constant
    signal make a frame, and ten samples are held back. -/
theorem frames_of_polls_constant :
    let polls := [{ captured := List.replicate 500 8192, read := fun _ => onAir false },
        { captured := [], read := fun _ => onAir false },
      { captured := List.replicate 471 8192, read := fun _ => onAir true }]
    encoded ((Capture.start 48000 () ()).run transparent polls).2 = [List.replicate 960 8191] ∧
      ((Capture.start 48000 () ()).run transparent polls).1.buf48 = List.replicate 10 (1 / 4) := by
  intro polls
  have on : ∀ p ∈ polls, ∀ i, (p.read i).Sending .default := by
    intro p hp
    simp only [polls, List.mem_cons, List.not_mem_nil, or_false] at hp
    rcases hp with rfl | rfl | rfl <;> exact fun _ => ⟨rfl, rfl, rfl⟩
  obtain ⟨frames, blocks, -⟩ := frames_of_polls transparent 48000 () () .default polls on
  have stream : resampled 48000 (polls.flatMap (·.captured)) = List.replicate 970 (1 / 4) := by
    have captured : (polls.flatMap (·.captured)).map scaled = List.replicate 971 (1 / 4) := by
      simp only [polls, List.flatMap_cons, List.flatMap_nil, List.append_nil, List.nil_append,
        List.replicate_append_replicate, List.map_replicate]
      norm_num [scaled]
    rw [resampled, captured, Resampler.process_replicate]
    norm_num [Resampler.count, opusSr]
  have denoised : transparent.denoised () (List.replicate 970 (1 / 4)) = List.replicate 960 (1 / 4) := by
    rw [Processors.denoised, Stage.blocksOf_replicate,
      Stage.pass_replicate (transparent_denoiseBlock (by norm_num) (by norm_num)), List.flatten_replicate_replicate]
  have framed : transparent.framed .default () (List.replicate 960 (1 / 4)) = [List.replicate 960 8191] := by
    have value : toI16 (1 / 4 * 32767) = 8191 := by decide +kernel
    rw [Processors.framed, Stage.blocksOf_replicate, Stage.pass_replicate (transparent_sentFrame _ _), value]
    rfl
  rw [stream] at frames blocks
  refine ⟨by rw [frames, denoised, framed], ?_⟩
  rw [Stage.blocksOf_replicate, List.flatten_replicate_replicate] at blocks
  refine List.append_cancel_left (blocks.trans ?_)
  rw [List.replicate_append_replicate]

end

end SquadLink

import Mathlib.Logic.Function.Basic
import SquadLink.Client.Connect
import SquadLink.Lib.Assoc
import SquadLink.Lib.Lts
import SquadLink.Server.State

/-! The mix map (`companion-core/src/audio.rs`): `decode_loop` and the mic monitor of `encode_loop` push into
    the buffers of their sources, `mixer_loop` drains all of them, in any interleaving. -/

namespace SquadLink

/-- Samples by the name of their source. -/
abbrev MixMap := HashMap (List ℤ)

/-- Samples of a frame. -/
def frameSize : ℕ := 960

/-- The `while` loop that pops from the front of a buffer longer than its cap. -/
def trimFront (cap : ℕ) : List ℤ → List ℤ
  | [] => []
  | s :: b => if cap < (s :: b).length then trimFront cap b else s :: b

section
variable {cap : ℕ} {b : List ℤ}

theorem trimFront_eq_drop : ∀ b : List ℤ, trimFront cap b = b.drop (b.length - cap)
  | [] => by rw [trimFront, List.drop_nil]
  | s :: b => by
    rw [trimFront]
    split
    · rename_i long
      rw [trimFront_eq_drop b, List.length_cons, Nat.succ_sub (Nat.lt_succ_iff.mp long), List.drop_succ_cons]
    · rename_i within
      rw [Nat.sub_eq_zero_of_le (Nat.not_lt.mp within), List.drop_zero]

theorem trimFront_suffix : trimFront cap b <:+ b := trimFront_eq_drop b ▸ List.drop_suffix _ b

theorem length_trimFront_le : (trimFront cap b).length ≤ cap := by
  rw [trimFront_eq_drop, List.length_drop]
  omega

theorem trimFront_within (h : b.length ≤ cap) : trimFront cap b = b := by
  rw [trimFront_eq_drop, Nat.sub_eq_zero_of_le h, List.drop_zero]

end

namespace MixMap

def buffer (m : MixMap) (key : String) : List ℤ := (m.lookup key).getD []

/-- A frame is pushed sample by sample, and the buffer cut down to the cap. -/
def push (m : MixMap) (key : String) (frame : List ℤ) (cap : ℕ) : MixMap :=
  m.insert key (trimFront cap (m.buffer key ++ frame))

/-- The mixer takes up to a frame from the front of every buffer. -/
def drain (m : MixMap) : MixMap := Assoc.retain (fun b => some (b.drop (min b.length frameSize))) m

end MixMap

/-- Where samples come from. -/
inductive Source
  | peer (userId : String)
  | monitor
deriving DecidableEq, Repr

namespace Source

/-- The name of the buffer. -/
def key : Source → String
  | peer userId => userId
  | monitor => "self"

/-- About 400 ms of jitter for a peer, and 200 ms for the monitor. -/
def cap : Source → ℕ
  | peer _ => 19200
  | monitor => 9600

/-- A decoded packet holds a frame at most; the monitor passes on whole frames. -/
def sends : Source → List ℤ → Bool
  | peer _, frame => frame.length ≤ frameSize
  | monitor, frame => frame.length == frameSize

end Source

/-- The mix map, with everything that each source has pushed and the last source to push into each buffer,
    which no step reads. -/
structure MixState where
  mix : MixMap
  sent : Source → List ℤ
  last : String → Option Source

inductive MixAct
  | push (src : Source) (frame : List ℤ)
  | drain

namespace MixState

def start : MixState := { mix := ∅, sent := fun _ => [], last := fun _ => none }

/-- A remote user is one of `ids`. -/
def connected (ids : String → Bool) : Source → Bool
  | .peer userId => ids userId
  | .monitor => true

def push (st : MixState) (src : Source) (frame : List ℤ) : MixState :=
  { mix := st.mix.push src.key frame src.cap
    sent := Function.update st.sent src (st.sent src ++ frame)
    last := Function.update st.last src.key (some src) }

def step (ids : String → Bool) (st : MixState) : MixAct → Option MixState
  | .push src frame => if connected ids src && src.sends frame then some (st.push src frame) else none
  | .drain => some { st with mix := st.mix.drain }

/-- Each buffer holds the latest samples of one source, in order, within the source's cap. -/
def OneSource (st : MixState) : Prop :=
  ∀ key, ∃ src : Source, src.key = key ∧ st.mix.buffer key <:+ st.sent src ∧ (st.mix.buffer key).length ≤ src.cap

/-- A source pushes into a buffer that is empty or that it pushed into last. -/
def Apart (st : MixState) (a : MixAct) (_ : MixState) : Prop :=
  ∀ src frame, a = .push src frame → st.mix.buffer src.key = [] ∨ st.last src.key = some src

section
variable {cap : ℕ} {b frame : List ℤ} {m : MixMap} {key : String} {src : Source} {ids : String → Bool}
  {st st' : MixState} {a : MixAct}

/-! ### Buffers -/

@[simp] theorem buffer_push_self : (m.push key frame cap).buffer key = trimFront cap (m.buffer key ++ frame) := by
  rw [MixMap.push, MixMap.buffer, AList.lookup_insert, Option.getD_some]

theorem buffer_push_within (h : (m.buffer key ++ frame).length ≤ cap) :
    (m.push key frame cap).buffer key = m.buffer key ++ frame := by
  rw [buffer_push_self, trimFront_within h]

theorem buffer_push_ne {key' : String} (h : key' ≠ key) : (m.push key frame cap).buffer key' = m.buffer key' := by
  rw [MixMap.push, MixMap.buffer, AList.lookup_insert_ne h, MixMap.buffer]

theorem buffer_drain (m : MixMap) (key : String) :
    m.drain.buffer key = (m.buffer key).drop (min (m.buffer key).length frameSize) := by
  rw [MixMap.drain, MixMap.buffer, Assoc.lookup_retain, MixMap.buffer]
  cases m.lookup key with
  | none => rfl
  | some b => rfl

@[simp] theorem push_mix : (st.push src frame).mix = st.mix.push src.key frame src.cap := rfl

theorem push_sent_self : (st.push src frame).sent src = st.sent src ++ frame := Function.update_self ..

theorem push_sent_ne {src' : Source} (h : src' ≠ src) : (st.push src frame).sent src' = st.sent src' :=
  Function.update_of_ne h ..

theorem push_last_self : (st.push src frame).last src.key = some src := Function.update_self ..

theorem push_last_ne (h : key ≠ src.key) : (st.push src frame).last key = st.last key := Function.update_of_ne h ..

/-! ### Runs -/

/-- A buffer that is not empty holds the latest samples of the source that pushed into it last. -/
def Held (st : MixState) : Prop :=
  ∀ key, st.mix.buffer key = [] ∨ ∃ src : Source, st.last key = some src ∧ src.key = key ∧
    st.mix.buffer key <:+ st.sent src ∧ (st.mix.buffer key).length ≤ src.cap

theorem held_start : start.Held := fun _ => Or.inl rfl

theorem Held.push (h : st.Held) (apart : st.mix.buffer src.key = [] ∨ st.last src.key = some src) (frame : List ℤ) :
    (st.push src frame).Held := by
  have before : st.mix.buffer src.key <:+ st.sent src := by
    rcases apart with empty | own
    · rw [empty]
      exact List.nil_suffix
    · rcases h src.key with empty | ⟨src', last, -, suffix, -⟩
      · rw [empty]
        exact List.nil_suffix
      · rw [own] at last
        cases last
        exact suffix
  intro key
  by_cases hkey : key = src.key
  · subst hkey
    refine Or.inr ⟨src, push_last_self, rfl, ?_, ?_⟩
    · rw [push_mix, buffer_push_self, push_sent_self]
      obtain ⟨older, hsent⟩ := before
      exact trimFront_suffix.trans ⟨older, by rw [← List.append_assoc, hsent]⟩
    · rw [push_mix, buffer_push_self]
      exact length_trimFront_le
  · rw [push_mix, buffer_push_ne hkey, push_last_ne hkey]
    refine (h key).imp_right fun ⟨src', last, hkey', suffix, within⟩ => ⟨src', last, hkey', ?_, within⟩
    have other : src' ≠ src := fun heq => hkey (heq ▸ hkey'.symm)
    rwa [push_sent_ne other]

theorem Held.drain (h : st.Held) : Held { st with mix := st.mix.drain } := by
  intro key
  simp only [buffer_drain]
  rcases h key with empty | ⟨src, last, hkey, suffix, within⟩
  · exact Or.inl (by rw [empty, List.drop_nil])
  · refine Or.inr ⟨src, last, hkey, (List.drop_suffix _ _).trans suffix, ?_⟩
    rw [List.length_drop]
    omega

theorem Held.step (h : st.Held) (apart : st.Apart a st') (hs : step ids st a = some st') : st'.Held := by
  cases a with
  | push src frame =>
    simp only [MixState.step] at hs
    split at hs
    · cases hs
      exact h.push (apart src frame rfl) frame
    · cases hs
  | drain =>
    cases hs
    exact h.drain

/-- An empty buffer is nobody's. -/
theorem Held.oneSource (h : st.Held) : st.OneSource := by
  intro key
  rcases h key with empty | ⟨src, -, hkey, suffix, within⟩
  · refine ⟨.peer key, rfl, ?_, ?_⟩
    · rw [empty]
      exact List.nil_suffix
    · rw [empty]
      exact Nat.zero_le _
  · exact ⟨src, hkey, suffix, within⟩

/-- Whoever the remote users are: as long as no source pushes into a buffer that still holds samples of
    another one, each buffer holds the latest samples of one source. -/
theorem one_source_of_apart (ids : String → Bool) (run : Lts.Reach (step ids) Apart start st) : st.OneSource :=
  (run.invariant held_start fun _ _ _ h apart hs => h.step apart hs).oneSource

theorem step_push (h : connected ids src = true) (whole : src.sends frame = true) :
    step ids st (.push src frame) = some (st.push src frame) := by
  rw [step, h, whole]
  rfl

theorem step_push_inv (hs : step ids st (.push src frame) = some st') :
    connected ids src = true ∧ st' = st.push src frame := by
  simp only [step] at hs
  split at hs
  · rename_i h
    exact ⟨(Bool.and_eq_true_iff.mp h).1, (Option.some.inj hs).symm⟩
  · cases hs

/-- Only connected sources have pushed. -/
theorem connected_of_last (run : Lts.Reach (step ids) Lts.anyStep start st) : ∀ key src, st.last key = some src →
    connected ids src = true := by
  refine run.invariant (P := fun st => ∀ key src, st.last key = some src → connected ids src = true)
    (fun _ _ h => by cases h) fun t a u ih _ hs key src hlast => ?_
  cases a with
  | push src' frame =>
    obtain ⟨hconn, rfl⟩ := step_push_inv hs
    by_cases hkey : key = src'.key
    · subst hkey
      rw [push_last_self] at hlast
      cases hlast
      exact hconn
    · rw [push_last_ne hkey] at hlast
      exact ih key src hlast
  | drain =>
    cases hs
    exact ih key src hlast

/-- If no remote user has the monitor's name, each name stands for one source. -/
theorem key_inj (other : ids "self" = false) {src' : Source} (h : connected ids src = true) (h' : connected ids src' = true)
    (same : src.key = src'.key) : src = src' := by
  cases src with
  | peer id =>
    cases src' with
    | peer id' => exact congrArg Source.peer same
    | monitor =>
      rw [connected, show id = "self" from same, other] at h
      cases h
  | monitor =>
    cases src' with
    | peer id' =>
      rw [connected, show id' = "self" from same.symm, other] at h'
      cases h'
    | monitor => rfl

/-- Without a remote user of the monitor's name, no source ever meets another one in a buffer. -/
theorem apart_of_no_self (other : ids "self" = false) (run : Lts.Reach (step ids) Lts.anyStep start st) :
    Lts.Reach (step ids) Apart start st := by
  induction run with
  | refl => exact .refl
  | @step t u a hr _ hs ih =>
    refine ih.step a (fun src frame heq => ?_) hs
    subst heq
    have held : t.Held := ih.invariant held_start fun _ _ _ h apart hs => h.step apart hs
    refine (held src.key).imp_right fun ⟨src', last, hkey, _⟩ => ?_
    rw [last, key_inj other (connected_of_last hr _ _ last) (step_push_inv hs).1 hkey]

end

/-! ### A remote user with the monitor's name -/

def tone : List ℤ := List.replicate frameSize 1

theorem tone_whole : Source.monitor.sends tone = true := by simp [Source.sends, tone]

theorem one_source_sample : ((start.push (.peer "alice") [5]).push .monitor tone).OneSource := by
  have first : start.Apart (.push (.peer "alice") [5]) (start.push (.peer "alice") [5]) := fun _ _ h => by
    cases h
    exact Or.inl rfl
  have second : (start.push (.peer "alice") [5]).Apart (.push .monitor tone)
      ((start.push (.peer "alice") [5]).push .monitor tone) :=
    fun _ _ h => by
      cases h
      exact Or.inl (buffer_push_ne (by decide))
  exact one_source_of_apart (fun id => id == "alice")
    ((Lts.Reach.refl.step (.push (.peer "alice") [5]) first rfl).step (.push .monitor tone) second
      (step_push rfl tone_whole))

/-- The monitor is on while a remote user whose id is "self" is heard. -/
theorem self_buffer_mixes_sources :
    ¬ ∀ ids : String → Bool, (∀ id, ids id = true → validId id 64 = true ∧ lenOk id maxId = true) →
    ∀ st, Lts.Reach (step ids) Lts.anyStep start st → st.OneSource := by
  intro h
  have admitted : ∀ id : String, (id == "self") = true → validId id 64 = true ∧ lenOk id maxId = true := fun id hid => by
    rw [beq_iff_eq.mp hid]
    decide
  have monitored : Lts.Reach (step fun id => id == "self") Lts.anyStep start (start.push .monitor tone) :=
    Lts.Reach.refl.step (.push .monitor tone) trivial (step_push rfl tone_whole)
  have run : Lts.Reach (step fun id => id == "self") Lts.anyStep start
      ((start.push .monitor tone).push (.peer "self") [2]) :=
    monitored.step (.push (.peer "self") [2]) trivial (step_push rfl (by decide))
  obtain ⟨src, hkey, suffix, -⟩ := h _ admitted _ run "self"
  have size : tone.length = 960 := List.length_replicate
  have heard : (start.push .monitor tone).mix.buffer "self" = tone := buffer_push_within (by
    rw [List.length_append, size]
    decide)
  have room : ((start.push .monitor tone).mix.buffer "self" ++ [2]).length ≤ (Source.peer "self").cap := by
    rw [heard, List.length_append, size]
    decide
  have mixed : ((start.push .monitor tone).push (.peer "self") [2]).mix.buffer "self" = tone ++ [2] :=
    (buffer_push_within room).trans (congrArg (fun b => b ++ [2]) heard)
  have short : (((start.push .monitor tone).push (.peer "self") [2]).sent src).length ≤ 960 := by
    cases src with
    | peer id =>
      cases show id = "self" from hkey
      rw [push_sent_self, push_sent_ne (by decide)]
      decide
    | monitor =>
      rw [push_sent_ne (by decide), push_sent_self]
      exact size.le
  have := suffix.length_le
  rw [mixed, List.length_append, size, List.length_singleton] at this
  omega

end MixState

end SquadLink

import Mathlib.Data.Finset.Basic
import Mathlib.Data.List.Induction
import SquadLink.Lib.Lts

/-! Push-to-talk through the raw input listener of the Tauri shell (`raw_code`, `start_raw_input`,
    `set_ptt_binding`, `start_ptt_capture`). A key or button is given by its `Debug` text. -/

namespace SquadLink

/-- A raw input event. -/
inductive EventType
  | keyPress (key : String)
  | keyRelease (key : String)
  | buttonPress (button : String)
  | buttonRelease (button : String)
  /-- Mouse motion and the wheel. -/
  | other
deriving DecidableEq, Repr

/-- Stable string code for a raw key or mouse button (+ pressed flag). -/
def rawCode : EventType → Option (String × Bool)
  | .keyPress k => some (k, true)
  | .keyRelease k => some (k, false)
  | .buttonPress b => some ("Mouse:" ++ b, true)
  | .buttonRelease b => some ("Mouse:" ++ b, false)
  | .other => none

/-- The listener's flag and binding; and what no code reads: the codes that are held down, and every `ptt`
    event so far with the code it was emitted for. -/
structure Listener where
  capture : Bool
  binding : Option String
  held : Finset String
  emitted : List (String × Bool)
deriving DecidableEq

/-- A raw input event, or one of the two commands of the UI. -/
inductive Input
  | raw (ev : EventType)
  | startPttCapture
  | setPttBinding (code : Option String)
deriving DecidableEq, Repr

namespace Listener

def empty : Listener := { capture := false, binding := some "F8", held := ∅, emitted := [] }

/-- The code goes down or up. -/
def track (l : Listener) (code : String) (down : Bool) : Listener :=
  { l with held := if down then insert code l.held else l.held.erase code }

/-- In capture mode the next press becomes the new binding; otherwise the bound code emits `ptt`. -/
def listen (l : Listener) (code : String) (down : Bool) : Listener :=
  if l.capture then
    if down then { l with capture := false, binding := some code } else l
  else if l.binding = some code then { l with emitted := l.emitted ++ [(code, down)] }
  else l

def step (l : Listener) : Input → Listener
  | .raw ev =>
    match rawCode ev with
    | none => l
    | some (code, down) => (l.track code down).listen code down
  | .startPttCapture => { l with capture := true }
  | .setPttBinding code => { l with binding := code.filter fun c => !c.isEmpty && decide (c.utf8ByteSize ≤ 64) }

/-- The listener after a sequence of inputs. -/
def run (inputs : List Input) : Listener := inputs.foldl step empty

theorem run_snoc (inputs : List Input) (i : Input) : run (inputs ++ [i]) = (run inputs).step i := by simp [run]

/-- `ptt(true)` was emitted for the code, and no `ptt(false)` since. -/
def Outstanding (l : Listener) (code : String) : Prop :=
  ∃ pre post, l.emitted = pre ++ (code, true) :: post ∧ ∀ e ∈ post, e.2 = true

/-- Push-to-talk does not stick. -/
structure NeverSticks (l : Listener) : Prop where
  /-- A `ptt(true)` whose code is not held any more was followed by a `ptt(false)`. -/
  followed : ∀ pre code post, l.emitted = pre ++ (code, true) :: post → code ∉ l.held → ∃ e ∈ post, e.2 = false
  /-- With nothing held the last event is not `ptt(true)`. -/
  silent : l.held = ∅ → ∀ code, l.emitted.getLast? ≠ some (code, true)

/-- If the input releases a code for which `ptt(true)` is outstanding, the listener is not capturing and is
    still bound to that code. -/
def Heeds (l : Listener) (i : Input) : Prop :=
  ∀ ev code, i = .raw ev → rawCode ev = some (code, false) → l.Outstanding code → l.capture = false ∧ l.binding = some code

section
variable {l : Listener} {code : String}

theorem neverSticks_iff : l.NeverSticks ↔ ∀ code, l.Outstanding code → code ∈ l.held := by
  constructor
  · rintro ⟨followed, -⟩ code ⟨pre, post, hem, all⟩
    by_contra hheld
    obtain ⟨e, he, hfalse⟩ := followed pre code post hem hheld
    rw [all e he] at hfalse
    cases hfalse
  · intro h
    have followed : ∀ pre code post, l.emitted = pre ++ (code, true) :: post → code ∉ l.held → ∃ e ∈ post, e.2 = false := by
      intro pre code post hem hheld
      by_contra none
      refine hheld (h code ⟨pre, post, hem, fun e he => ?_⟩)
      by_contra hne
      exact none ⟨e, he, by simpa using hne⟩
    refine ⟨followed, fun hnone code hlast => ?_⟩
    obtain ⟨pre, hpre⟩ := List.getLast?_eq_some_iff.mp hlast
    obtain ⟨e, he, -⟩ := followed pre code [] hpre (by simp [hnone])
    cases he

theorem outstanding_snoc_false {em : List (String × Bool)} {e : String × Bool} (hem : l.emitted = em ++ [e])
    (he : e.2 = false) : ¬ l.Outstanding code := by
  rintro ⟨pre, post, hpost, all⟩
  rw [hem] at hpost
  rcases Lts.split_snoc hpost with ⟨mid, -, rfl⟩ | ⟨-, rfl, -⟩
  · rw [all e (by simp)] at he
    cases he
  · cases he

/-- After one more `ptt(true)` the code it is for is outstanding beside those that were. -/
theorem outstanding_snoc_true {l' : Listener} {c : String} (hem : l'.emitted = l.emitted ++ [(c, true)])
    (h : l'.Outstanding code) : code = c ∨ l.Outstanding code := by
  obtain ⟨pre, post, hpost, all⟩ := h
  rw [hem] at hpost
  rcases Lts.split_snoc hpost with ⟨mid, hl, rfl⟩ | ⟨-, heq, -⟩
  · exact Or.inr ⟨pre, mid, hl, fun e he => all e (by simp [he])⟩
  · cases heq
    exact Or.inl rfl

theorem neverSticks_of_same {l' : Listener} (never : l.NeverSticks) (hem : l'.emitted = l.emitted)
    (hheld : l.held ⊆ l'.held) :
    l'.NeverSticks := by
  rw [neverSticks_iff] at never ⊢
  intro code h
  unfold Outstanding at h
  rw [hem] at h
  exact hheld (never code h)

theorem neverSticks_press (never : l.NeverSticks) (c : String) : ((l.track c true).listen c true).NeverSticks := by
  unfold listen
  split
  · exact neverSticks_of_same never rfl (Finset.subset_insert c l.held)
  · split
    · rw [neverSticks_iff] at never ⊢
      intro code h
      rcases outstanding_snoc_true rfl h with rfl | h
      · exact Finset.mem_insert_self code l.held
      · exact Finset.mem_insert_of_mem (never code h)
    · exact neverSticks_of_same never rfl (Finset.subset_insert c l.held)

/-- A release leaves nothing stuck exactly if the code was not outstanding, or the listener heeds it. -/
theorem neverSticks_release (never : l.NeverSticks) (c : String) :
    ((l.track c false).listen c false).NeverSticks ↔ (l.Outstanding c → l.capture = false ∧ l.binding = some c) := by
  have unheeded : (∀ code, l.Outstanding code → code ∈ l.held.erase c) ↔ ¬ l.Outstanding c := by
    constructor
    · intro h hout
      exact Finset.notMem_erase c l.held (h c hout)
    · intro hout code h
      refine Finset.mem_erase.mpr ⟨?_, neverSticks_iff.mp never code h⟩
      rintro rfl
      exact hout h
  unfold listen track
  by_cases hcap : l.capture = true
  · simp only [hcap, Bool.false_eq_true, ↓reduceIte]
    rw [neverSticks_iff]
    exact unheeded.trans ⟨fun hn h => absurd h hn, fun h hout => nomatch (h hout).1⟩
  · rw [Bool.not_eq_true] at hcap
    by_cases hbound : l.binding = some c
    · simp only [hcap, hbound, Bool.false_eq_true, ↓reduceIte]
      refine iff_of_true ?_ fun _ => ⟨trivial, trivial⟩
      rw [neverSticks_iff]
      exact fun code h => absurd h (outstanding_snoc_false rfl rfl)
    · simp only [hcap, hbound, Bool.false_eq_true, ↓reduceIte]
      rw [neverSticks_iff]
      exact unheeded.trans ⟨fun hn h => absurd h hn, fun h hout => (h hout).2⟩

theorem neverSticks_step (never : l.NeverSticks) (i : Input) : (l.step i).NeverSticks ↔ l.Heeds i := by
  cases i with
  | startPttCapture => exact iff_of_true (neverSticks_of_same never rfl subset_rfl) nofun
  | setPttBinding code => exact iff_of_true (neverSticks_of_same never rfl subset_rfl) nofun
  | raw ev =>
    cases hraw : rawCode ev with
    | none =>
      have hstep : l.step (.raw ev) = l := by simp only [step, hraw]
      rw [hstep]
      refine iff_of_true never fun ev' code heq hcode => ?_
      cases heq
      rw [hraw] at hcode
      cases hcode
    | some p =>
      obtain ⟨c, down⟩ := p
      have hstep : l.step (.raw ev) = (l.track c down).listen c down := by simp only [step, hraw]
      rw [hstep]
      cases down with
      | true =>
        refine iff_of_true (neverSticks_press never c) fun ev' code heq hcode => ?_
        cases heq
        rw [hraw] at hcode
        cases hcode
      | false =>
        rw [neverSticks_release never c]
        constructor
        · rintro h ev' code heq hcode
          cases heq
          rw [hraw] at hcode
          cases hcode
          exact h
        · exact fun h => h ev c rfl hraw

end

/-- Push-to-talk sticks in no state of a sequence of inputs if and only if every release of a code with an
    outstanding `ptt(true)` finds the listener out of capture mode and bound to that code. -/
theorem never_sticks_iff (inputs : List Input) :
    (∀ before, before <+: inputs → (run before).NeverSticks) ↔
      ∀ before i after, inputs = before ++ i :: after → (run before).Heeds i := by
  induction inputs using List.reverseRecOn with
  | nil =>
    refine iff_of_true (fun before h => ?_) fun before i after h => by simp at h
    rw [List.prefix_nil.mp h]
    exact neverSticks_iff.mpr fun code ⟨pre, post, h, _⟩ => by simp [run, empty] at h
  | append_singleton inputs i ih =>
    rw [Lts.forall_split_snoc, ← ih]
    constructor
    · intro h
      have earlier : ∀ before, before <+: inputs → (run before).NeverSticks := fun before hb =>
        h before (hb.trans (List.prefix_append inputs [i]))
      refine ⟨earlier, (neverSticks_step (earlier inputs List.prefix_rfl) i).mp ?_⟩
      rw [← run_snoc]
      exact h _ List.prefix_rfl
    · rintro ⟨earlier, heeds⟩ before hb
      rcases List.prefix_concat_iff.mp hb with rfl | hb
      · rw [run_snoc]
        exact (neverSticks_step (earlier inputs List.prefix_rfl) i).mpr heeds
      · exact earlier before hb

/-- The bound key is held, a rebind is started, and the key is let go: nothing ends the transmission. -/
theorem sticks_after_capture : ¬ ∀ inputs, (run inputs).NeverSticks := by
  intro all
  have stuck := (all [.raw (.keyPress "F8"), .startPttCapture, .raw (.keyRelease "F8")]).silent (by decide) "F8"
  exact stuck (by decide)

end Listener

end SquadLink

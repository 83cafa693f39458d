import SquadLink.Audio.Mixer

/-! Volume and deafen (`companion/src/App.tsx`, the commands of `src-tauri/src/main.rs`, and `Gains` of
    `companion-core/src/audio.rs`): the settings of the UI outlive an engine, and every engine starts with settings
    of its own. What the UI invokes is done at once; the Status events of an engine take their time, and a connect
    stores its engine some time after it has started it. -/

namespace SquadLink

namespace Gains

def new : Gains := { master := some 1, peers := ∅ }

def setMaster (g : Gains) (v : ℚ) : Gains := { g with master := some (clamp 0 2 v) }

end Gains

/-- The settings of a running engine that the UI can change; `looping` until its loop has ended. -/
structure LiveEngine where
  gains : Gains
  dsp : DspConfig ℚ
  bitrate : ℕ
  dtx : Bool
  looping : Bool

namespace LiveEngine

def start : LiveEngine := { gains := .new, dsp := .default, bitrate := 0, dtx := false, looping := true }

def setMasterVolume (e : LiveEngine) (v : ℚ) : LiveEngine := { e with gains := e.gains.setMaster v }

def setDsp (e : LiveEngine) (cfg : DspConfig ℚ) : LiveEngine := { e with dsp := cfg }

/-- Low-bandwidth mode: a low bitrate and silence that is not sent. -/
def setLowBandwidth (e : LiveEngine) (on : Bool) : LiveEngine := { e with bitrate := if on then 14000 else 0, dtx := on }

def ended (e : LiveEngine) : LiveEngine := { e with looping := false }

end LiveEngine

/-- Clamp incoming volume to a sane gain range; `none` stands for NaN and the infinities. -/
def clampVol : Option ℚ → ℚ
  | some v => clamp 0 2 v
  | none => 1

/-- What the UI shows and remembers. The volume is in percent. -/
structure Ui where
  connected : Bool := false
  connecting : Bool := false
  masterVol : ℕ := 100
  deaf : Bool := false
  dsp : DspConfig (Option ℚ)
  lowBw : Bool

/-- `DSP_DEFAULT`. -/
def Ui.dspDefault : DspConfig (Option ℚ) :=
  { gate := true
    gateThreshold := some (15 / 1000)
    compressor := true
    compThreshold := some (15 / 100)
    compRatio := some 3
    compMakeup := some (14 / 10)
    limiter := true
    limiterCeiling := some (97 / 100) }

/-- The fields of the UI that a Status event sets. -/
def Ui.onStatus (u : Ui) (connected : Bool) : Ui :=
  { u with connected, connecting := if connected then false else u.connecting }

/-- The UI, the shell's engine, the engine that a connect has started and not yet stored, and the `connected` of
    the Status events that have not reached the UI. -/
structure Desktop where
  ui : Ui
  engine : Option LiveEngine := none
  starting : Option LiveEngine := none
  statuses : List Bool := []

/-- What the user does on the screen that is shown; what becomes of an engine; and the arrival of a Status. -/
inductive DesktopAct
  | onMaster (v : ℕ)
  | toggleDeaf
  | updateDsp (cfg : DspConfig (Option ℚ))
  | toggleLowBw
  | connect
  | onDisconnect
  | stored
  | ended
  | status

namespace Desktop

def start (dsp : DspConfig (Option ℚ)) (lowBw : Bool) : Desktop := { ui := { dsp, lowBw } }

/-- `set_master_volume` of the shell, which does nothing without an engine. -/
def setMasterVolume (d : Desktop) (volume : ℚ) : Desktop :=
  { d with engine := d.engine.map fun e => e.setMasterVolume (clampVol (some volume)) }

def setDsp (d : Desktop) (cfg : DspConfig (Option ℚ)) : Desktop :=
  { d with engine := d.engine.map fun e => e.setDsp (.setDsp cfg) }

def setLowBandwidth (d : Desktop) (on : Bool) : Desktop := { d with engine := d.engine.map fun e => e.setLowBandwidth on }

/-- `*state.engine.lock().unwrap() = engine`: the loop of the engine held before says that it is disconnected,
    unless it has ended. -/
def setEngine (d : Desktop) (engine : Option LiveEngine) : Desktop :=
  { d with engine, statuses := if d.engine.any (·.looping) then d.statuses ++ [false] else d.statuses }

/-- The effect of a change of `connected`: push saved DSP settings to the engine once connected. -/
def pushSettings (d : Desktop) : Desktop := if d.ui.connected then (d.setDsp d.ui.dsp).setLowBandwidth d.ui.lowBw else d

/-- A Status event reaches the UI. -/
def onStatus (d : Desktop) (connected : Bool) : Desktop :=
  let d' := { d with ui := d.ui.onStatus connected }
  if connected = d.ui.connected then d' else d'.pushSettings

/-- Slider, deafen and leaving are on the screen of a session, connecting is on the start screen. -/
def step (d : Desktop) : DesktopAct → Option Desktop
  | .onMaster v =>
    if d.ui.connected ∧ v ≤ 100 then
      some ({ d with ui := { d.ui with masterVol := v } }.setMasterVolume (if d.ui.deaf then 0 else v / 100))
    else none
  | .toggleDeaf =>
    if d.ui.connected then
      let nv := !d.ui.deaf
      some ({ d with ui := { d.ui with deaf := nv } }.setMasterVolume (if nv then 0 else d.ui.masterVol / 100))
    else none
  | .updateDsp cfg => some ({ d with ui := { d.ui with dsp := cfg } }.setDsp cfg)
  | .toggleLowBw =>
    let nv := !d.ui.lowBw
    some ({ d with ui := { d.ui with lowBw := nv } }.setLowBandwidth nv)
  | .connect =>
    if !d.ui.connected && !d.ui.connecting then
      some { d with
        ui := { d.ui with connecting := true }
        starting := some .start
        statuses := d.statuses ++ [true] }
    else none
  | .onDisconnect =>
    if d.ui.connected then some ({ d with ui := { d.ui with deaf := false } }.setEngine none) else none
  | .stored => d.starting.map fun e => { d with starting := none }.setEngine (some e)
  | .ended => some { d with engine := d.engine.map .ended, starting := d.starting.map .ended }
  | .status =>
    match d.statuses with
    | [] => none
    | connected :: statuses => some ({ d with statuses }.onStatus connected)

/-- The gain that the UI shows. -/
def shownGain (d : Desktop) : ℚ := if d.ui.deaf then 0 else d.ui.masterVol / 100

/-- The engine was started, and its handle has not been dropped. -/
def Runs (d : Desktop) (e : LiveEngine) : Prop := e ∈ d.engine ∨ e ∈ d.starting

/-- While the UI shows a session, the engine plays at the gain that is shown. -/
def VolumeMatches (d : Desktop) : Prop := d.ui.connected = true → ∀ e, d.Runs e → e.gains.masterV = d.shownGain

/-- The user connects with the volume at 100 percent and not deafened, and changes neither before the engine is
    stored. -/
def AtFull (d : Desktop) : DesktopAct → Prop
  | .connect => d.ui.masterVol = 100 ∧ d.ui.deaf = false
  | .onMaster v => d.starting.isNone = true ∨ v = 100
  | .toggleDeaf => d.starting.isNone = true
  | _ => True

instance (d : Desktop) : ∀ a, Decidable (d.AtFull a)
  | .connect => inferInstanceAs (Decidable (_ ∧ _))
  | .onMaster _ => inferInstanceAs (Decidable (_ ∨ _))
  | .toggleDeaf => inferInstanceAs (Decidable (_ = true))
  | .updateDsp _ | .toggleLowBw | .onDisconnect | .stored | .ended | .status => inferInstanceAs (Decidable True)

/-- The slider is within its range, the shell's engine plays at the gain that is shown, and one that is not stored
    yet at its own, which is shown, too. -/
structure InSync (d : Desktop) : Prop where
  range : d.ui.masterVol ≤ 100
  held : ∀ e ∈ d.engine, e.gains.masterV = d.shownGain
  fresh : ∀ e ∈ d.starting, e.gains.masterV = 1 ∧ d.ui.masterVol = 100 ∧ d.ui.deaf = false

section
variable {d d' : Desktop} {a : DesktopAct}

theorem shownGain_mem (range : d.ui.masterVol ≤ 100) : d.shownGain ∈ Set.Icc (0 : ℚ) 1 := by
  unfold shownGain
  split
  · exact Set.left_mem_Icc.mpr zero_le_one
  · have : (d.ui.masterVol : ℚ) ≤ 100 := by exact_mod_cast range
    exact ⟨by positivity, (div_le_one (by norm_num)).mpr this⟩

/-- A gain within the slider's range gets to the engine as it is. -/
theorem masterV_setMasterVolume (e : LiveEngine) {v : ℚ} (h : v ∈ Set.Icc (0 : ℚ) 1) :
    (e.setMasterVolume (clampVol (some v))).gains.masterV = v := by
  have same : clamp 0 2 v = v := by
    rw [clamp, min_eq_left (h.2.trans (by norm_num)), max_eq_right h.1]
  simp [LiveEngine.setMasterVolume, Gains.setMaster, Gains.masterV, clampVol, same]

/-- After a change of the volume or of deafen that is passed on, the engine plays at what is shown. -/
theorem held_setMasterVolume (d : Desktop) (range : d.ui.masterVol ≤ 100) :
    ∀ e ∈ (d.setMasterVolume d.shownGain).engine, e.gains.masterV = d.shownGain := by
  intro e he
  obtain ⟨e, -, rfl⟩ := Option.map_eq_some_iff.mp he
  exact masterV_setMasterVolume e (shownGain_mem range)

theorem InSync.of_gains (sync : d.InSync) (hui : d'.ui.masterVol = d.ui.masterVol ∧ d'.ui.deaf = d.ui.deaf)
    (held : ∀ e' ∈ d'.engine, ∃ e ∈ d.engine, e'.gains = e.gains)
    (fresh : ∀ e' ∈ d'.starting, ∃ e ∈ d.starting, e'.gains = e.gains) :
    d'.InSync := by
  obtain ⟨hvol, hdeaf⟩ := hui
  refine ⟨hvol ▸ sync.range, fun e' he' => ?_, fun e' he' => ?_⟩
  · obtain ⟨e, he, hg⟩ := held e' he'
    rw [hg, sync.held e he, shownGain, shownGain, hvol, hdeaf]
  · obtain ⟨e, he, hg⟩ := fresh e' he'
    rw [hg, hvol, hdeaf]
    exact sync.fresh e he

theorem InSync.start (dsp : DspConfig (Option ℚ)) (lowBw : Bool) : (start dsp lowBw).InSync :=
  ⟨le_rfl, fun e he => absurd he (Option.not_mem_none e), fun e he => absurd he (Option.not_mem_none e)⟩

/-- Settings that are pushed leave the gains as they are. -/
theorem InSync.pushSettings (sync : d.InSync) : d.pushSettings.InSync := by
  unfold Desktop.pushSettings
  split
  · refine sync.of_gains ⟨rfl, rfl⟩ (fun e' he' => ?_) fun e he => ⟨e, he, rfl⟩
    obtain ⟨e₁, he₁, rfl⟩ := Option.map_eq_some_iff.mp he'
    obtain ⟨e, he, rfl⟩ := Option.map_eq_some_iff.mp he₁
    exact ⟨e, he, rfl⟩
  · exact sync

theorem InSync.onStatus (sync : d.InSync) (connected : Bool) : (d.onStatus connected).InSync := by
  have shown : ({ d with ui := d.ui.onStatus connected } : Desktop).InSync :=
    sync.of_gains ⟨rfl, rfl⟩ (fun e he => ⟨e, he, rfl⟩) fun e he => ⟨e, he, rfl⟩
  by_cases hc : connected = d.ui.connected
  · rw [Desktop.onStatus, if_pos hc]
    exact shown
  · rw [Desktop.onStatus, if_neg hc]
    exact shown.pushSettings

theorem InSync.step (sync : d.InSync) (ok : d.AtFull a) (h : d.step a = some d') : d'.InSync := by
  have unstored (hn : d.starting.isNone = true) : ∀ e, e ∉ d.starting := fun e he => by
    rw [Option.mem_def.mp he] at hn
    cases hn
  cases a with
  | onMaster v =>
    obtain ⟨⟨-, hv⟩, h⟩ := Option.ite_none_right_eq_some.mp h
    cases h
    refine ⟨hv, held_setMasterVolume { d with ui := { d.ui with masterVol := v } } hv, fun e he => ?_⟩
    rcases ok with hn | rfl
    · exact absurd he (unstored hn e)
    · exact ⟨(sync.fresh e he).1, rfl, (sync.fresh e he).2.2⟩
  | toggleDeaf =>
    obtain ⟨-, h⟩ := Option.ite_none_right_eq_some.mp h
    cases h
    exact ⟨sync.range, held_setMasterVolume { d with ui := { d.ui with deaf := !d.ui.deaf } } sync.range,
      fun e he => absurd he (unstored ok e)⟩
  | updateDsp cfg =>
    cases h
    refine sync.of_gains ⟨rfl, rfl⟩ (fun e' he' => ?_) fun e he => ⟨e, he, rfl⟩
    obtain ⟨e, he, rfl⟩ := Option.map_eq_some_iff.mp he'
    exact ⟨e, he, rfl⟩
  | toggleLowBw =>
    cases h
    refine sync.of_gains ⟨rfl, rfl⟩ (fun e' he' => ?_) fun e he => ⟨e, he, rfl⟩
    obtain ⟨e, he, rfl⟩ := Option.map_eq_some_iff.mp he'
    exact ⟨e, he, rfl⟩
  | connect =>
    obtain ⟨-, h⟩ := Option.ite_none_right_eq_some.mp h
    cases h
    refine ⟨sync.range, sync.held, fun e he => ?_⟩
    cases he
    exact ⟨rfl, ok⟩
  | onDisconnect =>
    obtain ⟨-, h⟩ := Option.ite_none_right_eq_some.mp h
    cases h
    refine ⟨sync.range, fun e he => absurd he (Option.not_mem_none e), fun e he => ?_⟩
    exact ⟨(sync.fresh e he).1, (sync.fresh e he).2.1, rfl⟩
  | stored =>
    obtain ⟨e, he, rfl⟩ := Option.map_eq_some_iff.mp h
    obtain ⟨gain, vol, deaf⟩ := sync.fresh e he
    refine ⟨sync.range, fun e' he' => ?_, fun e he => absurd he (Option.not_mem_none e)⟩
    cases he'
    simp [gain, shownGain, setEngine, vol, deaf]
  | ended =>
    cases h
    refine sync.of_gains ⟨rfl, rfl⟩ (fun e' he' => ?_) fun e' he' => ?_
    · obtain ⟨e, he, rfl⟩ := Option.map_eq_some_iff.mp he'
      exact ⟨e, he, rfl⟩
    · obtain ⟨e, he, rfl⟩ := Option.map_eq_some_iff.mp he'
      exact ⟨e, he, rfl⟩
  | status =>
    cases hs : d.statuses with
    | nil => simp [Desktop.step, hs] at h
    | cons connected statuses =>
      simp only [Desktop.step, hs, Option.some_inj] at h
      have taken : ({ d with statuses } : Desktop).InSync :=
        sync.of_gains ⟨rfl, rfl⟩ (fun e he => ⟨e, he, rfl⟩) fun e he => ⟨e, he, rfl⟩
      rw [← h]
      exact taken.onStatus connected

theorem InSync.volumeMatches (sync : d.InSync) : d.VolumeMatches := by
  rintro - e (he | he)
  · exact sync.held e he
  · obtain ⟨gain, vol, deaf⟩ := sync.fresh e he
    simp [gain, shownGain, vol, deaf]

/-! ### What follows otherwise -/

theorem shownGain_eq_one : d.shownGain = 1 ↔ d.ui.masterVol = 100 ∧ d.ui.deaf = false := by
  unfold shownGain
  cases d.ui.deaf with
  | true => simp
  | false =>
    simp only [Bool.false_eq_true, ↓reduceIte, and_true, div_eq_one_iff_eq (by norm_num : (100 : ℚ) ≠ 0)]
    exact_mod_cast Iff.rfl

/-- An engine that is not stored yet plays at full volume. -/
theorem not_volumeMatches_of_starting {e : LiveEngine} (connected : d.ui.connected = true) (he : e ∈ d.starting)
    (gain : e.gains.masterV = 1) (differs : ¬ (d.ui.masterVol = 100 ∧ d.ui.deaf = false)) :
    ¬ d.VolumeMatches := fun all =>
  differs (shownGain_eq_one.mp ((all connected e (Or.inr he)).symm.trans gain))

theorem pushSettings_frame (d : Desktop) :
    d.pushSettings.ui = d.ui ∧ d.pushSettings.starting = d.starting ∧ d.pushSettings.statuses = d.statuses := by
  unfold pushSettings
  split <;> exact ⟨rfl, rfl, rfl⟩

/-- A Status event sets `connected` and leaves the volume and the engine that is started. -/
theorem onStatus_frame (d : Desktop) (connected : Bool) :
    (d.onStatus connected).ui.connected = connected ∧ (d.onStatus connected).starting = d.starting ∧
      (d.onStatus connected).statuses = d.statuses ∧ (d.onStatus connected).ui.masterVol = d.ui.masterVol ∧
      (d.onStatus connected).ui.deaf = d.ui.deaf := by
  unfold onStatus
  by_cases hc : connected = d.ui.connected
  · rw [if_pos hc]
    exact ⟨rfl, rfl, rfl, rfl, rfl⟩
  · rw [if_neg hc]
    obtain ⟨hui, hstarting, hstatuses⟩ := pushSettings_frame { d with ui := d.ui.onStatus connected }
    rw [hui, hstarting, hstatuses]
    exact ⟨rfl, rfl, rfl, rfl, rfl⟩

/-- Once the Status events have arrived the UI shows a session, at the volume as it was. -/
theorem statuses_arrive {l : List Bool} (hl : d.statuses = l ++ [true]) : ∃ d', Lts.Reach step Lts.anyStep d d' ∧
    d'.ui.connected = true ∧ d'.starting = d.starting ∧ d'.ui.masterVol = d.ui.masterVol ∧ d'.ui.deaf = d.ui.deaf := by
  induction l generalizing d with
  | nil =>
    have arrives : d.step .status = some ({ d with statuses := [] }.onStatus true) := by simp [step, hl]
    obtain ⟨connected, starting, -, vol, deaf⟩ := onStatus_frame { d with statuses := [] } true
    exact ⟨_, Lts.Reach.refl.step _ trivial arrives, connected, starting, vol, deaf⟩
  | cons b l ih =>
    have arrives : d.step .status = some ({ d with statuses := l ++ [true] }.onStatus b) := by simp [step, hl]
    obtain ⟨-, starting, statuses, vol, deaf⟩ := onStatus_frame { d with statuses := l ++ [true] } b
    obtain ⟨d', reach, connected, starting', vol', deaf'⟩ := ih statuses
    exact ⟨d', (Lts.Reach.refl.step _ trivial arrives).trans reach, connected, starting'.trans starting, vol'.trans vol,
      deaf'.trans deaf⟩

/-- A first step that does not meet the condition leads to a state in which the engine plays at another gain. -/
theorem InSync.mismatch (sync : d.InSync) (bad : ¬ d.AtFull a) (h : d.step a = some d') :
    ∃ d'', Lts.Reach Desktop.step Lts.anyStep d' d'' ∧ ¬ d''.VolumeMatches := by
  have waiting (hn : d.starting.isNone ≠ true) : ∃ e, e ∈ d.starting := by
    cases hs : d.starting with
    | none => rw [hs] at hn; exact absurd rfl hn
    | some e => exact ⟨e, rfl⟩
  cases a with
  | connect =>
    obtain ⟨-, h⟩ := Option.ite_none_right_eq_some.mp h
    cases h
    obtain ⟨d'', reach, connected, starting, vol, deaf⟩ := statuses_arrive (d := { d with
      ui := { d.ui with connecting := true }
      starting := some .start
      statuses := d.statuses ++ [true] }) rfl
    refine ⟨d'', reach, not_volumeMatches_of_starting connected (e := .start) starting rfl ?_⟩
    rwa [vol, deaf]
  | onMaster v =>
    obtain ⟨⟨connected, -⟩, h⟩ := Option.ite_none_right_eq_some.mp h
    cases h
    obtain ⟨hn, hv⟩ := not_or.mp bad
    obtain ⟨e, he⟩ := waiting hn
    exact ⟨_, .refl, not_volumeMatches_of_starting connected he (sync.fresh e he).1 fun shown => hv shown.1⟩
  | toggleDeaf =>
    obtain ⟨connected, h⟩ := Option.ite_none_right_eq_some.mp h
    cases h
    obtain ⟨e, he⟩ := waiting bad
    obtain ⟨gain, -, deaf⟩ := sync.fresh e he
    refine ⟨_, .refl, not_volumeMatches_of_starting connected he gain fun shown => ?_⟩
    simpa [setMasterVolume, deaf] using shown.2
  | _ => exact absurd trivial bad

end

section
variable {dsp : DspConfig (Option ℚ)} {lowBw : Bool} {d d' : Desktop} {a : DesktopAct}

theorem inSync_reach (h : Lts.Reach step (fun d a _ => d.AtFull a) (start dsp lowBw) d) : d.InSync :=
  h.invariant (InSync.start dsp lowBw) fun _ _ _ sync ok hs => InSync.step sync ok hs

/-- The engine plays at the gain that the UI shows in every state of a run whose connects find the volume at 100
    percent and not deafened, and in which neither is changed between the start of an engine and its storing. -/
theorem volume_matches (h : Lts.Reach step (fun d a _ => d.AtFull a) (start dsp lowBw) d) : d.VolumeMatches :=
  (inSync_reach h).volumeMatches

/-- Every run that breaks with this goes on to a state in which the engine plays at another gain. -/
theorem mismatch_follows (h : Lts.Reach step (fun d a _ => d.AtFull a) (start dsp lowBw) d) (hs : d.step a = some d')
    (bad : ¬ d.AtFull a) : ∃ d'', Lts.Reach step Lts.anyStep d' d'' ∧ ¬ d''.VolumeMatches :=
  (inSync_reach h).mismatch bad hs

end

/-! A session in which the volume is turned down, and the one after it. -/

/-- The engine is stored before the UI hears of it. -/
def sessionActs : List DesktopAct := [.connect, .stored, .status]

/-- The user leaves, and the UI hears of it. -/
def leavingActs : List DesktopAct := [.onDisconnect, .status]

theorem volume_matches_restored : ∃ d : Desktop, d.ui.connected = true ∧ d.engine.isSome = true ∧ d.VolumeMatches := by
  have run : ∃ d, Lts.execOk step (fun d a _ => decide (d.AtFull a)) (start Ui.dspDefault false)
      (sessionActs ++ [.onMaster 50, .toggleDeaf, .onMaster 100] ++ leavingActs ++ sessionActs) = some d ∧
        d.ui.connected = true ∧ d.engine.isSome = true := ⟨_, rfl, rfl, rfl⟩
  obtain ⟨d, run, connected, held⟩ := run
  exact ⟨d, connected, held, volume_matches (Lts.Reach.of_execOk (fun _ _ _ => of_decide_eq_true) run)⟩

def halvedActs : List DesktopAct := sessionActs ++ [.onMaster 50] ++ leavingActs ++ sessionActs

theorem volume_lost_on_reconnect :
    ¬ ∀ dsp lowBw d, Lts.Reach step Lts.anyStep (start dsp lowBw) d → d.VolumeMatches := by
  intro all
  have run : ∃ d e, Lts.exec step (start Ui.dspDefault false) halvedActs = some d ∧ d.ui.connected = true ∧
      d.engine = some e ∧ e.gains.masterV = 1 ∧ d.shownGain = 50 / 100 := ⟨_, _, rfl, rfl, rfl, rfl, rfl⟩
  obtain ⟨d, e, run, connected, held, gain, shown⟩ := run
  have matched := all _ _ _ (Lts.Reach.of_exec (fun _ _ _ _ => trivial) run) connected e (Or.inl held)
  rw [gain, shown] at matched
  norm_num at matched

/-! ### The settings that are pushed -/

/-- The UI hears of a session only when its engine is stored. -/
def StoredFirst (d : Desktop) (a : DesktopAct) : Prop := a = .status → d.statuses.head? = some true → d.starting = none

/-- The engine goes by the DSP settings and the bandwidth mode that are shown. -/
def SettingsMatch (d : Desktop) : Prop :=
  d.ui.connected = true → ∀ e ∈ d.engine, e.dsp = .setDsp d.ui.dsp ∧ e.bitrate = (if d.ui.lowBw then 14000 else 0) ∧
  e.dtx = d.ui.lowBw

/-- Before its engine is stored no session is shown. -/
structure Pushed (d : Desktop) : Prop where
  unshown : d.starting ≠ none → d.ui.connected = false
  settings : d.SettingsMatch

section
variable {d d' : Desktop} {a : DesktopAct}

/-- A change of the gains of the engine, or of its loop, changes no other setting. -/
theorem SettingsMatch.map (h : d.SettingsMatch) {f : LiveEngine → LiveEngine}
    (keeps : ∀ e, (f e).dsp = e.dsp ∧ (f e).bitrate = e.bitrate ∧ (f e).dtx = e.dtx)
    (hui : d'.ui.connected = d.ui.connected ∧ d'.ui.dsp = d.ui.dsp ∧ d'.ui.lowBw = d.ui.lowBw)
    (he : d'.engine = d.engine.map f) : d'.SettingsMatch := by
  intro connected e' he'
  rw [he] at he'
  obtain ⟨e, he, rfl⟩ := Option.map_eq_some_iff.mp he'
  obtain ⟨hdsp, hbitrate, hdtx⟩ := keeps e
  obtain ⟨hc, hd, hl⟩ := hui
  rw [hdsp, hbitrate, hdtx, hd, hl]
  exact h (hc ▸ connected) e he

theorem settingsMatch_pushSettings (connected : d.ui.connected = true) : d.pushSettings.SettingsMatch := by
  rw [pushSettings, if_pos connected]
  intro _ e he
  obtain ⟨e₁, he₁, rfl⟩ := Option.map_eq_some_iff.mp he
  obtain ⟨e₀, -, rfl⟩ := Option.map_eq_some_iff.mp he₁
  exact ⟨rfl, rfl, rfl⟩

theorem Pushed.onStatus (h : d.Pushed) {connected : Bool} (stored : connected = true → d.starting = none) :
    (d.onStatus connected).Pushed := by
  obtain ⟨hc, hs, -, -, -⟩ := onStatus_frame d connected
  refine ⟨fun hn => ?_, fun hshown => ?_⟩
  · rw [hc]
    rw [hs] at hn
    cases connected with
    | true => exact absurd (stored rfl) hn
    | false => rfl
  · rw [hc] at hshown
    subst hshown
    by_cases hd : true = d.ui.connected
    · rw [Desktop.onStatus, if_pos hd]
      exact h.settings hd.symm
    · rw [Desktop.onStatus, if_neg hd]
      refine settingsMatch_pushSettings rfl ?_
      rw [(pushSettings_frame _).1]
      rfl

theorem Pushed.step (h : d.Pushed) (ok : d.StoredFirst a) (hs : d.step a = some d') : d'.Pushed := by
  cases a with
  | onMaster v =>
    obtain ⟨-, hs⟩ := Option.ite_none_right_eq_some.mp hs
    cases hs
    refine ⟨h.unshown, h.settings.map (fun e => ?_) ⟨rfl, rfl, rfl⟩ rfl⟩
    exact ⟨rfl, rfl, rfl⟩
  | toggleDeaf =>
    obtain ⟨-, hs⟩ := Option.ite_none_right_eq_some.mp hs
    cases hs
    refine ⟨h.unshown, h.settings.map (fun e => ?_) ⟨rfl, rfl, rfl⟩ rfl⟩
    exact ⟨rfl, rfl, rfl⟩
  | updateDsp cfg =>
    cases hs
    refine ⟨h.unshown, fun connected e' he' => ?_⟩
    obtain ⟨e, he, rfl⟩ := Option.map_eq_some_iff.mp he'
    exact ⟨rfl, (h.settings connected e he).2⟩
  | toggleLowBw =>
    cases hs
    refine ⟨h.unshown, fun connected e' he' => ?_⟩
    obtain ⟨e, he, rfl⟩ := Option.map_eq_some_iff.mp he'
    exact ⟨(h.settings connected e he).1, rfl, rfl⟩
  | connect =>
    obtain ⟨idle, hs⟩ := Option.ite_none_right_eq_some.mp hs
    cases hs
    rw [Bool.and_eq_true, Bool.not_eq_true', Bool.not_eq_true'] at idle
    exact ⟨fun _ => idle.1, fun connected => absurd (connected.symm.trans idle.1) (by decide)⟩
  | onDisconnect =>
    obtain ⟨-, hs⟩ := Option.ite_none_right_eq_some.mp hs
    cases hs
    exact ⟨h.unshown, fun _ e he => absurd he (Option.not_mem_none e)⟩
  | stored =>
    obtain ⟨e, he, rfl⟩ := Option.map_eq_some_iff.mp hs
    have unshown : d.ui.connected = false := h.unshown (by rw [he]; exact Option.some_ne_none e)
    exact ⟨fun hn => absurd rfl hn, fun connected => absurd (connected.symm.trans unshown) (by decide)⟩
  | ended =>
    cases hs
    refine ⟨fun hn => h.unshown fun hd => hn (by rw [hd]; rfl), h.settings.map (fun e => ?_) ⟨rfl, rfl, rfl⟩ rfl⟩
    exact ⟨rfl, rfl, rfl⟩
  | status =>
    cases hl : d.statuses with
    | nil => simp [Desktop.step, hl] at hs
    | cons connected statuses =>
      simp only [Desktop.step, hl, Option.some_inj] at hs
      have taken : ({ d with statuses } : Desktop).Pushed := ⟨h.unshown, h.settings⟩
      rw [← hs]
      exact taken.onStatus fun hc => ok rfl (by rw [hl, hc]; rfl)

end

/-- The settings that are pushed on connect match whatever the user does, if the UI hears of a session only when
    its engine is stored. -/
theorem settings_match {dsp : DspConfig (Option ℚ)} {lowBw : Bool} {d : Desktop}
    (h : Lts.Reach step (fun d a _ => d.StoredFirst a) (start dsp lowBw) d) : d.SettingsMatch := by
  have pushed : (start dsp lowBw).Pushed := ⟨fun hn => absurd rfl hn, fun _ e he => absurd he (Option.not_mem_none e)⟩
  exact (h.invariant pushed fun _ _ _ pushed ok hs => Pushed.step pushed ok hs).settings

end Desktop

end SquadLink

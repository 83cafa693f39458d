import SquadLink.Client.Edits
import SquadLink.Client.Roster

/-! The window during a session (`companion/src/App.tsx`, the listener for `ui` events): what it shows is what the events of
    the engine have made of what it showed before. The network figures and the time of a rotation are left out. -/

namespace SquadLink

/-- What the window shows of a session; `generation` is `keyInfo.gen`. -/
structure View where
  connected : Bool := false
  transmitting : Bool := false
  participants : List Participant := []
  chat : List (String × String) := []
  log : String := ""
  connecting : Bool := false
  generation : Nat := 1
  rotating : Bool := false
  sigUp : Bool := true
  resuming : Bool := false
deriving DecidableEq

namespace View

/-- The log line for a rotation. -/
def rotated (generation : Nat) (who : String) : String :=
  s!"🔑 Schlüssel rotiert (Generation #{generation}" ++ (if who.isEmpty then "" else ", durch " ++ who) ++ ")"

def listen (v : View) : UiEvent → View
  | .roster participants => { v with participants }
  | .chat sender text => { v with chat := v.chat ++ [(sender, text)] }
  | .status connected transmitting =>
    let v := { v with connected, transmitting }
    if connected then { v with connecting := false, sigUp := true } else v
  | .log text => { v with log := text }
  | .rekeyed generation who => { v with generation, rotating := false, log := rotated generation who }
  | .signaling up => { v with sigUp := up, resuming := if up then false else v.resuming }

/-- The window shows a running session: the user first, and then every one of the others once, in the order of their
    names. -/
structure Shows (v : View) (userId name : String) (transmit : Bool) (others : String → Option String) : Prop where
  connected : v.connected = true
  connecting : v.connecting = false
  transmitting : v.transmitting = transmit
  sigUp : v.sigUp = true
  participants : ∃ shown, v.participants = { userId, name, you := true, badge := none, speaking := transmit } :: shown ∧
    (shown.map (·.userId)).Nodup ∧ shown.Pairwise (fun p q => p.name ≤ q.name) ∧ (∀ p ∈ shown, p.you = false) ∧
    ∀ q n, (∃ p ∈ shown, p.userId = q ∧ p.name = n) ↔ others q = some n

end View

namespace UiEvent

/-- The chat line that the event adds. -/
def line? : UiEvent → Option (String × String)
  | chat sender text => some (sender, text)
  | _ => none

end UiEvent

/-- The chat line that an event adds: what the user has typed, or what has come from a peer, under the peer's name. -/
def LocalEvent.line? (e : Engine) : LocalEvent → Option (String × String)
  | .command (.chat text) => some (e.cfg.name, text)
  | .mesh (.chat sender text) => some (((e.members.lookup sender).map (·.name)).getD sender, text)
  | _ => none

namespace Engine

/-- What the window shows after the events of the engine. -/
def view (e : Engine) (v : View) : View := e.ui.foldl View.listen v

/-- The chat lines so far. -/
def lines (e : Engine) : List (String × String) := e.ui.filterMap UiEvent.line?

/-- A roster has been shown. -/
def Listed (e : Engine) : Prop := ∃ ps, .roster ps ∈ e.ui

/-- The window shows that the engine runs, and its signaling connection if there is one. -/
structure Runs (v : View) (e : Engine) : Prop where
  connected : (e.view v).connected = true
  connecting : (e.view v).connecting = false
  transmitting : (e.view v).transmitting = e.transmit
  sigUp : e.cur.isSome → (e.view v).sigUp = true

/-- And it shows the participants as they are now. -/
structure Shown (v : View) (e : Engine) : Prop extends Runs v e where
  participants : e.Listed → (e.view v).participants = e.participants

section
variable {rtc : Webrtc} {w : Outcomes} {e e' : Engine} {a : LoopAct} {v : View}

@[simp] theorem view_emit (ev : UiEvent) : (e.emit ev).view v = (e.view v).listen ev := by simp [view, emit]

@[simp] theorem lines_emit (ev : UiEvent) : (e.emit ev).lines = e.lines ++ ev.line?.toList := by
  rw [lines, lines, emit, List.filterMap_append]
  cases ev <;> rfl

theorem lines_modifyMember (peer : String) (f : Member → Member) : (e.modifyMember peer f).lines = e.lines := by
  obtain ⟨members, h⟩ := e.modifyMember_eq peer f
  rw [h]
  rfl

theorem lines_onEvent {ev : LocalEvent} {msgs : List ClientMsg} (h : e.onEvent ev = some (e', msgs)) :
    e'.lines = e.lines ++ (ev.line? e).toList := by
  cases ev with
  | reconnectFailed err =>
    obtain ⟨-, h⟩ := Option.ite_none_right_eq_some.mp h
    cases h
    exact lines_emit _
  | command cmd =>
    obtain rfl : (e.command cmd).1 = e' := congrArg Prod.fst (Option.some.inj h)
    cases cmd with
    | toggleTx => simp [command, setTransmit, emitRoster, UiEvent.line?, LocalEvent.line?]; rfl
    | setTx on =>
      simp only [command, LocalEvent.line?]
      split
      · simp [setTransmit, emitRoster, UiEvent.line?]; rfl
      · simp
    | chat text => exact lines_emit _
    | rekey => simp [command, LocalEvent.line?]
    | reconnect =>
      simp only [command, LocalEvent.line?]
      split
      · simp; rfl
      · simp
  | quit => cases h; exact lines_emit _
  | mesh ev =>
    cases h
    cases ev with
    | chat sender text => exact lines_emit _
    | badge peer badge => simp [meshEvent, emitRoster, lines_modifyMember, UiEvent.line?, LocalEvent.line?]
  | candidate pc text => cases h; exact (List.append_nil _).symm
  | dataChannel pc => cases h; exact (List.append_nil _).symm
  | rehash peers =>
    obtain ⟨-, h⟩ := Option.ite_none_right_eq_some.mp h
    cases h
    exact (List.append_nil _).symm

theorem lines_handle (msg : ServerMsg) : (e.handle rtc w msg).lines = e.lines := by
  cases msg with
  | ptt userId active => simp [handle, emitRoster, lines_modifyMember, UiEvent.line?]
  | turn creds =>
    simp only [handle]
    split
    · rfl
    · simp [UiEvent.line?]
  | offer _ _ | answer _ _ | ice _ _ => rfl
  | _ => exact (lines_emit _).trans (List.append_nil _)

theorem lines_lost : e.lost.lines = e.lines := by
  simp [lost, UiEvent.line?]
  rfl

theorem lines_reconnected (s : SocketId) : (e.reconnected s).lines = e.lines := by
  simp [reconnected, UiEvent.line?]
  rfl

/-! ### What is shown -/

theorem participants_congr (cfg : e'.cfg = e.cfg) (transmit : e'.transmit = e.transmit) (members : e'.members = e.members) :
    e'.participants = e.participants := by
  rw [participants_eq, participants_eq, cfg, transmit, members]

theorem listed_emit {ev : UiEvent} (hev : ∀ ps, ev ≠ .roster ps) : (e.emit ev).Listed ↔ e.Listed := by
  refine exists_congr fun ps => ?_
  rw [emit, List.mem_append, List.mem_singleton]
  exact or_iff_left fun h => hev ps h.symm

/-- An engine that shows nothing new. -/
theorem Shown.of_same (h : e.Shown v) (ui : e'.ui = e.ui) (cfg : e'.cfg = e.cfg) (transmit : e'.transmit = e.transmit)
    (members : e'.members = e.members) (cur : e'.cur.isSome → e.cur.isSome) : e'.Shown v := by
  have same : e'.view v = e.view v := by rw [view, view, ui]
  refine ⟨⟨?_, ?_, ?_, fun hc => ?_⟩, fun listed => ?_⟩
  · rw [same]
    exact h.connected
  · rw [same]
    exact h.connecting
  · rw [same, transmit]
    exact h.transmitting
  · rw [same]
    exact h.sigUp (cur hc)
  · rw [same, participants_congr cfg transmit members]
    exact h.participants (by rwa [Listed, ui] at listed)

/-- The events that say nothing of the connections and the participants. -/
theorem Shown.emit (h : e.Shown v) {ev : UiEvent} (hev : (∃ text, ev = .log text) ∨ (∃ who text, ev = .chat who text) ∨
    ∃ generation who, ev = .rekeyed generation who) : (e.emit ev).Shown v := by
  obtain ⟨⟨connected, connecting, transmitting, sigUp⟩, participants⟩ := h
  have other : ∀ ps, ev ≠ .roster ps := by
    rintro ps rfl
    rcases hev with ⟨_, h⟩ | ⟨_, _, h⟩ | ⟨_, _, h⟩ <;> cases h
  refine ⟨?_, fun listed => ?_⟩
  · rcases hev with ⟨_, rfl⟩ | ⟨_, _, rfl⟩ | ⟨_, _, rfl⟩ <;>
      exact ⟨by rwa [view_emit], by rwa [view_emit], by rwa [view_emit], fun hc => by rw [view_emit]; exact sigUp hc⟩
  · have shown := participants ((listed_emit other).mp listed)
    rcases hev with ⟨_, rfl⟩ | ⟨_, _, rfl⟩ | ⟨_, _, rfl⟩ <;> (rw [view_emit]; exact shown)

/-- A roster shows the participants, whatever they were before. -/
theorem Runs.emitRoster (h : e.Runs v) : e.emitRoster.Shown v := by
  obtain ⟨connected, connecting, transmitting, sigUp⟩ := h
  refine ⟨⟨?_, ?_, ?_, fun hc => ?_⟩, fun _ => ?_⟩
  · rwa [Engine.emitRoster, view_emit]
  · rwa [Engine.emitRoster, view_emit]
  · rwa [Engine.emitRoster, view_emit]
  · rw [Engine.emitRoster, view_emit]
    exact sigUp hc
  · rw [Engine.emitRoster, view_emit]
    rfl

/-- The members and the mesh play no part in whether the engine runs. -/
theorem Runs.of_same (h : e.Runs v) (ui : e'.ui = e.ui) (transmit : e'.transmit = e.transmit) (cur : e'.cur = e.cur) :
    e'.Runs v := by
  have same : e'.view v = e.view v := by rw [view, view, ui]
  exact ⟨by rw [same]; exact h.connected, by rw [same]; exact h.connecting, by rw [same, transmit]; exact h.transmitting,
    by rw [same, cur]; exact h.sigUp⟩

theorem Runs.modifyMember (h : e.Runs v) (peer : String) (f : Member → Member) : (e.modifyMember peer f).Runs v := by
  obtain ⟨members, heq⟩ := e.modifyMember_eq peer f
  rw [heq]
  exact h.of_same rfl rfl rfl

theorem shown_handle (h : e.Shown v) (msg : ServerMsg) : (e.handle rtc w msg).Shown v := by
  cases msg with
  | roster peers => exact Runs.emitRoster (h.toRuns.of_same rfl rfl rfl)
  | peerJoined userId name => exact Runs.emitRoster (h.toRuns.of_same rfl rfl rfl)
  | peerLeft userId => exact Runs.emitRoster (h.toRuns.of_same rfl rfl rfl)
  | offer sender sdp => exact h.of_same rfl rfl rfl rfl id
  | answer sender sdp => exact h.of_same rfl rfl rfl rfl id
  | ice sender candidate => exact h.of_same rfl rfl rfl rfl id
  | ptt userId active => exact (h.toRuns.modifyMember userId _).emitRoster
  | rekey by' =>
    have renewed : Shown v { e with mesh := (e.mesh.rekey rtc w).1, keyGen := min (e.keyGen + 1) maxU32 } :=
      h.of_same rfl rfl rfl rfl id
    exact renewed.emit (.inr (.inr ⟨_, _, rfl⟩))
  | turn creds =>
    simp only [handle]
    split
    · exact h.of_same rfl rfl rfl rfl id
    · exact h.emit (.inl ⟨_, rfl⟩)
  | warn size cap => exact h.emit (.inl ⟨_, rfl⟩)
  | roomFull cap => exact Shown.of_same (h.emit (.inl ⟨s!"Room voll @ {cap}", rfl⟩)) rfl rfl rfl rfl id
  | error code message => exact h.emit (.inl ⟨_, rfl⟩)

/-- A Status event makes the window show that the engine runs. -/
theorem shown_setTransmit (on : Bool) : (e.setTransmit on).1.Shown v := by
  refine Runs.emitRoster ⟨?_, ?_, ?_, fun _ => ?_⟩ <;> rw [view_emit] <;> rfl

theorem shown_start (cfg : EngineConfig) (c : ClientId) (s : SocketId) : (start cfg c s).Shown v := by
  refine ⟨⟨rfl, rfl, rfl, fun _ => rfl⟩, fun ⟨ps, hm⟩ => ?_⟩
  cases List.mem_singleton.mp hm

theorem shown_onEvent (h : e.Shown v) {ev : LocalEvent} {msgs : List ClientMsg} (hev : e.onEvent ev = some (e', msgs))
    (stays : ev ≠ .quit) : e'.Shown v := by
  cases ev with
  | reconnectFailed err =>
    obtain ⟨-, hev⟩ := Option.ite_none_right_eq_some.mp hev
    cases hev
    have waiting : Shown v { e with backoff := min (e.backoff * 2) 30, nextTry := some (min (e.backoff * 2) 30) } :=
      h.of_same rfl rfl rfl rfl id
    exact waiting.emit (.inl ⟨_, rfl⟩)
  | command cmd =>
    obtain rfl : (e.command cmd).1 = e' := congrArg Prod.fst (Option.some.inj hev)
    cases cmd with
    | toggleTx => exact shown_setTransmit _
    | setTx on =>
      simp only [command]
      split
      · exact shown_setTransmit on
      · exact h
    | chat text => exact h.emit (.inr (.inl ⟨_, _, rfl⟩))
    | rekey => exact h
    | reconnect =>
      simp only [command]
      split
      · exact h.of_same rfl rfl rfl rfl id
      · exact h
  | quit => exact absurd rfl stays
  | mesh ev =>
    cases hev
    cases ev with
    | chat sender text => exact h.emit (.inr (.inl ⟨_, _, rfl⟩))
    | badge peer badge => exact (h.toRuns.modifyMember peer _).emitRoster
  | candidate pc text => cases hev; exact h.of_same rfl rfl rfl rfl id
  | dataChannel pc => cases hev; exact h.of_same rfl rfl rfl rfl id
  | rehash peers =>
    obtain ⟨-, hev⟩ := Option.ite_none_right_eq_some.mp hev
    cases hev
    exact h.of_same rfl rfl rfl rfl id

/-- A round keeps it, unless the handle is dropped. -/
theorem shown_round (h : e.Shown v) (hs : e.round rtc a = some e') (stays : a ≠ .event .quit) : e'.Shown v := by
  cases a with
  | message w msg =>
    obtain ⟨-, hs⟩ := Option.ite_none_right_eq_some.mp hs
    cases hs
    exact shown_handle h msg
  | lost =>
    obtain ⟨-, hs⟩ := Option.ite_none_right_eq_some.mp hs
    cases hs
    -- The window says that the connection is lost, and the engine has none.
    have off : Shown v ({ e with cur := none, backoff := 2, nextTry := some 2 }.emit (.signaling false)) := by
      obtain ⟨⟨connected, connecting, transmitting, -⟩, participants⟩ := h
      refine ⟨⟨?_, ?_, ?_, fun hc => by cases hc⟩, fun listed => ?_⟩
      · rwa [view_emit]
      · rwa [view_emit]
      · rwa [view_emit]
      · rw [view_emit]
        exact participants ((listed_emit (by nofun)).mp listed)
    exact off.emit (.inl ⟨_, rfl⟩)
  | reconnected s =>
    obtain ⟨-, hs⟩ := Option.ite_none_right_eq_some.mp hs
    cases hs
    have on : Shown v ({ e with cur := some s, nextTry := none, backoff := 2 }.emit (.signaling true)) := by
      obtain ⟨⟨connected, connecting, transmitting, -⟩, participants⟩ := h
      refine ⟨⟨?_, ?_, ?_, fun _ => ?_⟩, fun listed => ?_⟩
      · rwa [view_emit]
      · rwa [view_emit]
      · rwa [view_emit]
      · rw [view_emit]
        rfl
      · rw [view_emit]
        exact participants ((listed_emit (by nofun)).mp listed)
    exact on.emit (.inl ⟨_, rfl⟩)
  | uplink =>
    obtain ⟨-, hs⟩ := Option.ite_none_right_eq_some.mp hs
    split at hs
    · cases hs
      exact h.of_same rfl rfl rfl rfl id
    · cases hs
  | event ev =>
    obtain ⟨-, hs⟩ := Option.ite_none_right_eq_some.mp hs
    obtain ⟨⟨e'', msgs⟩, hev, rfl⟩ := Option.map_eq_some_iff.mp hs
    exact shown_onEvent h hev fun hq => stays (congrArg LoopAct.event hq)

end

end Engine

end SquadLink

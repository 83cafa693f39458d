import SquadLink.Client.Edits

/-! How the engine loop ends. Two paths leave it, and neither closes a PeerConnection that the mesh still
    holds; only the one for a dropped handle says that the engine is disconnected. -/

namespace SquadLink

namespace Mesh

/-- Every PeerConnection that the mesh ever held is closed. -/
def AllClosed (m : Mesh) : Prop := ∀ peer n, n < m.serial peer → { owner := m.owner, peer, serial := n : PcId } ∈ m.closed

/-- Where the PeerConnections that the mesh ever held are: one that is held is not closed, and one that is
    not held any more is. -/
structure Ledger (m : Mesh) : Prop where
  held : ∀ peer p, m.conn? peer = some p →
    (∃ n, n < m.serial peer ∧ p.pc = { owner := m.owner, peer, serial := n }) ∧ p.pc ∉ m.closed
  gone : ∀ peer n, n < m.serial peer →
    (∃ p, m.conn? peer = some p ∧ p.pc = { owner := m.owner, peer, serial := n }) ∨
      { owner := m.owner, peer, serial := n : PcId } ∈ m.closed
  past : ∀ pc ∈ m.closed, pc.serial < m.serial pc.peer

section
variable {m m' : Mesh}

theorem Ledger.start (c : ClientId) (userId : String) : Ledger { owner := c, myId := userId } :=
  ⟨nofun, nofun, nofun⟩

/-- Only the identities of the held PeerConnections matter. -/
theorem Ledger.of_same (led : m.Ledger) (ho : m'.owner = m.owner) (hs : m'.serial = m.serial) (hc : m'.closed = m.closed)
    (hp : ∀ peer, (m'.conn? peer).map (·.pc) = (m.conn? peer).map (·.pc)) : m'.Ledger := by
  have back : ∀ {m₁ m₂ : Mesh}, (∀ peer, (m₁.conn? peer).map (·.pc) = (m₂.conn? peer).map (·.pc)) →
      ∀ {peer p}, m₁.conn? peer = some p → ∃ p', m₂.conn? peer = some p' ∧ p'.pc = p.pc := by
    intro m₁ m₂ h peer p hp
    have heq := h peer
    rw [hp, Option.map_some] at heq
    exact Option.map_eq_some_iff.mp heq.symm
  refine ⟨fun peer p h => ?_, fun peer n hn => ?_, fun pc h => ?_⟩
  · obtain ⟨p', h', hpc⟩ := back hp h
    rw [ho, hs, hc, ← hpc]
    exact led.held peer p' h'
  · rw [hs] at hn
    rw [ho, hc]
    refine (led.gone peer n hn).imp_left fun ⟨p, h, hpc⟩ => ?_
    obtain ⟨p', h', hpc'⟩ := back (fun peer => (hp peer).symm) h
    exact ⟨p', h', hpc'.trans hpc⟩
  · rw [hs]
    exact led.past pc (hc ▸ h)

theorem Ledger.opened (led : m.Ledger) {peer : String} (none : m.conn? peer = none) : (m.opened peer).Ledger := by
  have other {q : String} (hq : q ≠ peer) :
      (m.opened peer).conn? q = m.conn? q ∧ (m.opened peer).serial q = m.serial q :=
    ⟨m.put_conn?_ne peer _ hq, Function.update_of_ne hq ..⟩
  refine ⟨fun q p h => ?_, fun q n hn => ?_, fun pc h => ?_⟩
  · by_cases hq : q = peer
    · subst hq
      rw [opened_conn?_self] at h
      cases h
      rw [opened_serial_self]
      exact ⟨⟨m.serial q, Nat.lt_succ_self _, rfl⟩, fun h => Nat.lt_irrefl _ (led.past _ h)⟩
    · rw [(other hq).1] at h
      rw [(other hq).2]
      exact led.held q p h
  · by_cases hq : q = peer
    · subst hq
      rw [opened_serial_self] at hn
      rcases Nat.lt_succ_iff_lt_or_eq.mp hn with hn | rfl
      · refine Or.inr ((led.gone q n hn).resolve_left fun ⟨p, h, _⟩ => ?_)
        rw [none] at h
        cases h
      · exact Or.inl ⟨m.fresh q, m.opened_conn?_self q, rfl⟩
    · rw [(other hq).2] at hn
      rw [(other hq).1]
      exact led.gone q n hn
  · refine Nat.lt_of_lt_of_le (led.past pc h) ?_
    by_cases hq : pc.peer = peer
    · rw [← hq, opened_serial_self]
      exact Nat.le_succ _
    · exact Nat.le_of_eq (other hq).2.symm

theorem Ledger.drop (led : m.Ledger) (peer : String) : (m.drop peer).Ledger := by
  have closed {pc : PcId} : pc ∈ (m.drop peer).closed ↔ pc ∈ m.closed ∨ ∃ p, m.conn? peer = some p ∧ p.pc = pc := by
    simp [Mesh.drop, List.mem_append]
  have other {q : String} (hq : q ≠ peer) : (m.drop peer).conn? q = m.conn? q := by
    simp [Mesh.drop, conn?, AList.lookup_erase_ne hq]
  refine ⟨fun q p h => ?_, fun q n hn => ?_, fun pc h => ?_⟩
  · have hq : q ≠ peer := by
      rintro rfl
      rw [drop_conn?_self] at h
      cases h
    rw [other hq] at h
    obtain ⟨hn, hc⟩ := led.held q p h
    refine ⟨hn, fun hm => (closed.mp hm).elim hc ?_⟩
    rintro ⟨p', h', hpc⟩
    -- PeerConnections of different peers are different.
    obtain ⟨⟨n, -, hn⟩, -⟩ := led.held q p h
    obtain ⟨⟨n', -, hn'⟩, -⟩ := led.held peer p' h'
    rw [hpc, hn, PcId.mk.injEq] at hn'
    exact hq hn'.2.1
  · rcases led.gone q n hn with ⟨p, h, hpc⟩ | h
    · by_cases hq : q = peer
      · subst hq
        exact Or.inr (closed.mpr (Or.inr ⟨p, h, hpc⟩))
      · exact Or.inl ⟨p, (other hq).trans h, hpc⟩
    · exact Or.inr (closed.mpr (Or.inl h))
  · rcases closed.mp h with hold | ⟨p, hp, rfl⟩
    · exact led.past pc hold
    · obtain ⟨⟨n, hn, hpc⟩, -⟩ := led.held peer p hp
      rw [hpc]
      exact hn

theorem Ledger.edit (led : m.Ledger) (h : Edit m m') : m'.Ledger := by
  cases h with
  | put peer p p' hp hpc =>
    refine led.of_same rfl rfl rfl fun q => ?_
    by_cases hq : q = peer
    · subst hq
      rw [put_conn?_self, hp, Option.map_some, Option.map_some, hpc]
    · rw [put_conn?_ne _ _ _ hq]
  | opened peer none => exact led.opened none
  | drop peer => exact led.drop peer
  | send msg => exact led.of_same rfl rfl rfl fun _ => rfl
  | addTurn creds => exact led.of_same rfl rfl rfl fun _ => rfl
  | forward out => exact led.of_same rfl rfl rfl fun _ => rfl
  | rehash peers hp =>
    refine led.of_same rfl rfl rfl fun q => ?_
    rw [conn?, AList.perm_lookup hp, conn?]

/-- Everything is closed exactly when nothing is held. -/
theorem Ledger.allClosed_iff (led : m.Ledger) : m.AllClosed ↔ ∀ peer, m.conn? peer = none := by
  constructor
  · intro all peer
    cases hp : m.conn? peer with
    | none => rfl
    | some p =>
      obtain ⟨⟨n, hn, hpc⟩, hc⟩ := led.held peer p hp
      rw [hpc] at hc
      exact absurd (all peer n hn) hc
  · intro none peer n hn
    refine (led.gone peer n hn).resolve_left fun ⟨p, h, _⟩ => ?_
    rw [none] at h
    cases h

end

end Mesh

/-- The `connected` of a Status event. -/
def UiEvent.connected? : UiEvent → Option Bool
  | status connected _ => some connected
  | _ => none

namespace Engine

/-- The `connected` of the last Status event pushed to the sink. -/
def lastConnected (ui : List UiEvent) : Option Bool := (ui.filterMap UiEvent.connected?).getLast?

/-- The loop has ended the way the UI and the peers rely on. -/
structure CleanExit (e : Engine) : Prop where
  status : lastConnected e.ui = some false
  closed : e.mesh.AllClosed

/-- What was pushed to the sink on the way from `e` to `e'` does not say that the engine is disconnected. -/
def Pushes (e e' : Engine) : Prop := ∃ new, e'.ui = e.ui ++ new ∧ ∀ ev ∈ new, ev.connected? ≠ some false

section
variable {rtc : Webrtc} {e e' e'' : Engine} {a : LoopAct}

theorem Pushes.of_same (h : e'.ui = e.ui) : Pushes e e' := ⟨[], by simp [h], nofun⟩

theorem Pushes.single {ev : UiEvent} (h : e'.ui = e.ui ++ [ev]) (hev : ev.connected? ≠ some false) : Pushes e e' :=
  ⟨[ev], h, fun _ hx => List.mem_singleton.mp hx ▸ hev⟩

theorem Pushes.emit (h : Pushes e e') {ev : UiEvent} (hev : ev.connected? ≠ some false) : Pushes e (e'.emit ev) := by
  obtain ⟨new, hui, hnew⟩ := h
  refine ⟨new ++ [ev], by simp [Engine.emit, hui], fun x hx => ?_⟩
  rcases List.mem_append.mp hx with hx | hx
  · exact hnew x hx
  · exact List.mem_singleton.mp hx ▸ hev

theorem Pushes.lastConnected (h : Pushes e e') (hu : lastConnected e.ui = some true) : lastConnected e'.ui = some true := by
  obtain ⟨new, hui, hnew⟩ := h
  have connected : ∀ c ∈ new.filterMap UiEvent.connected?, c = true := by
    intro c hc
    obtain ⟨ev, hev, he⟩ := List.mem_filterMap.mp hc
    cases c with
    | true => rfl
    | false => exact absurd he (hnew ev hev)
  unfold Engine.lastConnected at hu ⊢
  rw [hui, List.filterMap_append, List.getLast?_append, hu]
  cases hl : (new.filterMap UiEvent.connected?).getLast? with
  | none => rfl
  | some c => rw [connected c (List.mem_of_getLast? hl)]; rfl

theorem pushes_modifyMember (peer : String) (f : Member → Member) : Pushes e (e.modifyMember peer f) := by
  obtain ⟨members, h⟩ := e.modifyMember_eq peer f
  exact .of_same (by rw [h])

theorem pushes_handle (w : Outcomes) (msg : ServerMsg) : Pushes e (e.handle rtc w msg) := by
  cases msg with
  | offer sender sdp => exact .of_same rfl
  | answer sender sdp => exact .of_same rfl
  | ice sender candidate => exact .of_same rfl
  | ptt userId active => exact (pushes_modifyMember userId _).emit (by simp [UiEvent.connected?])
  | turn creds =>
    simp only [handle]
    split
    · exact .of_same rfl
    · exact (Pushes.of_same rfl).emit (by simp [UiEvent.connected?])
  | _ => exact .single rfl (by simp [UiEvent.connected?])

theorem pushes_setTransmit (on : Bool) : Pushes e (e.setTransmit on).1 :=
  ⟨[_, _], List.append_assoc .., by simp [UiEvent.connected?]⟩

theorem pushes_command (cmd : Cmd) : Pushes e (e.command cmd).1 := by
  cases cmd with
  | toggleTx => exact pushes_setTransmit _
  | setTx on =>
    simp only [command]
    split
    · exact pushes_setTransmit on
    · exact .of_same rfl
  | chat text => exact .single rfl (by simp [UiEvent.connected?])
  | rekey => exact .of_same rfl
  | reconnect =>
    simp only [command]
    split <;> exact .of_same rfl

theorem pushes_onEvent {ev : LocalEvent} {msgs : List ClientMsg} (h : e.onEvent ev = some (e', msgs)) (hev : ev ≠ .quit) :
    Pushes e e' := by
  cases ev with
  | reconnectFailed err =>
    cases (Option.ite_none_right_eq_some.mp h).2
    exact .single rfl (by simp [UiEvent.connected?])
  | command cmd =>
    obtain rfl : (e.command cmd).1 = e' := congrArg Prod.fst (Option.some.inj h)
    exact pushes_command cmd
  | quit => exact absurd rfl hev
  | mesh ev =>
    cases h
    cases ev with
    | chat sender text => exact .single rfl (by simp [UiEvent.connected?])
    | badge peer badge => exact (pushes_modifyMember peer _).emit (by simp [UiEvent.connected?])
  | candidate pc text => cases h; exact .of_same rfl
  | dataChannel pc => cases h; exact .of_same rfl
  | rehash peers =>
    cases (Option.ite_none_right_eq_some.mp h).2
    exact .of_same rfl

/-- What a round pushes: nothing disconnected, unless the handle was dropped. -/
theorem pushes_round (h : e.round rtc a = some e') (ha : a ≠ .event .quit) : Pushes e e' := by
  cases a with
  | message w msg =>
    cases (Option.ite_none_right_eq_some.mp h).2
    exact pushes_handle w msg
  | lost =>
    cases (Option.ite_none_right_eq_some.mp h).2
    exact ⟨[_, _], List.append_assoc .., by simp [UiEvent.connected?]⟩
  | reconnected s =>
    cases (Option.ite_none_right_eq_some.mp h).2
    exact ⟨[_, _], List.append_assoc .., by simp [UiEvent.connected?]⟩
  | uplink =>
    obtain ⟨-, h⟩ := Option.ite_none_right_eq_some.mp h
    split at h
    · cases h
      exact .of_same rfl
    · cases h
  | event ev =>
    obtain ⟨-, h⟩ := Option.ite_none_right_eq_some.mp h
    obtain ⟨⟨e'', msgs⟩, hev, rfl⟩ := Option.map_eq_some_iff.mp h
    exact pushes_onEvent hev fun he => ha (he ▸ rfl)

/-! ### Runs of the loop -/

/-- While the loop runs, nothing has said that the engine is disconnected. -/
theorem ledger_reach {cfg : EngineConfig} {c : ClientId} {s : SocketId}
    (h : Lts.Reach (round rtc) Lts.anyStep (start cfg c s) e) :
    e.mesh.Ledger ∧ (e.running = true → lastConnected e.ui = some true) := by
  refine h.invariant (P := fun e => e.mesh.Ledger ∧ (e.running = true → lastConnected e.ui = some true))
    ⟨.start c cfg.userId, fun _ => rfl⟩ fun e a e' ⟨led, hui⟩ _ hs => ⟨?_, fun hr => ?_⟩
  · exact (edits_round hs).keep (fun _ _ => Mesh.Ledger.edit) led
  · refine (pushes_round hs fun ha => ?_).lastConnected (hui (round_running hs))
    subst ha
    cases (Option.ite_none_right_eq_some.mp hs).2
    cases hr

/-- Whatever happened before, the loop ends cleanly exactly when it ends because the handle is dropped and
    the mesh holds no PeerConn then. -/
theorem clean_exit_iff {cfg : EngineConfig} {c : ClientId} {s : SocketId}
    (h : Lts.Reach (round rtc) Lts.anyStep (start cfg c s) e) (hs : e.round rtc a = some e') (ended : e'.running = false) :
    e'.CleanExit ↔ a = .event .quit ∧ ∀ peer, e.mesh.conn? peer = none := by
  obtain ⟨led, hui⟩ := ledger_reach h
  by_cases ha : a = .event .quit
  · subst ha
    cases (Option.ite_none_right_eq_some.mp hs).2
    have status : lastConnected e.quit.ui = some false := by
      simp [lastConnected, quit, emit, UiEvent.connected?]
    rw [← led.allClosed_iff]
    exact ⟨fun clean => ⟨rfl, clean.closed⟩, fun ⟨_, closed⟩ => ⟨status, closed⟩⟩
  · refine iff_of_false (fun clean => ?_) fun h => ha h.1
    have connected := (pushes_round hs ha).lastConnected (hui (round_running hs))
    rw [clean.status] at connected
    cases connected

end

/-! An engine whose handle is dropped after the only peer has left, and one whose room is full. -/

def sampleRtc : Webrtc := { sdpText := fun _ => "v=0", parsesIce := fun _ => true }

def aliceConfig : EngineConfig := { room := "r", userId := "alice", name := "Alice", token := none, relayEnabled := false }

def visitActs : List LoopAct :=
  [.message (fun _ _ => true) (.peerJoined "bob" "Bob"), .message (fun _ _ => true) (.peerLeft "bob")]

def afterVisit : Engine := (Lts.exec (round sampleRtc) (start aliceConfig 0 0) visitActs).getD (start aliceConfig 0 0)

theorem clean_exit_iff_visited :
    afterVisit.quit.CleanExit ∧ afterVisit.mesh.closed = [{ owner := 0, peer := "bob", serial := 0 }] := by
  have run : Lts.Reach (round sampleRtc) Lts.anyStep (start aliceConfig 0 0) afterVisit :=
    Lts.Reach.of_exec (fun _ _ _ _ => trivial)
      (show Lts.exec (round sampleRtc) (start aliceConfig 0 0) visitActs = some afterVisit from rfl)
  have quit : afterVisit.round sampleRtc (.event .quit) = some afterVisit.quit := rfl
  exact ⟨(clean_exit_iff run quit rfl).mpr ⟨rfl, fun _ => rfl⟩, by decide⟩

theorem unclean_exit_when_full :
    ¬ ∀ e, Lts.Reach (round sampleRtc) Lts.anyStep (start aliceConfig 0 0) e → e.running = false → e.CleanExit := by
  intro all
  have step : (start aliceConfig 0 0).round sampleRtc (.message (fun _ _ => true) (.roomFull hardCap)) =
      some ((start aliceConfig 0 0).handle sampleRtc (fun _ _ => true) (.roomFull hardCap)) := rfl
  have clean := all _ (Lts.Reach.refl.step _ trivial step) rfl
  exact absurd clean.status (by decide)

end Engine

end SquadLink

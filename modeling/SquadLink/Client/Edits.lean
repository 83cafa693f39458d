import Mathlib.Logic.Relation
import SquadLink.Client.Reactions

/-! What the operations of the mesh are made of. Each of them is a sequence of a few kinds of edits, so
    what every edit keeps is kept by every operation. -/

namespace SquadLink

namespace Mesh

/-- One edit of a mesh. -/
inductive Edit (m : Mesh) : Mesh → Prop
  /-- The PeerConn of a peer changes, but not its PeerConnection. -/
  | put (peer : String) (p p' : PeerConn) : m.conn? peer = some p → p'.pc = p.pc → Edit m (m.put peer p')
  | opened (peer : String) : m.conn? peer = none → Edit m (m.opened peer)
  | drop (peer : String) : Edit m (m.drop peer)
  | send (msg : ClientMsg) : Edit m (m.send msg)
  | addTurn (creds : TurnCreds) : Edit m (m.addTurn creds)
  /-- The uplink goes on with what is left. -/
  | forward (out : List ClientMsg) : Edit m { m with out }
  /-- The iteration order changes. -/
  | rehash (peers : HashMap PeerConn) : peers.entries.Perm m.peers.entries → Edit m { m with peers }

abbrev Edits : Mesh → Mesh → Prop := Relation.ReflTransGen Edit

section
variable {rtc : Webrtc} {w : Outcomes} {m : Mesh} {peer : String}

theorem edits_foldl {α : Type} {op : Mesh → α → Mesh} (hop : ∀ m x, Edits m (op m x)) (xs : List α) (m : Mesh) :
    Edits m (xs.foldl op m) := by
  induction xs generalizing m with
  | nil => exact .refl
  | cons x xs ih => exact (hop m x).trans (ih (op m x))

theorem edits_ensure : Edits m (m.ensure w peer).1 := by
  rcases m.ensure_cases w peer with ⟨-, h⟩ | ⟨-, h⟩ | ⟨hp, h⟩
  · rw [h]
  · rw [h]
  · rw [h]
    exact .single (.opened peer hp)

theorem edits_offer : Edits m (m.offer rtc w peer).1 := by
  unfold offer
  split
  · exact .refl
  · rename_i p hp
    split
    · exact .refl
    · split
      · exact .single (.put peer p _ hp rfl)
      · split
        · exact .single (.put peer p _ hp rfl)
        · exact (Relation.ReflTransGen.single (.put peer p _ hp rfl)).tail (.send _)

theorem edits_onPeer : Edits m (m.onPeer rtc w peer).1 := by
  simp only [onPeer]
  split
  · exact edits_ensure
  · split
    · exact edits_ensure.trans edits_offer
    · exact edits_ensure

theorem edits_dropEstablished : Edits m (m.dropEstablished peer) := by
  unfold dropEstablished
  split
  · split
    · exact .single (.drop peer)
    · exact .refl
  · exact .refl

theorem edits_onOffer (sdp : Sdp) : Edits m (m.onOffer rtc w peer sdp).1 := by
  have ensured : Edits m ((m.dropEstablished peer).ensure w peer).1 := edits_dropEstablished.trans edits_ensure
  simp only [onOffer]
  split
  · exact ensured
  · split
    · exact ensured
    · rename_i p hp
      split
      · exact ensured
      · split
        · exact ensured
        · split
          · exact ensured.tail (.put peer p _ hp (by simp [PeerConn.setRemote]))
          · split
            · exact ensured.tail (.put peer p _ hp (by simp [PeerConn.created, PeerConn.setRemote]))
            · exact (ensured.tail (.put peer p _ hp (by simp [PeerConn.created, PeerConn.setRemote]))).tail (.send _)

theorem edits_onAnswer (sdp : Sdp) : Edits m (m.onAnswer rtc w peer sdp).1 := by
  unfold onAnswer
  split
  · exact .refl
  · rename_i p hp
    split
    · exact .refl
    · split
      · exact .refl
      · exact .single (.put peer p _ hp (by simp [PeerConn.setRemote]))

theorem edits_onIce (cand : Candidate) : Edits m (m.onIce rtc peer cand) := by
  unfold onIce
  split
  · exact .refl
  · rename_i p hp
    obtain ⟨added, pendingIce, h⟩ := p.addOrQueueIce_eq rtc cand
    exact .single (.put peer p _ hp (by rw [h]))

theorem edits_onDataChannel (pc : PcId) : Edits m (m.onDataChannel pc) := by
  unfold onDataChannel
  split
  · rename_i p hp
    split
    · exact .single (.put pc.peer p _ hp rfl)
    · exact .refl
  · exact .refl

theorem edits_rekey : Edits m (m.rekey rtc w).1 := by
  obtain ⟨n, h⟩ := rekeyLoop_eq rtc w m.peers.keys m
  rw [rekey, h]
  refine edits_foldl (fun m id => ?_) _ m
  unfold rekeyOne
  split
  · exact (Relation.ReflTransGen.single (.drop id)).trans edits_onPeer
  · exact .refl

theorem edits_react (relayEnabled : Bool) (msg : ServerMsg) : Edits m (m.react rtc w relayEnabled msg) := by
  cases msg with
  | roster peers => exact edits_foldl (fun _ _ => edits_onPeer) peers m
  | peerJoined userId name => exact edits_onPeer
  | peerLeft userId => exact .single (.drop userId)
  | offer sender sdp => exact edits_onOffer sdp
  | answer sender sdp => exact edits_onAnswer sdp
  | ice sender candidate => exact edits_onIce candidate
  | rekey by' => exact edits_rekey
  | turn creds =>
    simp only [react]
    split
    · exact .single (.addTurn creds)
    · exact .refl
  | _ => exact .refl

end

/-- What every edit keeps is kept by edits. -/
theorem Edits.keep {P : Mesh → Prop} {m m' : Mesh} (h : Edits m m') (one : ∀ m m', P m → Edit m m' → P m') (hm : P m) :
    P m' := by
  induction h with
  | refl => exact hm
  | tail _ he ih => exact one _ _ ih he

end Mesh

/-! ### Rounds of the loop -/

/-- What the loop of one engine can come to in a round. -/
inductive LoopAct
  | message (w : Outcomes) (msg : ServerMsg)
  | lost
  | reconnected (s : SocketId)
  | uplink
  | event (ev : LocalEvent)

namespace Engine

/-- One round of the loop, as far as its own engine goes. -/
def round (rtc : Webrtc) (e : Engine) : LoopAct → Option Engine
  | .message w msg => if e.running ∧ e.cur.isSome then some (e.handle rtc w msg) else none
  | .lost => if e.running ∧ e.cur.isSome then some e.lost else none
  | .reconnected s => if e.running ∧ e.cur.isNone ∧ e.nextTry.isSome then some (e.reconnected s) else none
  | .uplink =>
    if e.running then
      match e.mesh.out with
      | _ :: rest => some { e with mesh := { e.mesh with out := rest } }
      | [] => none
    else none
  | .event ev => if e.running then (e.onEvent ev).map Prod.fst else none

section
variable {rtc : Webrtc} {e e' : Engine} {a : LoopAct}

theorem command_mesh (cmd : Cmd) : (e.command cmd).1.mesh = e.mesh := by
  cases cmd with
  | setTx on => simp only [command]; split <;> rfl
  | reconnect => simp only [command]; split <;> rfl
  | _ => rfl

theorem meshEvent_mesh (ev : MeshEvent) : (e.meshEvent ev).mesh = e.mesh := by
  cases ev with
  | chat sender text => rfl
  | badge peer badge =>
    obtain ⟨members, h⟩ := e.modifyMember_eq peer fun m => { m with badge := some badge }
    simp only [meshEvent, emitRoster, emit_mesh, h]

theorem edits_onEvent {ev : LocalEvent} {msgs : List ClientMsg} (h : e.onEvent ev = some (e', msgs)) :
    Mesh.Edits e.mesh e'.mesh := by
  cases ev with
  | reconnectFailed err =>
    simp only [onEvent] at h
    split at h
    · cases h; exact .refl
    · cases h
  | command cmd =>
    obtain rfl : (e.command cmd).1 = e' := congrArg Prod.fst (Option.some.inj h)
    rw [command_mesh]
  | quit => cases h; exact .refl
  | mesh ev => cases h; rw [meshEvent_mesh]
  | candidate pc text => cases h; exact .single (.send _)
  | dataChannel pc => cases h; exact Mesh.edits_onDataChannel pc
  | rehash peers =>
    simp only [onEvent] at h
    split at h
    · cases h; exact .single (.rehash peers ‹_›)
    · cases h

theorem edits_round (h : e.round rtc a = some e') : Mesh.Edits e.mesh e'.mesh := by
  cases a with
  | message w msg =>
    cases (Option.ite_none_right_eq_some.mp h).2
    rw [handle_mesh]
    exact Mesh.edits_react e.cfg.relayEnabled msg
  | lost => cases (Option.ite_none_right_eq_some.mp h).2; exact .refl
  | reconnected s => cases (Option.ite_none_right_eq_some.mp h).2; exact .refl
  | uplink =>
    obtain ⟨-, h⟩ := Option.ite_none_right_eq_some.mp h
    split at h
    · cases h; exact .single (.forward _)
    · cases h
  | event ev =>
    obtain ⟨-, h⟩ := Option.ite_none_right_eq_some.mp h
    obtain ⟨⟨e'', msgs⟩, hev, rfl⟩ := Option.map_eq_some_iff.mp h
    exact edits_onEvent hev

theorem round_running (h : e.round rtc a = some e') : e.running = true := by
  cases a with
  | message w msg => exact (Option.ite_none_right_eq_some.mp h).1.1
  | lost => exact (Option.ite_none_right_eq_some.mp h).1.1
  | reconnected s => exact (Option.ite_none_right_eq_some.mp h).1.1
  | uplink => exact (Option.ite_none_right_eq_some.mp h).1
  | event ev => exact (Option.ite_none_right_eq_some.mp h).1

end

end Engine

/-- A step of the system is a round of one engine's loop, or leaves the engine as it is. -/
theorem Sys.step_round {cfg : SysConfig} {σ σ' : Sys} {a : Act} (h : step cfg σ a = some σ') {c : ClientId} {e : Engine}
    (he : σ.engines c = some e) (hc : c ≠ σ.nextClient) :
    ∃ e', σ'.engines c = some e' ∧ (e' = e ∨ ∃ act, e.round cfg.rtc act = some e') := by
  -- A step of client `d`'s engine, from its running engine `e₀` to `e₁`.
  have acts {σ₁ : Sys} {d : ClientId} {e₀ e₁ : Engine} (act : LoopAct) (h₁ : σ₁.engines = σ.engines)
      (hd : σ.engines d = some e₀) (hround : e₀.round cfg.rtc act = some e₁) :
      ∃ e', (σ₁.setEngine d e₁).engines c = some e' ∧ (e' = e ∨ ∃ act, e.round cfg.rtc act = some e') := by
    by_cases hcd : c = d
    · subst hcd
      cases he.symm.trans hd
      exact ⟨e₁, by simp [setEngine], Or.inr ⟨act, hround⟩⟩
    · exact ⟨e, by simp [setEngine, h₁, hcd, he], Or.inl rfl⟩
  have sent (cur : Option SocketId) (msgs : List ClientMsg) : (σ.transmit cur msgs).engines = σ.engines := by
    cases cur <;> rfl
  cases a with
  | recv s =>
    obtain ⟨_, _, srv, -, -, rfl⟩ := step_recv_inv h
    exact ⟨e, he, Or.inl rfl⟩
  | write s =>
    obtain ⟨_, _, _, srv, -, -, -, rfl⟩ := step_write_inv h
    exact ⟨e, he, Or.inl rfl⟩
  | server a =>
    obtain ⟨-, srv, -, rfl⟩ := step_server_inv h
    exact ⟨e, he, Or.inl rfl⟩
  | start ecfg =>
    obtain ⟨srv, -, rfl⟩ := step_start_inv h
    exact ⟨e, by simp [started, Function.update_of_ne hc, he], Or.inl rfl⟩
  | handle d w =>
    obtain ⟨e₀, s, msg, rest, hd, hr, hs, -, rfl⟩ := step_handle_inv h
    exact acts (.message w msg) rfl hd (by simp [Engine.round, hr, hs])
  | lost d =>
    obtain ⟨e₀, s, hd, hr, hs, -, rfl⟩ := step_lost_inv h
    exact acts .lost rfl hd (by simp [Engine.round, hr, hs])
  | uplink d =>
    obtain ⟨e₀, msg, rest, hd, hr, ho, rfl⟩ := step_uplink_inv h
    exact acts .uplink (sent _ _) hd (by simp [Engine.round, hr, ho])
  | reconnect d =>
    simp only [step] at h
    split at h
    · rename_i e₀ hd
      obtain ⟨hcur, h⟩ := Option.ite_none_right_eq_some.mp h
      obtain ⟨srv, -, rfl⟩ := Option.map_eq_some_iff.mp h
      obtain ⟨hd, hr⟩ := running?_eq_some hd
      exact acts (.reconnected σ.server.nextSocket) rfl hd (by simp [Engine.round, hr, hcur])
    · cases h
  | event d ev =>
    obtain ⟨e₀, e₁, msgs, hd, hr, hev, rfl⟩ := step_event_inv h
    exact acts (.event ev) (sent _ _) hd (by simp [Engine.round, hr, hev])

end SquadLink

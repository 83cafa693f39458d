import SquadLink.Client.Links
import SquadLink.System

/-! What a round of the engine loop does to the parts of the engine that the invariants read: its
    configuration and connection, its members, and its mesh. -/

namespace SquadLink

/-- What the negotiation of a PeerConnection has come to. -/
structure Link where
  pc : PcId
  remoteSet : Bool
  descs : Nat
  remotes : List Sdp
deriving DecidableEq, Repr

def PeerConn.link (p : PeerConn) : Link := { pc := p.pc, remoteSet := p.remoteSet, descs := p.descs, remotes := p.remotes }

namespace Mesh

def link? (m : Mesh) (peer : String) : Option Link := (m.conn? peer).map PeerConn.link

/-- The mesh's part in handling a message. -/
def react (rtc : Webrtc) (w : Outcomes) (relayEnabled : Bool) (m : Mesh) : ServerMsg → Mesh
  | .roster peers => Engine.onPeers rtc w m peers
  | .peerJoined userId _ => (m.onPeer rtc w userId).1
  | .peerLeft userId => m.onLeft userId
  | .offer sender sdp => (m.onOffer rtc w sender sdp).1
  | .answer sender sdp => (m.onAnswer rtc w sender sdp).1
  | .ice sender candidate => m.onIce rtc sender candidate
  | .rekey _ => (m.rekey rtc w).1
  | .turn creds => if relayEnabled then m.addTurn creds else m
  | _ => m

/-- `m'` is `m` after something that is no negotiation: the links are the same, and only candidates went out. -/
structure Idles (m m' : Mesh) : Prop where
  owner : m'.owner = m.owner
  myId : m'.myId = m.myId
  link : ∀ q, m'.link? q = m.link? q
  serial : m'.serial = m.serial
  sends : ∃ ms, m'.out = m.out ++ ms ∧ m'.sent = m.sent ++ ms ∧ ∀ msg ∈ ms, ∃ dest cand, msg = .ice dest cand

end Mesh

namespace Engine

section
variable {rtc : Webrtc} {w : Outcomes} {e e' : Engine}

@[simp] theorem emit_cfg (ev : UiEvent) : (e.emit ev).cfg = e.cfg := rfl
@[simp] theorem emit_cur (ev : UiEvent) : (e.emit ev).cur = e.cur := rfl
@[simp] theorem emit_mesh (ev : UiEvent) : (e.emit ev).mesh = e.mesh := rfl
@[simp] theorem emit_members (ev : UiEvent) : (e.emit ev).members = e.members := rfl
@[simp] theorem emit_running (ev : UiEvent) : (e.emit ev).running = e.running := rfl

theorem modifyMember_eq (peer : String) (f : Member → Member) : ∃ members, e.modifyMember peer f = { e with members } := by
  unfold modifyMember
  split
  · exact ⟨_, rfl⟩
  · exact ⟨_, rfl⟩

/-- The members shown, with their names. -/
def names (e : Engine) (q : String) : Option String := (e.members.lookup q).map (·.name)

theorem mem_members_iff {q : String} : q ∈ e.members ↔ (e.names q).isSome := by
  rw [names, Option.isSome_map, AList.lookup_isSome]

theorem modifyMember_names (peer : String) (f : Member → Member) (hf : ∀ m, (f m).name = m.name) :
    (e.modifyMember peer f).names = e.names := by
  unfold modifyMember
  cases hm : e.members.lookup peer with
  | none => rfl
  | some m =>
    funext q
    by_cases hq : q = peer
    · subst hq
      simp [names, hm, hf]
    · simp [names, AList.lookup_insert_ne hq]

theorem handle_cfg (msg : ServerMsg) : (e.handle rtc w msg).cfg = e.cfg := by
  cases msg with
  | ptt userId active =>
    obtain ⟨members, h⟩ := e.modifyMember_eq userId fun m => { m with speaking := active }
    simp only [handle, emitRoster, emit_cfg, h]
  | turn creds => simp only [handle]; split <;> rfl
  | _ => rfl

theorem handle_cur (msg : ServerMsg) : (e.handle rtc w msg).cur = e.cur := by
  cases msg with
  | ptt userId active =>
    obtain ⟨members, h⟩ := e.modifyMember_eq userId fun m => { m with speaking := active }
    simp only [handle, emitRoster, emit_cur, h]
  | turn creds => simp only [handle]; split <;> rfl
  | _ => rfl

theorem handle_mesh (msg : ServerMsg) : (e.handle rtc w msg).mesh = e.mesh.react rtc w e.cfg.relayEnabled msg := by
  cases msg with
  | ptt userId active =>
    obtain ⟨members, h⟩ := e.modifyMember_eq userId fun m => { m with speaking := active }
    simp only [handle, emitRoster, emit_mesh, h, Mesh.react]
  | turn creds => simp only [handle, Mesh.react]; split <;> rfl
  | _ => rfl

/-- Only a full room ends the loop. -/
theorem handle_running {msg : ServerMsg} (h : ∀ cap, msg ≠ .roomFull cap) :
    (e.handle rtc w msg).running = e.running := by
  cases msg with
  | ptt userId active =>
    obtain ⟨members, h⟩ := e.modifyMember_eq userId fun m => { m with speaking := active }
    simp only [handle, emitRoster, emit_running, h]
  | turn creds => simp only [handle]; split <;> rfl
  | roomFull cap => exact absurd rfl (h cap)
  | _ => rfl

end

end Engine

namespace Mesh

section
variable {rtc : Webrtc} {m m' : Mesh}

theorem Idles.refl (m : Mesh) : Idles m m := ⟨rfl, rfl, fun _ => rfl, rfl, [], by simp, by simp, by simp⟩

theorem link?_put_of_eq {peer : String} {p p' : PeerConn} (hp : m.conn? peer = some p) (h : p'.link = p.link) (q : String) :
    (m.put peer p').link? q = m.link? q := by
  unfold link?
  by_cases hq : q = peer
  · subst hq
    simp [hp, h]
  · simp [hq]

theorem idles_onIce (sender : String) (cand : Candidate) : Idles m (m.onIce rtc sender cand) := by
  unfold onIce
  cases hp : m.conn? sender with
  | none => exact .refl m
  | some p =>
    obtain ⟨added, pendingIce, h⟩ := p.addOrQueueIce_eq rtc cand
    exact ⟨rfl, rfl, link?_put_of_eq hp (by rw [h]; rfl), rfl, [], by simp [put], by simp [put], by simp⟩

theorem idles_onDataChannel (pc : PcId) : Idles m (m.onDataChannel pc) := by
  unfold onDataChannel
  cases hp : m.conn? pc.peer with
  | none => exact .refl m
  | some p =>
    dsimp only
    split
    · exact ⟨rfl, rfl, link?_put_of_eq hp rfl, rfl, [], by simp [put], by simp [put], by simp⟩
    · exact .refl m

end

end Mesh

namespace Mesh

/-- `m'` is `m` after operations that sent messages to peers. -/
structure Grows (m m' : Mesh) : Prop where
  owner : m'.owner = m.owner
  myId : m'.myId = m.myId
  sends : ∃ ms, m'.out = m.out ++ ms ∧ m'.sent = m.sent ++ ms ∧ ∀ msg ∈ ms, msg.dest.isSome

section
variable {m m' m'' : Mesh}

theorem Grows.refl (m : Mesh) : Grows m m := ⟨rfl, rfl, [], by simp, by simp, by simp⟩

theorem Grows.trans (h : Grows m m') (h' : Grows m' m'') : Grows m m'' := by
  obtain ⟨ms, ho, hs, hd⟩ := h.sends
  obtain ⟨ms', ho', hs', hd'⟩ := h'.sends
  refine ⟨h'.owner.trans h.owner, h'.myId.trans h.myId, ms ++ ms', by rw [ho', ho, List.append_assoc],
    by rw [hs', hs, List.append_assoc], fun msg hm => ?_⟩
  exact (List.mem_append.mp hm).elim (hd msg) (hd' msg)

theorem Touches.grows {peer : String} {ms : List ClientMsg} (h : Touches m peer ms m')
    (hms : ∀ msg ∈ ms, msg.dest = some peer) : Grows m m' :=
  ⟨h.owner, h.myId, ms, h.out, h.sent, fun msg hm => by rw [hms msg hm]; rfl⟩

theorem Idles.grows (h : Idles m m') : Grows m m' := by
  obtain ⟨ms, ho, hs, hd⟩ := h.sends
  refine ⟨h.owner, h.myId, ms, ho, hs, fun msg hm => ?_⟩
  obtain ⟨dest, cand, rfl⟩ := hd msg hm
  rfl

theorem PerPeer.grows {op : Mesh → String → Mesh} (hop : PerPeer op) :
    ∀ (ids : List String) (m : Mesh), Grows m (ids.foldl op m)
  | [], m => .refl m
  | id :: ids, m => by
    obtain ⟨ms, ht, hms⟩ := hop m id
    exact (ht.grows hms).trans (PerPeer.grows hop ids (op m id))

theorem react_grows (rtc : Webrtc) (w : Outcomes) (relayEnabled : Bool) (m : Mesh) (msg : ServerMsg) :
    Grows m (m.react rtc w relayEnabled msg) := by
  cases msg with
  | roster peers =>
    simp only [react, onPeers_eq]
    exact (perPeer_onPeer rtc w).grows _ m
  | peerJoined userId name =>
    obtain ⟨ms, ht, hms⟩ := perPeer_onPeer rtc w m userId
    exact ht.grows hms
  | peerLeft userId => exact (Touches.drop m userId).grows (by simp)
  | offer sender sdp =>
    obtain ⟨ms, ht, hms⟩ := m.onOffer_touches rtc w sender sdp
    refine ht.grows fun msg hm => ?_
    obtain ⟨ans, rfl⟩ := hms msg hm
    rfl
  | answer sender sdp => exact (m.onAnswer_cases rtc w sender sdp).1.grows (by simp)
  | ice sender candidate => exact (idles_onIce sender candidate).grows
  | rekey by' =>
    simp only [react, rekey]
    obtain ⟨n, h⟩ := rekeyLoop_eq rtc w m.peers.keys m
    rw [h]
    exact (perPeer_rekeyOne rtc w).grows _ m
  | turn creds =>
    simp only [react]
    split
    · exact ⟨rfl, rfl, [], by simp [addTurn], by simp [addTurn], by simp⟩
    · exact .refl m
  | _ => exact .refl m

end

end Mesh

namespace Engine

section
variable {e e' : Engine} {msgs : List ClientMsg} {ev : LocalEvent}

/-- A round that handles no message keeps the connection, the members' names and the links; what it
    sends is no Join and is for no single peer. -/
theorem onEvent_spec (h : e.onEvent ev = some (e', msgs)) :
    e'.cfg = e.cfg ∧ e'.cur = e.cur ∧ Mesh.Idles e.mesh e'.mesh ∧ e'.names = e.names ∧
      (∀ msg ∈ msgs, (∃ on, msg = .ptt on) ∨ msg = .rekey ∧ ev = .command .rekey) ∧
      (e'.running = true ∨ ev = .quit ∨ e.running = false) := by
  have running : e.running = true ∨ ev = .quit ∨ e.running = false := by
    cases e.running
    · exact Or.inr (Or.inr rfl)
    · exact Or.inl rfl
  have transmit : ∀ on, (e.setTransmit on).1.cfg = e.cfg ∧ (e.setTransmit on).1.cur = e.cur ∧
      Mesh.Idles e.mesh (e.setTransmit on).1.mesh ∧ (e.setTransmit on).1.names = e.names ∧
      (∀ msg ∈ (e.setTransmit on).2, (∃ on, msg = .ptt on) ∨ msg = .rekey ∧ ev = .command .rekey) ∧
      ((e.setTransmit on).1.running = true ∨ ev = .quit ∨ e.running = false) :=
    fun on => ⟨rfl, rfl, .refl _, rfl, fun msg hm => Or.inl ⟨on, List.mem_singleton.mp hm⟩, running⟩
  cases ev with
  | reconnectFailed err =>
    simp only [onEvent] at h
    split at h
    · cases h
      exact ⟨rfl, rfl, .refl _, rfl, by simp, running⟩
    · cases h
  | command cmd =>
    injection h with h
    rw [Prod.mk.injEq] at h
    obtain ⟨rfl, rfl⟩ := h
    cases cmd with
    | toggleTx => exact transmit _
    | setTx on =>
      simp only [command]
      split
      · exact transmit on
      · exact ⟨rfl, rfl, .refl _, rfl, by simp, running⟩
    | chat text => exact ⟨rfl, rfl, .refl _, rfl, by simp [command], running⟩
    | rekey => exact ⟨rfl, rfl, .refl _, rfl, by simp [command], running⟩
    | reconnect =>
      simp only [command]
      split
      · exact ⟨rfl, rfl, .refl _, rfl, by simp, running⟩
      · exact ⟨rfl, rfl, .refl _, rfl, by simp, running⟩
  | quit =>
    cases h
    exact ⟨rfl, rfl, .refl _, rfl, by simp, Or.inr (Or.inl rfl)⟩
  | mesh ev =>
    cases h
    cases ev with
    | chat sender text => exact ⟨rfl, rfl, .refl _, rfl, by simp, running⟩
    | badge peer badge =>
      obtain ⟨members, hm⟩ := e.modifyMember_eq peer fun m => { m with badge := some badge }
      refine ⟨?_, ?_, ?_, e.modifyMember_names peer _ fun _ => rfl, by simp, ?_⟩
      · simp only [meshEvent, emitRoster, emit_cfg, hm]
      · simp only [meshEvent, emitRoster, emit_cur, hm]
      · simp only [meshEvent, emitRoster, emit_mesh, hm]
        exact .refl _
      · simp only [meshEvent, emitRoster, emit_running, hm]
        exact running
  | candidate pc text =>
    cases h
    exact ⟨rfl, rfl, ⟨rfl, rfl, fun _ => rfl, rfl, _, rfl, rfl, by simp⟩, rfl, by simp, running⟩
  | dataChannel pc =>
    cases h
    exact ⟨rfl, rfl, Mesh.idles_onDataChannel pc, rfl, by simp, running⟩
  | rehash peers =>
    simp only [onEvent] at h
    split at h
    · rename_i hp
      cases h
      refine ⟨rfl, rfl, ⟨rfl, rfl, fun q => ?_, rfl, [], by simp, by simp, by simp⟩, rfl, by simp, running⟩
      exact congrArg (Option.map PeerConn.link) (AList.perm_lookup hp)
    · cases h

end

end Engine

end SquadLink

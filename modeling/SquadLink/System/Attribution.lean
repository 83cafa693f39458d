import SquadLink.System.Completion
import SquadLink.System.Relays

/-! Whom a PeerConnection is connected with. The descriptions and candidates that it is given bear the user id under which
    it is filed, because the server stamps them with the sender's; and they were made for the user that it belongs to. -/

namespace SquadLink

/-- The PeerConnection that a message to a peer is about. -/
def ClientMsg.pc? : ClientMsg → Option PcId
  | .offer _ sdp | .answer _ sdp => some sdp.id.pc
  | .ice _ candidate => some candidate.pc
  | _ => none

/-- The sender stamped on a relayed message, and the PeerConnection that it is about. -/
def ServerMsg.origin? : ServerMsg → Option (String × PcId)
  | .offer sender sdp | .answer sender sdp => some (sender, sdp.id.pc)
  | .ice sender candidate => some (sender, candidate.pc)
  | _ => none

/-- The PeerConnections that the PeerConn has been given descriptions and candidates of. -/
def PeerConn.told (p : PeerConn) : List PcId := p.remotes.map (·.id.pc) ++ (p.added ++ p.pendingIce).map (·.pc)

/-- Whatever the PeerConn has been given is about a known PeerConnection. -/
structure PeerConn.Knows (known : PcId → Prop) (p : PeerConn) : Prop where
  remotes : ∀ sdp ∈ p.remotes, known sdp.id.pc
  added : ∀ cand ∈ p.added, known cand.pc
  pending : ∀ cand ∈ p.pendingIce, known cand.pc

/-- A PeerConn is filed under the user that its PeerConnection was made for, and has been given what is known of that user;
    what goes out is about the mesh's own PeerConnections, and goes to the user that they were made for. -/
structure Mesh.Attributes (known : String → PcId → Prop) (m : Mesh) : Prop where
  own : ∀ q p, m.conn? q = some p → p.pc.owner = m.owner ∧ p.pc.peer = q
  knows : ∀ q p, m.conn? q = some p → p.Knows (known q)
  out : ∀ msg ∈ m.out, ∀ pc ∈ msg.pc?, pc.owner = m.owner ∧ msg.dest = some pc.peer

namespace PeerConn

section
variable {rtc : Webrtc} {known : PcId → Prop} {p : PeerConn}

theorem Knows.addIceCandidate (h : p.Knows known) {cand : Candidate} (hc : known cand.pc) :
    (p.addIceCandidate rtc cand).Knows known := by
  unfold PeerConn.addIceCandidate
  split
  · refine ⟨h.remotes, fun c hm => ?_, h.pending⟩
    rcases List.mem_append.mp hm with hm | hm
    · exact h.added c hm
    · exact List.mem_singleton.mp hm ▸ hc
  · exact h

theorem Knows.foldl (cands : List Candidate) (h : p.Knows known) (hc : ∀ cand ∈ cands, known cand.pc) :
    (cands.foldl (PeerConn.addIceCandidate rtc) p).Knows known := by
  induction cands generalizing p with
  | nil => exact h
  | cons cand cands ih =>
    exact ih (h.addIceCandidate (hc cand List.mem_cons_self)) fun c hm => hc c (List.mem_cons_of_mem _ hm)

theorem Knows.addOrQueueIce (h : p.Knows known) {cand : Candidate} (hc : known cand.pc) :
    (p.addOrQueueIce rtc cand).Knows known := by
  unfold PeerConn.addOrQueueIce
  split
  · exact h.addIceCandidate hc
  · refine ⟨h.remotes, h.added, fun c hm => ?_⟩
    rcases List.mem_append.mp hm with hm | hm
    · exact h.pending c hm
    · exact List.mem_singleton.mp hm ▸ hc

/-- A remote description is set, and the candidates that waited for it are added. -/
theorem Knows.concluded (h : p.Knows known) {sdp : Sdp} (hs : known sdp.id.pc) :
    ((p.setRemote sdp).flushIce rtc).Knows known := by
  refine Knows.foldl (p := { p.setRemote sdp with remoteSet := true, pendingIce := [] }) p.pendingIce
    ⟨fun s hm => ?_, h.added, fun c hm => absurd hm List.not_mem_nil⟩ h.pending
  rcases List.mem_append.mp hm with hm | hm
  · exact h.remotes s hm
  · exact List.mem_singleton.mp hm ▸ hs

theorem Knows.told (h : p.Knows known) {pc : PcId} (hpc : pc ∈ p.told) : known pc := by
  rcases List.mem_append.mp hpc with hpc | hpc
  · obtain ⟨sdp, hm, rfl⟩ := List.mem_map.mp hpc
    exact h.remotes sdp hm
  · obtain ⟨cand, hm, rfl⟩ := List.mem_map.mp hpc
    exact (List.mem_append.mp hm).elim (h.added cand) (h.pending cand)

theorem Knows.mono {known' : PcId → Prop} (h : p.Knows known) (le : ∀ pc, known pc → known' pc) : p.Knows known' :=
  ⟨fun s hm => le _ (h.remotes s hm), fun c hm => le _ (h.added c hm), fun c hm => le _ (h.pending c hm)⟩

end

end PeerConn

namespace Mesh

section
variable {rtc : Webrtc} {w : Outcomes} {known : String → PcId → Prop} {m : Mesh} {peer : String} {p : PeerConn}

theorem Attributes.put (h : m.Attributes known) (own : p.pc.owner = m.owner ∧ p.pc.peer = peer)
    (knows : p.Knows (known peer)) :
    (m.put peer p).Attributes known := by
  have here {q : String} {p' : PeerConn} (hq : (m.put peer p).conn? q = some p') :
      q = peer ∧ p' = p ∨ m.conn? q = some p' := by
    by_cases hne : q = peer
    · subst hne
      rw [put_conn?_self, Option.some.injEq] at hq
      exact .inl ⟨rfl, hq.symm⟩
    · rw [put_conn?_ne _ _ _ hne] at hq
      exact .inr hq
  refine ⟨fun q p' hq => ?_, fun q p' hq => ?_, h.out⟩
  · rcases here hq with ⟨rfl, rfl⟩ | hq
    · exact own
    · exact h.own q p' hq
  · rcases here hq with ⟨rfl, rfl⟩ | hq
    · exact knows
    · exact h.knows q p' hq

/-- A PeerConn changes, but not its PeerConnection. -/
theorem Attributes.change (h : m.Attributes known) (hp : m.conn? peer = some p) (p' : PeerConn) (pc : p'.pc = p.pc)
    (knows : p'.Knows (known peer)) : (m.put peer p').Attributes known :=
  h.put (pc ▸ h.own peer p hp) knows

theorem Attributes.opened (h : m.Attributes known) : (m.opened peer).Attributes known := by
  have fresh : (m.fresh peer).Knows (known peer) :=
    ⟨fun _ hm => absurd hm List.not_mem_nil, fun _ hm => absurd hm List.not_mem_nil, fun _ hm => absurd hm List.not_mem_nil⟩
  have put := h.put (p := m.fresh peer) ⟨rfl, rfl⟩ fresh
  exact ⟨put.own, put.knows, put.out⟩

theorem Attributes.drop (h : m.Attributes known) : (m.drop peer).Attributes known := by
  have kept {q : String} {p' : PeerConn} (hq : (m.drop peer).conn? q = some p') : m.conn? q = some p' := by
    by_cases hne : q = peer
    · subst hne
      rw [drop_conn?_self] at hq
      cases hq
    · rwa [(Touches.drop m peer).conn q hne] at hq
  exact ⟨fun q p' hq => h.own q p' (kept hq), fun q p' hq => h.knows q p' (kept hq), h.out⟩

theorem Attributes.send (h : m.Attributes known) {msg : ClientMsg}
    (hm : ∀ pc ∈ msg.pc?, pc.owner = m.owner ∧ msg.dest = some pc.peer) : (m.send msg).Attributes known := by
  refine ⟨h.own, h.knows, fun msg' hmsg => ?_⟩
  rcases List.mem_append.mp hmsg with hmsg | hmsg
  · exact h.out msg' hmsg
  · exact List.mem_singleton.mp hmsg ▸ hm

theorem attributes_foldl {α : Type} {op : Mesh → α → Mesh}
    (hop : ∀ m x, m.Attributes known → (op m x).Attributes known) (xs : List α)
    (h : m.Attributes known) : (xs.foldl op m).Attributes known := by
  induction xs generalizing m with
  | nil => exact h
  | cons x xs ih => exact ih (hop m x h)

theorem Attributes.ensure (h : m.Attributes known) : (m.ensure w peer).1.Attributes known := by
  rcases m.ensure_cases w peer with ⟨-, he⟩ | ⟨-, he⟩ | ⟨-, he⟩
  · rwa [he]
  · rwa [he]
  · rw [he]
    exact h.opened

theorem Attributes.offer (h : m.Attributes known) : (m.offer rtc w peer).1.Attributes known := by
  unfold Mesh.offer
  split
  · exact h
  · rename_i p hp
    have same {p' : PeerConn} (pc : p'.pc = p.pc) (remotes : p'.remotes = p.remotes) (added : p'.added = p.added)
        (pending : p'.pendingIce = p.pendingIce) : (m.put peer p').Attributes known :=
      h.change hp p' pc ⟨remotes ▸ (h.knows peer p hp).remotes, added ▸ (h.knows peer p hp).added,
        pending ▸ (h.knows peer p hp).pending⟩
    split
    · exact h
    · split
      · exact same rfl rfl rfl rfl
      · split
        · exact same rfl rfl rfl rfl
        · have offering : (m.put peer ({ p with chat := true } : PeerConn).created.setLocalOffer).Attributes known :=
            same rfl rfl rfl rfl
          refine offering.send fun pc hpc => ?_
          obtain rfl : p.pc = pc := Option.some.inj hpc
          obtain ⟨owner, rfl⟩ := h.own peer p hp
          exact ⟨owner, rfl⟩

theorem Attributes.onPeer (h : m.Attributes known) : (m.onPeer rtc w peer).1.Attributes known := by
  simp only [Mesh.onPeer]
  split
  · exact h.ensure
  · split
    · exact h.ensure.offer
    · exact h.ensure

theorem Attributes.dropEstablished (h : m.Attributes known) : (m.dropEstablished peer).Attributes known := by
  unfold Mesh.dropEstablished
  split
  · split
    · exact h.drop
    · exact h
  · exact h

theorem Attributes.onOffer (h : m.Attributes known) {sdp : Sdp} (hs : known peer sdp.id.pc) :
    (m.onOffer rtc w peer sdp).1.Attributes known := by
  have ensured : ((m.dropEstablished peer).ensure w peer).1.Attributes known := h.dropEstablished.ensure
  simp only [Mesh.onOffer]
  split
  · exact ensured
  · split
    · exact ensured
    · rename_i p hp
      have concluded : ((p.setRemote sdp).flushIce rtc).Knows (known peer) := (ensured.knows peer p hp).concluded hs
      have created : ((p.setRemote sdp).flushIce rtc).created.Knows (known peer) :=
        ⟨concluded.remotes, concluded.added, concluded.pending⟩
      have pc : ((p.setRemote sdp).flushIce rtc).pc = p.pc := PeerConn.flushIce_pc rtc _
      have pc' : ((p.setRemote sdp).flushIce rtc).created.pc = p.pc := pc
      split
      · exact ensured
      · split
        · exact ensured
        · split
          · exact ensured.change hp _ pc concluded
          · split
            · exact ensured.change hp _ pc' created
            · refine (ensured.change hp _ pc' created).send fun pc' hpc => ?_
              obtain rfl := Option.some.inj hpc
              obtain ⟨owner, filed⟩ := ensured.own peer p hp
              refine ⟨(congrArg PcId.owner pc).trans owner, congrArg some ?_⟩
              exact ((congrArg PcId.peer pc).trans filed).symm

theorem Attributes.onAnswer (h : m.Attributes known) {sdp : Sdp} (hs : known peer sdp.id.pc) :
    (m.onAnswer rtc w peer sdp).1.Attributes known := by
  unfold Mesh.onAnswer
  split
  · exact h
  · rename_i p hp
    split
    · exact h
    · split
      · exact h
      · exact h.change hp _ (PeerConn.flushIce_pc rtc _) ((h.knows peer p hp).concluded hs)

theorem Attributes.onIce (h : m.Attributes known) {cand : Candidate} (hc : known peer cand.pc) :
    (m.onIce rtc peer cand).Attributes known := by
  unfold Mesh.onIce
  split
  · exact h
  · rename_i p hp
    refine h.change hp _ ?_ ((h.knows peer p hp).addOrQueueIce hc)
    obtain ⟨added, pendingIce, heq⟩ := p.addOrQueueIce_eq rtc cand
    rw [heq]

theorem Attributes.onDataChannel (h : m.Attributes known) (pc : PcId) : (m.onDataChannel pc).Attributes known := by
  unfold Mesh.onDataChannel
  split
  · rename_i p hp
    split
    · have knows := h.knows pc.peer p hp
      exact h.change hp { p with chat := true } rfl ⟨knows.remotes, knows.added, knows.pending⟩
    · exact h
  · exact h

theorem Attributes.rekey (h : m.Attributes known) : (m.rekey rtc w).1.Attributes known := by
  obtain ⟨n, heq⟩ := rekeyLoop_eq rtc w m.peers.keys m
  rw [Mesh.rekey, heq]
  refine attributes_foldl (fun m id hm => ?_) _ h
  unfold rekeyOne
  split
  · exact hm.drop.onPeer
  · exact hm

/-- Handling a message that is about what is known of its sender. -/
theorem Attributes.react (h : m.Attributes known) {relayEnabled : Bool} {msg : ServerMsg}
    (hm : ∀ q pc, msg.origin? = some (q, pc) → known q pc) : (m.react rtc w relayEnabled msg).Attributes known := by
  cases msg with
  | roster peers => exact attributes_foldl (fun _ _ hm => hm.onPeer) peers h
  | peerJoined userId name => exact h.onPeer
  | peerLeft userId => exact h.drop
  | offer sender sdp => exact h.onOffer (hm _ _ rfl)
  | answer sender sdp => exact h.onAnswer (hm _ _ rfl)
  | ice sender candidate => exact h.onIce (hm _ _ rfl)
  | rekey by' => exact h.rekey
  | turn creds =>
    simp only [Mesh.react]
    split
    · exact ⟨h.own, h.knows, h.out⟩
    · exact h
  | _ => exact h

theorem Attributes.mono {known' : String → PcId → Prop} (h : m.Attributes known) (le : ∀ q pc, known q pc → known' q pc) :
    m.Attributes known' :=
  ⟨h.own, fun q p hp => (h.knows q p hp).mono (le q), h.out⟩

end

end Mesh

theorem Engine.attributes_onEvent {known : String → PcId → Prop} {e e' : Engine} {ev : LocalEvent} {msgs : List ClientMsg}
    (h : e.mesh.Attributes known) (own : ∀ pc text, ev = .candidate pc text → pc.owner = e.mesh.owner)
    (hev : e.onEvent ev = some (e', msgs)) : e'.mesh.Attributes known := by
  cases ev with
  | reconnectFailed err =>
    obtain ⟨-, hev⟩ := Option.ite_none_right_eq_some.mp hev
    cases hev
    exact h
  | command cmd =>
    obtain rfl : (e.command cmd).1 = e' := congrArg Prod.fst (Option.some.inj hev)
    rwa [command_mesh]
  | quit => cases hev; exact h
  | mesh ev => cases hev; rwa [meshEvent_mesh]
  | candidate pc text =>
    cases hev
    refine h.send fun pc' hpc => ?_
    obtain rfl : pc = pc' := Option.some.inj hpc
    exact ⟨own pc text rfl, rfl⟩
  | dataChannel pc => cases hev; exact h.onDataChannel pc
  | rehash peers =>
    obtain ⟨hperm, hev⟩ := Option.ite_none_right_eq_some.mp hev
    cases hev
    have same (q : String) : ({ e.mesh with peers } : Mesh).conn? q = e.mesh.conn? q := AList.perm_lookup hperm
    exact ⟨fun q p hp => h.own q p (same q ▸ hp), fun q p hp => h.knows q p (same q ▸ hp), h.out⟩

/-- What a frame is answered with about a PeerConnection is a message of the socket's user to the one it was for, in the
    room of both. -/
theorem Server.origin_of_frameSends {cfg : ServerConfig} {st : Server} {s dest : SocketId}
    {me : Option (String × String)} {f : Frame}
    {msg : ServerMsg} {q : String} {pc : PcId} (hm : (dest, msg) ∈ frameSends cfg st s me f)
    (origin : msg.origin? = some (q, pc)) :
    ∃ m room userId h, f = .text m ∧ m.pc? = some pc ∧ m.dest = some userId ∧ me = some (room, q) ∧
      st.handle? room userId = some h ∧ h.tx = dest := by
  have relayed {userId : String} {build : String → ServerMsg} {pc' : PcId} (hb : ∀ x, (build x).origin? = some (x, pc'))
      (hm : (dest, msg) ∈ relaySends st me userId build) :
      pc' = pc ∧ ∃ room h, me = some (room, q) ∧ st.handle? room userId = some h ∧ h.tx = dest := by
    cases me with
    | none => cases hm
    | some p =>
      obtain ⟨h, hh, heq⟩ := Option.map_eq_some_iff.mp (Option.mem_toList.mp hm)
      obtain ⟨rfl, rfl⟩ := Prod.mk.inj heq
      rw [hb, Option.some.injEq, Prod.mk.injEq] at origin
      obtain ⟨rfl, rfl⟩ := origin
      exact ⟨rfl, p.1, h, rfl, hh, rfl⟩
  -- What is broadcast is about no PeerConnection.
  have broadcast {r : Room} {g : String → Option ServerMsg} (hg : ∀ id x, g id = some x → x.origin? = none) :
      (dest, msg) ∉ Fifo.broadcast PeerHandle.tx g r := fun hm => by
    obtain ⟨id, -, -, -, hx⟩ := Fifo.mem_broadcast.mp hm
    rw [hg id msg hx] at origin
    cases origin
  have cleaned : (dest, msg) ∉ cleanupSends st me := by
    cases me with
    | none => exact List.not_mem_nil
    | some p =>
      refine broadcast (g := fun _ => some (.peerLeft p.2)) fun _ _ hx => ?_
      cases hx
      rfl
  have refused {code message : String} : (dest, msg) ∉ [(s, ServerMsg.error code message)] := fun hm => by
    cases List.mem_singleton.mp hm
    cases origin
  cases f with
  | badText err => exact absurd hm refused
  | close => exact absurd hm cleaned
  | other => cases hm
  | text m =>
    cases m with
    | offer userId sdp | answer userId sdp | ice userId candidate =>
      simp only [frameSends] at hm
      split at hm
      · cases hm
      · obtain ⟨rfl, room, h, hme, hh, hdest⟩ := relayed (fun _ => rfl) hm
        exact ⟨_, room, userId, h, rfl, rfl, rfl, hme, hh, hdest⟩
    | join room userId name token =>
      simp only [frameSends, joinReply] at hm
      split at hm
      · exact absurd hm refused
      · split at hm
        · exact absurd hm refused
        · split at hm
          · exact absurd hm refused
          · split at hm
            · cases List.mem_singleton.mp hm
              cases origin
            · simp only [joinSends, List.mem_append] at hm
              rcases hm with (hm | hm) | hm
              · obtain ⟨_, -, heq⟩ := Option.map_eq_some_iff.mp (Option.mem_toList.mp hm)
                cases heq
                cases origin
              · refine absurd hm (broadcast fun _ _ hx => ?_)
                split at hx
                · cases hx; rfl
                · cases hx
              · split at hm
                · exact absurd hm (broadcast fun _ _ hx => by cases hx; rfl)
                · cases hm
    | ptt active =>
      cases me with
      | none => cases hm
      | some p =>
        simp only [frameSends, toRoomSends] at hm
        refine absurd hm (broadcast fun _ _ hx => ?_)
        split at hx
        · cases hx; rfl
        · cases hx
    | rekey =>
      cases me with
      | none => cases hm
      | some p =>
        simp only [frameSends, toRoomSends] at hm
        exact absurd hm (broadcast fun _ _ hx => by cases hx; rfl)
    | leave => exact absurd hm cleaned

namespace Sys

/-- The client has been let into its room: its token is the room's. -/
def Entitled (cfg : SysConfig) (ecfg : EngineConfig) : Prop :=
  cfg.server.auth.check cfg.server.prim ecfg.room ecfg.token = true

/-- The PeerConnection was made for the user of `ecfg` by a client of user `q` in the same room, and both have been
    let in. -/
structure MadeFor (cfg : SysConfig) (σ : Sys) (ecfg : EngineConfig) (q : String) (pc : PcId) : Prop where
  maker : ∃ f, σ.engines pc.owner = some f ∧ f.cfg.userId = q ∧ f.cfg.room = ecfg.room ∧ Entitled cfg f.cfg
  user : pc.peer = ecfg.userId
  entitled : Entitled cfg ecfg

/-- A candidate is reported by a PeerConnection of the client that the callback belongs to. -/
def Reports (_ : Sys) : Act → Prop
  | .event c (.candidate pc _) => pc.owner = c
  | _ => True

instance (σ : Sys) (a : Act) : Decidable (Reports σ a) := by
  unfold Reports
  split <;> infer_instance

/-- A client joins with its own Join only, and who has joined has been let in. -/
structure Enrolled (cfg : SysConfig) (σ : Sys) : Prop where
  joins : ∀ s, ∀ msg ∈ σ.wire s, msg.opens = true → ∃ ecfg, σ.cfgOf s = some ecfg ∧ msg = Engine.joinMsg ecfg
  admitted : ∀ s p, σ.server.ident s = some p → ∃ ecfg, σ.cfgOf s = some ecfg ∧ Entitled cfg ecfg

/-- Whom the messages on their way and the PeerConns are attributed to. -/
structure Attributed (cfg : SysConfig) (σ : Sys) : Prop where
  meshes : ∀ c e, σ.engines c = some e → e.mesh.Attributes (MadeFor cfg σ e.cfg)
  wires : ∀ s, ∀ msg ∈ σ.wire s, ∀ pc ∈ msg.pc?, pc.owner = σ.owner s ∧ msg.dest = some pc.peer
  told : ∀ s msg, σ.Told s msg → ∀ q pc, msg.origin? = some (q, pc) → ∃ ecfg, σ.cfgOf s = some ecfg ∧
    MadeFor cfg σ ecfg q pc

section
variable {cfg : SysConfig} {σ σ' : Sys} {a : Act}

theorem MadeFor.kept {ecfg : EngineConfig} {q : String} {pc : PcId} (h : MadeFor cfg σ ecfg q pc) (kept : Kept σ σ') :
    MadeFor cfg σ' ecfg q pc := by
  obtain ⟨f, hf, maker⟩ := h.maker
  obtain ⟨f', hf', hcfg⟩ := kept.engine _ f hf
  exact ⟨⟨f', hf', hcfg ▸ maker⟩, h.user, h.entitled⟩

/-- What is on a wire after a step was there before, or is the Join of the client that has dialed, or what the client on the
    socket has to say. -/
theorem wire_source (wf : WF cfg σ) (hs : step cfg σ a = some σ') {s : SocketId} {msg : ClientMsg} (hm : msg ∈ σ'.wire s) :
    msg ∈ σ.wire s ∨ (∃ ecfg, σ'.cfgOf s = some ecfg ∧ msg = Engine.joinMsg ecfg) ∨
      ∃ e, σ.engines (σ.owner s) = some e ∧ e.cur = some s ∧ (msg ∈ e.mesh.out ∨ msg.pc? = none ∧ msg.opens = false) := by
  have sent {cur : Option SocketId} {msgs : List ClientMsg} (hm : msg ∈ (σ.transmit cur msgs).wire s) :
      msg ∈ σ.wire s ∨ cur = some s ∧ msg ∈ msgs := by
    rw [transmit_wire] at hm
    split at hm
    · exact (List.mem_append.mp hm).imp_right fun hm => ⟨‹_›, hm⟩
    · exact .inl hm
  have dialed {ecfg : EngineConfig} (hw : σ'.wire = Function.update σ.wire σ.server.nextSocket [Engine.joinMsg ecfg])
      (hc : σ'.cfgOf σ.server.nextSocket = some ecfg) :
      msg ∈ σ.wire s ∨ ∃ ecfg, σ'.cfgOf s = some ecfg ∧ msg = Engine.joinMsg ecfg := by
    rw [hw] at hm
    by_cases hst : s = σ.server.nextSocket
    · subst hst
      rw [Function.update_self, List.mem_singleton] at hm
      exact .inr ⟨ecfg, hc, hm⟩
    · rw [Function.update_of_ne hst] at hm
      exact .inl hm
  cases a with
  | recv t =>
    obtain ⟨m, rest, srv, hw, -, rfl⟩ := step_recv_inv hs
    refine .inl ?_
    by_cases hst : s = t
    · subst hst
      simp only [Function.update_self] at hm
      exact hw ▸ List.mem_cons_of_mem _ hm
    · simp only [Function.update_of_ne hst] at hm
      exact hm
  | write t =>
    obtain ⟨k, m, rest, srv, -, -, -, rfl⟩ := step_write_inv hs
    exact .inl hm
  | server b =>
    obtain ⟨-, srv, -, rfl⟩ := step_server_inv hs
    exact .inl hm
  | start ecfg =>
    obtain ⟨srv, -, rfl⟩ := step_start_inv hs
    exact (dialed rfl (by simp [cfgOf, started, Sys.dialed, Engine.start])).imp_right .inl
  | handle c w =>
    obtain ⟨e, t, m, rest, -, -, -, -, rfl⟩ := step_handle_inv hs
    exact .inl hm
  | lost c =>
    obtain ⟨e, t, -, -, -, -, rfl⟩ := step_lost_inv hs
    exact .inl hm
  | uplink c =>
    obtain ⟨e, m, rest, he, -, hout, rfl⟩ := step_uplink_inv hs
    rcases sent hm with old | ⟨hcur, hm⟩
    · exact .inl old
    · refine .inr (.inr ⟨e, ?_, hcur, .inl ?_⟩)
      · rw [(wf.cur c e s he hcur).2]
        exact he
      · rw [List.mem_singleton.mp hm, hout]
        exact List.mem_cons_self
  | reconnect c =>
    obtain ⟨e, srv, -, -, -, -, rfl⟩ := step_reconnect_inv hs
    exact (dialed rfl (by simp [cfgOf, Sys.dialed, Engine.reconnected])).imp_right .inl
  | event c ev =>
    obtain ⟨e, e', msgs, he, -, hev, rfl⟩ := step_event_inv hs
    rcases sent hm with old | ⟨hcur, hm⟩
    · exact .inl old
    · refine .inr (.inr ⟨e, ?_, hcur, .inr ?_⟩)
      · rw [(wf.cur c e s he hcur).2]
        exact he
      · rcases (Engine.onEvent_spec hev).2.2.2.2.1 msg hm with ⟨on, rfl⟩ | ⟨rfl, -⟩
        · exact ⟨rfl, rfl⟩
        · exact ⟨rfl, rfl⟩

/-- The Join that the server accepts is that of the client behind the socket. -/
theorem Enrolled.read (enr : Enrolled cfg σ) (hs : step cfg σ a = some σ') {b : SAct}
    (hb : σ.serverAct a = some b) {s : SocketId}
    {room userId name : String} {token : Option String} (act : b = .frame s (.text (.join room userId name token))) :
    .join room userId name token ∈ σ.wire s ∧ ∃ ecfg, σ.cfgOf s = some ecfg ∧
    .join room userId name token = Engine.joinMsg ecfg := by
  have read : .join room userId name token ∈ σ.wire s := by
    cases a with
    | recv t =>
      obtain ⟨m, hw, heq⟩ := Option.map_eq_some_iff.mp hb
      rw [act] at heq
      cases heq
      exact List.mem_of_mem_head? hw
    | server b =>
      cases Option.some.inj hb
      obtain ⟨hi, -⟩ := step_server_inv hs
      rw [act] at hi
      cases hi
    | _ => cases hb <;> cases act
  exact ⟨read, enr.joins s _ read rfl⟩

theorem enrolled_step (wf : WF cfg σ) (enr : Enrolled cfg σ) (hs : step cfg σ a = some σ') : Enrolled cfg σ' := by
  have kept := step_kept wf hs
  refine ⟨fun s msg hm opens => ?_, fun s p ident => ?_⟩
  · rcases wire_source wf hs hm with old | join | ⟨e, he, -, out | ⟨-, other⟩⟩
    · obtain ⟨ecfg, hc, rfl⟩ := enr.joins s msg old opens
      exact ⟨ecfg, kept.cfgOf (wf.unopened_of_mem old) hc, rfl⟩
    · exact join
    · have aimed := wf.out _ e msg he out
      cases msg <;> first | (cases opens; done) | cases aimed
    · rw [other] at opens
      cases opens
  · have old (h : σ.server.ident s = some p) : ∃ ecfg, σ'.cfgOf s = some ecfg ∧ Entitled cfg ecfg := by
      obtain ⟨ecfg, hc, entitled⟩ := enr.admitted s p h
      exact ⟨ecfg, kept.cfgOf (wf.opened_of_ident h) hc, entitled⟩
    rcases step_server hs with ⟨-, heq⟩ | ⟨b, hb, hstep⟩
    · exact old (heq ▸ ident)
    · obtain ⟨evs, -, change⟩ := Server.step_change (wf.server.fresh _ (Nat.le_refl _)) hstep
      cases change with
      | same handles idents placed => exact old (idents s ▸ ident)
      | admitted t room userId name token rest act admits events handles idents placed =>
        rw [idents] at ident
        split at ident
        · rename_i hst
          subst hst
          obtain ⟨read, ecfg, hc, hj⟩ := enr.read hs hb act
          cases hj
          exact ⟨ecfg, kept.cfgOf (wf.unopened_of_mem read) hc, admits.2.2.1⟩
        · exact old ident
      | left t room userId identity act handles idents ended placed =>
        rw [idents] at ident
        split at ident
        · cases ident
        · exact old ident
      | restarted act handles ended events => exact absurd (Server.isOpen_of_ident ident) (ended s)

theorem enrolled_reach {ok : Sys → Act → Sys → Prop} (h : Lts.Reach (step cfg) ok empty σ) : Enrolled cfg σ :=
  h.invariant_over (fun _ hr => wf_reach hr) ⟨fun _ _ hm => (by cases hm), fun _ _ h => by cases h⟩
    fun _ _ _ wf _ enr _ hs => enrolled_step wf enr hs

theorem WF.opened_of_told (wf : WF cfg σ) {s : SocketId} {msg : ServerMsg} (told : σ.Told s msg) :
    s < σ.server.nextSocket := by
  by_contra hge
  rcases told with hin | ⟨k, hk, -⟩
  · rw [(wf.unopened s (Nat.le_of_not_lt hge)).2] at hin
    cases hin
  · rw [wf.server.fresh s (Nat.le_of_not_lt hge)] at hk
    cases hk

theorem attributed_wires (wf : WF cfg σ) (attr : Attributed cfg σ) (hs : step cfg σ a = some σ') :
    ∀ s, ∀ msg ∈ σ'.wire s, ∀ pc ∈ msg.pc?, pc.owner = σ'.owner s ∧ msg.dest = some pc.peer := by
  have kept := step_kept wf hs
  intro s msg hm pc hpc
  rcases wire_source wf hs hm with old | ⟨ecfg, -, rfl⟩ | ⟨e, he, hcur, out | ⟨none, -⟩⟩
  · rw [kept.owner s (wf.unopened_of_mem old)]
    exact attr.wires s msg old pc hpc
  · cases hpc
  · obtain ⟨opened, howner⟩ := wf.cur _ e s he hcur
    obtain ⟨owner, dest⟩ := (attr.meshes _ e he).out msg out pc hpc
    rw [kept.owner s opened]
    exact ⟨owner.trans (wf.mesh _ e he).1, dest⟩
  · rw [none] at hpc
    cases hpc

theorem attributed_told (wf : WF cfg σ) (enr : Enrolled cfg σ) (attr : Attributed cfg σ) (hs : step cfg σ a = some σ') :
    ∀ s msg, σ'.Told s msg →
    ∀ q pc, msg.origin? = some (q, pc) → ∃ ecfg, σ'.cfgOf s = some ecfg ∧ MadeFor cfg σ' ecfg q pc := by
  have kept := step_kept wf hs
  intro s msg told q pc origin
  rcases told_source hs told with old | sent | ⟨now, room, userId, roster, -, -, hm⟩
  · obtain ⟨ecfg, hc, made⟩ := attr.told s msg old q pc origin
    exact ⟨ecfg, kept.cfgOf (wf.opened_of_told old) hc, made.kept kept⟩
  · -- The server relays what it has read from the sender's socket.
    cases a with
    | recv t =>
      simp only [sends] at sent
      split at sent
      · rename_i msg' rest c hw hc
        obtain ⟨m, room, userId, h, hf, hpc, hdest, hme, hh, rfl⟩ := Server.origin_of_frameSends sent origin
        cases hf
        obtain ⟨_, _, srv, hw', hstep, rfl⟩ := step_recv_inv hs
        cases hw.symm.trans hw'
        obtain ⟨c', hc', hr, -⟩ := Server.step_frame_inv hstep
        cases hc.symm.trans hc'
        have ident : σ.server.ident t = some (room, q) := (Server.ident_of_reading hc hr).trans hme
        obtain ⟨owner, dest⟩ := attr.wires t msg' (hw ▸ List.mem_cons_self) pc hpc
        -- The sender and the receiver are the clients of the two sockets.
        obtain ⟨fcfg, hf, hroom, hq⟩ := wf.ident t room q ident
        obtain ⟨fcfg', hf', entitled⟩ := enr.admitted t _ ident
        cases hf.symm.trans hf'
        have listed : σ.server.ident h.tx = some (room, userId) := wf.server.listed _ _ _ hh
        obtain ⟨ecfg, he, hroom', huser⟩ := wf.ident h.tx room userId listed
        obtain ⟨ecfg', he', entitled'⟩ := enr.admitted h.tx _ listed
        cases he.symm.trans he'
        obtain ⟨f, hf, hcfg⟩ := Option.map_eq_some_iff.mp hf
        refine ⟨ecfg, he, ⟨f, ?_, by rw [hcfg, hq], by rw [hcfg, hroom, hroom'], by rw [hcfg]; exact entitled⟩,
          ?_, entitled'⟩
        · rw [owner]
          exact hf
        · rw [hdest, Option.some.injEq] at dest
          rw [← dest, huser]
      · cases sent
    | server b =>
      cases b with
      | close t =>
        simp only [sends] at sent
        split at sent
        · obtain ⟨m, room, userId, h, hf, -⟩ := @Server.origin_of_frameSends cfg.server _ t _ _ .close _ _ _ sent origin
          cases hf
        · cases sent
      | _ => cases sent
    | _ => cases sent
  · rcases List.mem_cons.mp hm with rfl | hm
    · cases origin
    · obtain ⟨t, -, rfl⟩ := Option.map_eq_some_iff.mp (Option.mem_toList.mp hm)
      cases origin

theorem attributed_meshes (wf : WF cfg σ) (attr : Attributed cfg σ) (own : Reports σ a) (hs : step cfg σ a = some σ') :
    ∀ c e, σ'.engines c = some e → e.mesh.Attributes (MadeFor cfg σ' e.cfg) := by
  have kept := step_kept wf hs
  intro c e' he'
  rcases engines_step hs he' with ⟨e, he⟩ | ⟨ecfg, srv, -, -, -, rfl⟩
  · obtain ⟨e₁, msgs, he₁, turn, -⟩ := engine_step wf hs he
    cases he'.symm.trans he₁
    have meshes : e.mesh.Attributes (MadeFor cfg σ' e.cfg) := (attr.meshes c e he).mono fun _ _ made => made.kept kept
    cases turn with
    | idle => exact meshes
    | handle w s msg act cur inbox =>
      rw [Engine.handle_cfg, Engine.handle_mesh]
      refine meshes.react fun q pc origin => ?_
      obtain ⟨ecfg, hc, made⟩ := attr.told s msg (.inl (by rw [inbox]; exact List.mem_cons_self)) q pc origin
      rw [cfgOf, (wf.cur c e s he cur).2, he, Option.map_some, Option.some.injEq] at hc
      exact hc ▸ made.kept kept
    | lost act => exact meshes
    | uplink msg rest act out =>
      exact ⟨meshes.own, meshes.knows, fun m hm => meshes.out m (by rw [out]; exact List.mem_cons_of_mem _ hm)⟩
    | reconnect act off => exact meshes
    | event ev act round =>
      rw [(Engine.onEvent_spec round).1]
      refine Engine.attributes_onEvent meshes (fun pc text hev => ?_) round
      rw [act, hev] at own
      exact Eq.trans own (wf.mesh c e he).1.symm
  · refine ⟨fun q p hp => ?_, fun q p hp => ?_, fun msg hm => absurd hm List.not_mem_nil⟩
    · cases hp
    · cases hp

theorem attributed_step (wf : WF cfg σ) (enr : Enrolled cfg σ) (attr : Attributed cfg σ) (own : Reports σ a)
    (hs : step cfg σ a = some σ') : Attributed cfg σ' :=
  ⟨attributed_meshes wf attr own hs, attributed_wires wf attr hs, attributed_told wf enr attr hs⟩

theorem attributed_empty : Attributed cfg empty where
  meshes _ _ he := by cases he
  wires _ _ hm := by cases hm
  told _ _ told := by rcases told with hin | ⟨k, hk, -⟩ <;> trivial

theorem attributed_reach (h : Lts.Reach (step cfg) (fun σ a _ => Reports σ a) empty σ) : Attributed cfg σ :=
  h.invariant_over (fun _ hr => And.intro (wf_reach hr) (enrolled_reach hr)) attributed_empty
    fun _ _ _ known _ attr own hs => attributed_step known.1 known.2 attr own hs

/-- A PeerConnection is only told of PeerConnections that were made for its own user, by clients of the user that it is
    filed under, in the same room and with its token. -/
theorem media_attributed (h : Lts.Reach (step cfg) (fun σ a _ => Reports σ a) empty σ) {c : ClientId}
    {e : Engine} {q : String} {p : PeerConn} (he : σ.engines c = some e) (hp : e.mesh.conn? q = some p) :
    p.pc.owner = c ∧ p.pc.peer = q ∧ ∀ pc ∈ p.told, MadeFor cfg σ e.cfg q pc := by
  have meshes := (attributed_reach h).meshes c e he
  obtain ⟨owner, filed⟩ := meshes.own q p hp
  exact ⟨owner.trans ((wf_reach h).mesh c e he).1, filed, fun pc hpc => (meshes.knows q p hp).told hpc⟩

end

/-- Two clients have connected, and one of them has heard of a candidate. -/
def trickledActs : List Act :=
  connectActs ++ [.event 1 (.candidate { owner := 1, peer := "alice", serial := 0 } "candidate")] ++
  sendActs 1 1 ++ getActs 0 0 1

def trickled : Sys := (Lts.exec (step sampleConfig) empty trickledActs).getD empty

theorem media_attributed_alice : ∃ e p, trickled.engines 0 = some e ∧ e.mesh.conn? "bob" = some p ∧
    p.told = [{ owner := 1, peer := "alice", serial := 0 }, { owner := 1, peer := "alice", serial := 0 }] ∧
    p.pc.owner = 0 ∧ p.pc.peer = "bob" ∧ ∀ pc ∈ p.told, MadeFor sampleConfig trickled e.cfg "bob" pc :=
  ⟨_, _, rfl, rfl, rfl, @media_attributed sampleConfig trickled
    (Lts.Reach.of_execOk (fun _ _ _ => of_decide_eq_true)
      (show Lts.execOk (step sampleConfig) (fun σ a _ => decide (Reports σ a)) empty trickledActs = some trickled from rfl))
    0 _ "bob" _ rfl rfl⟩

end Sys

end SquadLink

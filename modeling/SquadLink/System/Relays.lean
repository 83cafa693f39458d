import SquadLink.Client.Edits
import SquadLink.System.Online
import SquadLink.System.Participants

/-! Which ICE servers a client uses. TURN credentials travel from the server to the user that they were minted for, and
    a PeerConnection is configured with what its client has at that time. -/

namespace SquadLink

def stunServer : IceServer := { urls := ["stun:stun.l.google.com:19302"] }

/-- The entry that `add_turn` makes. -/
def IceServer.ofTurn (creds : TurnCreds) : IceServer :=
  { urls := creds.urls, username := creds.username, credential := creds.credential }

namespace Mesh

/-- From `m` to `m'` no ICE server is added, and a PeerConn keeps its configuration or has got the one of now. -/
structure Equips (m m' : Mesh) : Prop where
  servers : m'.iceServers = m.iceServers
  conns : ∀ q p', m'.conn? q = some p' → p'.config = m.iceServers ∨ ∃ p, m.conn? q = some p ∧ p'.config = p.config

section
variable {rtc : Webrtc} {w : Outcomes} {m m' m'' : Mesh} {peer : String} {p p' : PeerConn}

theorem Equips.refl (m : Mesh) : Equips m m := ⟨rfl, fun _ p' h => .inr ⟨p', h, rfl⟩⟩

theorem Equips.trans (h : Equips m m') (h' : Equips m' m'') : Equips m m'' := by
  refine ⟨h'.servers.trans h.servers, fun q p'' hp => ?_⟩
  rcases h'.conns q p'' hp with hnow | ⟨p', hp', heq⟩
  · exact .inl (hnow.trans h.servers)
  · rw [heq]
    exact h.conns q p' hp'

theorem equips_foldl {α : Type} {op : Mesh → α → Mesh} (hop : ∀ m x, Equips m (op m x)) (xs : List α) (m : Mesh) :
    Equips m (xs.foldl op m) := by
  induction xs generalizing m with
  | nil => exact .refl m
  | cons x xs ih => exact (hop m x).trans (ih (op m x))

theorem equips_put (hp : m.conn? peer = some p) (hc : p'.config = p.config) : Equips m (m.put peer p') := by
  refine ⟨rfl, fun q p'' hq => .inr ?_⟩
  by_cases h : q = peer
  · subst h
    rw [put, conn?, AList.lookup_insert, Option.some.injEq] at hq
    exact ⟨p, hp, hq ▸ hc⟩
  · rw [put, conn?, AList.lookup_insert_ne h] at hq
    exact ⟨p'', hq, rfl⟩

theorem equips_opened : Equips m (m.opened peer) := by
  refine ⟨rfl, fun q p' hq => ?_⟩
  by_cases h : q = peer
  · subst h
    rw [opened, put, conn?, AList.lookup_insert, Option.some.injEq] at hq
    exact .inl (hq ▸ rfl)
  · rw [opened, put, conn?, AList.lookup_insert_ne h] at hq
    exact .inr ⟨p', hq, rfl⟩

theorem equips_drop : Equips m (m.drop peer) := by
  refine ⟨rfl, fun q p' hq => .inr ⟨p', ?_, rfl⟩⟩
  by_cases h : q = peer
  · subst h
    rw [drop, conn?, AList.lookup_erase] at hq
    cases hq
  · rwa [drop, conn?, AList.lookup_erase_ne h] at hq

theorem equips_send (msg : ClientMsg) : Equips m (m.send msg) := ⟨rfl, fun _ p' h => .inr ⟨p', h, rfl⟩⟩

theorem equips_put_send (hp : m.conn? peer = some p) (hc : p'.config = p.config) (msg : ClientMsg) :
    Equips m ((m.put peer p').send msg) :=
  (equips_put hp hc).trans (equips_send msg)

theorem equips_ensure : Equips m (m.ensure w peer).1 := by
  rcases m.ensure_cases w peer with ⟨-, h⟩ | ⟨-, h⟩ | ⟨-, h⟩
  · rw [h]
    exact .refl m
  · rw [h]
    exact .refl m
  · rw [h]
    exact equips_opened

theorem equips_offer : Equips m (m.offer rtc w peer).1 := by
  unfold offer
  split
  · exact .refl m
  · rename_i p hp
    split
    · exact .refl m
    · split
      · exact equips_put hp rfl
      · split
        · exact equips_put hp rfl
        · exact equips_put_send hp (by rfl) _

theorem equips_onPeer : Equips m (m.onPeer rtc w peer).1 := by
  simp only [onPeer]
  split
  · exact equips_ensure
  · split
    · exact equips_ensure.trans equips_offer
    · exact equips_ensure

theorem equips_dropEstablished : Equips m (m.dropEstablished peer) := by
  unfold dropEstablished
  split
  · split
    · exact equips_drop
    · exact .refl m
  · exact .refl m

/-- A remote description and what has waited for it leave the configuration as it is. -/
theorem config_negotiated (sdp : Sdp) : ((p.setRemote sdp).flushIce rtc).config = p.config := by
  obtain ⟨added, h⟩ := (p.setRemote sdp).flushIce_eq rtc
  rw [h]
  rfl

theorem equips_onOffer (sdp : Sdp) : Equips m (m.onOffer rtc w peer sdp).1 := by
  have ensured : Equips m ((m.dropEstablished peer).ensure w peer).1 := equips_dropEstablished.trans equips_ensure
  simp only [onOffer]
  split
  · exact ensured
  · split
    · exact ensured
    · rename_i p hp
      split
      · exact ensured
      · split
        · exact ensured
        · split
          · exact ensured.trans (equips_put hp (config_negotiated sdp))
          · split
            · exact ensured.trans (equips_put hp (config_negotiated sdp))
            · exact ensured.trans (equips_put_send hp (by exact config_negotiated sdp) _)

theorem equips_onAnswer (sdp : Sdp) : Equips m (m.onAnswer rtc w peer sdp).1 := by
  unfold onAnswer
  split
  · exact .refl m
  · rename_i p hp
    split
    · exact .refl m
    · split
      · exact .refl m
      · exact equips_put hp (config_negotiated sdp)

theorem equips_onIce (cand : Candidate) : Equips m (m.onIce rtc peer cand) := by
  unfold onIce
  split
  · exact .refl m
  · rename_i p hp
    obtain ⟨added, pendingIce, h⟩ := p.addOrQueueIce_eq rtc cand
    exact equips_put hp (by rw [h])

theorem equips_onDataChannel (pc : PcId) : Equips m (m.onDataChannel pc) := by
  unfold onDataChannel
  split
  · rename_i p hp
    split
    · exact equips_put hp rfl
    · exact .refl m
  · exact .refl m

theorem equips_rekey : Equips m (m.rekey rtc w).1 := by
  obtain ⟨n, h⟩ := rekeyLoop_eq rtc w m.peers.keys m
  rw [rekey, h]
  refine equips_foldl (fun m id => ?_) _ m
  unfold rekeyOne
  split
  · exact equips_drop.trans equips_onPeer
  · exact .refl m

/-- Only TURN credentials add an ICE server, and only where relays are enabled. -/
theorem equips_react {relayEnabled : Bool} {msg : ServerMsg} (h : ∀ creds, msg = .turn creds → relayEnabled = false) :
    Equips m (m.react rtc w relayEnabled msg) := by
  cases msg with
  | roster peers => exact equips_foldl (fun _ _ => equips_onPeer) peers m
  | peerJoined userId name => exact equips_onPeer
  | peerLeft userId => exact equips_drop
  | offer sender sdp => exact equips_onOffer sdp
  | answer sender sdp => exact equips_onAnswer sdp
  | ice sender candidate => exact equips_onIce candidate
  | rekey by' => exact equips_rekey
  | turn creds =>
    simp only [react, h creds rfl, Bool.false_eq_true, ↓reduceIte]
    exact .refl m
  | _ => exact .refl m

end

end Mesh

theorem Engine.equips_onEvent {e e' : Engine} {ev : LocalEvent} {msgs : List ClientMsg}
    (h : e.onEvent ev = some (e', msgs)) :
    e.mesh.Equips e'.mesh := by
  cases ev with
  | reconnectFailed err =>
    obtain ⟨-, h⟩ := Option.ite_none_right_eq_some.mp h
    cases h
    exact .refl _
  | command cmd =>
    obtain rfl : (e.command cmd).1 = e' := congrArg Prod.fst (Option.some.inj h)
    rw [command_mesh]
    exact .refl _
  | quit => cases h; exact .refl _
  | mesh ev => cases h; rw [meshEvent_mesh]; exact .refl _
  | candidate pc text => cases h; exact Mesh.equips_send _
  | dataChannel pc => cases h; exact Mesh.equips_onDataChannel pc
  | rehash peers =>
    obtain ⟨hperm, h⟩ := Option.ite_none_right_eq_some.mp h
    cases h
    refine ⟨rfl, fun q p' hq => .inr ⟨p', ?_, rfl⟩⟩
    rwa [Mesh.conn?, AList.perm_lookup hperm] at hq

namespace Server

section
variable {cfg : ServerConfig} {st : Server} {s : SocketId} {me : Option (String × String)} {f : Frame}

/-- What handling a frame can send. -/
inductive Answer (st : Server) (s : SocketId) : ServerMsg → Prop
  | error (code message : String) : Answer st s (.error code message)
  | roomFull : Answer st s (.roomFull hardCap)
  | peerJoined (userId name : String) : Answer st s (.peerJoined userId name)
  | peerLeft (userId : String) : Answer st s (.peerLeft userId)
  | warn (room userId name : String) :
      Answer st s (.warn (((st.roomOf room).erase userId).insert userId { name, tx := s }).keys.length warnCap)
  | offer (sender : String) (sdp : Sdp) : Answer st s (.offer sender sdp)
  | answer (sender : String) (sdp : Sdp) : Answer st s (.answer sender sdp)
  | ice (sender : String) (candidate : Candidate) : Answer st s (.ice sender candidate)
  | ptt (userId : String) (active : Bool) : Answer st s (.ptt userId active)
  | rekey (by' : String) : Answer st s (.rekey by')

theorem answer_of_frameSends {t : SocketId} {msg : ServerMsg} (h : (t, msg) ∈ frameSends cfg st s me f) :
    Answer st s msg := by
  have told {r : Room} {g : String → Option ServerMsg} (h : (t, msg) ∈ Fifo.broadcast PeerHandle.tx g r) :
      ∃ id, g id = some msg := by
    obtain ⟨id, -, -, -, hg⟩ := Fifo.mem_broadcast.mp h
    exact ⟨id, hg⟩
  have relayed {dest : String} {build : String → ServerMsg} (h : (t, msg) ∈ relaySends st me dest build) :
      ∃ x, build x = msg := by
    unfold relaySends at h
    split at h
    · cases h
    · obtain ⟨_, -, heq⟩ := Option.map_eq_some_iff.mp (Option.mem_toList.mp h)
      exact ⟨_, congrArg Prod.snd heq⟩
  have refused {code message : String} (h : (t, msg) ∈ [(s, ServerMsg.error code message)]) : Answer st s msg := by
    cases List.mem_singleton.mp h
    exact .error code message
  have cleaned (h : (t, msg) ∈ cleanupSends st me) : Answer st s msg := by
    unfold cleanupSends at h
    split at h
    · cases h
    · obtain ⟨_, hg⟩ := told h
      cases hg
      exact .peerLeft _
  cases f with
  | badText err => exact refused h
  | close => exact cleaned h
  | other => cases h
  | text m =>
    cases m with
    | join room userId name token =>
      simp only [frameSends, joinReply] at h
      split at h
      · exact refused h
      · split at h
        · exact refused h
        · split at h
          · exact refused h
          · split at h
            · cases List.mem_singleton.mp h
              exact .roomFull
            · simp only [joinSends, List.mem_append] at h
              rcases h with (h | h) | h
              · obtain ⟨_, -, heq⟩ := Option.map_eq_some_iff.mp (Option.mem_toList.mp h)
                cases heq
                exact .error _ _
              · obtain ⟨_, hg⟩ := told h
                split at hg
                · cases hg
                  exact .peerJoined _ _
                · cases hg
              · split at h
                · obtain ⟨_, hg⟩ := told h
                  cases hg
                  exact .warn room userId name
                · cases h
    | offer dest sdp | answer dest sdp | ice dest candidate =>
      simp only [frameSends] at h
      split at h
      · cases h
      · obtain ⟨_, rfl⟩ := relayed h
        constructor
    | ptt active =>
      simp only [frameSends] at h
      split at h
      · cases h
      · obtain ⟨_, hg⟩ := told h
        split at hg
        · cases hg
          exact .ptt _ _
        · cases hg
    | rekey =>
      simp only [frameSends] at h
      split at h
      · cases h
      · obtain ⟨_, hg⟩ := told h
        cases hg
        exact .rekey _
    | leave => exact cleaned h

end

end Server

namespace Sys

/-- A message is on its way to the client of `s`. -/
def Told (σ : Sys) (s : SocketId) (msg : ServerMsg) : Prop :=
  msg ∈ σ.inbox s ∨ ∃ k, σ.server.conns s = some k ∧ msg ∈ k.queue

/-- The server has minted these credentials for the user. -/
def Minted (cfg : SysConfig) (userId : String) (creds : TurnCreds) : Prop :=
  ∃ t now, cfg.server.turn = some t ∧ creds = t.mint cfg.server.prim now userId

/-- Every ICE server but the first comes from credentials minted for the user, and there are none where relays are
    disabled; a PeerConn has the first ones of them. -/
structure Equipped (cfg : SysConfig) (e : Engine) : Prop where
  servers : ∃ granted : List TurnCreds, e.mesh.iceServers = stunServer :: granted.map .ofTurn ∧
    (∀ creds ∈ granted, Minted cfg e.cfg.userId creds) ∧ (e.cfg.relayEnabled = false → granted = [])
  conns : ∀ q p, e.mesh.conn? q = some p → [stunServer] <+: p.config ∧ p.config <+: e.mesh.iceServers

section
variable {cfg : SysConfig} {σ σ' : Sys} {a : Act}

/-- Where a message that is on its way after a step comes from. -/
theorem told_source (hs : step cfg σ a = some σ') {s : SocketId} {msg : ServerMsg} (told : σ'.Told s msg) :
    σ.Told s msg ∨ (s, msg) ∈ σ.sends cfg a ∨
      ∃ now room userId roster, a = .server (.finishJoin s now) ∧ σ.server.ident s = some (room, userId) ∧
        msg ∈ .roster roster :: turnMsgs cfg now userId := by
  -- A step that only adds `msgs` to the queue of `s`.
  have pushed {srv : Server} {g : Conn → Conn} {msgs : List ServerMsg} (hinb : σ'.inbox = σ.inbox) (hsrv : σ'.server = srv)
      (hg : ∀ k, (g k).queue = (k.pushAll msgs).queue) (hconn : srv.conns s = (σ.server.conns s).map g) :
      σ.Told s msg ∨ msg ∈ msgs := by
    rcases told with hin | ⟨k', hk', hm⟩
    · exact .inl (.inl (hinb ▸ hin))
    · rw [hsrv, hconn] at hk'
      obtain ⟨k, hk, rfl⟩ := Option.map_eq_some_iff.mp hk'
      rw [hg] at hm
      rcases k.mem_pushAll_queue msgs hm with hm | hm
      · exact .inl (.inr ⟨k, hk, hm⟩)
      · exact .inr hm
  -- A step that changes nothing, or drops something.
  have fewer (hin : ∀ m ∈ σ'.inbox s, m ∈ σ.inbox s)
      (hconn : ∀ k', σ'.server.conns s = some k' → k'.queue = [] ∨ ∃ k, σ.server.conns s = some k ∧
        ∀ m ∈ k'.queue, m ∈ k.queue) :
      σ.Told s msg := by
    rcases told with hm | ⟨k', hk', hm⟩
    · exact .inl (hin _ hm)
    · rcases hconn k' hk' with hnil | ⟨k, hk, hsub⟩
      · rw [hnil] at hm
        cases hm
      · exact .inr ⟨k, hk, hsub _ hm⟩
  have same (hin : σ'.inbox = σ.inbox) (hconn : σ'.server = σ.server) : σ.Told s msg :=
    fewer (fun m hm => hin ▸ hm) fun k hk => .inr ⟨k, hconn ▸ hk, fun _ hm => hm⟩
  have dialed {srv : Server} (hstep : σ.server.step cfg.server .accept = some srv) (hin : σ'.inbox = σ.inbox)
      (hsrv : σ'.server = srv) : σ.Told s msg := by
    refine fewer (fun m hm => hin ▸ hm) fun k hk => ?_
    rw [hsrv, accept_eq hstep] at hk
    dsimp only at hk
    by_cases hs : s = σ.server.nextSocket
    · rw [hs, Function.update_self, Option.some.injEq] at hk
      exact .inl (hk ▸ rfl)
    · rw [Function.update_of_ne hs] at hk
      exact .inr ⟨k, hk, fun _ hm => hm⟩
  have modified {t : SocketId} {f : Conn → Conn} (hin : σ'.inbox = σ.inbox) (hsrv : σ'.server = σ.server.modifyConn t f)
      (hf : ∀ k, ∀ m ∈ (f k).queue, m ∈ k.queue) : σ.Told s msg := by
    refine fewer (fun m hm => hin ▸ hm) fun k' hk' => .inr ?_
    rw [hsrv, Server.modifyConn_conns] at hk'
    split at hk'
    · rename_i hst
      subst hst
      obtain ⟨k, hk, rfl⟩ := Option.map_eq_some_iff.mp hk'
      exact ⟨k, hk, hf k⟩
    · exact ⟨k', hk', fun _ hm => hm⟩
  cases a with
  | recv t =>
    obtain ⟨m, rest, srv, hw, hstep, rfl⟩ := step_recv_inv hs
    obtain ⟨c, hc, hr, hsrv⟩ := Server.step_frame_inv hstep
    rcases pushed rfl hsrv (fun k => by dsimp only; split <;> rfl)
      (Server.handleFrame_conns hc hr (.text m) s) with old | hm
    · exact .inl old
    · exact .inr (.inl (by simpa only [sends, hw, hc] using Fifo.mem_sentTo.mp hm))
  | write t =>
    obtain ⟨k, m, rest, srv, hk, hq, hstep, rfl⟩ := step_write_inv hs
    obtain ⟨k₀, hk₀, -, hsrv⟩ := Server.step_write_inv hstep
    cases hk.symm.trans hk₀
    refine .inl ?_
    rcases told with hin | ⟨k', hk', hm⟩
    · simp only [delivered] at hin
      split at hin
      · by_cases hst : s = t
        · subst hst
          rw [Function.update_self, List.mem_append, List.mem_singleton] at hin
          rcases hin with hin | rfl
          · exact .inl hin
          · exact .inr ⟨k, hk, hq ▸ List.mem_cons_self⟩
        · rw [Function.update_of_ne hst] at hin
          exact .inl hin
      · exact .inl hin
    · rw [show (σ.delivered srv t m).server = srv from rfl, hsrv, Server.modifyConn_conns] at hk'
      split at hk'
      · rename_i hst
        subst hst
        rw [hk, Option.map_some, Option.some.injEq] at hk'
        subst hk'
        exact .inr ⟨k, hk, List.mem_of_mem_tail hm⟩
      · exact .inr ⟨k', hk', hm⟩
  | server b =>
    obtain ⟨hi, srv, hstep, rfl⟩ := step_server_inv hs
    cases b with
    | accept | frame t f | write t => cases hi
    | finishJoin t now =>
      obtain ⟨c, room, userId, roster, hc, hp, hsrv⟩ := Server.step_finishJoin_inv hstep
      have conns := @Server.finishJoin_conns cfg.server σ.server t now room userId roster s
      rcases pushed rfl hsrv (fun k => by dsimp only; split <;> rfl) conns with old | hm
      · exact .inl old
      · rw [sentTo_finishSends] at hm
        split at hm
        · rename_i hst
          subst hst
          exact .inr (.inr ⟨now, room, userId, roster, rfl, by simp [Server.ident, hc, Conn.ident, hp], hm⟩)
        · cases hm
    | close t =>
      obtain ⟨c, hc, hr, hsrv⟩ := Server.step_close_inv hstep
      rcases pushed rfl hsrv (fun k => by dsimp only; split <;> rfl) (Server.cleanup_conns c.me s) with old | hm
      · exact .inl old
      · exact .inr (.inl (by simpa only [sends, hc] using Fifo.mem_sentTo.mp hm))
    | writeFail t =>
      obtain ⟨c, -, -, hsrv⟩ := Server.step_writeFail_inv hstep
      exact .inl (modified rfl hsrv fun k m hm => by cases hm)
    | abort t =>
      obtain ⟨c, -, -, hsrv⟩ := Server.step_abort_inv hstep
      exact .inl (modified rfl hsrv fun k m hm => by cases hm)
    | rehash room r =>
      obtain ⟨r₀, -, -, rfl⟩ := Server.step_rehash_inv hstep
      exact .inl (fewer (fun _ hm => hm) fun k hk => .inr ⟨k, hk, fun _ hm => hm⟩)
    | restart =>
      cases Option.some.inj hstep
      refine .inl (fewer (fun _ hm => hm) fun k' hk' => .inl ?_)
      obtain ⟨k, -, rfl⟩ := Option.map_eq_some_iff.mp hk'
      rfl
  | start ecfg =>
    obtain ⟨srv, hstep, rfl⟩ := step_start_inv hs
    exact .inl (dialed hstep rfl rfl)
  | handle c w =>
    obtain ⟨e, t, m, rest, -, -, -, hin, rfl⟩ := step_handle_inv hs
    refine .inl (fewer (fun m' hm => ?_) fun k hk => .inr ⟨k, hk, fun _ hm => hm⟩)
    rw [setEngine_inbox] at hm
    dsimp only at hm
    by_cases hst : s = t
    · subst hst
      rw [Function.update_self] at hm
      exact hin ▸ List.mem_cons_of_mem _ hm
    · rwa [Function.update_of_ne hst] at hm
  | lost c =>
    obtain ⟨e, t, -, -, -, -, rfl⟩ := step_lost_inv hs
    exact .inl (same rfl rfl)
  | uplink c =>
    obtain ⟨e, m, rest, -, -, -, rfl⟩ := step_uplink_inv hs
    exact .inl (same (by rw [setEngine_inbox, transmit_inbox]) (by rw [setEngine_server, transmit_server]))
  | reconnect c =>
    obtain ⟨e, srv, -, -, -, hstep, rfl⟩ := step_reconnect_inv hs
    exact .inl (dialed hstep rfl rfl)
  | event c ev =>
    obtain ⟨e, e', msgs, -, -, -, rfl⟩ := step_event_inv hs
    exact .inl (same (by rw [setEngine_inbox, transmit_inbox]) (by rw [setEngine_server, transmit_server]))

/-- Credentials on their way were minted for the user behind the socket. -/
def Addressed (cfg : SysConfig) (σ : Sys) : Prop :=
  ∀ s creds, σ.Told s (.turn creds) → ∃ ecfg, σ.cfgOf s = some ecfg ∧ Minted cfg ecfg.userId creds

theorem addressed_step (wf : WF cfg σ) (all : Addressed cfg σ) (hs : step cfg σ a = some σ') : Addressed cfg σ' := by
  intro s creds told
  have kept := step_kept wf hs
  rcases told_source hs told with old | sent | ⟨now, room, userId, roster, -, ident, hm⟩
  · obtain ⟨ecfg, hc, minted⟩ := all s creds old
    have opened : s < σ.server.nextSocket := by
      by_contra hge
      rcases old with hin | ⟨k, hk, -⟩
      · rw [(wf.unopened s (Nat.le_of_not_lt hge)).2] at hin
        cases hin
      · rw [wf.server.fresh s (Nat.le_of_not_lt hge)] at hk
        cases hk
    exact ⟨ecfg, kept.cfgOf opened hc, minted⟩
  · exfalso
    cases a with
    | recv t =>
      simp only [sends] at sent
      split at sent
      · cases Server.answer_of_frameSends sent
      · cases sent
    | server b =>
      cases b with
      | close t =>
        simp only [sends] at sent
        split at sent
        · cases @Server.answer_of_frameSends cfg.server _ t _ .close _ _ sent
        · cases sent
      | _ => cases sent
    | _ => cases sent
  · obtain ⟨ecfg, hc, -, rfl⟩ := wf.ident s room userId ident
    refine ⟨ecfg, kept.cfgOf (wf.opened_of_ident ident) hc, ?_⟩
    rcases List.mem_cons.mp hm with hm | hm
    · cases hm
    · obtain ⟨t, ht, heq⟩ := Option.map_eq_some_iff.mp (Option.mem_toList.mp hm)
      cases heq
      exact ⟨t, now, ht, rfl⟩

theorem Equipped.of_equips {e e' : Engine} (eq : Equipped cfg e) (h : e.mesh.Equips e'.mesh) (hcfg : e'.cfg = e.cfg) :
    Equipped cfg e' := by
  refine ⟨?_, fun q p' hp' => ?_⟩
  · rw [h.servers, hcfg]
    exact eq.servers
  · rw [h.servers]
    rcases h.conns q p' hp' with now | ⟨p, hp, heq⟩
    · obtain ⟨granted, hs, -⟩ := eq.servers
      rw [now]
      exact ⟨hs ▸ ⟨granted.map .ofTurn, rfl⟩, List.prefix_rfl⟩
    · rw [heq]
      exact eq.conns q p hp

theorem Equipped.addTurn {e e' : Engine} {creds : TurnCreds} (eq : Equipped cfg e) (minted : Minted cfg e.cfg.userId creds)
    (relays : e.cfg.relayEnabled = true) (hm : e'.mesh = e.mesh.addTurn creds) (hcfg : e'.cfg = e.cfg) :
    Equipped cfg e' := by
  obtain ⟨granted, hs, all, -⟩ := eq.servers
  refine ⟨⟨granted ++ [creds], ?_, fun c hc => ?_, fun off => ?_⟩, fun q p hp => ?_⟩
  · rw [hm, Mesh.addTurn, hs, List.map_append]
    rfl
  · rw [hcfg]
    rcases List.mem_append.mp hc with hc | hc
    · exact all c hc
    · exact List.mem_singleton.mp hc ▸ minted
  · rw [hcfg, relays] at off
    cases off
  · rw [hm] at hp ⊢
    obtain ⟨first, sub⟩ := eq.conns q p hp
    exact ⟨first, sub.trans (List.prefix_append ..)⟩

/-- A message equips the engine with nothing but credentials minted for its user. -/
theorem equipped_handle {e : Engine} {w : Outcomes} {msg : ServerMsg} (eq : Equipped cfg e)
    (minted : ∀ creds, msg = .turn creds → Minted cfg e.cfg.userId creds) : Equipped cfg (e.handle cfg.rtc w msg) := by
  by_cases h : ∃ creds, msg = .turn creds ∧ e.cfg.relayEnabled = true
  · obtain ⟨creds, rfl, relays⟩ := h
    exact eq.addTurn (minted creds rfl) relays (by rw [Engine.handle_mesh, relays]; rfl) (Engine.handle_cfg _)
  · refine eq.of_equips ?_ (Engine.handle_cfg msg)
    rw [Engine.handle_mesh]
    exact Mesh.equips_react fun creds hm => Bool.eq_false_iff.mpr fun on => h ⟨creds, hm, on⟩

theorem equipped_step (wf : WF cfg σ) (all : Addressed cfg σ) (eqs : ∀ c e, σ.engines c = some e → Equipped cfg e)
    (hs : step cfg σ a = some σ') : ∀ c e, σ'.engines c = some e → Equipped cfg e := by
  intro c e' he'
  rcases engines_step hs he' with ⟨e, he⟩ | ⟨ecfg, srv, -, -, -, rfl⟩
  · obtain ⟨e₁, msgs, he₁, turn, -⟩ := engine_step wf hs he
    cases he'.symm.trans he₁
    have eq := eqs c e he
    cases turn with
    | idle => exact eq
    | handle w s msg act cur inbox =>
      refine equipped_handle eq fun creds hm => ?_
      obtain ⟨ecfg, hc, minted⟩ := all s creds (.inl (by rw [inbox, hm]; exact List.mem_cons_self))
      rw [cfgOf, (wf.cur c e s he cur).2, he, Option.map_some, Option.some.injEq] at hc
      exact hc ▸ minted
    | lost act => exact eq.of_equips (.refl _) rfl
    | uplink msg rest act out => exact eq.of_equips ⟨rfl, fun _ p h => .inr ⟨p, h, rfl⟩⟩ rfl
    | reconnect act off => exact eq.of_equips (.refl _) rfl
    | event ev act round => exact eq.of_equips (Engine.equips_onEvent round) (Engine.onEvent_spec round).1
  · refine ⟨⟨[], rfl, fun _ hm => absurd hm List.not_mem_nil, fun _ => rfl⟩, fun q p hp => ?_⟩
    cases hp

/-- A client's ICE servers are the public STUN server and, where relays are enabled, what the server has granted to this
    user; a PeerConn is configured with the first ones of them. -/
theorem relays_granted (h : Lts.Reach (step cfg) Lts.anyStep empty σ) {c : ClientId} {e : Engine}
    (he : σ.engines c = some e) :
    (∃ granted : List TurnCreds, e.mesh.iceServers = stunServer :: granted.map .ofTurn ∧
      (∀ creds ∈ granted, Minted cfg e.cfg.userId creds) ∧ (e.cfg.relayEnabled = false → granted = [])) ∧
      ∀ q p, e.mesh.conn? q = some p → [stunServer] <+: p.config ∧ p.config <+: e.mesh.iceServers := by
  have addressed (τ : Sys) (hτ : Lts.Reach (step cfg) Lts.anyStep empty τ) : Addressed cfg τ :=
    hτ.invariant_over (fun _ => wf_reach) (fun s creds told => by rcases told with hin | ⟨k, hk, -⟩ <;> trivial)
      fun _ _ _ wf _ all _ hs => addressed_step wf all hs
  have eqs : ∀ c e, σ.engines c = some e → Equipped cfg e :=
    h.invariant_over (fun τ hτ => And.intro (wf_reach hτ) (addressed τ hτ)) (fun _ _ he => by cases he)
      fun _ _ _ known _ eqs _ hs => equipped_step known.1 known.2 eqs hs
  exact ⟨(eqs c e he).servers, (eqs c e he).conns⟩

end

/-! A server with a TURN relay: the first client has its credentials when the second one comes. -/

def turnConfig : SysConfig :=
  { sampleConfig with server :=
    { Server.openConfig with turn := some { secret := [], urls := ["turn:relay"], ttl := 3600 } } }

def turnActs : List Act := startActs "alice" 0 ++ getActs 0 0 2 ++ startActs "bob" 1 ++ getActs 0 0 1

def granted : Sys := (Lts.exec (step turnConfig) empty turnActs).getD empty

theorem relays_granted_alice : ∃ e p, granted.engines 0 = some e ∧ e.mesh.conn? "bob" = some p ∧ p.config.length = 2 ∧
    (∃ creds : List TurnCreds, e.mesh.iceServers = stunServer :: creds.map .ofTurn ∧
      (∀ cred ∈ creds, Minted turnConfig e.cfg.userId cred) ∧ (e.cfg.relayEnabled = false → creds = [])) ∧
    ∀ q p, e.mesh.conn? q = some p → [stunServer] <+: p.config ∧ p.config <+: e.mesh.iceServers :=
  ⟨_, _, rfl, rfl, rfl, @relays_granted turnConfig granted (Lts.Reach.of_exec (fun _ _ _ _ => trivial)
    (show Lts.exec (step turnConfig) empty turnActs = some granted from rfl)) 0 _ rfl⟩

end Sys

end SquadLink

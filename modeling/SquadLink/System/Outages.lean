import SquadLink.Client.Exit
import SquadLink.Client.Failures
import SquadLink.System.Participants
import SquadLink.System.Presence

/-! Outages of the signaling. A client keeps its mesh while it has no connection, and comes back with the same
    user id. What ends an established link then is the PeerLeft that the server sends for the lost socket, or
    the offer that the smaller id makes anew when it sees the other one again; nothing else does. -/

namespace SquadLink

namespace Mesh

/-- The mesh holds the established PeerConn `pc` for `q`. -/
def Keeps (m : Mesh) (q : String) (pc : PcId) : Prop := ∃ p ∈ m.conn? q, p.pc = pc ∧ p.remoteSet = true

instance (m : Mesh) (q : String) (pc : PcId) : Decidable (m.Keeps q pc) := by
  unfold Keeps
  infer_instance

section
variable {rtc : Webrtc} {w : Outcomes} {m m' : Mesh} {q peer : String} {pc : PcId} {msg : ServerMsg}

theorem Keeps.of_conn (keeps : m.Keeps q pc) (h : m'.conn? q = m.conn? q) : m'.Keeps q pc := by
  rw [Keeps, h]
  exact keeps

theorem Keeps.of_link (keeps : m.Keeps q pc) (h : m'.link? q = m.link? q) : m'.Keeps q pc := by
  obtain ⟨p, hp, hpc, hset⟩ := keeps
  rw [link?, link?, hp, Option.map_some] at h
  obtain ⟨p', hp', hlink⟩ := Option.map_eq_some_iff.mp h
  exact ⟨p', hp', (congrArg Link.pc hlink).trans hpc, (congrArg Link.remoteSet hlink).trans hset⟩

/-- Seeing a peer replaces no PeerConn. -/
theorem Keeps.onPeer (keeps : m.Keeps q pc) (peer : String) : (m.onPeer rtc w peer).1.Keeps q pc := by
  obtain ⟨ms, touches, h⟩ := m.onPeer_cases rtc w peer
  by_cases hq : q = peer
  · subst hq
    obtain ⟨p, hp, hpc, hset⟩ := keeps
    rcases h with ⟨p₀, p', hp₀, hp', hpc', hset', -⟩ | ⟨hnone, -⟩ | ⟨p', hnone, -⟩
    · cases hp.symm.trans hp₀
      exact ⟨p', hp', hpc'.trans hpc, hset'.trans hset⟩
    · cases hp.symm.trans hnone
    · cases hp.symm.trans hnone
  · exact keeps.of_conn (touches.conn q hq)

theorem Keeps.onPeers (keeps : m.Keeps q pc) (peers : List PeerInfo) : (Engine.onPeers rtc w m peers).Keeps q pc := by
  induction peers generalizing m with
  | nil => exact keeps
  | cons p peers ih => exact ih (keeps.onPeer p.userId)

/-- An answer, too, leaves every PeerConn where it is. -/
theorem Keeps.onAnswer (keeps : m.Keeps q pc) (peer : String) (sdp : Sdp) : (m.onAnswer rtc w peer sdp).1.Keeps q pc := by
  obtain ⟨touches, h⟩ := m.onAnswer_cases rtc w peer sdp
  by_cases hq : q = peer
  · subst hq
    rcases h with h | ⟨p₀, hp₀, hp', -⟩
    · rw [h]
      exact keeps
    · obtain ⟨p, hp, hpc, hset⟩ := keeps
      cases hp.symm.trans hp₀
      exact ⟨_, hp', by simp [PeerConn.setRemote, hpc], by simp⟩
  · exact keeps.of_conn (touches.conn q hq)

theorem Keeps.onOffer (keeps : m.Keeps q pc) (hq : q ≠ peer) (sdp : Sdp) : (m.onOffer rtc w peer sdp).1.Keeps q pc := by
  obtain ⟨ms, touches, -⟩ := m.onOffer_touches rtc w peer sdp
  exact keeps.of_conn (touches.conn q hq)

end

end Mesh

/-- The peer whose established link the message ends. -/
def ServerMsg.ends : ServerMsg → Option String
  | .peerLeft userId => some userId
  | .offer sender _ => some sender
  | _ => none

/-- A client leaves or asks for a rotation. -/
def Act.disturbs : Act → Bool
  | .event _ .quit | .event _ (.command .rekey) => true
  | _ => false

namespace Mesh

section
variable {rtc : Webrtc} {w : Outcomes} {m : Mesh} {q : String} {pc : PcId} {msg : ServerMsg}

/-- Without rotations, a message that does not end the link leaves it. -/
theorem Keeps.react (keeps : m.Keeps q pc) (relayEnabled : Bool) (spares : msg.ends ≠ some q)
    (still : ∀ by', msg ≠ .rekey by') :
    (m.react rtc w relayEnabled msg).Keeps q pc := by
  cases msg with
  | roster peers => exact keeps.onPeers peers
  | peerJoined userId name => exact keeps.onPeer userId
  | peerLeft userId => exact keeps.of_conn ((Touches.drop m userId).conn q fun h => spares (by rw [h]; rfl))
  | offer sender sdp => exact keeps.onOffer (fun h => spares (by rw [h]; rfl)) sdp
  | answer sender sdp => exact keeps.onAnswer sender sdp
  | ice sender cand => exact keeps.of_link ((m.idles_onIce sender cand).link q)
  | rekey by' => exact absurd rfl (still by')
  | turn creds =>
    simp only [Mesh.react]
    split
    · exact keeps.of_conn rfl
    · exact keeps
  | _ => exact keeps

/-- Such a message closes the PeerConn of an established link. -/
theorem Keeps.closed (keeps : m.Keeps q pc) (relayEnabled : Bool) (ends : msg.ends = some q) :
    pc ∈ (m.react rtc w relayEnabled msg).closed := by
  obtain ⟨p, hp, rfl, hset⟩ := keeps
  have dropped : p.pc ∈ (m.drop q).closed := by simp [drop, Option.mem_def.mp hp]
  cases msg with
  | peerLeft userId =>
    obtain rfl : userId = q := Option.some.inj ends
    exact dropped
  | offer sender sdp =>
    obtain rfl : sender = q := Option.some.inj ends
    have established : m.dropEstablished sender = m.drop sender := by simp [dropEstablished, Option.mem_def.mp hp, hset]
    simp only [Mesh.react, onOffer_closed, established]
    exact dropped
  | _ => cases ends

theorem Keeps.open (keeps : m.Keeps q pc) (led : m.Ledger) : pc ∉ m.closed := by
  obtain ⟨p, hp, rfl, -⟩ := keeps
  exact (led.held q p hp).2

/-- Without rotations, a message leaves an established link exactly when it does not end it. -/
theorem Keeps.react_iff (keeps : m.Keeps q pc) (led : m.Ledger) (relayEnabled : Bool) (still : ∀ by', msg ≠ .rekey by') :
    (m.react rtc w relayEnabled msg).Keeps q pc ↔ msg.ends ≠ some q := by
  refine ⟨fun kept ends => ?_, fun spares => keeps.react relayEnabled spares still⟩
  have led' : (m.react rtc w relayEnabled msg).Ledger := (edits_react relayEnabled msg).keep (fun _ _ => Ledger.edit) led
  exact kept.open led' (keeps.closed relayEnabled ends)

end

end Mesh

namespace Sys

/-- The client holds the established PeerConn `pc` for `q`, and has not closed it. -/
def Holds (σ : Sys) (c : ClientId) (q : String) (pc : PcId) : Prop :=
  ∃ e ∈ σ.engines c, e.mesh.Keeps q pc ∧ pc ∉ e.mesh.closed

/-- The client takes no message that ends its link to `q`. -/
def Spares (c : ClientId) (q : String) (σ : Sys) (a : Act) : Prop :=
  ∀ p ∈ σ.taken (.act a), p.1.mesh.owner = c → p.2.ends ≠ some q

instance (c : ClientId) (q : String) (σ : Sys) (a : Act) : Decidable (Spares c q σ a) := by
  unfold Spares
  infer_instance

/-- No rotation has been asked for that is not done. -/
structure Unturned (σ : Sys) : Prop where
  asked : ∀ s, .rekey ∉ σ.wire s
  told : ∀ s by', .rekey by' ∉ σ.heard s

/-- The mesh of every engine knows where its PeerConnections are. -/
def Ledgers (σ : Sys) : Prop := ∀ c e, σ.engines c = some e → e.mesh.Ledger

section
variable {cfg : SysConfig} {σ σ₀ σ' : Sys} {a : Act} {c d : ClientId} {q u v : String} {pc x y : PcId}

/-- An engine after a step was there before, or has just been started. -/
theorem engine_born (hs : step cfg σ a = some σ') {e' : Engine} (he' : σ'.engines c = some e') :
    (∃ e, σ.engines c = some e) ∨ ∃ ecfg, e' = .start ecfg c σ.server.nextSocket := by
  -- A step of the engine of `d`.
  have updated : ∀ {d e₀ e₁}, σ.engines d = some e₀ → σ'.engines = Function.update σ.engines d (some e₁) →
      ∃ e, σ.engines c = some e := by
    intro d e₀ e₁ he₀ hE
    by_cases hd : c = d
    · exact ⟨e₀, hd ▸ he₀⟩
    · rw [hE, Function.update_of_ne hd] at he'
      exact ⟨e', he'⟩
  cases a with
  | recv s =>
    obtain ⟨_, _, srv, -, -, rfl⟩ := step_recv_inv hs
    exact .inl ⟨e', he'⟩
  | write s =>
    obtain ⟨_, _, _, srv, -, -, -, rfl⟩ := step_write_inv hs
    exact .inl ⟨e', he'⟩
  | server b =>
    obtain ⟨-, srv, -, rfl⟩ := step_server_inv hs
    exact .inl ⟨e', he'⟩
  | start ecfg =>
    obtain ⟨srv, -, rfl⟩ := step_start_inv hs
    by_cases hc : c = σ.nextClient
    · subst hc
      simp only [started, Function.update_self, Option.some.injEq] at he'
      exact .inr ⟨ecfg, he'.symm⟩
    · simp only [started, Function.update_of_ne hc] at he'
      exact .inl ⟨e', he'⟩
  | handle d w =>
    obtain ⟨e₀, s, msg, rest, he₀, -, -, -, rfl⟩ := step_handle_inv hs
    exact .inl (updated he₀ rfl)
  | lost d =>
    obtain ⟨e₀, s, he₀, -, -, -, rfl⟩ := step_lost_inv hs
    exact .inl (updated he₀ rfl)
  | uplink d =>
    obtain ⟨e₀, msg, rest, he₀, -, -, rfl⟩ := step_uplink_inv hs
    exact .inl (updated he₀ (by rw [setEngine_engines, transmit_engines]))
  | reconnect d =>
    obtain ⟨e₀, srv, he₀, -, -, -, rfl⟩ := step_reconnect_inv hs
    exact .inl (updated he₀ rfl)
  | event d ev =>
    obtain ⟨e₀, e₁, msgs, he₀, -, -, rfl⟩ := step_event_inv hs
    exact .inl (updated he₀ (by rw [setEngine_engines, transmit_engines]))

theorem ledgers_step (wf : WF cfg σ) (ledgers : Ledgers σ) (hs : step cfg σ a = some σ') : Ledgers σ' := by
  intro c e' he'
  rcases engine_born hs he' with ⟨e, he⟩ | ⟨ecfg, rfl⟩
  · have old : c ≠ σ.nextClient := fun hc => by
      rw [hc, wf.unstarted _ (Nat.le_refl _)] at he
      cases he
    obtain ⟨e₁, he₁, rfl | ⟨act, round⟩⟩ := step_round hs he old
    · cases he'.symm.trans he₁
      exact ledgers c e' he
    · cases he'.symm.trans he₁
      exact (Engine.edits_round round).keep (fun _ _ => Mesh.Ledger.edit) (ledgers c e he)
  · exact .start c ecfg.userId

theorem ledgers_reach {ok : Sys → Act → Sys → Prop} (h : Lts.Reach (step cfg) ok empty σ) : Ledgers σ :=
  h.invariant_over (fun _ ht => @wf_reach cfg _ _ ht) (fun _ _ he => by cases he) fun _ _ _ wf _ ledgers _ hs =>
    ledgers_step wf ledgers hs

/-- A rotation that the server announces has been asked for on a connection. -/
theorem asked_of_sends (hs : step cfg σ a = some σ') {p : SocketId × ServerMsg} {by' : String} (hp : p ∈ σ.sends cfg a)
    (heq : p.2 = .rekey by') : ∃ s, .rekey ∈ σ.wire s := by
  obtain ⟨t, msg⟩ := p
  subst heq
  cases a with
  | recv s =>
    obtain ⟨msg, rest, srv, hw, hstep, -⟩ := step_recv_inv hs
    obtain ⟨k, hk, -⟩ := Server.step_frame_inv hstep
    simp only [sends, hw, hk] at hp
    obtain rfl := (Server.frameSends_kinds hp).2 by' rfl
    exact ⟨s, by rw [hw]; exact List.mem_cons_self⟩
  | server b =>
    cases b with
    | close s =>
      obtain ⟨-, srv, hstep, -⟩ := step_server_inv hs
      obtain ⟨k, hk, -⟩ := Server.step_close_inv hstep
      simp only [sends, hk] at hp
      have leave : (t, .rekey by') ∈ Server.frameSends cfg.server σ.server s k.me (.text .leave) := hp
      cases (Server.frameSends_kinds leave).2 by' rfl
    | _ => cases hp
  | _ => cases hp

/-- What a step puts on a connection asks for no rotation, unless the client does. -/
theorem asked_step (wf : WF cfg σ) (hs : step cfg σ a = some σ') (undisturbed : a.disturbs = false) {s : SocketId}
    (hm : .rekey ∈ σ'.wire s) : .rekey ∈ σ.wire s := by
  -- A client sends to its connection.
  have sent : ∀ {τ : Sys} {cur msgs} {c : ClientId} {e : Engine}, (∀ msg ∈ msgs, msg ≠ ClientMsg.rekey) → τ.wire = σ.wire →
      .rekey ∈ ((τ.transmit cur msgs).setEngine c e).wire s → .rekey ∈ σ.wire s := by
    intro τ cur msgs c e silent hw hm
    rw [setEngine_wire, transmit_wire, hw] at hm
    split at hm
    · exact (List.mem_append.mp hm).resolve_right fun h => silent _ h rfl
    · exact hm
  -- It has opened the connection and joined.
  have dialed : ∀ {τ : Sys} {ecfg}, τ.wire = Function.update σ.wire σ.server.nextSocket [Engine.joinMsg ecfg] → σ' = τ →
      .rekey ∈ σ.wire s := by
    intro τ ecfg hw hτ
    rw [hτ, hw] at hm
    by_cases h : s = σ.server.nextSocket
    · rw [h, Function.update_self, List.mem_singleton] at hm
      cases hm
    · rwa [Function.update_of_ne h] at hm
  cases a with
  | recv t =>
    obtain ⟨msg, rest, srv, hw, -, rfl⟩ := step_recv_inv hs
    by_cases h : s = t
    · subst h
      simp only [Function.update_self] at hm
      rw [hw]
      exact List.mem_cons_of_mem _ hm
    · simpa [h] using hm
  | write t =>
    obtain ⟨_, _, _, srv, -, -, -, rfl⟩ := step_write_inv hs
    exact hm
  | server b =>
    obtain ⟨-, srv, -, rfl⟩ := step_server_inv hs
    exact hm
  | start ecfg =>
    obtain ⟨srv, -, rfl⟩ := step_start_inv hs
    exact dialed rfl rfl
  | handle c w =>
    obtain ⟨e, t, msg, rest, -, -, -, -, rfl⟩ := step_handle_inv hs
    exact hm
  | lost c =>
    obtain ⟨e, t, -, -, -, -, rfl⟩ := step_lost_inv hs
    exact hm
  | uplink c =>
    obtain ⟨e, msg, rest, he, -, hout, rfl⟩ := step_uplink_inv hs
    refine sent (fun m hm' => ?_) rfl hm
    rw [List.mem_singleton.mp hm']
    rintro rfl
    have := wf.out c e .rekey he (by rw [hout]; exact List.mem_cons_self)
    cases this
  | reconnect c =>
    obtain ⟨e, srv, -, -, -, -, rfl⟩ := step_reconnect_inv hs
    exact dialed rfl rfl
  | event c ev =>
    obtain ⟨e, e', msgs, -, -, hev, rfl⟩ := step_event_inv hs
    refine sent (fun m hm' => ?_) rfl hm
    rintro rfl
    rcases (Engine.onEvent_spec hev).2.2.2.2.1 _ hm' with ⟨on, h⟩ | ⟨-, rfl⟩
    · cases h
    · cases undisturbed

theorem unturned_step (wf : WF cfg σ) (hs : step cfg σ a = some σ') (undisturbed : a.disturbs = false)
    (unturned : Unturned σ) : Unturned σ' := by
  refine ⟨fun s hm => unturned.asked s (asked_step wf hs undisturbed hm), fun s by' hm => ?_⟩
  rcases heard_step hs hm with hm | hm | ⟨_, _, _, _, _, -, -, -, heq⟩ | ⟨creds, heq⟩
  · exact unturned.told s by' hm
  · obtain ⟨t, ht⟩ := asked_of_sends hs (Fifo.mem_sentTo.mp hm) rfl
    exact unturned.asked t ht
  · cases heq
  · cases heq

/-- Without a message an engine's links stay as they are. -/
theorem link_kept (wf : WF cfg σ) (hs : step cfg σ a = some σ') (idle : ∀ w, a ≠ .handle c w) {e : Engine}
    (he : σ.engines c = some e) : ∃ e', σ'.engines c = some e' ∧ ∀ q, e'.mesh.link? q = e.mesh.link? q := by
  obtain ⟨e', msgs, he', turn, -⟩ := engine_step wf hs he
  refine ⟨e', he', ?_⟩
  cases turn with
  | handle w s msg act => exact absurd act (idle w)
  | event ev act round => exact (Engine.onEvent_spec round).2.2.1.link
  | _ => exact fun _ => rfl

/-- A step leaves an established link exactly when it takes no message that ends it. -/
theorem holds_step_iff (wf : WF cfg σ) (ledgers : Ledgers σ) (unturned : Unturned σ) (hs : step cfg σ a = some σ')
    (holds : Holds σ c q pc) : Holds σ' c q pc ↔ Spares c q σ a := by
  obtain ⟨e, he, keeps, -⟩ := holds
  have ledgers' := ledgers_step wf ledgers hs
  by_cases own : ∃ w, a = .handle c w
  · obtain ⟨w, rfl⟩ := own
    obtain ⟨e₀, s, msg, rest, he₀, running, cur, hin, rfl⟩ := step_handle_inv hs
    cases he.symm.trans he₀
    have taken : σ.taken (.act (.handle c w)) = some (e, msg) := taken_of rfl he₀ running cur (by rw [hin]; rfl)
    have spares : Spares c q σ (.handle c w) ↔ msg.ends ≠ some q := by
      simp [Spares, taken, (wf.mesh c e he).1]
    have still : ∀ by', msg ≠ .rekey by' := fun by' h =>
      unturned.told s by' (mem_heard.mpr (.inl (by rw [hin, h]; exact List.mem_cons_self)))
    rw [spares, ← @Mesh.Keeps.react_iff cfg.rtc w _ _ _ _ keeps (ledgers c e he) e.cfg.relayEnabled still,
      ← Engine.handle_mesh]
    constructor
    · rintro ⟨e', he', keeps', -⟩
      rw [setEngine_engines, Function.update_self] at he'
      cases he'
      exact keeps'
    · exact fun keeps' => ⟨_, by simp, keeps', keeps'.open (ledgers' c _ (by simp))⟩
  · have spares : Spares c q σ a := by
      intro p hp hc
      obtain ⟨d, w, hev, he₁⟩ := taken_eq_some hp
      obtain rfl : d = c := (wf.mesh d p.1 he₁).1.symm.trans hc
      cases a with
      | handle d' w' => cases hev; exact absurd ⟨w, rfl⟩ own
      | _ => cases hev
    obtain ⟨e', he', link⟩ := link_kept wf hs (fun w hw => own ⟨w, hw⟩) he
    have keeps' := keeps.of_link (link q)
    exact iff_of_true ⟨e', he', keeps', keeps'.open (ledgers' c e' he')⟩ spares

theorem unturned_reach (h : Lts.Reach (step cfg) (fun _ a _ => a.disturbs = false) empty σ) : Unturned σ := by
  refine h.invariant_over (fun _ ht => @wf_reach cfg _ _ ht) ⟨fun s hm => List.not_mem_nil hm, fun s by' hm => ?_⟩
    fun _ _ _ wf _ unturned undisturbed hs => unturned_step wf hs undisturbed unturned
  simp [mem_heard, empty, Server.empty] at hm

/-- The two clients hold established PeerConns for each other. -/
def Linked (σ : Sys) (c d : ClientId) (u v : String) (x y : PcId) : Prop := Holds σ c v x ∧ Holds σ d u y

/-- Neither of them takes a message that ends the link. -/
def Spared (c d : ClientId) (u v : String) (σ : Sys) (a : Act) : Prop := Spares c v σ a ∧ Spares d u σ a

instance (c d : ClientId) (u v : String) (σ : Sys) (a : Act) : Decidable (Spared c d u v σ a) := by
  unfold Spared
  infer_instance

theorem linked_step_iff (wf : WF cfg σ) (ledgers : Ledgers σ) (unturned : Unturned σ) (hs : step cfg σ a = some σ')
    (linked : Linked σ c d u v x y) : Linked σ' c d u v x y ↔ Spared c d u v σ a :=
  and_congr (holds_step_iff wf ledgers unturned hs linked.1) (holds_step_iff wf ledgers unturned hs linked.2)

/-- Whoever loses connections and comes back, an established link stays as long as neither of its clients takes
    a PeerLeft of the other or an offer from it, and the first such message ends it. -/
theorem links_survive (reached : Lts.Reach (step cfg) Lts.anyStep empty σ₀) (unturned : Unturned σ₀)
    (linked : Linked σ₀ c d u v x y)
    (h : Lts.Reach (step cfg) (fun σ a _ => a.disturbs = false ∧ Spared c d u v σ a) σ₀ σ) :
    Linked σ c d u v x y ∧ ∀ a σ', step cfg σ a = some σ' → (Linked σ' c d u v x y ↔ Spared c d u v σ a) := by
  have known : ∀ {t}, Lts.Reach (step cfg) (fun σ a _ => a.disturbs = false ∧ Spared c d u v σ a) σ₀ t →
      WF cfg t ∧ Ledgers t :=
    fun ht => ⟨wf_reach (reached.trans ht.any), ledgers_reach (reached.trans ht.any)⟩
  have inv : Unturned σ ∧ Linked σ c d u v x y := by
    refine h.invariant_over (P := fun σ => Unturned σ ∧ Linked σ c d u v x y) (fun _ => known) ⟨unturned, linked⟩ ?_
    rintro σ a σ' ⟨wf, ledgers⟩ - ⟨unturned, linked⟩ ⟨undisturbed, spared⟩ hs
    exact ⟨unturned_step wf hs undisturbed unturned, (linked_step_iff wf ledgers unturned hs linked).mpr spared⟩
  exact ⟨inv.2, fun a σ' hs => linked_step_iff (known h).1 (known h).2 inv.1 hs inv.2⟩

end

/-! The first client loses its connection and comes back. -/

def linkOf (owner : ClientId) (peer : String) : PcId := { owner, peer, serial := 0 }

def comebackActs : List Act := [.server (.close 0), .lost 0, .reconnect 0, .recv 2, .server (.finishJoin 2 0)]

def afterComeback : Sys := (Lts.exec (step sampleConfig) connected comebackActs).getD empty

theorem reach_connected : Lts.Reach (step sampleConfig) (fun _ a _ => a.disturbs = false) empty connected :=
  Lts.Reach.of_execOk (fun _ _ _ => of_decide_eq_true)
    (show Lts.execOk (step sampleConfig) (fun _ a _ => decide (a.disturbs = false)) empty connectActs =
      some connected from rfl)

theorem linked_connected : Linked connected 0 1 "alice" "bob" (linkOf 0 "bob") (linkOf 1 "alice") :=
  ⟨⟨_, rfl, by decide, by decide⟩, ⟨_, rfl, by decide, by decide⟩⟩

theorem links_survive_comeback : Linked afterComeback 0 1 "alice" "bob" (linkOf 0 "bob") (linkOf 1 "alice") := by
  have back : Lts.Reach (step sampleConfig) (fun σ a _ => a.disturbs = false ∧
      Spared 0 1 "alice" "bob" σ a) connected afterComeback :=
    Lts.Reach.of_execOk (fun _ _ _ => of_decide_eq_true)
      (show Lts.execOk (step sampleConfig) (fun σ a _ =>
        decide (a.disturbs = false ∧ Spared 0 1 "alice" "bob" σ a)) connected comebackActs =
        some afterComeback from rfl)
  exact (links_survive reach_connected.any (unturned_reach reach_connected) linked_connected back).1

/-- The other one takes the PeerLeft that the server has sent for the lost connection. -/
def partingActs : List Act := comebackActs ++ getActs 1 1 1

def afterParting : Sys := (Lts.exec (step sampleConfig) connected partingActs).getD empty

theorem link_ends_after_comeback :
    ¬ ∀ σ, Lts.Reach (step sampleConfig) (fun _ a _ => a.disturbs = false) connected σ →
      Linked σ 0 1 "alice" "bob" (linkOf 0 "bob") (linkOf 1 "alice") := by
  intro all
  have reach : Lts.Reach (step sampleConfig) (fun _ a _ => a.disturbs = false) connected afterParting :=
    Lts.Reach.of_execOk (fun _ _ _ => of_decide_eq_true)
      (show Lts.execOk (step sampleConfig) (fun _ a _ => decide (a.disturbs = false)) connected partingActs =
        some afterParting from rfl)
  obtain ⟨-, e, he, keeps, -⟩ := all _ reach
  cases he
  exact absurd keeps (by decide)

end Sys

end SquadLink

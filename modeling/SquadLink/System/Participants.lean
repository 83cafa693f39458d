import SquadLink.Server.Isolation
import SquadLink.System.Connections

/-! Hidden participants. The members map shown to the user and the mesh's peers are updated apart from each
    other: a Roster replaces the one and only adds to the other, and an Offer adds to the mesh alone. A peer
    is hidden exactly after such a message left it out. -/

namespace SquadLink

namespace Engine

/-- Every peer with a PeerConn is shown. -/
def Shows (e : Engine) : Prop := ∀ q ∈ e.mesh.peers.keys, q ∈ e.members

/-- The message names every peer that will have a PeerConn: a Roster those that have one, an Offer one
    that is shown (or for which no PeerConn can be made). -/
def Covers (w : Outcomes) (e : Engine) : ServerMsg → Prop
  | .roster peers => ∀ q ∈ e.mesh.peers.keys, q ∈ peers.map (·.userId)
  | .offer sender _ => sender ∈ e.members ∨ (w sender .newPeerConnection && w sender .addTrack) = false
  | _ => True

instance (w : Outcomes) (e : Engine) (msg : ServerMsg) : Decidable (e.Covers w msg) := by
  cases msg <;> unfold Covers <;> infer_instance

end Engine

namespace Mesh

@[simp] theorem link?_isSome {m : Mesh} {q : String} : (m.link? q).isSome = (m.conn? q).isSome := by simp [link?]

theorem mem_keys_iff {m : Mesh} {q : String} : q ∈ m.peers.keys ↔ (m.conn? q).isSome := by
  rw [← AList.mem_keys, conn?, AList.lookup_isSome]

section
variable {rtc : Webrtc} {w : Outcomes} {m : Mesh} {q : String}

theorem Touches.isSome {peer : String} {ms : List ClientMsg} {m' : Mesh} (h : Touches m peer ms m')
    (hq : (m'.conn? q).isSome) : q = peer ∨ (m.conn? q).isSome := by
  by_cases he : q = peer
  · exact Or.inl he
  · exact Or.inr (by rw [← h.conn q he]; exact hq)

/-- The peers that a loop of operations leaves a PeerConn for: those before, and those of the loop. -/
theorem PerPeer.foldl_isSome {op : Mesh → String → Mesh} (hop : PerPeer op) (ids : List String)
    (hq : ((ids.foldl op m).conn? q).isSome) : q ∈ ids ∨ (m.conn? q).isSome := by
  by_cases h : q ∈ ids
  · exact Or.inl h
  · obtain ⟨ms, hl⟩ := hop.foldl_other ids m h
    exact Or.inr (by rw [← hl.conn]; exact hq)

theorem onPeer_isSome {peer : String} (hq : ((m.onPeer rtc w peer).1.conn? q).isSome) : q = peer ∨ (m.conn? q).isSome := by
  obtain ⟨ms, ht, -⟩ := m.onPeer_cases rtc w peer
  exact ht.isSome hq

theorem onPeers_isSome {peers : List PeerInfo} (hq : ((Engine.onPeers rtc w m peers).conn? q).isSome) :
    q ∈ peers.map (·.userId) ∨ (m.conn? q).isSome := by
  rw [onPeers_eq] at hq
  exact (perPeer_onPeer rtc w).foldl_isSome _ hq

theorem rekey_isSome (hq : ((m.rekey rtc w).1.conn? q).isSome) : (m.conn? q).isSome := by
  obtain ⟨n, h⟩ := rekeyLoop_eq rtc w m.peers.keys m
  rw [rekey, h] at hq
  rcases (perPeer_rekeyOne rtc w).foldl_isSome _ hq with hk | hk
  · exact mem_keys_iff.mp (List.mem_of_mem_take hk)
  · exact hk

theorem drop_isSome {peer : String} (hq : ((m.drop peer).conn? q).isSome) : q ≠ peer ∧ (m.conn? q).isSome := by
  have hne : q ≠ peer := fun h => by
    rw [h, drop_conn?_self] at hq
    cases hq
  exact ⟨hne, by rw [← (Touches.drop m peer).conn q hne]; exact hq⟩

/-- An Offer of a peer without PeerConn brings none when its calls fail. -/
theorem onOffer_isSome {sender : String} {sdp : Sdp} (hq : ((m.onOffer rtc w sender sdp).1.conn? q).isSome) :
    (m.conn? q).isSome ∨ q = sender ∧ (w sender .newPeerConnection && w sender .addTrack) = true := by
  by_cases hne : q = sender
  · subst hne
    by_cases hc : (m.conn? q).isSome = true
    · exact Or.inl hc
    · refine Or.inr ⟨rfl, ?_⟩
      by_contra fails
      have hnone : m.conn? q = none := by simpa using hc
      have kept : m.dropEstablished q = m := by simp [dropEstablished, hnone]
      have stuck : m.ensure w q = (m, false) := by
        unfold ensure
        cases hw : w q .newPeerConnection <;> cases hw' : w q .addTrack <;> simp_all
      rw [onOffer, kept, stuck] at hq
      exact hc hq
  · obtain ⟨ms, ht, -⟩ := m.onOffer_touches rtc w sender sdp
    exact Or.inl ((ht.isSome hq).resolve_left hne)

/-- Seeing peers takes no PeerConn away. -/
theorem onPeers_keeps (peers : List PeerInfo) (m : Mesh) (hq : (m.conn? q).isSome) :
    ((Engine.onPeers rtc w m peers).conn? q).isSome := by
  induction peers generalizing m with
  | nil => exact hq
  | cons p peers ih =>
    refine ih _ ?_
    obtain ⟨ms, ht, h⟩ := m.onPeer_cases rtc w p.userId
    by_cases hne : q = p.userId
    · subst hne
      rcases h with ⟨_, p', -, hp', -⟩ | ⟨hnone, -, -⟩ | ⟨p', -, hp', -⟩
      · rw [hp']; rfl
      · rw [hnone] at hq; cases hq
      · rw [hp']; rfl
    · rw [ht.conn q hne]
      exact hq

/-- An Offer leaves a PeerConn for its sender unless none can be made, even where a later call fails. -/
theorem onOffer_opens {sdp : Sdp} (hw : (w q .newPeerConnection && w q .addTrack) = true) :
    ((m.onOffer rtc w q sdp).1.conn? q).isSome := by
  obtain ⟨hpc, htrack⟩ := Bool.and_eq_true_iff.mp hw
  have ensured : ∃ p, ((m.dropEstablished q).ensure w q).1.conn? q = some p ∧
      ((m.dropEstablished q).ensure w q).2 = true := by
    rcases (m.dropEstablished q).ensure_cases w q with ⟨⟨p, hp⟩, he⟩ | ⟨hnone, he⟩ | ⟨-, he⟩
    · exact ⟨p, by rw [he]; exact hp, by rw [he]⟩
    · simp [ensure, hnone, hpc, htrack] at he
    · exact ⟨_, by rw [he]; exact opened_conn?_self _ q, by rw [he]⟩
  obtain ⟨p, hp, hok⟩ := ensured
  simp only [onOffer, hok, Bool.not_true, Bool.false_eq_true, ↓reduceIte, hp]
  split
  · rw [hp]; rfl
  · split
    · rw [hp]; rfl
    · split
      · rw [put_conn?_self]; rfl
      · split
        · rw [put_conn?_self]; rfl
        · rw [send_conn?, put_conn?_self]; rfl

end

end Mesh

namespace Engine

section
variable {rtc : Webrtc} {w : Outcomes} {e : Engine}

theorem mem_rosterMembers_foldl (peers : List PeerInfo) (l : HashMap Member) (q : String) :
    q ∈ peers.foldl (fun l p => l.insert p.userId { name := p.name, badge := none, speaking := false }) l ↔
      q ∈ peers.map (·.userId) ∨ q ∈ l := by
  induction peers generalizing l with
  | nil => simp
  | cons p peers ih =>
    rw [List.foldl_cons, ih, AList.mem_insert, List.map_cons, List.mem_cons, or_left_comm, ← or_assoc]

theorem mem_rosterMembers {peers : List PeerInfo} {q : String} :
    q ∈ rosterMembers peers ↔ q ∈ peers.map (·.userId) := by
  rw [rosterMembers, mem_rosterMembers_foldl]
  simp

/-- Handling a message keeps every peer shown exactly when the message covers them. -/
theorem handle_shows_iff (shows' : e.Shows) (msg : ServerMsg) : (e.handle rtc w msg).Shows ↔ e.Covers w msg := by
  have held : ∀ {q}, (e.mesh.conn? q).isSome → q ∈ e.members := fun hq => shows' _ (Mesh.mem_keys_iff.mpr hq)
  cases msg with
  | roster peers =>
    refine ⟨fun h q hq => ?_, fun cov q hq => ?_⟩
    · have kept : ((Engine.onPeers rtc w e.mesh peers).conn? q).isSome :=
        Mesh.onPeers_keeps peers e.mesh (Mesh.mem_keys_iff.mp hq)
      exact mem_rosterMembers.mp (h q (Mesh.mem_keys_iff.mpr kept))
    · refine mem_rosterMembers.mpr ?_
      rcases Mesh.onPeers_isSome (Mesh.mem_keys_iff.mp hq) with h | h
      · exact h
      · exact cov q (Mesh.mem_keys_iff.mpr h)
  | peerJoined userId name =>
    refine ⟨fun _ => trivial, fun _ q hq => ?_⟩
    exact (AList.mem_insert _).mpr ((Mesh.onPeer_isSome (Mesh.mem_keys_iff.mp hq)).imp id held)
  | peerLeft userId =>
    refine ⟨fun _ => trivial, fun _ q hq => ?_⟩
    obtain ⟨hne, h⟩ := Mesh.drop_isSome (Mesh.mem_keys_iff.mp hq)
    exact AList.mem_erase.mpr ⟨hne, held h⟩
  | offer sender sdp =>
    refine ⟨fun h => ?_, fun cov q hq => ?_⟩
    · cases hw : w sender .newPeerConnection && w sender .addTrack with
      | false => exact Or.inr hw
      | true => exact Or.inl (h sender (Mesh.mem_keys_iff.mpr (Mesh.onOffer_opens hw)))
    · rcases Mesh.onOffer_isSome (Mesh.mem_keys_iff.mp hq) with h | ⟨rfl, hw⟩
      · exact held h
      · exact cov.resolve_right fun hf => by rw [hw] at hf; cases hf
  | answer sender sdp =>
    refine ⟨fun _ => trivial, fun _ q hq => ?_⟩
    rcases (e.mesh.onAnswer_cases rtc w sender sdp).2 with h | ⟨p, hp, -⟩
    · exact shows' q (by simpa only [handle, h] using hq)
    · rcases (e.mesh.onAnswer_cases rtc w sender sdp).1.isSome (Mesh.mem_keys_iff.mp hq) with rfl | h
      · exact held (by rw [hp]; rfl)
      · exact held h
  | ice sender candidate =>
    refine ⟨fun _ => trivial, fun _ q hq => held ?_⟩
    obtain ⟨ht, -, hc⟩ := e.mesh.onIce_cases rtc sender candidate
    have hq' := Mesh.mem_keys_iff.mp hq
    by_cases hne : q = sender
    · subst hne
      simp only [handle, hc, Option.isSome_map] at hq'
      exact hq'
    · rw [← ht.conn q hne]
      exact hq'
  | ptt userId active =>
    refine ⟨fun _ => trivial, fun _ q hq => ?_⟩
    rw [handle_mesh] at hq
    refine mem_members_iff.mpr ?_
    rw [show (e.handle rtc w (.ptt userId active)).names = e.names from e.modifyMember_names userId _ fun _ => rfl]
    exact mem_members_iff.mp (shows' q hq)
  | rekey by' => exact ⟨fun _ => trivial, fun _ q hq => held (Mesh.rekey_isSome (Mesh.mem_keys_iff.mp hq))⟩
  | turn creds =>
    refine ⟨fun _ => trivial, fun _ => ?_⟩
    simp only [handle]
    split
    · exact shows'
    · exact shows'
  | _ => exact ⟨fun _ => trivial, fun _ => shows'⟩

theorem Shows.of_idles {e' : Engine} (h : e.Shows) (idles : Mesh.Idles e.mesh e'.mesh)
    (names : e'.names = e.names) : e'.Shows := by
  intro q hq
  rw [mem_members_iff, names, ← mem_members_iff]
  refine h q (Mesh.mem_keys_iff.mpr ?_)
  rw [← Mesh.link?_isSome, ← idles.link, Mesh.link?_isSome]
  exact Mesh.mem_keys_iff.mp hq

end

end Engine

namespace Sys

/-- Every engine shows every peer it holds a PeerConn for. -/
def Visible (σ : Sys) : Prop := ∀ c e, σ.engines c = some e → e.Shows

/-- If the step handles a message, the message covers the engine's peers. -/
def Covered (σ : Sys) : Act → Prop
  | .handle c w => ∀ e ∈ σ.running? c, ∀ s ∈ e.cur, ∀ msg ∈ (σ.inbox s).head?, e.Covers w msg
  | _ => True

instance (σ : Sys) (a : Act) : Decidable (Covered σ a) := by
  cases a <;> unfold Covered <;> infer_instance

section
variable {cfg : SysConfig} {σ σ' : Sys} {a : Act}

theorem Visible.of_update (vis : Visible σ) (c : ClientId) (e' : Engine)
    (hE : σ'.engines = Function.update σ.engines c (some e')) (shows' : e'.Shows) : Visible σ' := by
  intro d e hd
  rw [hE] at hd
  by_cases h : d = c
  · subst h
    rw [Function.update_self, Option.some.injEq] at hd
    exact hd ▸ shows'
  · rw [Function.update_of_ne h] at hd
    exact vis d e hd

/-- A step keeps every peer visible exactly when the message it handles, if it does, covers them. -/
theorem visible_step_iff (vis : Visible σ) (h : step cfg σ a = some σ') : Visible σ' ↔ Covered σ a := by
  cases a with
  | recv s =>
    obtain ⟨_, _, srv, -, -, rfl⟩ := step_recv_inv h
    exact ⟨fun _ => trivial, fun _ => vis⟩
  | write s =>
    obtain ⟨_, _, _, srv, -, -, -, rfl⟩ := step_write_inv h
    exact ⟨fun _ => trivial, fun _ => vis⟩
  | server b =>
    obtain ⟨-, srv, -, rfl⟩ := step_server_inv h
    exact ⟨fun _ => trivial, fun _ => vis⟩
  | start ecfg =>
    obtain ⟨srv, -, rfl⟩ := step_start_inv h
    exact ⟨fun _ => trivial, fun _ => vis.of_update _ _ rfl fun q hq => by cases hq⟩
  | handle c w =>
    obtain ⟨e, s, msg, rest, he, hr, hc, hi, rfl⟩ := step_handle_inv h
    have covered : Covered σ (.handle c w) ↔ e.Covers w msg := by
      simp [Covered, running?, he, hr, hc, hi]
    rw [covered, ← @Engine.handle_shows_iff cfg.rtc w e (vis c e he) msg]
    exact ⟨fun all => all c _ (by simp), fun sh => vis.of_update _ _ rfl sh⟩
  | lost c =>
    obtain ⟨e, s, he, -, -, -, rfl⟩ := step_lost_inv h
    exact ⟨fun _ => trivial, fun _ => vis.of_update c e.lost rfl (vis c e he)⟩
  | uplink c =>
    obtain ⟨e, msg, rest, he, -, -, rfl⟩ := step_uplink_inv h
    exact ⟨fun _ => trivial, fun _ => vis.of_update c { e with mesh := { e.mesh with out := rest } } (by simp) (vis c e he)⟩
  | reconnect c =>
    obtain ⟨e, srv, he, -, -, -, rfl⟩ := step_reconnect_inv h
    exact ⟨fun _ => trivial, fun _ => vis.of_update c (e.reconnected σ.server.nextSocket) rfl (vis c e he)⟩
  | event c ev =>
    obtain ⟨e, e', msgs, he, -, hev, rfl⟩ := step_event_inv h
    obtain ⟨-, -, idles, names, -⟩ := Engine.onEvent_spec hev
    exact ⟨fun _ => trivial, fun _ => vis.of_update c e' (by simp) ((vis c e he).of_idles idles names)⟩

/-- No participant is hidden in a run whose handled messages all cover the peers, and the first message
    that does not cover them hides one. -/
theorem no_hidden_participants (h : Lts.Reach (step cfg) (fun σ a _ => Covered σ a) empty σ) :
    Visible σ ∧ ∀ a σ', step cfg σ a = some σ' → (Visible σ' ↔ Covered σ a) := by
  have vis : Visible σ := h.invariant (fun _ _ he => by cases he) fun _ _ _ vis cov hs => (visible_step_iff vis hs).mpr cov
  exact ⟨vis, fun _ _ hs => visible_step_iff vis hs⟩

end

/-! Two clients that join one after the other and connect. -/

def sampleConfig : SysConfig :=
  { server := Server.openConfig, rtc := { sdpText := fun _ => "v=0", parsesIce := fun _ => true } }

def noFailure : Outcomes := fun _ _ => true

def sampleUser (userId : String) : EngineConfig :=
  { room := "r", userId, name := userId, token := none, relayEnabled := true }

/-- The server reads what client `c` has to say on socket `s`. -/
def sendActs (c : ClientId) (s : SocketId) : List Act := [.uplink c, .recv s]

/-- Client `c` gets the next `n` messages queued for its socket `s`. -/
def getActs (c : ClientId) (s : SocketId) (n : Nat) : List Act := (List.replicate n [.write s, .handle c noFailure]).flatten

def startActs (userId : String) (s : SocketId) : List Act :=
  [.start (sampleUser userId), .recv s, .server (.finishJoin s 0)]

def connectActs : List Act :=
  startActs "alice" 0 ++ startActs "bob" 1 ++ getActs 0 0 2 ++ sendActs 0 0 ++ getActs 1 1 2 ++
  sendActs 1 1 ++ getActs 0 0 1

def connected : Sys := (Lts.exec (step sampleConfig) empty connectActs).getD empty

theorem no_hidden_participants_connected :
    (∃ e ∈ connected.engines 0, "bob" ∈ e.mesh.peers.keys) ∧ Visible connected ∧
      ∀ a σ', step sampleConfig connected a = some σ' → (Visible σ' ↔ Covered connected a) := by
  refine ⟨⟨_, rfl, by decide⟩, @no_hidden_participants sampleConfig _ ?_⟩
  exact Lts.Reach.of_execOk (fun _ _ _ => of_decide_eq_true)
    (show Lts.execOk (step sampleConfig) (fun σ a _ => decide (Covered σ a)) empty connectActs = some connected from rfl)

/-- The first client loses its connection, the other leaves meanwhile, and the first comes back. -/
def outageActs : List Act :=
  connectActs ++ [.server (.close 0), .lost 0, .server (.close 1), .reconnect 0, .recv 2,
    .server (.finishJoin 2 0)] ++ getActs 0 2 1

def afterOutage : Sys := (Lts.exec (step sampleConfig) empty outageActs).getD empty

theorem peer_hidden_after_outage :
    ¬ ∀ σ, Lts.Reach (step sampleConfig) Lts.anyStep empty σ → Visible σ := by
  intro all
  have reach : Lts.Reach (step sampleConfig) Lts.anyStep empty afterOutage :=
    Lts.Reach.of_exec (fun _ _ _ _ => trivial)
      (show Lts.exec (step sampleConfig) empty outageActs = some afterOutage from rfl)
  have shown := all _ reach 0 _ rfl "bob" (by decide)
  exact absurd shown (by decide)

end Sys

end SquadLink

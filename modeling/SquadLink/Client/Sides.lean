import SquadLink.Client.Reactions

/-! One end of a pair of clients: the PeerConn that a mesh holds for one peer. What a message is about for
    that peer is its cue, and where no webrtc call fails a cue determines what the end says to the peer. -/

namespace SquadLink

/-- What one client says to another through the server. -/
inductive Signal
  | offer (sdp : Sdp)
  | answer (sdp : Sdp)
  | ice (cand : Candidate)
deriving DecidableEq, Repr

namespace Signal

def negotiates : Signal → Bool
  | ice _ => false
  | _ => true

/-- The server relays it. -/
def fits : Signal → Bool
  | offer sdp | answer sdp => decide (sdp.text.utf8ByteSize ≤ maxSdp)
  | ice cand => decide (cand.text.utf8ByteSize ≤ maxIce)

/-- The message that says it to `q`. -/
def msgTo (q : String) : Signal → ClientMsg
  | offer sdp => .offer q sdp
  | answer sdp => .answer q sdp
  | ice cand => .ice q cand

end Signal

/-- What a message says to `q`. -/
def ClientMsg.signalFor (q : String) : ClientMsg → Option Signal
  | .offer dest sdp => if dest = q then some (.offer sdp) else none
  | .answer dest sdp => if dest = q then some (.answer sdp) else none
  | .ice dest cand => if dest = q then some (.ice cand) else none
  | _ => none

/-- What a message is about for the peer `q`. -/
inductive Cue
  | seen
  | left
  | rekey
  | signal (sig : Signal)
  | other
deriving DecidableEq, Repr

def ServerMsg.cue (q : String) : ServerMsg → Cue
  | .roster peers => if q ∈ peers.map (·.userId) then .seen else .other
  | .peerJoined userId _ => if userId = q then .seen else .other
  | .peerLeft userId => if userId = q then .left else .other
  | .offer sender sdp => if sender = q then .signal (.offer sdp) else .other
  | .answer sender sdp => if sender = q then .signal (.answer sdp) else .other
  | .ice sender cand => if sender = q then .signal (.ice cand) else .other
  | .rekey _ => .rekey
  | _ => .other

/-- What `q` says in it. -/
def Cue.signal? : Cue → Option Signal
  | signal sig => some sig
  | _ => none

/-- The message that brings what `q` says. -/
def Signal.msgBy (q : String) : Signal → ServerMsg
  | offer sdp => .offer q sdp
  | answer sdp => .answer q sdp
  | ice cand => .ice q cand

theorem ServerMsg.cue_eq_signal {q : String} {msg : ServerMsg} {sig : Signal} (h : msg.cue q = .signal sig) :
    msg = sig.msgBy q := by
  cases msg with
  | offer sender sdp | answer sender sdp | ice sender cand =>
    simp only [ServerMsg.cue] at h
    split at h
    · rename_i hq
      cases h
      rw [hq]
      rfl
    · cases h
  | roster peers | peerJoined userId name | peerLeft userId =>
    simp only [ServerMsg.cue] at h
    split at h <;> cases h
  | _ => cases h

/-- A PeerConn that nothing has happened to. -/
structure PeerConn.IsNew (p : PeerConn) (pc : PcId) : Prop where
  pc : p.pc = pc
  pendingIce : p.pendingIce = []
  remoteSet : p.remoteSet = false
  descs : p.descs = 0
  remotes : p.remotes = []
  added : p.added = []

namespace PeerConn

/-- A PeerConn that has made its offer. -/
def offered (p : PeerConn) : PeerConn := { p with chat := true, descs := p.descs + 1, haveLocalOffer := true }

/-- A PeerConn that has taken a remote description, with the candidates that waited for it. -/
def concluded (rtc : Webrtc) (sdp : Sdp) (p : PeerConn) : PeerConn := (p.setRemote sdp).flushIce rtc

end PeerConn

/-- The PeerConn held for a peer, and how many have been created for it. -/
structure Side where
  conn : Option PeerConn
  serial : Nat

namespace Side

/-- `p` is the PeerConn that is held, or a new one; the count is `n` then. -/
inductive Has (pc : Nat → PcId) (s : Side) (p : PeerConn) : Nat → Prop
  | held (h : s.conn = some p) : Has pc s p s.serial
  | new (h : s.conn = none) (new : p.IsNew (pc s.serial)) : Has pc s p (s.serial + 1)

def without (s : Side) : Side := { s with conn := none }

/-- An established PeerConn makes way for a fresh offer. -/
def vacated (s : Side) : Side := { s with conn := s.conn.filter fun p => !p.remoteSet }

/-- The PeerConn held has changed. -/
def changed (s : Side) (f : PeerConn → PeerConn) : Side := { s with conn := s.conn.map f }

/-- What a cue does to a side, and what it makes the side say. -/
inductive Reacts (rtc : Webrtc) (offers : Bool) (pc : Nat → PcId) (s : Side) : Cue → Side → List Signal → Prop
  | offered {p : PeerConn} {n : Nat} (smaller : offers = true) (has : s.Has pc p n) :
      Reacts rtc offers pc s .seen ⟨some p.offered, n⟩ [.offer (p.nextSdp rtc none)]
  | waits {p : PeerConn} {n : Nat} (larger : offers = false) (has : s.Has pc p n) :
      Reacts rtc offers pc s .seen ⟨some p, n⟩ []
  | left : Reacts rtc offers pc s .left s.without []
  | rotated {p : PeerConn} {n : Nat} (smaller : offers = true) (held : s.conn.isSome) (has : s.without.Has pc p n) :
      Reacts rtc offers pc s .rekey ⟨some p.offered, n⟩ [.offer (p.nextSdp rtc none)]
  | unrotated (h : s.conn = none ∨ offers = false) : Reacts rtc offers pc s .rekey s []
  | answered (sdp : Sdp) {p : PeerConn} {n : Nat} (has : s.vacated.Has pc p n) :
      Reacts rtc offers pc s (.signal (.offer sdp)) ⟨some (p.concluded rtc sdp).created, n⟩
        [.answer ((p.concluded rtc sdp).nextSdp rtc (some sdp.id))]
  | concluded (sdp : Sdp) : Reacts rtc offers pc s (.signal (.answer sdp)) (s.changed (·.concluded rtc sdp)) []
  | ice (cand : Candidate) : Reacts rtc offers pc s (.signal (.ice cand)) (s.changed (·.addOrQueueIce rtc cand)) []
  | other : Reacts rtc offers pc s .other s []
  /-- The chat channel arrives. -/
  | chats : Reacts rtc offers pc s .other (s.changed fun p => { p with chat := true }) []

end Side

@[simp] theorem ClientMsg.signalFor_msgTo (q : String) (sig : Signal) : (sig.msgTo q).signalFor q = some sig := by
  cases sig <;> simp [Signal.msgTo, signalFor]

theorem ClientMsg.signalFor_of_dest {q : String} {msg : ClientMsg} (h : msg.dest ≠ some q) : msg.signalFor q = none := by
  cases msg <;> simp_all [dest, signalFor]

theorem ClientMsg.negotiates_signalFor {q : String} {msg : ClientMsg} {sig : Signal} (h : msg.signalFor q = some sig) :
    sig.negotiates = msg.negotiates := by
  cases msg <;> simp only [signalFor, Option.ite_none_right_eq_some, Option.some.injEq, reduceCtorEq] at h <;>
    · obtain ⟨-, rfl⟩ := h
      rfl

/-- The negotiation in what is said to `q`. -/
theorem ClientMsg.filter_signalFor (q : String) (msgs : List ClientMsg) :
    (msgs.filterMap (signalFor q)).filter Signal.negotiates = (msgs.filter negotiates).filterMap (signalFor q) := by
  induction msgs with
  | nil => rfl
  | cons msg msgs ih =>
    cases h : msg.signalFor q with
    | none => cases hn : msg.negotiates <;> simp [h, hn, ih]
    | some sig => cases hn : msg.negotiates <;> simp [h, hn, ih, negotiates_signalFor h]

@[simp] theorem Signal.filterMap_msgTo (q : String) (said : List Signal) :
    (said.map (Signal.msgTo q)).filterMap (ClientMsg.signalFor q) = said := by
  induction said with
  | nil => rfl
  | cons sig said ih => simp [ih]

namespace Mesh

def side (m : Mesh) (q : String) : Side := ⟨m.conn? q, m.serial q⟩

/-- The PeerConns that a mesh makes for a peer. -/
def pcFor (m : Mesh) (q : String) (n : Nat) : PcId := { owner := m.owner, peer := q, serial := n }

section
variable {rtc : Webrtc} {w : Outcomes} {m m' : Mesh} {q : String} {ms : List ClientMsg}

theorem side_eq {c : Option PeerConn} {n : Nat} (hc : m.conn? q = c) (hs : m.serial q = n) : m.side q = ⟨c, n⟩ := by
  rw [side, hc, hs]

theorem Leaves.side (h : Leaves m q ms m') : m'.side q = m.side q := side_eq h.conn h.serial

theorem Leaves.pcFor (h : Leaves m q ms m') : m'.pcFor q = m.pcFor q := by
  funext n
  rw [Mesh.pcFor, Mesh.pcFor, h.owner]

theorem Leaves.silent (h : Leaves m q ms m') : ms.filterMap (ClientMsg.signalFor q) = [] :=
  List.filterMap_eq_nil_iff.mpr fun msg hm => ClientMsg.signalFor_of_dest (h.others msg hm)

/-- The PeerConn that `ensure` finds or makes. -/
theorem has_getD {c : Option PeerConn} (hc : c = m.conn? q ∨ c = none) :
    Side.Has (m.pcFor q) ⟨c, m.serial q⟩ (c.getD (m.fresh q)) (m.serial q + if c.isSome then 0 else 1) := by
  cases c with
  | none => exact .new rfl ⟨rfl, rfl, rfl, rfl, rfl, rfl⟩
  | some p => exact .held rfl

/-! ### The operations for the peer itself -/

theorem onPeer_reacts (ok : w.AllOk) : ∃ said, Touches m q (said.map (Signal.msgTo q)) (m.onPeer rtc w q).1 ∧
    Side.Reacts rtc (decide (m.myId < q)) (m.pcFor q) (m.side q) .seen ((m.onPeer rtc w q).1.side q) said := by
  obtain ⟨m', he, ht, hc, hs⟩ := m.onPeer_ok rtc q ok rfl
  have has : (m.side q).Has (m.pcFor q) _ _ := has_getD (.inl rfl)
  rw [he]
  by_cases hlt : m.myId < q
  · rw [if_pos hlt] at ht hc
    refine ⟨[.offer _], ht, ?_⟩
    rw [side_eq hc hs]
    exact .offered (decide_eq_true hlt) has
  · rw [if_neg hlt] at ht hc
    refine ⟨[], ht, ?_⟩
    rw [side_eq hc hs]
    exact .waits (decide_eq_false hlt) has

theorem rekeyOne_reacts (ok : w.AllOk) (held : (m.conn? q).isSome) :
    ∃ said, Touches m q (said.map (Signal.msgTo q)) (rekeyOne rtc w m q) ∧
      Side.Reacts rtc (decide (m.myId < q)) (m.pcFor q) (m.side q) .rekey ((rekeyOne rtc w m q).side q) said := by
  unfold rekeyOne
  by_cases hlt : m.myId < q
  · rw [if_pos hlt]
    obtain ⟨m', he, ht, hc, hs⟩ := (m.drop q).onPeer_ok rtc q ok rfl
    have hlt' : (m.drop q).myId < q := hlt
    have has : (m.side q).without.Has (m.pcFor q) _ _ := has_getD (.inr rfl)
    rw [if_pos hlt'] at ht hc
    rw [drop_conn?_self] at ht hc hs
    rw [he]
    refine ⟨[.offer _], (Touches.drop m q).trans ht, ?_⟩
    rw [side_eq hc hs]
    exact .rotated (decide_eq_true hlt) held has
  · rw [if_neg hlt]
    exact ⟨[], .refl m q, .unrotated (.inr (decide_eq_false hlt))⟩

theorem onOffer_reacts (ok : w.AllOk) (sdp : Sdp) :
    ∃ said, Touches m q (said.map (Signal.msgTo q)) (m.onOffer rtc w q sdp).1 ∧
      Side.Reacts rtc (decide (m.myId < q)) (m.pcFor q) (m.side q) (.signal (.offer sdp)) ((m.onOffer rtc w q sdp).1.side q)
        said := by
  obtain ⟨m', he, ht, hc, hs⟩ := m.onOffer_ok rtc q ok sdp rfl
  have kept : (m.conn? q).filter (fun p => !p.remoteSet) = m.conn? q ∨
      (m.conn? q).filter (fun p => !p.remoteSet) = none := by
    cases m.conn? q with
    | none => exact .inr rfl
    | some p => cases hset : p.remoteSet <;> simp [hset]
  have has : (m.side q).vacated.Has (m.pcFor q) _ _ := has_getD kept
  rw [he]
  refine ⟨[.answer _], ht, ?_⟩
  rw [side_eq hc hs]
  exact .answered sdp has

/-! ### A whole message -/

/-- What a loop over the peers does to one of them. -/
theorem PerPeer.foldl_reacts {op : Mesh → String → Mesh} (hop : PerPeer op) {ids : List String} (distinct : ids.Nodup)
    (hq : q ∈ ids) {cue : Cue}
    (one : ∀ m₀ : Mesh, m₀.conn? q = m.conn? q → ∃ said, Touches m₀ q (said.map (Signal.msgTo q)) (op m₀ q) ∧
      Side.Reacts rtc (decide (m₀.myId < q)) (m₀.pcFor q) (m₀.side q) cue ((op m₀ q).side q) said) :
    ∃ ms, (ids.foldl op m).sent = m.sent ++ ms ∧
      Side.Reacts rtc (decide (m.myId < q)) (m.pcFor q) (m.side q) cue ((ids.foldl op m).side q)
        (ms.filterMap (ClientMsg.signalFor q)) := by
  obtain ⟨m₀, ms₁, ms₂, h₁, h₂⟩ := hop.foldl_at ids m distinct hq
  obtain ⟨said, ht, reacts⟩ := one m₀ h₁.conn
  refine ⟨ms₁ ++ said.map (Signal.msgTo q) ++ ms₂, ?_, ?_⟩
  · rw [h₂.sent, ht.sent, h₁.sent]
    simp only [List.append_assoc]
  · rw [List.filterMap_append, List.filterMap_append, h₁.silent, h₂.silent, Signal.filterMap_msgTo, List.nil_append,
      List.append_nil, h₂.side, ← h₁.side, ← h₁.pcFor, ← h₁.myId]
    exact reacts

/-- Handling a message is, for each peer, the reaction to the message's cue. -/
theorem react_reacts (ok : w.AllOk) (relayEnabled : Bool) {msg : ServerMsg}
    (distinct : ∀ peers, msg = .roster peers → (peers.map (·.userId)).Nodup) :
    ∃ ms, (m.react rtc w relayEnabled msg).sent = m.sent ++ ms ∧
      Side.Reacts rtc (decide (m.myId < q)) (m.pcFor q) (m.side q) (msg.cue q) ((m.react rtc w relayEnabled msg).side q)
        (ms.filterMap (ClientMsg.signalFor q)) := by
  -- An operation for the peer, and one for another peer.
  have own : ∀ {m' : Mesh} {cue : Cue} {said : List Signal}, Touches m q (said.map (Signal.msgTo q)) m' →
      Side.Reacts rtc (decide (m.myId < q)) (m.pcFor q) (m.side q) cue (m'.side q) said →
      ∃ ms, m'.sent = m.sent ++ ms ∧
        Side.Reacts rtc (decide (m.myId < q)) (m.pcFor q) (m.side q) cue (m'.side q)
          (ms.filterMap (ClientMsg.signalFor q)) :=
    fun ht reacts => ⟨_, ht.sent, by rw [Signal.filterMap_msgTo]; exact reacts⟩
  have elsewhere : ∀ {m' : Mesh} {ms : List ClientMsg}, Leaves m q ms m' →
      ∃ ms, m'.sent = m.sent ++ ms ∧
        Side.Reacts rtc (decide (m.myId < q)) (m.pcFor q) (m.side q) .other (m'.side q)
          (ms.filterMap (ClientMsg.signalFor q)) :=
    fun leaves => ⟨_, leaves.sent, by rw [leaves.silent, leaves.side]; exact .other⟩
  have still : ∀ {m' : Mesh}, m'.sent = m.sent → m'.side q = m.side q → ∃ ms, m'.sent = m.sent ++ ms ∧
      Side.Reacts rtc (decide (m.myId < q)) (m.pcFor q) (m.side q) .other (m'.side q)
        (ms.filterMap (ClientMsg.signalFor q)) :=
    fun hsent hside => ⟨[], by rw [hsent, List.append_nil], by rw [hside]; exact .other⟩
  cases msg with
  | roster peers =>
    simp only [react, onPeers_eq, ServerMsg.cue]
    by_cases hq : q ∈ peers.map (·.userId)
    · rw [if_pos hq]
      exact (perPeer_onPeer rtc w).foldl_reacts (distinct peers rfl) hq fun _ _ => onPeer_reacts ok
    · rw [if_neg hq]
      obtain ⟨ms, leaves⟩ := (perPeer_onPeer rtc w).foldl_other _ m hq
      exact elsewhere leaves
  | peerJoined userId name =>
    simp only [react, ServerMsg.cue]
    by_cases hq : userId = q
    · subst hq
      rw [if_pos rfl]
      obtain ⟨said, ht, reacts⟩ := onPeer_reacts ok
      exact own ht reacts
    · rw [if_neg hq]
      obtain ⟨ms, ht, hms⟩ := perPeer_onPeer rtc w m userId
      exact elsewhere (ht.leaves hms (Ne.symm hq))
  | peerLeft userId =>
    simp only [react, ServerMsg.cue]
    by_cases hq : userId = q
    · subst hq
      rw [if_pos rfl]
      refine @own _ _ [] (Touches.drop m userId) ?_
      rw [show (m.onLeft userId).side userId = (m.side userId).without from side_eq (m.drop_conn?_self userId) rfl]
      exact .left
    · rw [if_neg hq]
      exact elsewhere ((Touches.drop m userId).leaves (by simp) (Ne.symm hq))
  | offer sender sdp =>
    simp only [react, ServerMsg.cue]
    by_cases hq : sender = q
    · subst hq
      rw [if_pos rfl]
      obtain ⟨said, ht, reacts⟩ := onOffer_reacts ok sdp
      exact own ht reacts
    · rw [if_neg hq]
      obtain ⟨ms, ht, hms⟩ := m.onOffer_touches rtc w sender sdp
      refine elsewhere (ht.leaves (fun msg hm => ?_) (Ne.symm hq))
      obtain ⟨ans, rfl⟩ := hms msg hm
      rfl
  | answer sender sdp =>
    simp only [react, ServerMsg.cue]
    obtain ⟨ht, hs, hc⟩ := m.onAnswer_ok rtc sender ok sdp
    by_cases hq : sender = q
    · subst hq
      rw [if_pos rfl]
      refine @own _ _ [] ht ?_
      rw [side_eq hc hs]
      exact .concluded sdp
    · rw [if_neg hq]
      exact elsewhere (ht.leaves (by simp) (Ne.symm hq))
  | ice sender cand =>
    simp only [react, ServerMsg.cue]
    obtain ⟨ht, hs, hc⟩ := m.onIce_cases rtc sender cand
    by_cases hq : sender = q
    · subst hq
      rw [if_pos rfl]
      refine @own _ _ [] ht ?_
      rw [side_eq hc hs]
      exact .ice cand
    · rw [if_neg hq]
      exact elsewhere (ht.leaves (by simp) (Ne.symm hq))
  | rekey by' =>
    simp only [react, rekey, rekeyLoop_ok rtc w ok, ServerMsg.cue]
    by_cases hq : (m.conn? q).isSome
    · refine (perPeer_rekeyOne rtc w).foldl_reacts m.peers.keys_nodup (AList.mem_keys.mpr (AList.lookup_isSome.mp hq)) ?_
      exact fun m₀ hc => rekeyOne_reacts ok (by rw [hc]; exact hq)
    · have hnone : m.conn? q = none := by simpa using hq
      obtain ⟨ms, leaves⟩ := (perPeer_rekeyOne rtc w).foldl_other m.peers.keys m
        fun hk => hq (AList.lookup_isSome.mpr (AList.mem_keys.mp hk))
      refine ⟨ms, leaves.sent, ?_⟩
      rw [leaves.silent, leaves.side]
      exact .unrotated (.inl hnone)
  | turn creds =>
    simp only [react]
    split
    · exact still rfl rfl
    · exact still rfl rfl
  | _ => exact still rfl rfl

/-- What a message makes the mesh say, and its reaction for every peer. -/
theorem react_sides (ok : w.AllOk) (relayEnabled : Bool) (m : Mesh) {msg : ServerMsg}
    (distinct : ∀ peers, msg = .roster peers → (peers.map (·.userId)).Nodup) :
    ∃ ms, (m.react rtc w relayEnabled msg).out = m.out ++ ms ∧ (m.react rtc w relayEnabled msg).sent = m.sent ++ ms ∧
      ∀ q, Side.Reacts rtc (decide (m.myId < q)) (m.pcFor q) (m.side q) (msg.cue q)
        ((m.react rtc w relayEnabled msg).side q) (ms.filterMap (ClientMsg.signalFor q)) := by
  obtain ⟨ms, out, sent, -⟩ := (m.react_grows rtc w relayEnabled msg).sends
  refine ⟨ms, out, sent, fun q => ?_⟩
  obtain ⟨ms', sent', reacts⟩ := react_reacts ok relayEnabled distinct
  rw [List.append_cancel_left (sent.symm.trans sent')]
  exact reacts

end

end Mesh

end SquadLink

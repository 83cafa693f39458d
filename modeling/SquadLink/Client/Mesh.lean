import Mathlib.Logic.Function.Basic
import SquadLink.Protocol

/-! The mesh of a client (`companion-core/src/mesh.rs`): one PeerConn for each remote peer. The webrtc
    library is a parameter: the texts it produces, and which of its calls fail. Of what the library does
    with a PeerConnection only the descriptions and candidates that it has been given are kept. -/

namespace SquadLink

/-- What the program takes from webrtc: the text of a local description, and which candidate strings
    parse. -/
structure Webrtc where
  sdpText : DescId → String
  parsesIce : String → Bool

/-- The fallible calls that the mesh makes for one peer. -/
inductive RtcCall
  | newPeerConnection
  | addTrack
  | createDataChannel
  | createOffer
  | createAnswer
  | setLocalDescription
  | parseSdp
  | setRemoteDescription
deriving DecidableEq, Repr

/-- Which calls succeed while one message is handled. -/
abbrev Outcomes := String → RtcCall → Bool

/-- No webrtc call fails. -/
def Outcomes.AllOk (w : Outcomes) : Prop := ∀ peer call, w peer call = true

structure IceServer where
  urls : List String
  username : String := ""
  credential : String := ""
deriving DecidableEq, Repr

/-- `descs` counts the local descriptions created; `remotes` and `added` are the remote descriptions set
    and the candidates added so far. `haveLocalOffer` is the library's signaling state of that name: an offer
    is set as the local description, and no remote description has been set since. -/
structure PeerConn where
  pc : PcId
  config : List IceServer
  pendingIce : List Candidate := []
  remoteSet : Bool := false
  chat : Bool := false
  descs : Nat := 0
  remotes : List Sdp := []
  added : List Candidate := []
  haveLocalOffer : Bool := false
deriving DecidableEq, Repr

namespace PeerConn

def addIceCandidate (rtc : Webrtc) (p : PeerConn) (cand : Candidate) : PeerConn :=
  if rtc.parsesIce cand.text then { p with added := p.added ++ [cand] } else p

def addOrQueueIce (rtc : Webrtc) (p : PeerConn) (cand : Candidate) : PeerConn :=
  if p.remoteSet then p.addIceCandidate rtc cand else { p with pendingIce := p.pendingIce ++ [cand] }

def flushIce (rtc : Webrtc) (p : PeerConn) : PeerConn :=
  p.pendingIce.foldl (addIceCandidate rtc) { p with remoteSet := true, pendingIce := [] }

/-- The library accepts a remote description. -/
def setRemote (p : PeerConn) (sdp : Sdp) : PeerConn :=
  { p with remotes := p.remotes ++ [sdp], haveLocalOffer := false }

/-- The library accepts an offer as the local description. -/
def setLocalOffer (p : PeerConn) : PeerConn := { p with haveLocalOffer := true }

/-- The local description that the library creates next. -/
def nextSdp (rtc : Webrtc) (p : PeerConn) (replyTo : Option DescId) : Sdp :=
  { text := rtc.sdpText { pc := p.pc, n := p.descs }, id := { pc := p.pc, n := p.descs }, replyTo }

def created (p : PeerConn) : PeerConn := { p with descs := p.descs + 1 }

section
variable (rtc : Webrtc) (p : PeerConn)

theorem foldl_addIceCandidate (cands : List Candidate) :
    ∃ added, cands.foldl (addIceCandidate rtc) p = { p with added } := by
  induction cands generalizing p with
  | nil => exact ⟨p.added, rfl⟩
  | cons c cands ih =>
    rw [List.foldl_cons]
    obtain ⟨added, h⟩ := ih (p.addIceCandidate rtc c)
    refine ⟨added, h.trans ?_⟩
    unfold addIceCandidate
    split <;> rfl

/-- Flushing sets the flag and touches nothing but the candidates. -/
theorem flushIce_eq : ∃ added, p.flushIce rtc = { p with remoteSet := true, pendingIce := [], added } :=
  foldl_addIceCandidate rtc _ _

@[simp] theorem flushIce_pc : (p.flushIce rtc).pc = p.pc := by
  obtain ⟨_, h⟩ := p.flushIce_eq rtc
  rw [h]

@[simp] theorem flushIce_remoteSet : (p.flushIce rtc).remoteSet = true := by
  obtain ⟨_, h⟩ := p.flushIce_eq rtc
  rw [h]

@[simp] theorem flushIce_remotes : (p.flushIce rtc).remotes = p.remotes := by
  obtain ⟨_, h⟩ := p.flushIce_eq rtc
  rw [h]

@[simp] theorem flushIce_haveLocalOffer : (p.flushIce rtc).haveLocalOffer = p.haveLocalOffer := by
  obtain ⟨_, h⟩ := p.flushIce_eq rtc
  rw [h]

@[simp] theorem flushIce_descs : (p.flushIce rtc).descs = p.descs := by
  obtain ⟨_, h⟩ := p.flushIce_eq rtc
  rw [h]

theorem addOrQueueIce_eq (cand : Candidate) :
    ∃ added pendingIce, p.addOrQueueIce rtc cand = { p with added, pendingIce } := by
  unfold addOrQueueIce addIceCandidate
  split
  · split
    · exact ⟨_, _, rfl⟩
    · exact ⟨_, _, rfl⟩
  · exact ⟨_, _, rfl⟩

end

end PeerConn

/-- `serial` counts, for each peer, the PeerConnections created; `sent` is all that went into `out`, and
    `closed` what has been closed. No step reads these three. -/
structure Mesh where
  owner : ClientId
  myId : String
  out : List ClientMsg := []
  iceServers : List IceServer := [{ urls := ["stun:stun.l.google.com:19302"] }]
  peers : HashMap PeerConn := ∅
  serial : String → Nat := fun _ => 0
  sent : List ClientMsg := []
  closed : List PcId := []

namespace Mesh

section
variable (rtc : Webrtc) (w : Outcomes) (m : Mesh)

def addTurn (creds : TurnCreds) : Mesh :=
  { m with iceServers := m.iceServers ++
    [{ urls := creds.urls, username := creds.username, credential := creds.credential }] }

/-- The PeerConn held for a peer. -/
def conn? (peer : String) : Option PeerConn := m.peers.lookup peer

def put (peer : String) (p : PeerConn) : Mesh := { m with peers := m.peers.insert peer p }

def send (msg : ClientMsg) : Mesh := { m with out := m.out ++ [msg], sent := m.sent ++ [msg] }

/-- Removes the PeerConn of a peer, if there is one, and closes it. -/
def drop (peer : String) : Mesh :=
  { m with peers := m.peers.erase peer, closed := m.closed ++ ((m.conn? peer).map (·.pc)).toList }

/-- A new PeerConn for a peer. -/
def fresh (peer : String) : PeerConn :=
  { pc := { owner := m.owner, peer, serial := m.serial peer }, config := m.iceServers }

def opened (peer : String) : Mesh :=
  { m.put peer (m.fresh peer) with serial := Function.update m.serial peer (m.serial peer + 1) }

def ensure (peer : String) : Mesh × Bool :=
  if (m.conn? peer).isSome then (m, true)
  else if !w peer .newPeerConnection then (m, false)
  else if !w peer .addTrack then (m, false)
  else (m.opened peer, true)

/-- Called when the peer has a PeerConn: the first branch stands for the `unwrap`. -/
def offer (peer : String) : Mesh × Bool :=
  match m.conn? peer with
  | none => (m, false)
  | some p =>
    if !w peer .createDataChannel then (m, false)
    else
      let p := { p with chat := true }
      if !w peer .createOffer then (m.put peer p, false)
      else if !w peer .setLocalDescription then (m.put peer p.created, false)
      else ((m.put peer p.created.setLocalOffer).send (.offer peer (p.nextSdp rtc none)), true)

/-- Saw a peer (roster or peer-joined): ensure a PC; offer if we're the smaller id (glare rule). -/
def onPeer (peer : String) : Mesh × Bool :=
  let (m, ok) := m.ensure w peer
  if !ok then (m, false)
  else if m.myId < peer then m.offer rtc w peer
  else (m, true)

/-- A fresh offer for an already-established peer replaces its PC. -/
def dropEstablished (sender : String) : Mesh :=
  match m.conn? sender with
  | some p => if p.remoteSet then m.drop sender else m
  | none => m

def onOffer (sender : String) (sdp : Sdp) : Mesh × Bool :=
  let (m, ok) := (m.dropEstablished sender).ensure w sender
  if !ok then (m, false)
  else
    match m.conn? sender with
    | none => (m, false)
    | some p =>
      if !w sender .parseSdp then (m, false)
      else if !w sender .setRemoteDescription then (m, false)
      else
        let p := (p.setRemote sdp).flushIce rtc
        if !w sender .createAnswer then (m.put sender p, false)
        else if !w sender .setLocalDescription then (m.put sender p.created, false)
        else ((m.put sender p.created).send (.answer sender (p.nextSdp rtc (some sdp.id))), true)

def onAnswer (sender : String) (sdp : Sdp) : Mesh × Bool :=
  match m.conn? sender with
  | none => (m, true)
  | some p =>
    if !w sender .parseSdp then (m, false)
    else if !w sender .setRemoteDescription then (m, false)
    else (m.put sender ((p.setRemote sdp).flushIce rtc), true)

def onIce (sender : String) (cand : Candidate) : Mesh :=
  match m.conn? sender with
  | none => m
  | some p => m.put sender (p.addOrQueueIce rtc cand)

def onLeft (peer : String) : Mesh := m.drop peer

/-- For each pair only the smaller user id tears down and re-offers; the larger side keeps its old PC and
    lets `onOffer` replace it. -/
def rekeyLoop (rtc : Webrtc) (w : Outcomes) : List String → Mesh → Mesh × Bool
  | [], m => (m, true)
  | id :: ids, m =>
    if m.myId < id then
      let (m, ok) := (m.drop id).onPeer rtc w id
      if !ok then (m, false) else rekeyLoop rtc w ids m
    else rekeyLoop rtc w ids m

def rekey : Mesh × Bool := rekeyLoop rtc w m.peers.keys m

/-- The peers that get a chat line. -/
def broadcastChat : List String := m.peers.keys.filter fun peer => ((m.conn? peer).map (·.chat)).getD false

/-- The library reports a local candidate of a PeerConnection. -/
def onIceCandidate (pc : PcId) (text : String) : Mesh := m.send (.ice pc.peer { text, pc })

/-- The chat channel of a PeerConnection arrives from the offerer. -/
def onDataChannel (pc : PcId) : Mesh :=
  match m.conn? pc.peer with
  | some p => if p.pc = pc then m.put pc.peer { p with chat := true } else m
  | none => m

end

end Mesh

end SquadLink

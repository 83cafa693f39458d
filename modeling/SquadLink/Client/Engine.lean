import Mathlib.Algebra.Group.Nat.Defs
import Mathlib.Data.String.Basic
import SquadLink.Client.Mesh
import SquadLink.Lib.Sorting

/-! The engine loop of a client (`companion-core/src/lib.rs`, `start`): the members shown to the user, the
    mesh, and the signaling connection with its automatic reconnect. Audio and the byte statistics are left
    out. `cur` is the connection that both `cur_in` and `cur_out` belong to; they are set and cleared
    together. -/

namespace SquadLink

structure EngineConfig where
  room : String
  userId : String
  name : String
  token : Option String
  relayEnabled : Bool
deriving DecidableEq, Repr

structure Member where
  name : String
  badge : Option String
  speaking : Bool
deriving DecidableEq, Repr

structure Participant where
  userId : String
  name : String
  you : Bool
  badge : Option String
  speaking : Bool
deriving DecidableEq, Repr

inductive UiEvent
  | status (connected transmitting : Bool)
  | roster (participants : List Participant)
  | chat (sender text : String)
  | rekeyed (generation : Nat) (by' : String)
  | signaling (up : Bool)
  | log (text : String)
deriving DecidableEq, Repr

/-- Internal events from the mesh layer back to the engine loop. -/
inductive MeshEvent
  | chat (sender text : String)
  | badge (peer badge : String)
deriving DecidableEq, Repr

inductive Cmd
  | toggleTx
  | setTx (on : Bool)
  | chat (text : String)
  | rekey
  | reconnect
deriving DecidableEq, Repr

/-- `nextTry` is the armed reconnect timer, with its delay in seconds, and `ui` what the sink was given. -/
structure Engine where
  cfg : EngineConfig
  mesh : Mesh
  members : HashMap Member := ∅
  keyGen : Nat := 1
  cur : Option SocketId
  nextTry : Option Nat := none
  backoff : Nat := 2
  transmit : Bool := false
  running : Bool := true
  ui : List UiEvent := []

/-- The largest `u32`. -/
def maxU32 : Nat := 2 ^ 32 - 1

namespace Engine

/-- The Join with which an engine opens a signaling connection. -/
def joinMsg (cfg : EngineConfig) : ClientMsg := .join cfg.room cfg.userId cfg.name cfg.token

def start (cfg : EngineConfig) (c : ClientId) (s : SocketId) : Engine :=
  { cfg, mesh := { owner := c, myId := cfg.userId }, cur := some s, ui := [.status true false] }

section
variable (rtc : Webrtc) (w : Outcomes) (e : Engine)

def emit (ev : UiEvent) : Engine := { e with ui := e.ui ++ [ev] }

/-- The others in the order of their names, after the user itself. -/
def participants : List Participant :=
  { userId := e.cfg.userId, name := e.cfg.name, you := true, badge := none, speaking := e.transmit } ::
    Sorting.sortOn (·.name) (e.members.entries.map fun m =>
      { userId := m.1, name := m.2.name, you := false, badge := m.2.badge, speaking := m.2.speaking })

def emitRoster : Engine := e.emit (.roster e.participants)

/-- The members map that a Roster is collected into. -/
def rosterMembers (peers : List PeerInfo) : HashMap Member :=
  peers.foldl (fun l p => l.insert p.userId { name := p.name, badge := none, speaking := false }) ∅

/-- The peers of a Roster, one after the other; errors are ignored. -/
def onPeers (rtc : Webrtc) (w : Outcomes) (m : Mesh) (peers : List PeerInfo) : Mesh :=
  peers.foldl (fun m p => (m.onPeer rtc w p.userId).1) m

/-- `get_mut` and an update in place. -/
def modifyMember (peer : String) (f : Member → Member) : Engine :=
  match e.members.lookup peer with
  | some m => { e with members := e.members.insert peer (f m) }
  | none => e

def handle : ServerMsg → Engine
  | .roster peers => { e with members := rosterMembers peers, mesh := onPeers rtc w e.mesh peers }.emitRoster
  | .peerJoined userId name =>
    { e with
      members := e.members.insert userId { name, badge := none, speaking := false }
      mesh := (e.mesh.onPeer rtc w userId).1 }.emitRoster
  | .peerLeft userId => { e with members := e.members.erase userId, mesh := e.mesh.onLeft userId }.emitRoster
  | .offer sender sdp => { e with mesh := (e.mesh.onOffer rtc w sender sdp).1 }
  | .answer sender sdp => { e with mesh := (e.mesh.onAnswer rtc w sender sdp).1 }
  | .ice sender candidate => { e with mesh := e.mesh.onIce rtc sender candidate }
  | .ptt userId active => (e.modifyMember userId fun m => { m with speaking := active }).emitRoster
  | .rekey by' =>
    let keyGen := min (e.keyGen + 1) maxU32
    { e with mesh := (e.mesh.rekey rtc w).1, keyGen }.emit (.rekeyed keyGen by')
  | .turn creds =>
    if e.cfg.relayEnabled then { e with mesh := e.mesh.addTurn creds }
    else e.emit (.log "TURN-Relay angeboten, aber deaktiviert (nur direkt/STUN).")
  | .warn size cap => e.emit (.log s!"Room {size}/{cap} — Audioqualität kann leiden")
  | .roomFull cap => { e.emit (.log s!"Room voll @ {cap}") with running := false }
  | .error code message => e.emit (.log s!"{code}: {message}")

/-- The signaling connection has ended; the mesh keeps running. -/
def lost : Engine :=
  ({ e with cur := none, backoff := 2, nextTry := some 2 }.emit (.signaling false)).emit
    (.log "Signaling verloren - automatischer Reconnect laeuft.")

def reconnected (s : SocketId) : Engine :=
  ({ e with cur := some s, nextTry := none, backoff := 2 }.emit (.signaling true)).emit (.log "Signaling wiederverbunden.")

def reconnectFailed (err : String) : Engine :=
  let backoff := min (e.backoff * 2) 30
  { e with backoff, nextTry := some backoff }.emit
    (.log s!"Reconnect fehlgeschlagen ({err}) - neuer Versuch in {backoff}s.")

/-- Sets the push-to-talk state and says what goes out for it. -/
def setTransmit (on : Bool) : Engine × List ClientMsg :=
  (({ e with transmit := on }.emit (.status true on)).emitRoster, [.ptt on])

/-- A command, and what it sends to the current connection if there is one. -/
def command : Cmd → Engine × List ClientMsg
  | .toggleTx => e.setTransmit !e.transmit
  | .setTx on => if e.transmit ≠ on then e.setTransmit on else (e, [])
  | .chat text => (e.emit (.chat e.cfg.name text), [])
  | .rekey => (e, [.rekey])
  | .reconnect => (if e.cur.isNone then { e with backoff := 2, nextTry := some 0 } else e, [])

/-- The engine's handle is dropped. -/
def quit : Engine := { e.emit (.status false false) with running := false }

def meshEvent : MeshEvent → Engine
  | .chat sender text => e.emit (.chat (((e.members.lookup sender).map (·.name)).getD sender) text)
  | .badge peer badge => (e.modifyMember peer fun m => { m with badge := some badge }).emitRoster

end

end Engine

end SquadLink

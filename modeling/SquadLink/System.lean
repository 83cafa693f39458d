import SquadLink.Client.Links
import SquadLink.Lib.Lts
import SquadLink.Server.Invariants

/-! The server together with any number of client engines. A signaling connection is a socket of the
    server: what its client has sent waits in `wire`, what the server's writer task has sent waits in
    `inbox`. Every interleaving of the server's tasks and the engines' loops is a run of `Sys.step`. -/

namespace SquadLink

structure SysConfig where
  server : ServerConfig
  rtc : Webrtc

/-- What happens to one engine without a message from the server. -/
inductive LocalEvent
  | reconnectFailed (err : String)
  | command (cmd : Cmd)
  /-- The engine's handle is dropped. -/
  | quit
  | mesh (ev : MeshEvent)
  /-- A PeerConnection reports a local candidate. -/
  | candidate (pc : PcId) (text : String)
  | dataChannel (pc : PcId)
  /-- The iteration order of the mesh's peers changes. -/
  | rehash (peers : HashMap PeerConn)

/-- One round of the loop that handles no message, and what it sends to the current connection. -/
def Engine.onEvent (e : Engine) : LocalEvent → Option (Engine × List ClientMsg)
  | .reconnectFailed err => if e.cur.isNone ∧ e.nextTry.isSome then some (e.reconnectFailed err, []) else none
  | .command cmd => some (e.command cmd)
  | .quit => some (e.quit, [])
  | .mesh ev => some (e.meshEvent ev, [])
  | .candidate pc text => some ({ e with mesh := e.mesh.onIceCandidate pc text }, [])
  | .dataChannel pc => some ({ e with mesh := e.mesh.onDataChannel pc }, [])
  | .rehash peers =>
      if peers.entries.Perm e.mesh.peers.entries then some ({ e with mesh := { e.mesh with peers } }, []) else none

/-- `owner` says which client opened a socket. -/
structure Sys where
  server : Server
  wire : SocketId → List ClientMsg
  inbox : SocketId → List ServerMsg
  owner : SocketId → ClientId
  engines : ClientId → Option Engine
  nextClient : Nat

inductive Act
  /-- The server's reader loop of `s` takes the next message. -/
  | recv (s : SocketId)
  /-- The writer task of `s` sends the oldest queued message. -/
  | write (s : SocketId)
  /-- Any other step of the server. -/
  | server (a : SAct)
  /-- A client is started and joins. -/
  | start (ecfg : EngineConfig)
  /-- The engine takes the next message from its connection. -/
  | handle (c : ClientId) (w : Outcomes)
  /-- The engine's connection ends. -/
  | lost (c : ClientId)
  /-- The engine forwards what the mesh has to say to its connection, if it has one. -/
  | uplink (c : ClientId)
  /-- An attempt of the engine to reconnect succeeds. -/
  | reconnect (c : ClientId)
  | event (c : ClientId) (ev : LocalEvent)

/-- Steps of the server that take no message from a client and send none to one. -/
def SAct.internal : SAct → Bool
  | .accept | .frame _ _ | .write _ => false
  | _ => true

namespace Sys

def empty : Sys :=
  { server := .empty, wire := fun _ => [], inbox := fun _ => [], owner := fun _ => 0,
    engines := fun _ => none, nextClient := 0 }

section
variable (cfg : SysConfig) (σ : Sys)

/-- The engine of a client whose loop is running. -/
def running? (c : ClientId) : Option Engine := (σ.engines c).filter (·.running)

/-- The client that opened `s` is running and on that connection. -/
def attached (s : SocketId) : Bool := ((σ.running? (σ.owner s)).map fun e => decide (e.cur = some s)).getD false

def setEngine (c : ClientId) (e : Engine) : Sys := { σ with engines := Function.update σ.engines c (some e) }

/-- Sends to a connection, if there is one. -/
def transmit (cur : Option SocketId) (msgs : List ClientMsg) : Sys :=
  match cur with
  | some s => { σ with wire := Function.update σ.wire s (σ.wire s ++ msgs) }
  | none => σ

/-- A client has opened a socket of the server and sent its Join. -/
def dialed (srv : Server) (c : ClientId) (ecfg : EngineConfig) : Sys :=
  { σ with
    server := srv
    wire := Function.update σ.wire σ.server.nextSocket [Engine.joinMsg ecfg]
    owner := Function.update σ.owner σ.server.nextSocket c }

/-- A new client has opened a socket and sent its Join. -/
def started (srv : Server) (ecfg : EngineConfig) : Sys :=
  { σ.dialed srv σ.nextClient ecfg with
    engines := Function.update σ.engines σ.nextClient (some (.start ecfg σ.nextClient σ.server.nextSocket))
    nextClient := σ.nextClient + 1 }

/-- The writer task has sent `msg`; it arrives while the client is on the connection. -/
def delivered (srv : Server) (s : SocketId) (msg : ServerMsg) : Sys :=
  { σ with server := srv, inbox := if σ.attached s then Function.update σ.inbox s (σ.inbox s ++ [msg]) else σ.inbox }

def step : Act → Option Sys
  | .recv s =>
    match σ.wire s with
    | msg :: rest => (σ.server.step cfg.server (.frame s (.text msg))).map fun srv =>
        { σ with server := srv, wire := Function.update σ.wire s rest }
    | [] => none
  | .write s =>
    match (σ.server.conns s).map (·.queue) with
    | some (msg :: _) => (σ.server.step cfg.server (.write s)).map fun srv => σ.delivered srv s msg
    | _ => none
  | .server a => if a.internal then (σ.server.step cfg.server a).map fun srv => { σ with server := srv } else none
  | .start ecfg => (σ.server.step cfg.server .accept).map fun srv => σ.started srv ecfg
  | .handle c w =>
    match σ.running? c with
    | some e =>
      match e.cur with
      | some s =>
        match σ.inbox s with
        | msg :: rest => some ({ σ with inbox := Function.update σ.inbox s rest }.setEngine c (e.handle cfg.rtc w msg))
        | [] => none
      | none => none
    | none => none
  | .lost c =>
    match σ.running? c with
    | some e =>
      match e.cur with
      | some s => if σ.inbox s = [] then some (σ.setEngine c e.lost) else none
      | none => none
    | none => none
  | .uplink c =>
    match σ.running? c with
    | some e =>
      match e.mesh.out with
      | msg :: rest => some ((σ.transmit e.cur [msg]).setEngine c { e with mesh := { e.mesh with out := rest } })
      | [] => none
    | none => none
  | .reconnect c =>
    match σ.running? c with
    | some e =>
      if e.cur = none ∧ e.nextTry.isSome then
        (σ.server.step cfg.server .accept).map fun srv =>
          (σ.dialed srv c e.cfg).setEngine c (e.reconnected σ.server.nextSocket)
      else none
    | none => none
  | .event c ev =>
    match σ.running? c with
    | some e => (e.onEvent ev).map fun r => (σ.transmit e.cur r.2).setEngine c r.1
    | none => none

end

/-! ### What an enabled step says -/

section
variable {cfg : SysConfig} {σ σ' : Sys}

theorem running?_eq_some {c : ClientId} {e : Engine} (h : σ.running? c = some e) :
    σ.engines c = some e ∧ e.running = true :=
  Option.filter_eq_some_iff.mp h

theorem attached_iff {s : SocketId} :
    σ.attached s = true ↔ ∃ e, σ.engines (σ.owner s) = some e ∧ e.running = true ∧ e.cur = some s := by
  unfold attached running?
  cases σ.engines (σ.owner s) with
  | none => simp
  | some e => cases hr : e.running <;> simp [Option.filter, hr]

theorem step_recv_inv {s : SocketId} (h : step cfg σ (.recv s) = some σ') :
    ∃ msg rest srv, σ.wire s = msg :: rest ∧ σ.server.step cfg.server (.frame s (.text msg)) = some srv ∧
      σ' = { σ with server := srv, wire := Function.update σ.wire s rest } := by
  simp only [step] at h
  split at h
  · rename_i msg rest hw
    obtain ⟨srv, hs, rfl⟩ := Option.map_eq_some_iff.mp h
    exact ⟨msg, rest, srv, hw, hs, rfl⟩
  · cases h

theorem step_write_inv {s : SocketId} (h : step cfg σ (.write s) = some σ') :
    ∃ k msg rest srv, σ.server.conns s = some k ∧ k.queue = msg :: rest ∧
      σ.server.step cfg.server (.write s) = some srv ∧ σ' = σ.delivered srv s msg := by
  simp only [step] at h
  split at h
  · rename_i msg rest hq
    obtain ⟨k, hk, hkq⟩ := Option.map_eq_some_iff.mp hq
    obtain ⟨srv, hs, rfl⟩ := Option.map_eq_some_iff.mp h
    exact ⟨k, msg, rest, srv, hk, hkq, hs, rfl⟩
  · cases h

theorem step_server_inv {a : SAct} (h : step cfg σ (.server a) = some σ') :
    a.internal = true ∧ ∃ srv, σ.server.step cfg.server a = some srv ∧ σ' = { σ with server := srv } := by
  simp only [step] at h
  split at h
  · rename_i hi
    obtain ⟨srv, hs, rfl⟩ := Option.map_eq_some_iff.mp h
    exact ⟨hi, srv, hs, rfl⟩
  · cases h

theorem step_start_inv {ecfg : EngineConfig} (h : step cfg σ (.start ecfg) = some σ') :
    ∃ srv, σ.server.step cfg.server .accept = some srv ∧
      σ' = σ.started srv ecfg := by
  simp only [step] at h
  obtain ⟨srv, hs, rfl⟩ := Option.map_eq_some_iff.mp h
  exact ⟨srv, hs, rfl⟩

theorem step_handle_inv {c : ClientId} {w : Outcomes} (h : step cfg σ (.handle c w) = some σ') :
    ∃ e s msg rest, σ.engines c = some e ∧ e.running = true ∧ e.cur = some s ∧ σ.inbox s = msg :: rest ∧
      σ' = { σ with inbox := Function.update σ.inbox s rest }.setEngine c (e.handle cfg.rtc w msg) := by
  simp only [step] at h
  split at h
  · rename_i e he
    split at h
    · rename_i s hs
      split at h
      · rename_i msg rest hi
        obtain ⟨he, hr⟩ := running?_eq_some he
        exact ⟨e, s, msg, rest, he, hr, hs, hi, (Option.some.inj h).symm⟩
      · cases h
    · cases h
  · cases h

theorem step_lost_inv {c : ClientId} (h : step cfg σ (.lost c) = some σ') :
    ∃ e s, σ.engines c = some e ∧ e.running = true ∧ e.cur = some s ∧ σ.inbox s = [] ∧ σ' = σ.setEngine c e.lost := by
  simp only [step] at h
  split at h
  · rename_i e he
    split at h
    · rename_i s hs
      split at h
      · obtain ⟨he, hr⟩ := running?_eq_some he
        exact ⟨e, s, he, hr, hs, ‹_›, (Option.some.inj h).symm⟩
      · cases h
    · cases h
  · cases h

theorem step_uplink_inv {c : ClientId} (h : step cfg σ (.uplink c) = some σ') :
    ∃ e msg rest, σ.engines c = some e ∧ e.running = true ∧ e.mesh.out = msg :: rest ∧
      σ' = (σ.transmit e.cur [msg]).setEngine c { e with mesh := { e.mesh with out := rest } } := by
  simp only [step] at h
  split at h
  · rename_i e he
    split at h
    · rename_i msg rest ho
      obtain ⟨he, hr⟩ := running?_eq_some he
      exact ⟨e, msg, rest, he, hr, ho, (Option.some.inj h).symm⟩
    · cases h
  · cases h

theorem step_reconnect_inv {c : ClientId} (h : step cfg σ (.reconnect c) = some σ') :
    ∃ e srv, σ.engines c = some e ∧ e.running = true ∧ e.cur = none ∧ σ.server.step cfg.server .accept = some srv ∧
      σ' = (σ.dialed srv c e.cfg).setEngine c (e.reconnected σ.server.nextSocket) := by
  simp only [step] at h
  split at h
  · rename_i e he
    split at h
    · rename_i hc
      obtain ⟨srv, hs, rfl⟩ := Option.map_eq_some_iff.mp h
      obtain ⟨he, hr⟩ := running?_eq_some he
      exact ⟨e, srv, he, hr, hc.1, hs, rfl⟩
    · cases h
  · cases h

theorem step_event_inv {c : ClientId} {ev : LocalEvent} (h : step cfg σ (.event c ev) = some σ') :
    ∃ e e' msgs, σ.engines c = some e ∧ e.running = true ∧ e.onEvent ev = some (e', msgs) ∧
      σ' = (σ.transmit e.cur msgs).setEngine c e' := by
  simp only [step] at h
  split at h
  · rename_i e he
    obtain ⟨⟨e', msgs⟩, hr', rfl⟩ := Option.map_eq_some_iff.mp h
    obtain ⟨he, hr⟩ := running?_eq_some he
    exact ⟨e, e', msgs, he, hr, hr', rfl⟩
  · cases h

/-- The server's part in an action. -/
def serverAct (σ : Sys) : Act → Option SAct
  | .recv s => (σ.wire s).head?.map fun msg => .frame s (.text msg)
  | .write s => some (.write s)
  | .server a => some a
  | .start _ => some .accept
  | .reconnect _ => some .accept
  | _ => none

/-- The server of the system only ever takes steps of its own. -/
theorem step_server {a : Act} (h : step cfg σ a = some σ') :
    (σ.serverAct a = none ∧ σ'.server = σ.server) ∨
      ∃ b, σ.serverAct a = some b ∧ σ.server.step cfg.server b = some σ'.server := by
  cases a with
  | recv s =>
    obtain ⟨_, _, srv, hw, hs, rfl⟩ := step_recv_inv h
    exact Or.inr ⟨_, by simp [serverAct, hw], hs⟩
  | write s =>
    obtain ⟨_, _, _, srv, -, -, hs, rfl⟩ := step_write_inv h
    exact Or.inr ⟨_, rfl, hs⟩
  | server a =>
    obtain ⟨-, srv, hs, rfl⟩ := step_server_inv h
    exact Or.inr ⟨_, rfl, hs⟩
  | start ecfg =>
    obtain ⟨srv, hs, rfl⟩ := step_start_inv h
    exact Or.inr ⟨_, rfl, hs⟩
  | handle c w =>
    obtain ⟨e, s, msg, rest, -, -, -, -, rfl⟩ := step_handle_inv h
    exact Or.inl ⟨rfl, rfl⟩
  | lost c =>
    obtain ⟨e, s, -, -, -, -, rfl⟩ := step_lost_inv h
    exact Or.inl ⟨rfl, rfl⟩
  | uplink c =>
    obtain ⟨e, msg, rest, -, -, -, rfl⟩ := step_uplink_inv h
    refine Or.inl ⟨rfl, ?_⟩
    cases e.cur <;> rfl
  | reconnect c =>
    obtain ⟨e, srv, -, -, -, hs, rfl⟩ := step_reconnect_inv h
    exact Or.inr ⟨_, rfl, hs⟩
  | event c ev =>
    obtain ⟨e, e', msgs, -, -, -, rfl⟩ := step_event_inv h
    refine Or.inl ⟨rfl, ?_⟩
    cases e.cur <;> rfl

/-- A run of the system is, as far as the server goes, a run of the server. -/
theorem server_reach {ok : Sys → Act → Sys → Prop} (h : Lts.Reach (step cfg) ok empty σ) :
    Lts.Reach (Server.step cfg.server) Lts.anyStep .empty σ.server :=
  h.simulate fun _ _ _ _ hs => (step_server hs).imp And.right fun ⟨b, _, hb⟩ => ⟨b, hb⟩

end

end Sys

end SquadLink

import Mathlib.Algebra.BigOperators.Pi
import Mathlib.Algebra.Order.BigOperators.Group.Finset
import Mathlib.Algebra.Order.Group.Multiset
import SquadLink.Lib.Settling
import SquadLink.System.Online
import SquadLink.System.Participants

/-! Negotiation comes to an end. What a message brings about ranks below the message, so that delivering what is on its
    way, in whatever order, ends in a state in which nothing can be delivered any more. -/

namespace SquadLink

/-- The rank of a message that its receiver handles next: above all that is sent because of it. -/
def ServerMsg.rank : ServerMsg → ℕ
  | roster _ | peerJoined _ _ | rekey _ => 9
  | offer _ _ => 5
  | _ => 1

/-- The rank of a message that the server reads next. -/
def ClientMsg.rank : ClientMsg → ℕ
  | join _ _ _ _ | rekey => 12
  | offer _ _ => 7
  | _ => 3

theorem ServerMsg.rank_le (msg : ServerMsg) : msg.rank ≤ 9 := by cases msg <;> simp [rank]

/-- The ranks of messages that are `d` steps away from being handled. -/
def ServerMsg.ranks (d : ℕ) (msgs : List ServerMsg) : Multiset ℕ := (msgs.map (·.rank + d) : List ℕ)

def ClientMsg.ranks (d : ℕ) (msgs : List ClientMsg) : Multiset ℕ := (msgs.map (·.rank + d) : List ℕ)

/-- What the server has still to send on a connection. -/
def Conn.left (k : Conn) : Multiset ℕ := ServerMsg.ranks 1 k.queue + ServerMsg.ranks 2 k.pending

section
variable {d b : ℕ}

theorem ServerMsg.mem_ranks {msgs : List ServerMsg} : b ∈ ranks d msgs ↔ ∃ m ∈ msgs, m.rank + d = b := by
  rw [ranks, Multiset.mem_coe, List.mem_map]

theorem ClientMsg.mem_ranks {msgs : List ClientMsg} : b ∈ ranks d msgs ↔ ∃ m ∈ msgs, m.rank + d = b := by
  rw [ranks, Multiset.mem_coe, List.mem_map]

@[simp] theorem ServerMsg.ranks_nil : ranks d [] = 0 := rfl

theorem ServerMsg.ranks_cons (m : ServerMsg) (msgs : List ServerMsg) :
    ranks d (m :: msgs) = {m.rank + d} + ranks d msgs := rfl

theorem ClientMsg.ranks_cons (m : ClientMsg) (msgs : List ClientMsg) :
    ranks d (m :: msgs) = {m.rank + d} + ranks d msgs := rfl

theorem ServerMsg.ranks_append (ms ms' : List ServerMsg) : ranks d (ms ++ ms') = ranks d ms + ranks d ms' := by
  rw [ranks, List.map_append, ← Multiset.coe_add]
  rfl

theorem ClientMsg.ranks_append (ms ms' : List ClientMsg) : ranks d (ms ++ ms') = ranks d ms + ranks d ms' := by
  rw [ranks, List.map_append, ← Multiset.coe_add]
  rfl

/-- A queue gains at most what it is sent. -/
theorem Conn.left_pushAll_le (k : Conn) (msgs : List ServerMsg) :
    (k.pushAll msgs).left ≤ k.left + ServerMsg.ranks 1 msgs := by
  have pending : (k.pushAll msgs).pending = k.pending := Sys.pending_congr (k.pushAll_phase msgs)
  have queue : ServerMsg.ranks 1 (k.pushAll msgs).queue ≤ ServerMsg.ranks 1 k.queue + ServerMsg.ranks 1 msgs := by
    unfold Conn.pushAll
    split
    · obtain ⟨n, h⟩ := Fifo.pushAll_eq_take peerChan k.queue msgs
      have fewer : ServerMsg.ranks 1 (msgs.take n) ≤ ServerMsg.ranks 1 msgs :=
        Multiset.coe_le.mpr ((List.take_sublist n msgs).map _).subperm
      simp only [h, ServerMsg.ranks_append]
      exact add_le_add le_rfl fewer
    · exact Multiset.le_add_right ..
  rw [left, left, pending, add_right_comm]
  exact add_le_add queue le_rfl

end

namespace Mesh

section
variable (rtc : Webrtc) (w : Outcomes)

/-- An operation on the mesh that says nothing but offers. -/
def OnlyOffers (m m' : Mesh) : Prop := ∃ ms, m'.out = m.out ++ ms ∧ ∀ msg ∈ ms, ∃ dest sdp, msg = .offer dest sdp

theorem OnlyOffers.refl (m : Mesh) : OnlyOffers m m := ⟨[], by simp, by simp⟩

theorem OnlyOffers.trans {m m' m'' : Mesh} (h : OnlyOffers m m') (h' : OnlyOffers m' m'') : OnlyOffers m m'' := by
  obtain ⟨ms, hout, hms⟩ := h
  obtain ⟨ms', hout', hms'⟩ := h'
  exact ⟨ms ++ ms', by rw [hout', hout, List.append_assoc], fun msg hm => (List.mem_append.mp hm).elim (hms msg) (hms' msg)⟩

theorem onlyOffers_foldl {α : Type} {op : Mesh → α → Mesh} (hop : ∀ m x, OnlyOffers m (op m x)) (xs : List α) (m : Mesh) :
    OnlyOffers m (xs.foldl op m) := by
  induction xs generalizing m with
  | nil => exact .refl m
  | cons x xs ih => exact (hop m x).trans (ih (op m x))

theorem onlyOffers_onPeer (m : Mesh) (peer : String) : OnlyOffers m (m.onPeer rtc w peer).1 := by
  obtain ⟨ms, ht, h⟩ := m.onPeer_cases rtc w peer
  refine ⟨ms, ht.out, fun msg hm => ?_⟩
  rcases h with ⟨_, _, _, _, _, _, _, rfl | ⟨-, rfl⟩⟩ | ⟨_, _, rfl⟩ | ⟨_, _, _, _, _, _, rfl | ⟨-, rfl⟩⟩
  · cases hm
  · exact ⟨_, _, List.mem_singleton.mp hm⟩
  · cases hm
  · cases hm
  · exact ⟨_, _, List.mem_singleton.mp hm⟩

theorem onlyOffers_rekeyOne (m : Mesh) (id : String) : OnlyOffers m (rekeyOne rtc w m id) := by
  unfold rekeyOne
  split
  · obtain ⟨ms, hout, hms⟩ := onlyOffers_onPeer rtc w (m.drop id) id
    exact ⟨ms, hout, hms⟩
  · exact .refl m

/-- What a mesh says because of a message ranks below it. -/
theorem react_out (m : Mesh) (relayEnabled : Bool) (msg : ServerMsg) :
    ∃ ms, (m.react rtc w relayEnabled msg).out = m.out ++ ms ∧ ∀ m' ∈ ms, m'.rank + 1 < msg.rank := by
  have offers {m' : Mesh} (h : OnlyOffers m m') (hrank : msg.rank = 9) :
      ∃ ms, m'.out = m.out ++ ms ∧ ∀ m' ∈ ms, m'.rank + 1 < msg.rank := by
    obtain ⟨ms, hout, hms⟩ := h
    refine ⟨ms, hout, fun m' hm => ?_⟩
    obtain ⟨dest, sdp, rfl⟩ := hms m' hm
    rw [hrank]
    simp [ClientMsg.rank]
  have silent {peer : String} {m' : Mesh} (h : Touches m peer [] m') :
      ∃ ms, m'.out = m.out ++ ms ∧ ∀ m' ∈ ms, m'.rank + 1 < msg.rank := ⟨[], h.out, by simp⟩
  have unchanged : ∃ ms, m.out = m.out ++ ms ∧ ∀ m' ∈ ms, m'.rank + 1 < msg.rank := ⟨[], by simp, by simp⟩
  cases msg with
  | roster peers =>
    have each (m : Mesh) (p : PeerInfo) : OnlyOffers m (m.onPeer rtc w p.userId).1 := onlyOffers_onPeer rtc w m p.userId
    exact offers (onlyOffers_foldl each peers m) rfl
  | peerJoined userId name => exact offers (onlyOffers_onPeer rtc w m userId) rfl
  | rekey by' =>
    obtain ⟨n, h⟩ := rekeyLoop_eq rtc w m.peers.keys m
    simp only [react, rekey, h]
    exact offers (onlyOffers_foldl (onlyOffers_rekeyOne rtc w) _ m) rfl
  | offer sender sdp =>
    obtain ⟨ms, ht, hms⟩ := m.onOffer_touches rtc w sender sdp
    refine ⟨ms, ht.out, fun m' hm => ?_⟩
    obtain ⟨ans, rfl⟩ := hms m' hm
    simp [ClientMsg.rank, ServerMsg.rank]
  | answer sender sdp => exact silent (m.onAnswer_cases rtc w sender sdp).1
  | ice sender candidate => exact silent (m.onIce_cases rtc sender candidate).1
  | peerLeft userId => exact silent (.drop m userId)
  | turn creds =>
    simp only [react]
    split
    · exact ⟨[], by simp [addTurn], by simp⟩
    · exact unchanged
  | _ => exact unchanged

end

end Mesh

namespace Server

section
variable {cfg : ServerConfig} {st : Server} {s : SocketId} {c : Conn} {msg : ClientMsg}

/-- What the server sends because of a message ranks below it. -/
theorem frameSends_rank {p : SocketId × ServerMsg} (h : p ∈ frameSends cfg st s c.me (.text msg)) :
    p.2.rank + 1 < msg.rank := by
  have relayed {dest : String} {build : String → ServerMsg} (h : p ∈ relaySends st c.me dest build) :
      ∃ x, p.2 = build x := by
    unfold relaySends at h
    split at h
    · cases h
    · obtain ⟨_, -, rfl⟩ := Option.map_eq_some_iff.mp (Option.mem_toList.mp h)
      exact ⟨_, rfl⟩
  have told {r : Room} {g : String → Option ServerMsg} (h : p ∈ Fifo.broadcast PeerHandle.tx g r) :
      ∃ id, g id = some p.2 := by
    obtain ⟨dest, m⟩ := p
    obtain ⟨id, _, -, -, hg⟩ := Fifo.mem_broadcast.mp h
    exact ⟨id, hg⟩
  cases msg with
  | join room userId name token =>
    have := p.2.rank_le
    show _ < 12
    omega
  | offer dest sdp =>
    simp only [frameSends] at h
    split at h
    · cases h
    · obtain ⟨x, hx⟩ := relayed h
      rw [hx]
      simp [ClientMsg.rank, ServerMsg.rank]
  | answer dest sdp | ice dest cand =>
    simp only [frameSends] at h
    split at h
    · cases h
    · obtain ⟨x, hx⟩ := relayed h
      rw [hx]
      simp [ClientMsg.rank, ServerMsg.rank]
  | ptt active =>
    simp only [frameSends] at h
    split at h
    · cases h
    · obtain ⟨id, hid⟩ := told h
      obtain ⟨-, hid⟩ := Option.ite_none_right_eq_some.mp hid
      rw [← Option.some.inj hid]
      simp [ClientMsg.rank, ServerMsg.rank]
  | rekey =>
    have := p.2.rank_le
    show _ < 12
    omega
  | leave =>
    simp only [frameSends, cleanupSends] at h
    split at h
    · cases h
    · obtain ⟨id, hid⟩ := told h
      rw [← Option.some.inj hid]
      simp [ClientMsg.rank, ServerMsg.rank]

end

end Server

/-- The actions that deliver what is on its way. -/
def Act.delivers : Act → Bool
  | .recv _ | .write _ | .handle _ _ | .uplink _ | .server (.finishJoin _ _) => true
  | _ => false

namespace Sys

/-- What waits on a connection: to be read by the server, to be handled by the client, and to be sent. -/
def socketLeft (σ : Sys) (s : SocketId) : Multiset ℕ :=
  ClientMsg.ranks 0 (σ.wire s) + ServerMsg.ranks 0 (σ.inbox s) + ((σ.server.conns s).map Conn.left).getD 0

/-- What waits to be forwarded by a client. -/
def clientLeft (σ : Sys) (c : ClientId) : Multiset ℕ := ClientMsg.ranks 1 (((σ.engines c).map (·.mesh.out)).getD [])

def left (σ : Sys) : Multiset ℕ :=
  ∑ s ∈ Finset.range σ.server.nextSocket, σ.socketLeft s + ∑ c ∈ Finset.range σ.nextClient, σ.clientLeft c

/-- Nothing that is on its way can be delivered. -/
structure Settled (σ : Sys) : Prop where
  read : ∀ s k, σ.server.conns s = some k → k.phase = .reading → σ.wire s = []
  joined : ∀ s k, σ.server.conns s = some k → k.pending = []
  written : ∀ s k, σ.server.conns s = some k → k.queue = []
  handled : ∀ c e s, σ.engines c = some e → e.running = true → e.cur = some s → σ.inbox s = []
  said : ∀ c e, σ.engines c = some e → e.running = true → e.mesh.out = []

section
variable {cfg : SysConfig} {σ σ' : Sys} {a : Act} {n : ℕ} {m : ServerMsg}

/-- One thing is taken from what is left, and all that comes on top ranks below it. -/
theorem spends_of {x t : SocketId → Multiset ℕ} {y u : ClientId → Multiset ℕ}
    (hn : σ'.server.nextSocket = σ.server.nextSocket) (hc : σ'.nextClient = σ.nextClient)
    (taken : ∑ s ∈ Finset.range σ.server.nextSocket, x s + ∑ c ∈ Finset.range σ.nextClient, y c = {n})
    (lower : (∀ s, ∀ b ∈ t s, b < n) ∧ ∀ c, ∀ b ∈ u c, b < n)
    (sockets : ∀ s, σ'.socketLeft s + x s ≤ σ.socketLeft s + t s)
    (clients : ∀ c, σ'.clientLeft c + y c ≤ σ.clientLeft c + u c) :
    Settling.Spends (· < ·) σ'.left σ.left := by
  refine ⟨n, ∑ s ∈ Finset.range σ.server.nextSocket, t s + ∑ c ∈ Finset.range σ.nextClient, u c, fun b hb => ?_, ?_⟩
  · rcases Multiset.mem_add.mp hb with hb | hb
    · obtain ⟨s, -, hb⟩ := Multiset.mem_sum.mp hb
      exact lower.1 s b hb
    · obtain ⟨c, -, hb⟩ := Multiset.mem_sum.mp hb
      exact lower.2 c b hb
  · have onSockets := Finset.sum_le_sum fun s (_ : s ∈ Finset.range σ.server.nextSocket) => sockets s
    have onClients := Finset.sum_le_sum fun c (_ : c ∈ Finset.range σ.nextClient) => clients c
    rw [Finset.sum_add_distrib, Finset.sum_add_distrib] at onSockets onClients
    rw [left, left, hn, hc, ← taken, add_add_add_comm, add_add_add_comm (∑ s ∈ _, σ.socketLeft s)]
    exact add_le_add onSockets onClients

/-- The thing that is taken waited on a connection. -/
theorem spends_of_socket {s₀ : SocketId} {t : SocketId → Multiset ℕ} {u : ClientId → Multiset ℕ}
    (hs : s₀ < σ.server.nextSocket) (hn : σ'.server.nextSocket = σ.server.nextSocket) (hc : σ'.nextClient = σ.nextClient)
    (lower : (∀ s, ∀ b ∈ t s, b < n) ∧ ∀ c, ∀ b ∈ u c, b < n)
    (sockets : ∀ s, σ'.socketLeft s + (if s = s₀ then {n} else 0) ≤ σ.socketLeft s + t s)
    (clients : ∀ c, σ'.clientLeft c ≤ σ.clientLeft c + u c) : Settling.Spends (· < ·) σ'.left σ.left := by
  refine spends_of hn hc (y := fun _ => 0) ?_ lower sockets (fun c => by rw [add_zero]; exact clients c)
  rw [Finset.sum_ite_eq', if_pos (Finset.mem_range.mpr hs), Finset.sum_const_zero, add_zero]

/-- The thing that is taken waited at a client. -/
theorem spends_of_client {c₀ : ClientId} {t : SocketId → Multiset ℕ} (hc₀ : c₀ < σ.nextClient)
    (hn : σ'.server.nextSocket = σ.server.nextSocket) (hc : σ'.nextClient = σ.nextClient) (lower : ∀ s, ∀ b ∈ t s, b < n)
    (sockets : ∀ s, σ'.socketLeft s ≤ σ.socketLeft s + t s)
    (clients : ∀ c, σ'.clientLeft c + (if c = c₀ then {n} else 0) ≤ σ.clientLeft c) :
    Settling.Spends (· < ·) σ'.left σ.left := by
  refine spends_of hn hc (x := fun _ => 0) (u := fun _ => 0) (y := fun c => if c = c₀ then {n} else 0) ?_
    ⟨lower, fun _ _ h => absurd h (Multiset.notMem_zero _)⟩ (fun s => by rw [add_zero]; exact sockets s)
    (fun c => by rw [add_zero]; exact clients c)
  rw [Finset.sum_ite_eq', if_pos (Finset.mem_range.mpr hc₀), Finset.sum_const_zero, zero_add]

theorem left_map_le {o : Option Conn} {f : Conn → Conn} {t : Multiset ℕ} (h : ∀ k ∈ o, (f k).left ≤ k.left + t) :
    ((o.map f).map Conn.left).getD 0 ≤ (o.map Conn.left).getD 0 + t := by
  cases o with
  | none => exact Multiset.zero_le _
  | some k => exact h k rfl

/-- A Roster waits only because of a Join. -/
theorem framePhase_rank {st : Server} {k : Conn} {msg : ClientMsg} {me : Option (String × String)}
    (hm : m ∈ ({ k with phase := Server.framePhase cfg.server st me (.text msg) } : Conn).pending) :
    m.rank + 2 < msg.rank := by
  unfold Conn.pending at hm
  split at hm
  · rename_i hp
    cases msg with
    | join room userId name token =>
      rw [List.mem_singleton.mp hm]
      simp [ServerMsg.rank, ClientMsg.rank]
    | _ => cases hp
  · cases hm

theorem spends_recv (wf : WF cfg σ) {s : SocketId} (hs : step cfg σ (.recv s) = some σ') :
    Settling.Spends (· < ·) σ'.left σ.left := by
  obtain ⟨msg, rest, srv, hw, hstep, rfl⟩ := step_recv_inv hs
  obtain ⟨c, hc, hr, hsrv⟩ := Server.step_frame_inv hstep
  have hopen : s < σ.server.nextSocket := wf.unopened_of_mem (hw ▸ List.mem_cons_self)
  -- What the server sends to each socket, and the Roster that it will send.
  let sent (t : SocketId) : Multiset ℕ :=
    ServerMsg.ranks 1 (Fifo.sentTo t (Server.frameSends cfg.server σ.server s c.me (.text msg)))
  let roster : Multiset ℕ :=
    ServerMsg.ranks 2 ({ c with phase := Server.framePhase cfg.server σ.server c.me (.text msg) } : Conn).pending
  refine spends_of_socket (n := msg.rank) (u := fun _ => 0) (t := fun t => sent t + if t = s then roster else 0)
    hopen (Server.step_nextSocket hstep (by simp)) rfl ⟨fun t b hb => ?_, fun _ _ h => absurd h (Multiset.notMem_zero _)⟩
    (fun t => ?_) (fun d => Multiset.le_add_right ..)
  · rcases Multiset.mem_add.mp hb with hb | hb
    · obtain ⟨m, hm, rfl⟩ := ServerMsg.mem_ranks.mp hb
      exact Server.frameSends_rank (Fifo.mem_sentTo.mp hm)
    · split at hb
      · obtain ⟨m, hm, rfl⟩ := ServerMsg.mem_ranks.mp hb
        exact framePhase_rank hm
      · exact absurd hb (Multiset.notMem_zero _)
  · have conn : ((srv.conns t).map Conn.left).getD 0 ≤ ((σ.server.conns t).map Conn.left).getD 0 +
        (sent t + if t = s then roster else 0) := by
      rw [hsrv, Server.handleFrame_conns hc hr]
      refine left_map_le fun k hk => ?_
      have pushed := k.left_pushAll_le (Fifo.sentTo t (Server.frameSends cfg.server σ.server s c.me (.text msg)))
      by_cases ht : t = s
      · subst ht
        cases hc.symm.trans hk
        rw [if_pos rfl, if_pos rfl, ← add_assoc]
        exact add_le_add ((Multiset.le_add_right _ _).trans pushed) le_rfl
      · rw [if_neg ht, if_neg ht, add_zero]
        exact pushed
    have wire : ClientMsg.ranks 0 (Function.update σ.wire s rest t) + (if t = s then {msg.rank} else 0) =
        ClientMsg.ranks 0 (σ.wire t) := by
      by_cases ht : t = s
      · subst ht
        rw [Function.update_self, if_pos rfl, hw, ClientMsg.ranks_cons, add_comm, add_zero]
      · rw [Function.update_of_ne ht, if_neg ht, add_zero]
    calc ClientMsg.ranks 0 (Function.update σ.wire s rest t) + ServerMsg.ranks 0 (σ.inbox t) +
          ((srv.conns t).map Conn.left).getD 0 + (if t = s then {msg.rank} else 0)
        = ClientMsg.ranks 0 (σ.wire t) + ServerMsg.ranks 0 (σ.inbox t) + ((srv.conns t).map Conn.left).getD 0 := by
          rw [← wire]
          ac_rfl
      _ ≤ σ.socketLeft t + (sent t + if t = s then roster else 0) := by
          rw [socketLeft, add_assoc _ _ (sent t + _)]
          exact add_le_add le_rfl conn

theorem opened_of_conn (wf : WF cfg σ) {s : SocketId} {k : Conn} (h : σ.server.conns s = some k) :
    s < σ.server.nextSocket := by
  by_contra hn
  rw [wf.server.fresh s (Nat.le_of_not_lt hn)] at h
  cases h

/-- Nothing but a thing of rank `l` at one place. -/
theorem lower_ite {ι : Type} [DecidableEq ι] {i j : ι} {l b : ℕ} (hl : l < n)
    (hb : b ∈ if i = j then ({l} : Multiset ℕ) else 0) :
    b < n := by
  split at hb
  · rw [Multiset.mem_singleton.mp hb]
    exact hl
  · exact absurd hb (Multiset.notMem_zero _)

theorem spends_write (wf : WF cfg σ) {s : SocketId} (hs : step cfg σ (.write s) = some σ') :
    Settling.Spends (· < ·) σ'.left σ.left := by
  obtain ⟨c, msg, rest, srv, hc, hq, hstep, rfl⟩ := step_write_inv hs
  obtain ⟨c', hc', -, hsrv⟩ := Server.step_write_inv hstep
  cases hc.symm.trans hc'
  refine spends_of_socket (n := msg.rank + 1) (u := fun _ => 0) (t := fun t => if t = s then {msg.rank} else 0)
    (opened_of_conn wf hc) (Server.step_nextSocket hstep (by simp)) rfl
    ⟨fun t b hb => lower_ite (Nat.lt_succ_self _) hb, fun _ _ h => absurd h (Multiset.notMem_zero _)⟩ (fun t => ?_)
    (fun d => Multiset.le_add_right ..)
  by_cases ht : t = s
  · subst ht
    have conn : (srv.conns t).map Conn.left = some (ServerMsg.ranks 1 rest + ServerMsg.ranks 2 c.pending) := by
      rw [hsrv, Server.modifyConn_conns_self, hc, Option.map_some, Option.map_some, Conn.left, hq]
      rfl
    have inbox : ServerMsg.ranks 0 ((σ.delivered srv t msg).inbox t) ≤ ServerMsg.ranks 0 (σ.inbox t) + {msg.rank} := by
      simp only [delivered]
      split
      · rw [Function.update_self, ServerMsg.ranks_append]
        exact le_rfl
      · exact Multiset.le_add_right ..
    rw [if_pos rfl, if_pos rfl]
    calc ClientMsg.ranks 0 (σ.wire t) + ServerMsg.ranks 0 ((σ.delivered srv t msg).inbox t) +
          ((srv.conns t).map Conn.left).getD 0 + {msg.rank + 1}
        ≤ ClientMsg.ranks 0 (σ.wire t) + (ServerMsg.ranks 0 (σ.inbox t) + {msg.rank}) +
          (ServerMsg.ranks 1 rest + ServerMsg.ranks 2 c.pending) + {msg.rank + 1} := by
          rw [conn, Option.getD_some]
          exact add_le_add (add_le_add (add_le_add le_rfl inbox) le_rfl) le_rfl
      _ = σ.socketLeft t + {msg.rank} := by
          rw [socketLeft, hc, Option.map_some, Option.getD_some, Conn.left, hq, ServerMsg.ranks_cons]
          ac_rfl
  · have same : (σ.delivered srv s msg).inbox t = σ.inbox t := by
      unfold delivered
      split <;> simp [ht]
    rw [if_neg ht, if_neg ht, add_zero, add_zero, socketLeft, same]
    show ClientMsg.ranks 0 (σ.wire t) + ServerMsg.ranks 0 (σ.inbox t) + ((srv.conns t).map Conn.left).getD 0 ≤ _
    rw [hsrv, Server.modifyConn_conns_ne _ _ _ ht]
    exact le_rfl

theorem spends_finishJoin (wf : WF cfg σ) {s : SocketId} {now : Nat}
    (hs : step cfg σ (.server (.finishJoin s now)) = some σ') :
    Settling.Spends (· < ·) σ'.left σ.left := by
  obtain ⟨-, srv, hstep, rfl⟩ := step_server_inv hs
  obtain ⟨c, room, userId, roster, hc, hp, hsrv⟩ := Server.step_finishJoin_inv hstep
  let sent (t : SocketId) : Multiset ℕ :=
    ServerMsg.ranks 1 (Fifo.sentTo t (Server.finishSends cfg.server s now userId roster))
  refine spends_of_socket (n := 11) (u := fun _ => 0) (t := sent) (opened_of_conn wf hc)
    (Server.step_nextSocket hstep (by simp)) rfl ⟨fun t b hb => ?_, fun _ _ h => absurd h (Multiset.notMem_zero _)⟩
    (fun t => ?_) (fun d => Multiset.le_add_right ..)
  · obtain ⟨m, -, rfl⟩ := ServerMsg.mem_ranks.mp hb
    have := m.rank_le
    omega
  · have conn : ((srv.conns t).map Conn.left).getD 0 + (if t = s then {11} else 0) ≤
        ((σ.server.conns t).map Conn.left).getD 0 + sent t := by
      rw [hsrv, Server.finishJoin_conns]
      by_cases ht : t = s
      · subst ht
        have pushed := c.left_pushAll_le (Fifo.sentTo t (Server.finishSends cfg.server t now userId roster))
        have waiting : (c.pushAll (Fifo.sentTo t (Server.finishSends cfg.server t now userId roster))).left =
            ServerMsg.ranks 1
              (c.pushAll (Fifo.sentTo t (Server.finishSends cfg.server t now userId roster))).queue + {11} := by
          rw [Conn.left, pending_congr (c.pushAll_phase _), Conn.pending, hp]
          rfl
        rw [if_pos rfl, hc]
        simp only [Option.map_some, Option.getD_some, if_true]
        rw [waiting] at pushed
        refine le_trans (le_of_eq ?_) pushed
        show ServerMsg.ranks 1 _ + ServerMsg.ranks 2 [] + {11} = _
        rw [ServerMsg.ranks_nil, add_zero]
      · rw [if_neg ht, add_zero]
        refine left_map_le fun k _ => ?_
        rw [if_neg ht]
        exact k.left_pushAll_le _
    show ClientMsg.ranks 0 (σ.wire t) + ServerMsg.ranks 0 (σ.inbox t) + ((srv.conns t).map Conn.left).getD 0 + _ ≤ _
    rw [socketLeft, add_assoc, add_assoc _ _ (sent t)]
    exact add_le_add le_rfl conn

theorem spends_handle (wf : WF cfg σ) {c : ClientId} {w : Outcomes} (hs : step cfg σ (.handle c w) = some σ') :
    Settling.Spends (· < ·) σ'.left σ.left := by
  obtain ⟨e, s, msg, rest, he, -, hcur, hin, rfl⟩ := step_handle_inv hs
  obtain ⟨ms, hout, hms⟩ := e.mesh.react_out cfg.rtc w e.cfg.relayEnabled msg
  refine spends_of_socket (n := msg.rank) (t := fun _ => 0) (u := fun d => if d = c then ClientMsg.ranks 1 ms else 0)
    (wf.cur c e s he hcur).1 rfl rfl ⟨fun _ _ h => absurd h (Multiset.notMem_zero _), fun d b hb => ?_⟩
      (fun t => ?_) (fun d => ?_)
  · split at hb
    · obtain ⟨m, hm, rfl⟩ := ClientMsg.mem_ranks.mp hb
      exact hms m hm
    · exact absurd hb (Multiset.notMem_zero _)
  · have inbox : ServerMsg.ranks 0 (Function.update σ.inbox s rest t) + (if t = s then {msg.rank} else 0) =
        ServerMsg.ranks 0 (σ.inbox t) := by
      by_cases ht : t = s
      · subst ht
        rw [Function.update_self, if_pos rfl, hin, ServerMsg.ranks_cons, add_comm, add_zero]
      · rw [Function.update_of_ne ht, if_neg ht, add_zero]
    show ClientMsg.ranks 0 (σ.wire t) + ServerMsg.ranks 0 (Function.update σ.inbox s rest t) + _ + _ ≤ _
    rw [add_zero, socketLeft, ← inbox, add_right_comm, add_assoc (ClientMsg.ranks 0 _)]
    exact le_rfl
  · unfold clientLeft
    by_cases hd : d = c
    · subst hd
      rw [if_pos rfl, setEngine_engines, Function.update_self, he, Option.map_some, Option.map_some, Option.getD_some,
        Option.getD_some, Engine.handle_mesh, hout, ClientMsg.ranks_append]
    · rw [if_neg hd, add_zero, setEngine_engines, Function.update_of_ne hd]

theorem spends_uplink (wf : WF cfg σ) {c : ClientId} (hs : step cfg σ (.uplink c) = some σ') :
    Settling.Spends (· < ·) σ'.left σ.left := by
  obtain ⟨e, msg, rest, he, -, hout, rfl⟩ := step_uplink_inv hs
  have started : c < σ.nextClient := by
    by_contra hn
    rw [wf.unstarted c (Nat.le_of_not_lt hn)] at he
    cases he
  refine spends_of_client (n := msg.rank + 1) (t := fun t => if e.cur = some t then {msg.rank} else 0) started (by simp)
    (by simp) (fun t b hb => lower_ite (Nat.lt_succ_self _) hb) (fun t => ?_) (fun d => ?_)
  · have wire : ClientMsg.ranks 0 ((σ.transmit e.cur [msg]).wire t) =
        ClientMsg.ranks 0 (σ.wire t) + if e.cur = some t then {msg.rank} else 0 := by
      rw [transmit_wire]
      split
      · rw [ClientMsg.ranks_append]
        rfl
      · rw [add_zero]
    simp only [socketLeft, setEngine_wire, setEngine_inbox, setEngine_server, transmit_inbox, transmit_server, wire]
    exact le_of_eq (by ac_rfl)
  · unfold clientLeft
    by_cases hd : d = c
    · subst hd
      rw [if_pos rfl, setEngine_engines, Function.update_self, he, Option.map_some, Option.map_some, Option.getD_some,
        Option.getD_some, hout, ClientMsg.ranks_cons, add_comm]
    · rw [if_neg hd, add_zero, setEngine_engines, Function.update_of_ne hd, transmit_engines]

/-- Delivering one thing spends what is left. -/
theorem spends_step (wf : WF cfg σ) (hs : step cfg σ a = some σ') (delivers : a.delivers = true) :
    Settling.Spends (· < ·) σ'.left σ.left := by
  cases a with
  | recv s => exact spends_recv wf hs
  | write s => exact spends_write wf hs
  | handle c w => exact spends_handle wf hs
  | uplink c => exact spends_uplink wf hs
  | server b =>
    cases b with
    | finishJoin s now => exact spends_finishJoin wf hs
    | _ => cases delivers
  | _ => cases delivers

theorem Settled.stuck (settled : σ.Settled) (delivers : a.delivers = true) : step cfg σ a = none := by
  refine Option.eq_none_iff_forall_not_mem.mpr fun σ' hs => ?_
  cases a with
  | recv s =>
    obtain ⟨msg, rest, srv, hw, hstep, -⟩ := step_recv_inv hs
    obtain ⟨c, hc, hr, -⟩ := Server.step_frame_inv hstep
    rw [settled.read s c hc hr] at hw
    cases hw
  | write s =>
    obtain ⟨k, msg, rest, srv, hk, hq, -, -⟩ := step_write_inv hs
    rw [settled.written s k hk] at hq
    cases hq
  | handle c w =>
    obtain ⟨e, s, msg, rest, he, hr, hcur, hin, -⟩ := step_handle_inv hs
    rw [settled.handled c e s he hr hcur] at hin
    cases hin
  | uplink c =>
    obtain ⟨e, msg, rest, he, hr, hout, -⟩ := step_uplink_inv hs
    rw [settled.said c e he hr] at hout
    cases hout
  | server b =>
    cases b with
    | finishJoin s now =>
      obtain ⟨-, srv, hstep, -⟩ := step_server_inv hs
      obtain ⟨c, room, userId, roster, hc, hp, -⟩ := Server.step_finishJoin_inv hstep
      have := settled.joined s c hc
      rw [Conn.pending, hp] at this
      cases this
    | _ => cases delivers
  | _ => cases delivers

/-- Where nothing can be delivered nothing waits where it could be. -/
theorem settled_of_stuck (stuck : ∀ a : Act, a.delivers = true → step cfg σ a = none) : σ.Settled where
  read s k hk hr := by
    cases hw : σ.wire s with
    | nil => rfl
    | cons msg rest =>
      have := stuck (.recv s) rfl
      simp [step, hw, Server.step, hk, hr] at this
  joined s k hk := by
    unfold Conn.pending
    split
    · rename_i hp
      have := stuck (.server (.finishJoin s 0)) rfl
      simp [step, SAct.internal, Server.step, hk, hp] at this
    · rfl
  written s k hk := by
    cases hq : k.queue with
    | nil => rfl
    | cons msg rest =>
      have := stuck (.write s) rfl
      simp [step, hk, hq, Server.step] at this
  handled c e s he hr hcur := by
    cases hin : σ.inbox s with
    | nil => rfl
    | cons msg rest =>
      have := stuck (.handle c fun _ _ => true) rfl
      simp [step, running?, he, hr, hcur, hin, Option.filter] at this
  said c e he hr := by
    cases hout : e.mesh.out with
    | nil => rfl
    | cons msg rest =>
      have := stuck (.uplink c) rfl
      simp [step, running?, he, hr, hout, Option.filter] at this

/-- The system comes to rest. Whatever has happened, delivering what is on its way does not go on forever, in no order
    of the deliveries and with no outcome of the library's calls, and it can be gone on with until nothing is left. -/
theorem settles (h : Lts.Reach (step cfg) Lts.anyStep empty σ) :
    (∀ f : ℕ → Sys, f 0 = σ → ¬ ∀ n, ∃ a, a.delivers = true ∧ step cfg (f n) a = some (f (n + 1))) ∧
      ∃ τ, Lts.Reach (step cfg) (fun _ a _ => a.delivers = true) σ τ ∧ τ.Settled := by
  have spends (σ σ' : Sys) (wf : WF cfg σ) (goes : Settling.Goes (step cfg) (fun _ a _ => a.delivers = true) σ σ') :
      WF cfg σ' ∧ Settling.Spends (· < ·) σ'.left σ.left := by
    obtain ⟨a, delivers, hs⟩ := goes
    exact ⟨wf_step wf hs, spends_step wf hs delivers⟩
  refine ⟨fun f start => Settling.no_endless_run Nat.lt_wfRel.wf spends (wf_reach h) f start, ?_⟩
  obtain ⟨τ, reach, rest⟩ := Settling.exists_rest Nat.lt_wfRel.wf spends (wf_reach h)
  have stuck (a : Act) (delivers : a.delivers = true) : step cfg τ a = none :=
    Option.eq_none_iff_forall_not_mem.mpr fun u hs => rest u ⟨a, delivers, hs⟩
  exact ⟨τ, reach, settled_of_stuck stuck⟩

end

theorem settles_two_users : ∃ σ τ, Lts.exec (step sampleConfig) empty (startActs "alice" 0 ++ startActs "bob" 1) = some σ ∧
    Lts.Reach (step sampleConfig) (fun _ a _ => a.delivers = true) σ τ ∧ τ.Settled := by
  have run : ∃ σ, Lts.exec (step sampleConfig) empty (startActs "alice" 0 ++ startActs "bob" 1) = some σ := ⟨_, rfl⟩
  obtain ⟨σ, run⟩ := run
  obtain ⟨τ, reach, settled⟩ := (settles (Lts.Reach.of_exec (fun _ _ _ _ => trivial) run)).2
  exact ⟨σ, τ, run, reach, settled⟩

end Sys

end SquadLink

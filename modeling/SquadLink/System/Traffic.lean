import Mathlib.Algebra.Ring.Nat
import SquadLink.Lib.Tokens
import SquadLink.System.Online

/-! What is on its way in the system, weighed: how much of one kind of message lies in the wire of a socket, in
    what its client has still to hear, and in what a client has still to send. Only what can still arrive counts.
    A step moves weight along, and only a Join or a client that handles a message can make new weight. -/

namespace SquadLink

/-- What a message weighs for the client that sends it, and for the one that gets it. -/
structure Weight where
  up : EngineConfig → ClientMsg → Nat
  down : EngineConfig → ServerMsg → Nat

namespace Weight

/-- Being relayed adds no weight, and only what a mesh negotiates with weighs anything. -/
structure Relayed (W : Weight) : Prop where
  offer : ∀ (ec ed : EngineConfig) sdp, ec.room = ed.room → W.down ed (.offer ec.userId sdp) ≤
    W.up ec (.offer ed.userId sdp)
  answer : ∀ (ec ed : EngineConfig) sdp, ec.room = ed.room →
    W.down ed (.answer ec.userId sdp) ≤ W.up ec (.answer ed.userId sdp)
  up_silent : ∀ ec msg, msg.negotiates = false → W.up ec msg = 0
  down_silent : ∀ ed msg, msg.negotiates = false → W.down ed msg = 0

section
variable (W : Weight) (ec : Option EngineConfig)

def ups (msgs : List ClientMsg) : Nat := (ec.map fun ec => (msgs.map (W.up ec)).sum).getD 0

def downs (msgs : List ServerMsg) : Nat := (ec.map fun ec => (msgs.map (W.down ec)).sum).getD 0

@[simp] theorem ups_nil : W.ups ec [] = 0 := by cases ec <;> rfl

@[simp] theorem downs_nil : W.downs ec [] = 0 := by cases ec <;> rfl

theorem ups_append (ms ms' : List ClientMsg) : W.ups ec (ms ++ ms') = W.ups ec ms + W.ups ec ms' := by
  cases ec <;> simp [ups]

theorem downs_append (ms ms' : List ServerMsg) : W.downs ec (ms ++ ms') = W.downs ec ms + W.downs ec ms' := by
  cases ec <;> simp [downs]

theorem ups_cons (msg : ClientMsg) (ms : List ClientMsg) : W.ups ec (msg :: ms) = W.ups ec [msg] + W.ups ec ms :=
  W.ups_append ec [msg] ms

theorem downs_cons (msg : ServerMsg) (ms : List ServerMsg) : W.downs ec (msg :: ms) = W.downs ec [msg] + W.downs ec ms :=
  W.downs_append ec [msg] ms

@[simp] theorem ups_singleton (c : EngineConfig) (msg : ClientMsg) : W.ups (some c) [msg] = W.up c msg := by simp [ups]

@[simp] theorem downs_singleton (c : EngineConfig) (msg : ServerMsg) :
    W.downs (some c) [msg] = W.down c msg := by simp [downs]

variable {W ec}

theorem Relayed.ups_silent (lawful : W.Relayed) {msgs : List ClientMsg} (h : ∀ msg ∈ msgs, msg.negotiates = false) :
    W.ups ec msgs = 0 := by
  induction msgs with
  | nil => exact W.ups_nil ec
  | cons msg msgs ih =>
    rw [ups_cons, ih fun m hm => h m (List.mem_cons_of_mem _ hm)]
    cases ec with
    | none => rfl
    | some c => rw [ups_singleton, lawful.up_silent c msg (h msg List.mem_cons_self)]

theorem Relayed.downs_silent (lawful : W.Relayed) {msgs : List ServerMsg} (h : ∀ msg ∈ msgs, msg.negotiates = false) :
    W.downs ec msgs = 0 := by
  induction msgs with
  | nil => exact W.downs_nil ec
  | cons msg msgs ih =>
    rw [downs_cons, ih fun m hm => h m (List.mem_cons_of_mem _ hm)]
    cases ec with
    | none => rfl
    | some c => rw [downs_singleton, lawful.down_silent c msg (h msg List.mem_cons_self)]

theorem Relayed.downs_pending (lawful : W.Relayed) (k : Conn) : W.downs ec k.pending = 0 := by
  refine lawful.downs_silent fun msg hm => ?_
  unfold Conn.pending at hm
  split at hm
  · rw [List.mem_singleton.mp hm]
    rfl
  · cases hm

/-- A queue gains at most the weight of what it is sent. -/
theorem downs_pushAll_le (W : Weight) (ec : Option EngineConfig) (c : Conn) (msgs : List ServerMsg) :
    W.downs ec (c.pushAll msgs).queue ≤ W.downs ec c.queue + W.downs ec msgs := by
  unfold Conn.pushAll
  split
  · obtain ⟨n, h⟩ := Fifo.pushAll_eq_take peerChan c.queue msgs
    have split' : W.downs ec msgs = W.downs ec (msgs.take n) + W.downs ec (msgs.drop n) := by
      rw [← downs_append, List.take_append_drop]
    simp only [h, downs_append, split']
    omega
  · exact Nat.le_add_right _ _

end

end Weight

namespace Sys

/-- Where a message on its way can lie. -/
inductive Place
  | wire (s : SocketId)
  | down (s : SocketId)
  | out (c : ClientId)
deriving DecidableEq

/-- What a socket's client has still to hear, its pending Roster included. -/
def heard (σ : Sys) (s : SocketId) : List ServerMsg :=
  σ.inbox s ++ ((σ.server.conns s).map fun k => k.queue ++ k.pending).getD []

instance (st : Server) (s : SocketId) : Decidable (st.IsOpen s) :=
  decidable_of_iff (∃ c ∈ st.conns s, c.phase ≠ .ended) Iff.rfl

/-- The weight at a place. A wire counts while the server reads it, and what is heard while the client is there
    to hear it. -/
def load (W : Weight) (σ : Sys) : Place → Nat
  | .wire s => if σ.server.IsOpen s then W.ups (σ.cfgOf s) (σ.wire s) else 0
  | .down s => if σ.attached s then W.downs (σ.cfgOf s) (σ.heard s) else 0
  | .out c => W.ups ((σ.running? c).map (·.cfg)) (((σ.running? c).map (·.mesh.out)).getD [])

section
variable {cfg : SysConfig} {σ σ' : Sys} {a : Act} {W : Weight}

theorem load_wire_le {s : SocketId} (hcfg : σ'.cfgOf s = σ.cfgOf s)
    (hopen : σ'.server.IsOpen s → σ.server.IsOpen s) {x : Nat}
    (hle : W.ups (σ.cfgOf s) (σ'.wire s) ≤ W.ups (σ.cfgOf s) (σ.wire s) + x) :
    σ'.load W (.wire s) ≤ σ.load W (.wire s) + x := by
  simp only [load, hcfg]
  split
  · rw [if_pos (hopen ‹_›)]
    exact hle
  · exact Nat.zero_le _

theorem load_down_le {s : SocketId} (hcfg : σ'.cfgOf s = σ.cfgOf s)
    (hatt : σ'.attached s = true → σ.attached s = true) {x : Nat}
    (hle : W.downs (σ.cfgOf s) (σ'.heard s) ≤ W.downs (σ.cfgOf s) (σ.heard s) + x) :
    σ'.load W (.down s) ≤ σ.load W (.down s) + x := by
  simp only [load, hcfg]
  split
  · rw [if_pos (hatt ‹_›)]
    exact hle
  · exact Nat.zero_le _

theorem heard_of_conn {s : SocketId} {k : Conn} (h : σ.server.conns s = some k) :
    σ.heard s = σ.inbox s ++ (k.queue ++ k.pending) := by
  rw [heard, h]; rfl

theorem Online.heard {room userId : String} {h : PeerHandle} {e : Engine} {k : Conn} (on : Online σ room userId h e k) :
    σ.heard h.tx = σ.downstream h.tx k ++ k.pending := by
  rw [heard_of_conn on.conn, downstream, List.append_assoc]

/-- Messages come on top of what a connection's client has to hear. -/
theorem downs_heard_le (lawful : W.Relayed) {s : SocketId} {ec : Option EngineConfig} {msgs : List ServerMsg}
    (hin : σ'.inbox s = σ.inbox s)
    (hconn : ∀ k', σ'.server.conns s = some k' → ∃ k, σ.server.conns s = some k ∧ k'.queue = (k.pushAll msgs).queue) :
    W.downs ec (σ'.heard s) ≤ W.downs ec (σ.heard s) + W.downs ec msgs := by
  cases hk' : σ'.server.conns s with
  | none =>
    simp only [Sys.heard, hk', Option.map_none, Option.getD_none, List.append_nil, hin, Weight.downs_append]
    omega
  | some k' =>
    obtain ⟨k, hk, hq⟩ := hconn k' hk'
    have := Weight.downs_pushAll_le W ec k msgs
    simp only [heard_of_conn hk', heard_of_conn hk, Weight.downs_append, hin, hq, lawful.downs_pending]
    omega

theorem load_recv (lawful : W.Relayed) (wf : WF cfg σ) {s : SocketId} (hs : step cfg σ (.recv s) = some σ') :
    Tokens.Shift (σ.load W) (σ'.load W) := by
  obtain ⟨msg, rest, srv, hw, hstep, heq⟩ := step_recv_inv hs
  obtain ⟨c, hc, hr, hsrv⟩ := Server.step_frame_inv hstep
  have hcfg : ∀ t, σ'.cfgOf t = σ.cfgOf t := fun t => by rw [heq]; rfl
  have hwire : σ'.wire = Function.update σ.wire s rest := by rw [heq]
  have opened : ∀ t, σ'.server.IsOpen t → σ.server.IsOpen t := by
    rw [heq]
    exact Server.isOpen_of_step wf.server.fresh hstep (by simp)
  have hopen : σ.server.IsOpen s := ⟨c, hc, by rw [hr]; exact Phase.noConfusion⟩
  have down : ∀ t, σ'.load W (.down t) ≤
      σ.load W (.down t) + W.downs (σ.cfgOf t)
        (Fifo.sentTo t (Server.frameSends cfg.server σ.server s c.me (.text msg))) := by
    intro t
    refine load_down_le (hcfg t) (by rw [heq]; exact id) ?_
    rw [heq]
    refine downs_heard_le lawful rfl fun k' hk' => ?_
    simp only [hsrv, Server.handleFrame_conns hc hr] at hk'
    obtain ⟨k, hk, rfl⟩ := Option.map_eq_some_iff.mp hk'
    exact ⟨k, hk, by by_cases ht : t = s <;> simp [ht]⟩
  have wire : σ'.load W (.wire s) + W.ups (σ.cfgOf s) [msg] ≤ σ.load W (.wire s) := by
    simp only [load, hopen, if_true, hw, hwire, hcfg]
    rw [W.ups_cons _ msg rest, Function.update_self]
    split
    · omega
    · omega
  have others : ∀ t, t ≠ s → σ'.load W (.wire t) ≤ σ.load W (.wire t) := fun t ht =>
    load_wire_le (x := 0) (hcfg t) (opened t) (by rw [hwire, Function.update_of_ne ht]; exact Nat.le_refl _)
  have outs : ∀ d, σ'.load W (.out d) = σ.load W (.out d) := fun d => by rw [heq]; rfl
  rcases @Server.frame_negotiates cfg.server σ.server s c msg with quiet | ⟨room, sender, dest, sdp, h, hme, hh, relay⟩
  · refine .lost fun p => ?_
    cases p with
    | wire t =>
      by_cases ht : t = s
      · subst ht; omega
      · exact others t ht
    | down t =>
      have := down t
      rw [lawful.downs_silent fun msg hm => quiet _ (Fifo.mem_sentTo.mp hm)] at this
      exact this
    | out d => exact (outs d).le
  · -- The relayed message goes from the sender's wire to the receiver's queue.
    obtain ⟨ec, hec, hroom, huser⟩ := wf.ident s room sender ((Server.ident_of_reading hc hr).trans hme)
    obtain ⟨ed, hed, hroom', huser'⟩ := wf.ident h.tx room dest (wf.server.listed _ _ _ hh)
    have relayed :
        ∃ x, W.downs (σ.cfgOf h.tx) (Fifo.sentTo h.tx (Server.frameSends cfg.server σ.server s c.me (.text msg))) ≤ x ∧
          x ≤ W.ups (σ.cfgOf s) [msg] := by
      refine ⟨_, Nat.le_refl _, ?_⟩
      rw [hec, hed]
      rcases relay with ⟨rfl, hsends⟩ | ⟨rfl, hsends⟩
      · rw [hsends, Fifo.sentTo_cons, if_pos rfl, Fifo.sentTo_nil, Weight.downs_singleton,
          Weight.ups_singleton, ← huser, ← huser']
        exact lawful.offer ec ed sdp (hroom.trans hroom'.symm)
      · rw [hsends, Fifo.sentTo_cons, if_pos rfl, Fifo.sentTo_nil, Weight.downs_singleton,
          Weight.ups_singleton, ← huser, ← huser']
        exact lawful.answer ec ed sdp (hroom.trans hroom'.symm)
    have elsewhere : ∀ t, t ≠ h.tx → Fifo.sentTo t (Server.frameSends cfg.server σ.server s c.me (.text msg)) = [] := by
      intro t ht
      rcases relay with ⟨-, hsends⟩ | ⟨-, hsends⟩ <;> rw [hsends, Fifo.sentTo_cons, if_neg (Ne.symm ht), Fifo.sentTo_nil]
    obtain ⟨x, hdown, hx⟩ := relayed
    refine .moved (.wire s) (.down h.tx) x (by simp) (by omega) ((down h.tx).trans (by omega)) fun p hsrc hdst => ?_
    cases p with
    | wire t => exact others t fun ht => hsrc (by rw [ht])
    | down t =>
      have := down t
      rw [elsewhere t fun ht => hdst (by rw [ht]), Weight.downs_nil] at this
      exact this
    | out d => exact (outs d).le

/-- A step of the server's other tasks loses weight or keeps it. -/
theorem load_le_of_server (wf : WF cfg σ) {b : SAct} (hb : b ≠ .accept) (τ : Sys)
    (hstep : σ.server.step cfg.server b = some τ.server) (hw : τ.wire = σ.wire) (ho : τ.owner = σ.owner)
    (hE : τ.engines = σ.engines) (hdown : ∀ s ec, σ.attached s = true → W.downs ec (τ.heard s) ≤ W.downs ec (σ.heard s))
    (p : Place) : τ.load W p ≤ σ.load W p := by
  have hcfg : ∀ t, τ.cfgOf t = σ.cfgOf t := fun t => by rw [cfgOf, cfgOf, ho, hE]
  have hrun : τ.running? = σ.running? := by funext c; rw [running?, running?, hE]
  have hatt : ∀ t, τ.attached t = σ.attached t := fun t => by rw [attached, attached, hrun, ho]
  cases p with
  | wire t =>
    exact load_wire_le (x := 0) (hcfg t) (Server.isOpen_of_step wf.server.fresh hstep hb t)
      (by rw [hw]; exact Nat.le_refl _)
  | down t =>
    simp only [load, hatt, hcfg]
    split
    · exact hdown t _ ‹_›
    · exact Nat.le_refl _
  | out d => simp only [load, hrun]; exact Nat.le_refl _

theorem load_write (wf : WF cfg σ) {s : SocketId} (hs : step cfg σ (.write s) = some σ') (p : Place) :
    σ'.load W p ≤ σ.load W p := by
  obtain ⟨c, msg, rest, srv, hc, hq, hstep, rfl⟩ := step_write_inv hs
  obtain ⟨c', hc', -, hsrv⟩ := Server.step_write_inv hstep
  cases hc.symm.trans hc'
  have hconns : ∀ t, srv.conns t = (σ.server.conns t).map fun c =>
      if t = s then { c with queue := c.queue.tail } else c := by
    intro t
    rw [hsrv, Server.modifyConn_conns]
    by_cases ht : t = s
    · subst ht; simp
    · simp [ht]
  refine load_le_of_server wf (b := .write s) (by simp) (σ.delivered srv s msg) hstep rfl rfl rfl
    (fun t ec hatt => Nat.le_of_eq (congrArg _ ?_)) p
  by_cases ht : t = s
  · subst ht
    have hk' : (σ.delivered srv t msg).server.conns t = some { c with queue := c.queue.tail } := by
      show srv.conns t = _
      rw [hconns, hc]
      simp
    have hin : (σ.delivered srv t msg).inbox t = σ.inbox t ++ [msg] := by simp [delivered, hatt]
    rw [heard_of_conn hk', heard_of_conn hc, hin, hq]
    simp [Conn.pending]
  · have hk' : (σ.delivered srv s msg).server.conns t = σ.server.conns t := by
      show srv.conns t = _
      rw [hconns]
      simp [ht]
    have hin : (σ.delivered srv s msg).inbox t = σ.inbox t := by
      simp only [delivered]
      split <;> simp [ht]
    rw [heard, heard, hk', hin]

theorem load_server (lawful : W.Relayed) (wf : WF cfg σ) {b : SAct} (hs : step cfg σ (.server b) = some σ') (p : Place) :
    σ'.load W p ≤ σ.load W p := by
  obtain ⟨hi, srv, hstep, rfl⟩ := step_server_inv hs
  refine load_le_of_server wf (b := b) (by rintro rfl; cases hi) { σ with server := srv } hstep rfl rfl rfl
    (fun t ec _ => ?_) p
  -- A record that is kept, or emptied.
  have kept : ∀ {f : Conn → Conn},
      (∀ c, W.downs ec (f c).queue + W.downs ec (f c).pending ≤ W.downs ec c.queue + W.downs ec c.pending) →
      srv.conns t = (σ.server.conns t).map f → W.downs ec (Sys.heard { σ with server := srv } t) ≤
      W.downs ec (σ.heard t) := by
    intro f hf hk
    rw [Sys.heard, Sys.heard]
    show W.downs ec (σ.inbox t ++ ((srv.conns t).map _).getD []) ≤ _
    rw [hk]
    cases σ.server.conns t with
    | none => exact Nat.le_refl _
    | some k =>
      simp only [Option.map_some, Option.getD_some, Weight.downs_append]
      have := hf k
      omega
  have modified : ∀ {s : SocketId} {f : Conn → Conn},
      (∀ c, W.downs ec (f c).queue + W.downs ec (f c).pending ≤ W.downs ec c.queue + W.downs ec c.pending) →
      srv = σ.server.modifyConn s f → W.downs ec (Sys.heard { σ with server := srv } t) ≤ W.downs ec (σ.heard t) := by
    intro s f hf hsrv
    refine kept (f := fun c => if t = s then f c else c) (fun c => ?_) ?_
    · split
      · exact hf c
      · exact Nat.le_refl _
    · rw [hsrv, Server.modifyConn_conns]
      by_cases ht : t = s
      · subst ht; simp
      · simp [ht]
  have dropped : ∀ c : Conn, W.downs ec c.dropRx.queue + W.downs ec c.dropRx.pending ≤
      W.downs ec c.queue + W.downs ec c.pending := by
    intro c
    rw [show c.dropRx.pending = c.pending from rfl, show c.dropRx.queue = [] from rfl, Weight.downs_nil]
    omega
  cases b with
  | accept => cases hi
  | frame s f => cases hi
  | write s => cases hi
  | finishJoin s now =>
    obtain ⟨c, room, userId, roster, hc, hp, hsrv⟩ := Server.step_finishJoin_inv hstep
    by_cases ht : t = s
    · -- The Roster goes from the pending Join to the queue.
      subst ht
      have hk : srv.conns t = some { (c.pushAll (.roster roster :: turnMsgs cfg now userId)) with
          phase := .reading, me := some (room, userId) } := by
        rw [hsrv, Server.finishJoin_conns, hc, sentTo_finishSends]
        simp
      have turn : W.downs ec (turnMsgs cfg now userId) = 0 := lawful.downs_silent fun msg hm => by
        simp only [turnMsgs, Option.mem_toList, Option.map_eq_some_iff] at hm
        obtain ⟨_, -, rfl⟩ := hm
        rfl
      have grown := Weight.downs_pushAll_le W ec c (.roster roster :: turnMsgs cfg now userId)
      rw [Weight.downs_cons, turn] at grown
      have hk' : Sys.heard { σ with server := srv } t =
          σ.inbox t ++ ((c.pushAll (.roster roster :: turnMsgs cfg now userId)).queue ++ []) := by
        rw [Sys.heard]
        show σ.inbox t ++ ((srv.conns t).map _).getD [] = _
        rw [hk]
        rfl
      have hpend : c.pending = [.roster roster] := by rw [Conn.pending, hp]
      rw [hk', heard_of_conn hc, hpend]
      simp only [Weight.downs_append, Weight.downs_nil]
      omega
    · refine kept (f := id) (fun c => Nat.le_refl _) ?_
      rw [hsrv, Server.finishJoin_conns, sentTo_finishSends]
      simp [ht]
  | close s =>
    obtain ⟨c, hc, hr, hsrv⟩ := Server.step_close_inv hstep
    refine kept (fun k => ?_) (hsrv ▸ Server.cleanup_conns c.me t)
    have silent : W.downs ec (Fifo.sentTo t (Server.cleanupSends σ.server c.me)) = 0 :=
      lawful.downs_silent fun msg hm => Server.cleanupSends_negotiates c.me _ (Fifo.mem_sentTo.mp hm)
    have grown := Weight.downs_pushAll_le W ec k (Fifo.sentTo t (Server.cleanupSends σ.server c.me))
    rw [silent] at grown
    by_cases ht : t = s
    · simp only [ht, ↓reduceIte] at grown ⊢
      rw [show Conn.pending { (k.pushAll (Fifo.sentTo s (Server.cleanupSends σ.server c.me))) with phase := .ended } =
        [] from rfl, Weight.downs_nil]
      omega
    · simp only [ht, ↓reduceIte]
      rw [pending_congr (Conn.pushAll_phase k _)]
      omega
  | writeFail s =>
    obtain ⟨c, -, -, hsrv⟩ := Server.step_writeFail_inv hstep
    exact modified dropped hsrv
  | abort s =>
    obtain ⟨c, -, -, hsrv⟩ := Server.step_abort_inv hstep
    exact modified dropped hsrv
  | rehash room r =>
    obtain ⟨r₀, -, -, rfl⟩ := Server.step_rehash_inv hstep
    exact Nat.le_refl _
  | restart =>
    cases Option.some.inj hstep
    refine kept (fun c => ?_) rfl
    rw [show Conn.pending { c.dropRx with phase := .ended } = [] from rfl,
      show Conn.queue { c.dropRx with phase := .ended } = [] from rfl, Weight.downs_nil]
    omega

/-- A client that opens a socket brings no weight. -/
theorem load_dial (lawful : W.Relayed) (wf : WF cfg σ) {srv : Server} (hstep : σ.server.step cfg.server .accept = some srv)
    {c : ClientId} (e' : Engine) (τ : Sys)
    (hc : c = σ.nextClient ∧ e'.mesh.out = [] ∨ ∃ e, σ.engines c = some e ∧ e'.cfg = e.cfg ∧
      e.cur = none ∧ e'.mesh = e.mesh ∧ e'.running = e.running)
    (hcur : e'.cur = some σ.server.nextSocket) (hsrv : τ.server = srv)
    (ho : τ.owner = Function.update σ.owner σ.server.nextSocket c)
    (hE : τ.engines = Function.update σ.engines c (some e'))
    (hw : τ.wire = Function.update σ.wire σ.server.nextSocket [Engine.joinMsg e'.cfg])
    (hi : τ.inbox = σ.inbox) (p : Place) :
    τ.load W p ≤ σ.load W p := by
  have hconns : ∀ t, t ≠ σ.server.nextSocket → τ.server.conns t = σ.server.conns t := fun t ht => by
    rw [hsrv, accept_eq hstep]
    exact Function.update_of_ne ht ..
  have howner : ∀ t, t ≠ σ.server.nextSocket → τ.owner t = σ.owner t := fun t ht => by rw [ho, Function.update_of_ne ht]
  -- The client opening the socket is new or was on none.
  have absent : ∀ t, t ≠ σ.server.nextSocket → ∀ e, σ.engines c = some e → e.cur ≠ some t := by
    intro t ht e he hcur
    rcases hc with ⟨rfl, -⟩ | ⟨e₀, he₀, -, hnone, -⟩
    · rw [wf.unstarted _ (Nat.le_refl _)] at he; cases he
    · cases he₀.symm.trans he
      rw [hnone] at hcur
      cases hcur
  have hcfg : ∀ t, t < σ.server.nextSocket → τ.cfgOf t = σ.cfgOf t := by
    intro t ht
    obtain ⟨e, he⟩ := Option.isSome_iff_exists.mp (wf.owned t ht)
    rw [cfgOf, cfgOf, howner t (Nat.ne_of_lt ht), hE, he]
    by_cases hown : σ.owner t = c
    · rw [hown, Function.update_self]
      rcases hc with ⟨rfl, -⟩ | ⟨e₀, he₀, hcfg, -⟩
      · rw [hown, wf.unstarted _ (Nat.le_refl _)] at he; cases he
      · rw [hown, he₀] at he
        cases he
        rw [Option.map_some, Option.map_some, hcfg]
    · rw [Function.update_of_ne hown, he]
  have unopened : ∀ t, σ.server.nextSocket ≤ t → σ.inbox t = [] ∧ σ.server.conns t = none := fun t ht =>
    ⟨(wf.unopened t ht).2, wf.server.fresh t ht⟩
  cases p with
  | wire t =>
    by_cases hn : t = σ.server.nextSocket
    · subst hn
      have : τ.load W (.wire σ.server.nextSocket) = 0 := by
        simp only [load, hw, Function.update_self]
        split
        · exact lawful.ups_silent fun msg hm => by rw [List.mem_singleton.mp hm]; rfl
        · rfl
      omega
    · by_cases hlt : t < σ.server.nextSocket
      · refine load_wire_le (x := 0) (hcfg t hlt) (fun h => ?_) (by rw [hw, Function.update_of_ne hn]; exact Nat.le_refl _)
        obtain ⟨k, hk, hp⟩ := h
        exact ⟨k, hconns t hn ▸ hk, hp⟩
      · have : ¬ τ.server.IsOpen t := by
          rintro ⟨k, hk, -⟩
          rw [hconns t hn, (unopened t (Nat.le_of_not_lt hlt)).2] at hk
          cases hk
        simp [load, this]
  | down t =>
    by_cases hlt : t < σ.server.nextSocket
    · have hn := Nat.ne_of_lt hlt
      refine load_down_le (x := 0) (hcfg t hlt) (fun h => ?_) ?_
      · obtain ⟨e, he, hrun, hcur'⟩ := attached_iff.mp h
        rw [howner t hn, hE] at he
        by_cases hown : σ.owner t = c
        · rw [hown, Function.update_self, Option.some.injEq] at he
          rw [← he, hcur] at hcur'
          exact absurd (Option.some.inj hcur').symm hn
        · rw [Function.update_of_ne hown] at he
          exact attached_iff.mpr ⟨e, he, hrun, hcur'⟩
      · rw [heard, heard, hi, hconns t hn]
        exact Nat.le_refl _
    · have : τ.heard t = [] := by
        rw [heard, hi, (unopened t (Nat.le_of_not_lt hlt)).1]
        by_cases hn : t = σ.server.nextSocket
        · subst hn
          rw [hsrv, accept_eq hstep]
          simp [Conn.pending]
        · rw [hconns t hn, (unopened t (Nat.le_of_not_lt hlt)).2]
          rfl
      simp [load, this]
  | out d =>
    by_cases hd : d = c
    · subst hd
      have he' : τ.engines d = some e' := by rw [hE, Function.update_self]
      rcases hc with ⟨-, hout⟩ | ⟨e, he, hcfg, -, hmesh, hrun⟩
      · simp only [load, running?, he']
        cases hr : e'.running <;> simp [Option.filter, hr, hout]
      · simp only [load, running?, he', he]
        cases hr : e.running <;> simp [Option.filter, hr, hrun, hmesh, hcfg]
    · simp only [load, running?, hE, Function.update_of_ne hd]
      exact Nat.le_refl _

/-- A step of one engine touches what lies elsewhere at most by ending its loop or its connection. -/
structure OneEngine (σ τ : Sys) (c : ClientId) (e e' : Engine) : Prop where
  engine : σ.engines c = some e
  engines : τ.engines = Function.update σ.engines c (some e')
  config : e'.cfg = e.cfg
  running : e'.running = true → e.running = true
  cur : ∀ s, e'.cur = some s → e.cur = some s
  server : τ.server = σ.server
  owner : τ.owner = σ.owner

theorem OneEngine.cfgOf {τ : Sys} {c : ClientId} {e e' : Engine} (one : OneEngine σ τ c e e') (s : SocketId) :
    τ.cfgOf s = σ.cfgOf s := by
  rw [Sys.cfgOf, Sys.cfgOf, one.owner, one.engines]
  by_cases h : σ.owner s = c
  · rw [h, Function.update_self, one.engine, Option.map_some, Option.map_some, one.config]
  · rw [Function.update_of_ne h]

theorem OneEngine.attached {τ : Sys} {c : ClientId} {e e' : Engine} (one : OneEngine σ τ c e e') {s : SocketId}
    (h : τ.attached s = true) : σ.attached s = true := by
  obtain ⟨e₁, he₁, hr, hc⟩ := attached_iff.mp h
  rw [one.owner, one.engines] at he₁
  by_cases hown : σ.owner s = c
  · rw [hown, Function.update_self, Option.some.injEq] at he₁
    subst he₁
    exact attached_iff.mpr ⟨e, hown ▸ one.engine, one.running hr, one.cur s hc⟩
  · rw [Function.update_of_ne hown] at he₁
    exact attached_iff.mpr ⟨e₁, he₁, hr, hc⟩

theorem OneEngine.out {τ : Sys} {c : ClientId} {e e' : Engine} (one : OneEngine σ τ c e e') {ms : List ClientMsg}
    (hout : e'.mesh.out = e.mesh.out ++ ms) (d : ClientId) :
    τ.load W (.out d) ≤ σ.load W (.out d) + if d = c then W.ups (some e.cfg) ms else 0 := by
  by_cases hd : d = c
  · subst hd
    have he' : τ.engines d = some e' := by rw [one.engines, Function.update_self]
    simp only [load, running?, he', one.engine]
    cases hr' : e'.running with
    | false => simp [Option.filter, hr']
    | true => simp [Option.filter, hr', one.running hr', one.config, hout, Weight.ups_append]
  · simp only [load, running?, one.engines, Function.update_of_ne hd]
    exact Nat.le_add_right _ _

theorem OneEngine.down {τ : Sys} {c : ClientId} {e e' : Engine} (one : OneEngine σ τ c e e')
    (hi : τ.inbox = σ.inbox) (s : SocketId) :
    τ.load W (.down s) ≤ σ.load W (.down s) :=
  load_down_le (x := 0) (one.cfgOf s) one.attached (by rw [heard, heard, hi, one.server]; exact Nat.le_refl _)

/-- What the client sends goes to its connection. -/
theorem OneEngine.wire {τ : Sys} {c : ClientId} {e e' : Engine} (one : OneEngine σ τ c e e')
    (wf : WF cfg σ) (msgs : List ClientMsg)
    (hw : ∀ s, τ.wire s = if e.cur = some s then σ.wire s ++ msgs else σ.wire s) (s : SocketId) :
    τ.load W (.wire s) ≤ σ.load W (.wire s) + if e.cur = some s then W.ups (some e.cfg) msgs else 0 := by
  refine load_wire_le (one.cfgOf s) (by rw [one.server]; exact id) ?_
  rw [hw]
  split
  · have hcfg : σ.cfgOf s = some e.cfg := by
      rw [Sys.cfgOf, (wf.cur c e s one.engine ‹_›).2, one.engine]
      rfl
    rw [Weight.ups_append, hcfg]
  · exact Nat.le_refl _

/-- A client that sends and says nothing that weighs anything. -/
theorem OneEngine.still {τ : Sys} {c : ClientId} {e e' : Engine} (one : OneEngine σ τ c e e') (wf : WF cfg σ)
    (msgs : List ClientMsg) {ms : List ClientMsg}
    (hw : ∀ s, τ.wire s = if e.cur = some s then σ.wire s ++ msgs else σ.wire s) (hi : τ.inbox = σ.inbox)
    (hout : e'.mesh.out = e.mesh.out ++ ms) (silent : W.ups (some e.cfg) msgs = 0)
    (silent' : W.ups (some e.cfg) ms = 0) (p : Place) :
    τ.load W p ≤ σ.load W p := by
  cases p with
  | wire s => simpa [silent] using one.wire (W := W) wf msgs hw s
  | down s => exact one.down hi s
  | out d => simpa [silent'] using one.out (W := W) hout d

/-- Every step in which no client handles a message moves weight along. -/
theorem load_shift (lawful : W.Relayed) (wf : WF cfg σ) (hs : step cfg σ a = some σ') (idle : ∀ c w, a ≠ .handle c w) :
    Tokens.Shift (σ.load W) (σ'.load W) := by
  cases a with
  | recv s => exact load_recv lawful wf hs
  | write s => exact .lost (load_write wf hs)
  | server b => exact .lost (load_server lawful wf hs)
  | start ecfg =>
    obtain ⟨srv, hstep, rfl⟩ := step_start_inv hs
    exact .lost (load_dial lawful wf hstep (.start ecfg σ.nextClient σ.server.nextSocket) _
      (.inl ⟨rfl, rfl⟩) rfl rfl rfl rfl rfl rfl)
  | handle c w => exact absurd rfl (idle c w)
  | lost c =>
    obtain ⟨e, s, he, -, -, -, rfl⟩ := step_lost_inv hs
    have one : OneEngine σ (σ.setEngine c e.lost) c e e.lost := ⟨he, rfl, rfl, id, (fun _ h => by cases h), rfl, rfl⟩
    exact .lost (one.still wf [] (fun s => by simp) rfl (List.append_nil _).symm (by simp) (by simp))
  | uplink c =>
    obtain ⟨e, msg, rest, he, running, hout, heq⟩ := step_uplink_inv hs
    have one : OneEngine σ σ' c e { e with mesh := { e.mesh with out := rest } } := by
      rw [heq]
      exact ⟨he, by rw [setEngine_engines, transmit_engines], rfl, id, fun _ h => h, by simp, by simp⟩
    have wire := one.wire (W := W) wf [msg] fun s => by rw [heq, setEngine_wire, transmit_wire]
    have down := one.down (W := W) (by rw [heq, setEngine_inbox, transmit_inbox])
    have runs : ∀ d, σ'.running? d = if d = c then some { e with mesh := { e.mesh with out := rest } }
        else σ.running? d := by
      intro d
      rw [running?, one.engines]
      split
      · subst d
        simp [Option.filter, running]
      · rw [Function.update_of_ne ‹_›, running?]
    have taken : σ'.load W (.out c) + W.ups (some e.cfg) [msg] ≤ σ.load W (.out c) := by
      have here : σ.running? c = some e := Option.filter_eq_some_iff.mpr ⟨he, running⟩
      simp only [load, runs, ↓reduceIte, here, Option.map_some, Option.getD_some, hout]
      rw [W.ups_cons _ msg rest]
      omega
    have others : ∀ d, d ≠ c → σ'.load W (.out d) = σ.load W (.out d) := fun d hd => by simp only [load, runs, if_neg hd]
    cases hcur : e.cur with
    | none =>
      refine .lost fun p => ?_
      cases p with
      | wire s => simpa [hcur] using wire s
      | down s => exact down s
      | out d =>
        by_cases hd : d = c
        · subst hd
          omega
        · exact (others d hd).le
    | some s =>
      refine .moved (.out c) (.wire s) (W.ups (some e.cfg) [msg]) (by simp) taken (by simpa [hcur] using wire s)
        fun p hsrc hdst => ?_
      cases p with
      | wire t =>
        have ht : s ≠ t := fun h => hdst (by rw [h])
        simpa [hcur, ht] using wire t
      | down t => exact down t
      | out d => exact (others d fun h => hsrc (by rw [h])).le
  | reconnect c =>
    obtain ⟨e, srv, he, -, hcur, hstep, rfl⟩ := step_reconnect_inv hs
    exact .lost (load_dial lawful wf hstep (e.reconnected σ.server.nextSocket) _ (.inr ⟨e, he, rfl, hcur, rfl, rfl⟩)
      rfl rfl rfl rfl rfl rfl)
  | event c ev =>
    obtain ⟨e, e', msgs, he, running, hev, rfl⟩ := step_event_inv hs
    obtain ⟨hcfg, hcur, idles, -, hmsgs, -⟩ := Engine.onEvent_spec hev
    obtain ⟨ms, hout, -, hice⟩ := idles.sends
    have one : OneEngine σ ((σ.transmit e.cur msgs).setEngine c e') c e e' :=
      ⟨he, by simp, hcfg, fun _ => running, fun s h => hcur ▸ h, by simp, by simp⟩
    refine .lost (one.still wf msgs (fun s => by simp [transmit_wire]) (by simp) hout (lawful.ups_silent fun msg hm => ?_)
      (lawful.ups_silent fun msg hm => ?_))
    · rcases hmsgs msg hm with ⟨on, rfl⟩ | ⟨rfl, -⟩ <;> rfl
    · obtain ⟨dest, cand, rfl⟩ := hice msg hm
      rfl

/-- A client handles a message: it is taken from what the client has to hear, and what its mesh says is put down. -/
structure Handled (W : Weight) (σ σ' : Sys) (c : ClientId) (e e' : Engine) (s : SocketId) (msg : ServerMsg)
    (ms : List ClientMsg) : Prop where
  out : e'.mesh.out = e.mesh.out ++ ms
  taken : σ'.load W (.down s) + W.down e.cfg msg ≤ σ.load W (.down s)
  put : σ'.load W (.out c) ≤ σ.load W (.out c) + W.ups (some e.cfg) ms
  others : ∀ p, p ≠ .down s → p ≠ .out c → σ'.load W p ≤ σ.load W p

theorem load_handle {c : ClientId} {w : Outcomes} (wf : WF cfg σ) (hs : step cfg σ (.handle c w) = some σ') :
    ∃ e s msg ms, σ.engines c = some e ∧ e.running = true ∧ e.cur = some s ∧ (σ.inbox s).head? = some msg ∧
      σ'.engines = Function.update σ.engines c (some (e.handle cfg.rtc w msg)) ∧
      ∀ W, Handled W σ σ' c e (e.handle cfg.rtc w msg) s msg ms := by
  obtain ⟨e, s, msg, rest, he, running, hcur, hin, heq⟩ := step_handle_inv hs
  obtain ⟨ms, hout, -⟩ := (e.mesh.react_grows cfg.rtc w e.cfg.relayEnabled msg).sends
  rw [← Engine.handle_mesh] at hout
  have hE : σ'.engines = Function.update σ.engines c (some (e.handle cfg.rtc w msg)) := by rw [heq]; rfl
  have one : OneEngine σ σ' c e (e.handle cfg.rtc w msg) :=
    ⟨he, hE, Engine.handle_cfg msg, fun _ => running, fun t h => by rwa [Engine.handle_cur] at h,
      by rw [heq]; rfl, by rw [heq]; rfl⟩
  have hi : σ'.inbox = Function.update σ.inbox s rest := by rw [heq]; rfl
  have hown := (wf.cur c e s he hcur).2
  have hcfg : σ.cfgOf s = some e.cfg := by rw [Sys.cfgOf, hown, he]; rfl
  have att : σ.attached s = true := attached_iff.mpr ⟨e, hown ▸ he, running, hcur⟩
  have heard : σ.heard s = msg :: σ'.heard s := by
    rw [Sys.heard, Sys.heard, one.server, hi, Function.update_self, hin]
    rfl
  refine ⟨e, s, msg, ms, he, running, hcur, by rw [hin]; rfl, hE,
    fun W => ⟨hout, ?_, by simpa using one.out (W := W) hout c, fun p hdown hout' => ?_⟩⟩
  · simp only [load, one.cfgOf, att, ↓reduceIte, hcfg, heard]
    rw [W.downs_cons _ msg, Weight.downs_singleton]
    split
    · omega
    · omega
  · cases p with
    | wire t => simpa using one.wire (W := W) wf [] (fun s => by rw [heq]; simp) t
    | down t =>
      have ht : t ≠ s := fun h => hdown (by rw [h])
      exact load_down_le (x := 0) (one.cfgOf t) one.attached
        (by rw [Sys.heard, Sys.heard, hi, Function.update_of_ne ht, one.server]; exact Nat.le_refl _)
    | out d => simpa [show d ≠ c from fun h => hout' (by rw [h])] using one.out (W := W) hout d

end

end Sys

end SquadLink

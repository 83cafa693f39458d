import SquadLink.Server.Reception
import SquadLink.System.Connections

/-! A client that is online: its room lists the socket that it is on, and the socket's writer task runs.
    What it has still to hear and to say, and how one step of the system changes that. -/

namespace SquadLink

/-- The Roster that a Join has still to send. -/
def Conn.pending (k : Conn) : List ServerMsg :=
  match k.phase with
  | .joining _ _ roster => [.roster roster]
  | _ => []

namespace Sys

structure Online (σ : Sys) (room userId : String) (h : PeerHandle) (e : Engine) (k : Conn) : Prop where
  listed : σ.server.handle? room userId = some h
  engine : σ.engines (σ.owner h.tx) = some e
  running : e.running = true
  cur : e.cur = some h.tx
  conn : σ.server.conns h.tx = some k
  rx : k.rxOpen = true

/-- What a client has still to hear, apart from a pending Roster. -/
def downstream (σ : Sys) (s : SocketId) (k : Conn) : List ServerMsg := σ.inbox s ++ k.queue

/-- The offers and answers that a client has still to get to the server. -/
def upstream (σ : Sys) (s : SocketId) (e : Engine) : List ClientMsg := (σ.wire s ++ e.mesh.out).filter ClientMsg.negotiates

/-- Nothing is on its way over an open socket or waits in a running client, and no Join waits to send its Roster. What a
    connection that has ended or a client that has stopped still held is not on its way to anybody. -/
def Drained (σ : Sys) : Prop :=
  (∀ s < σ.server.nextSocket, ∀ k ∈ σ.server.conns s, k.phase ≠ .ended → σ.wire s = [] ∧ k.queue = [] ∧ k.pending = []) ∧
    ∀ c < σ.nextClient, ∀ e ∈ σ.engines c, e.running = true → e.mesh.out = [] ∧ ∀ s ∈ e.cur, σ.inbox s = []

instance (σ : Sys) : Decidable σ.Drained := by
  unfold Drained
  infer_instance

/-- What the server sends in an action that is not the second part of a Join. -/
def sends (cfg : SysConfig) (σ : Sys) : Act → List (SocketId × ServerMsg)
  | .recv s =>
    match σ.wire s, σ.server.conns s with
    | msg :: _, some c => Server.frameSends cfg.server σ.server s c.me (.text msg)
    | _, _ => []
  | .server (.close s) =>
    match σ.server.conns s with
    | some c => Server.cleanupSends σ.server c.me
    | none => []
  | _ => []

/-- What the server reads from `s` in an action. -/
def reads (σ : Sys) (s : SocketId) : Act → List ClientMsg
  | .recv t => if t = s then (σ.wire s).take 1 else []
  | _ => []

/-- The TURN credentials that follow a Roster. -/
def turnMsgs (cfg : SysConfig) (now : Nat) (userId : String) : List ServerMsg :=
  (cfg.server.turn.map fun t => ServerMsg.turn (t.mint cfg.server.prim now userId)).toList

/-- What a step does to a client that stays online. -/
inductive Progress (cfg : SysConfig) (σ σ' : Sys) (a : Act) (userId : String) (s : SocketId) (e : Engine) (k : Conn)
    (e' : Engine) (k' : Conn) : Prop
  /-- The server acts. -/
  | told (same : e' = e) (down : σ'.downstream s k' = σ.downstream s k ++ Fifo.sentTo s (σ.sends cfg a))
      (phase : k'.phase = k.phase) (up : σ.upstream s e = (σ.reads s a).filter ClientMsg.negotiates ++ σ'.upstream s e')
      (server : (σ.serverAct a).isSome)
  /-- The server sends the Roster of the client's Join. -/
  | finished (now : Nat) (act : a = .server (.finishJoin s now)) (same : e' = e)
      (down : σ'.downstream s k' = σ.downstream s k ++ k.pending ++ turnMsgs cfg now userId) (phase : k'.phase = .reading)
      (up : σ'.upstream s e' = σ.upstream s e)
  /-- The client handles a message. -/
  | handled (w : Outcomes) (msg : ServerMsg) (act : a = .handle (σ.owner s) w) (inbox : (σ.inbox s).head? = some msg)
      (down : σ.downstream s k = msg :: σ'.downstream s k') (same : k' = k) (engine : e' = e.handle cfg.rtc w msg)
      (wire : σ'.wire = σ.wire)
  /-- Something else happens, to this client or another one. -/
  | idle (down : σ'.downstream s k' = σ.downstream s k) (phase : k'.phase = k.phase) (names : e'.names = e.names)
      (owner : e'.mesh.owner = e.mesh.owner) (myId : e'.mesh.myId = e.mesh.myId)
      (link : ∀ q, e'.mesh.link? q = e.mesh.link? q) (serial : e'.mesh.serial = e.mesh.serial)
      (sent : e'.mesh.sent.filter ClientMsg.negotiates = e.mesh.sent.filter ClientMsg.negotiates)
      (up : σ'.upstream s e' = σ.upstream s e) (server : σ.sends cfg a = [])

section
variable {cfg : SysConfig} {σ σ' : Sys} {a : Act} {room userId : String} {h : PeerHandle} {e e' : Engine} {k k' : Conn}

theorem Online.ident (on : Online σ room userId h e k) (wf : WF cfg σ) : σ.server.ident h.tx = some (room, userId) :=
  wf.server.listed _ _ _ on.listed

theorem Online.opened (on : Online σ room userId h e k) (wf : WF cfg σ) : h.tx < σ.server.nextSocket :=
  wf.opened_of_ident (on.ident wf)

theorem Online.config (on : Online σ room userId h e k) (wf : WF cfg σ) : e.cfg.room = room ∧ e.cfg.userId = userId := by
  obtain ⟨ecfg, hc, hr⟩ := wf.ident _ _ _ (on.ident wf)
  rw [cfgOf, on.engine, Option.map_some, Option.some.injEq] at hc
  exact hc ▸ hr

theorem Online.client (on : Online σ room userId h e k) (wf : WF cfg σ) : σ.owner h.tx < σ.nextClient := by
  refine Nat.lt_of_not_le fun hge => ?_
  have engine := on.engine
  rw [wf.unstarted _ hge] at engine
  cases engine

/-- The phase of a listed socket. -/
theorem Online.phase (on : Online σ room userId h e k) (wf : WF cfg σ) :
    k.phase = .reading ∧ k.me = some (room, userId) ∨ ∃ roster, k.phase = .joining room userId roster := by
  have hi := on.ident wf
  simp only [Server.ident, on.conn, Option.bind_some, Conn.ident] at hi
  split at hi
  · exact Or.inl ⟨‹_›, hi⟩
  · rename_i r u roster hp
    cases hi
    exact Or.inr ⟨roster, hp⟩
  · cases hi

theorem Online.alive (on : Online σ room userId h e k) (wf : WF cfg σ) : k.phase ≠ .ended := by
  intro hp
  rcases on.phase wf with ⟨hr, -⟩ | ⟨roster, hj⟩
  · cases hp.symm.trans hr
  · cases hp.symm.trans hj

theorem Drained.settled (drained : σ.Drained) (on : Online σ room userId h e k) (wf : WF cfg σ) :
    σ.downstream h.tx k = [] ∧ k.pending = [] := by
  obtain ⟨-, hq, hp⟩ := drained.1 h.tx (on.opened wf) k on.conn (on.alive wf)
  have hin := (drained.2 _ (on.client wf) e on.engine on.running).2 h.tx on.cur
  exact ⟨by rw [downstream, hin, hq, List.append_nil], hp⟩

/-- The client has nothing to say then either. -/
theorem Drained.said (drained : σ.Drained) (on : Online σ room userId h e k) (wf : WF cfg σ) :
    σ.wire h.tx = [] ∧ e.mesh.out = [] :=
  ⟨(drained.1 h.tx (on.opened wf) k on.conn (on.alive wf)).1, (drained.2 _ (on.client wf) e on.engine on.running).1⟩

theorem pending_congr (hp : k'.phase = k.phase) : k'.pending = k.pending := by rw [Conn.pending, Conn.pending, hp]

/-- A socket that is listed after a step was listed before, or its Join has just been accepted. -/
theorem listed_cases (wf : WF cfg σ) (hs : step cfg σ a = some σ') (listed : σ'.server.handle? room userId = some h) :
    σ.server.handle? room userId = some h ∨
      ∃ name token rest, a = .recv h.tx ∧ h.name = name ∧ σ.wire h.tx = .join room userId name token :: rest ∧
        Server.Admits cfg.server σ.server h.tx room userId name token := by
  rcases step_server hs with ⟨-, heq⟩ | ⟨b, hb, hstep⟩
  · exact Or.inl (heq ▸ listed)
  · obtain ⟨evs, -, change⟩ := Server.step_change (wf.server.fresh _ (Nat.le_refl _)) hstep
    cases change with
    | same handles idents placed => exact Or.inl (handles room userId ▸ listed)
    | admitted s room' userId' name token rest act admits events handles idents placed =>
      rw [handles] at listed
      split at listed
      · rename_i heq
        obtain ⟨rfl, rfl⟩ := heq
        cases Option.some.inj listed
        subst act
        cases a with
        | recv t =>
          obtain ⟨msg, hw, he⟩ := Option.map_eq_some_iff.mp hb
          injection he with h₁ h₂
          injection h₂ with h₂
          subst h₁ h₂
          obtain ⟨rest, hrest⟩ := List.head?_eq_some_iff.mp hw
          exact Or.inr ⟨name, token, rest, rfl, rfl, hrest, admits⟩
        | server b =>
          cases Option.some.inj hb
          obtain ⟨hi, -⟩ := step_server_inv hs
          cases hi
        | _ => cases hb
      · exact Or.inl listed
    | left s room' userId' identity act handles idents ended placed =>
      rw [handles] at listed
      split at listed
      · cases listed
      · exact Or.inl listed
    | restarted act handles ended events => rw [handles] at listed; cases listed

theorem upstream_recv {s t : SocketId} {msg : ClientMsg} {rest : List ClientMsg} (hw : σ.wire s = msg :: rest)
    (hw' : σ'.wire = Function.update σ.wire s rest) (e : Engine) :
    σ.upstream t e = (σ.reads t (.recv s)).filter ClientMsg.negotiates ++ σ'.upstream t e := by
  unfold upstream reads
  rw [hw']
  by_cases ht : s = t
  · subst ht
    simp [hw, ← List.filter_append]
  · simp [ht, Ne.symm ht]

theorem sentTo_finishSends {s t : SocketId} (now : Nat) (roster : List PeerInfo) :
    Fifo.sentTo t (Server.finishSends cfg.server s now userId roster) =
      if t = s then .roster roster :: turnMsgs cfg now userId else [] := by
  unfold Server.finishSends turnMsgs
  by_cases ht : t = s
  · subst ht
    cases cfg.server.turn <;> simp [Fifo.sentTo_cons]
  · cases cfg.server.turn <;> simp [Fifo.sentTo_cons, ht, Ne.symm ht]

/-- A client that is online after a step, on a socket that was listed before, was online before. -/
theorem online_step (wf : WF cfg σ) (hs : step cfg σ a = some σ') (room' : σ'.server.NeverFull)
    (on' : Online σ' room userId h e' k') (listed : σ.server.handle? room userId = some h) :
    ∃ e k, Online σ room userId h e k ∧ Progress cfg σ σ' a userId h.tx e k e' k' := by
  have wf' := wf_step wf hs
  have hident := wf.server.listed _ _ _ listed
  have hopen := wf.opened_of_ident hident
  obtain ⟨k, hk, hki⟩ := Option.bind_eq_some_iff.mp hident
  have ended' : k'.phase ≠ .ended := on'.alive wf'
  cases a with
  | recv s =>
    obtain ⟨msg, rest, srv, hw, hstep, rfl⟩ := step_recv_inv hs
    obtain ⟨c, k₁, hc, hr, hsrv, hk₁, hme, hrx, hphase, hq⟩ := Server.frame_reception wf.server hstep room' hk
    cases on'.conn.symm.trans hk₁
    have rx : k.rxOpen = true := hrx ▸ on'.rx
    refine ⟨e', k, ⟨listed, on'.engine, on'.running, on'.cur, hk, rx⟩, .told rfl ?_ ?_ (upstream_recv hw rfl e') ?_⟩
    · simp only [downstream, sends, hw, hc]
      rw [hq rx, List.append_assoc]
    · rw [hphase]
      split
      · rename_i ht
        subst ht
        cases hk.symm.trans hc
        simp only [Conn.ident, hr] at hki
        rw [if_pos rfl] at hphase
        rcases Server.frame_cases cfg.server msg hc hr with ⟨_, _, _, _, -, ⟨⟨c', hc', -, hnone⟩, -⟩,
          -⟩ | rfl | ⟨-, hp | ⟨-, hnone⟩, -⟩
        · cases hc.symm.trans hc'
          rw [hnone] at hki
          cases hki
        · exact absurd hphase ended'
        · rw [hp, hr]
        · rw [hnone] at hki
          cases hki
      · rfl
    · simp [serverAct, hw]
  | write s =>
    obtain ⟨c, msg, rest, srv, hc, hcq, hstep, rfl⟩ := step_write_inv hs
    obtain ⟨k₀, hk₀, hphase, -, rx, hq⟩ := Server.idle_reception hstep (by simp) (by simp) (by simp) on'.conn on'.rx hopen
    cases hk.symm.trans hk₀
    refine ⟨e', k, ⟨listed, on'.engine, on'.running, on'.cur, hk, rx⟩, .told rfl ?_ hphase rfl rfl⟩
    simp only [downstream, delivered, sends, Fifo.sentTo_nil, List.append_nil]
    rcases hq with ⟨he, hq⟩ | ⟨hne, hq⟩
    · cases SAct.write.inj he
      cases hk.symm.trans hc
      have att : σ.attached h.tx = true := attached_iff.mpr ⟨e', on'.engine, on'.running, on'.cur⟩
      rw [att, hq, hcq]
      simp
    · have hne' : h.tx ≠ s := fun he => hne (by rw [he])
      rw [hq]
      split
      · rw [Function.update_of_ne hne']
      · rfl
  | server b =>
    obtain ⟨hi, srv, hstep, rfl⟩ := step_server_inv hs
    cases b with
    | accept => cases hi
    | frame s f => cases hi
    | write s => cases hi
    | finishJoin s now =>
      obtain ⟨c, r, u, roster, k₁, hc, hp, hk₁, hrx, hq, hphase⟩ := Server.finishJoin_reception wf.server hstep room' hk
      cases on'.conn.symm.trans hk₁
      have rx : k.rxOpen = true := hrx ▸ on'.rx
      refine ⟨e', k, ⟨listed, on'.engine, on'.running, on'.cur, hk, rx⟩, ?_⟩
      by_cases ht : h.tx = s
      · subst ht
        cases hk.symm.trans hc
        simp only [Conn.ident, hp, Option.some.injEq, Prod.mk.injEq] at hki
        obtain ⟨rfl, rfl⟩ := hki
        refine .finished now rfl rfl ?_ (by rw [hphase, if_pos rfl]) rfl
        simp only [downstream]
        rw [hq rx, sentTo_finishSends, if_pos rfl]
        simp [Conn.pending, hp]
      · refine .told rfl ?_ (by rw [hphase, if_neg ht]) rfl rfl
        simp only [downstream, sends]
        rw [hq rx, sentTo_finishSends, if_neg ht]
        simp
    | close s =>
      obtain ⟨c, k₁, hc, hr, hsrv, hk₁, hrx, hq, hphase⟩ := Server.close_reception wf.server hstep room' hk
      cases on'.conn.symm.trans hk₁
      have rx : k.rxOpen = true := hrx ▸ on'.rx
      have ht : h.tx ≠ s := fun ht => ended' (by rw [hphase, if_pos ht])
      refine ⟨e', k, ⟨listed, on'.engine, on'.running, on'.cur, hk, rx⟩, .told rfl ?_ (by rw [hphase, if_neg ht]) rfl rfl⟩
      simp only [downstream, sends, hc]
      rw [hq rx, List.append_assoc]
    | _ =>
      obtain ⟨k₀, hk₀, hphase, -, rx, hq⟩ := Server.idle_reception hstep (by simp) (by simp) (by simp) on'.conn on'.rx hopen
      cases hk.symm.trans hk₀
      refine ⟨e', k, ⟨listed, on'.engine, on'.running, on'.cur, hk, rx⟩, .told rfl ?_ hphase rfl rfl⟩
      rcases hq with ⟨he, -⟩ | ⟨-, hq⟩
      · cases he
      · simp [downstream, sends, hq]
  | start ecfg =>
    obtain ⟨srv, hstep, rfl⟩ := step_start_inv hs
    obtain ⟨k₀, hk₀, hphase, -, rx, hq⟩ := Server.idle_reception hstep (by simp) (by simp) (by simp) on'.conn on'.rx hopen
    cases hk.symm.trans hk₀
    have hne := Nat.ne_of_lt hopen
    have howner : (σ.started srv ecfg).owner h.tx = σ.owner h.tx := by simp [started, dialed, hne]
    have hold : σ.owner h.tx ≠ σ.nextClient := fun he => by
      have := wf.owned _ hopen
      rw [he, wf.unstarted _ (Nat.le_refl _)] at this
      cases this
    have hengine := on'.engine
    rw [howner] at hengine
    simp only [started, Function.update_of_ne hold] at hengine
    refine ⟨e', k, ⟨listed, hengine, on'.running, on'.cur, hk, rx⟩, .told rfl ?_ hphase ?_ rfl⟩
    · rcases hq with ⟨he, -⟩ | ⟨-, hq⟩
      · cases he
      · simp [downstream, sends, hq, started, dialed]
    · simp [upstream, reads, started, dialed, hne]
  | reconnect c =>
    obtain ⟨e₀, srv, he₀, -, hcur, hstep, rfl⟩ := step_reconnect_inv hs
    obtain ⟨k₀, hk₀, hphase, -, rx, hq⟩ := Server.idle_reception hstep (by simp) (by simp) (by simp) on'.conn on'.rx hopen
    cases hk.symm.trans hk₀
    have hne := Nat.ne_of_lt hopen
    have hengine := on'.engine
    simp only [setEngine, dialed, Function.update_of_ne hne] at hengine
    have hold : σ.owner h.tx ≠ c := fun he => by
      rw [he, Function.update_self, Option.some.injEq] at hengine
      have hcur' := on'.cur
      rw [← hengine] at hcur'
      exact hne (Option.some.inj hcur').symm
    rw [Function.update_of_ne hold] at hengine
    refine ⟨e', k, ⟨listed, hengine, on'.running, on'.cur, hk, rx⟩, .told rfl ?_ hphase ?_ rfl⟩
    · rcases hq with ⟨he, -⟩ | ⟨-, hq⟩
      · cases he
      · simp [downstream, sends, hq, dialed]
    · simp [upstream, reads, dialed, hne]
  | handle c w =>
    obtain ⟨e₀, s, msg, rest, he₀, hrun, hcur, hin, rfl⟩ := step_handle_inv hs
    have hconn : σ.server.conns h.tx = some k' := on'.conn
    cases hk.symm.trans hconn
    have hengine := on'.engine
    simp only [setEngine] at hengine
    by_cases hown : σ.owner h.tx = c
    · subst hown
      rw [Function.update_self, Option.some.injEq] at hengine
      subst hengine
      have hst : s = h.tx := by
        have hcur' := on'.cur
        rw [Engine.handle_cur, hcur, Option.some.injEq] at hcur'
        exact hcur'
      subst hst
      refine ⟨e₀, k', ⟨listed, he₀, hrun, hcur, hk, on'.rx⟩, .handled w msg rfl (by rw [hin]; rfl) ?_ rfl rfl rfl⟩
      simp [downstream, setEngine, hin]
    · rw [Function.update_of_ne hown] at hengine
      have hne : h.tx ≠ s := fun he => hown (by rw [he]; exact (wf.cur c e₀ s he₀ hcur).2)
      refine ⟨e', k', ⟨listed, hengine, on'.running, on'.cur, hk, on'.rx⟩,
        .idle ?_ rfl rfl rfl rfl (fun _ => rfl) rfl rfl rfl rfl⟩
      simp [downstream, setEngine, hne]
  | lost c =>
    obtain ⟨e₀, s, he₀, -, hcur, -, rfl⟩ := step_lost_inv hs
    have hconn : σ.server.conns h.tx = some k' := on'.conn
    cases hk.symm.trans hconn
    have hengine := on'.engine
    simp only [setEngine] at hengine
    have hown : σ.owner h.tx ≠ c := fun hown => by
      rw [hown, Function.update_self, Option.some.injEq] at hengine
      have hcur' := on'.cur
      rw [← hengine] at hcur'
      cases hcur'
    rw [Function.update_of_ne hown] at hengine
    exact ⟨e', k', ⟨listed, hengine, on'.running, on'.cur, hk, on'.rx⟩,
      .idle rfl rfl rfl rfl rfl (fun _ => rfl) rfl rfl rfl rfl⟩
  | uplink c =>
    obtain ⟨e₀, msg, rest, he₀, hrun, hout, rfl⟩ := step_uplink_inv hs
    have hconn : σ.server.conns h.tx = some k' := by simpa using on'.conn
    cases hk.symm.trans hconn
    have hengine := on'.engine
    simp only [setEngine_owner, transmit_owner, setEngine_engines, transmit_engines] at hengine
    by_cases hown : σ.owner h.tx = c
    · subst hown
      rw [Function.update_self, Option.some.injEq] at hengine
      subst hengine
      refine ⟨e₀, k', ⟨listed, he₀, hrun, on'.cur, hk, on'.rx⟩,
        .idle (by simp [downstream]) rfl rfl rfl rfl (fun _ => rfl) rfl rfl ?_ rfl⟩
      have hcur : e₀.cur = some h.tx := on'.cur
      simp [upstream, transmit_wire, hcur, hout]
    · rw [Function.update_of_ne hown] at hengine
      have hne : e₀.cur ≠ some h.tx := fun hc => hown (wf.cur c e₀ _ he₀ hc).2
      refine ⟨e', k', ⟨listed, hengine, on'.running, on'.cur, hk, on'.rx⟩,
        .idle (by simp [downstream]) rfl rfl rfl rfl (fun _ => rfl) rfl rfl ?_ rfl⟩
      simp [upstream, transmit_wire, hne]
  | event c ev =>
    obtain ⟨e₀, e₁, msgs, he₀, hrun, hev, rfl⟩ := step_event_inv hs
    obtain ⟨hcfg, hcur, idles, names, hmsgs, -⟩ := Engine.onEvent_spec hev
    have hconn : σ.server.conns h.tx = some k' := by simpa using on'.conn
    cases hk.symm.trans hconn
    have hengine := on'.engine
    simp only [setEngine_owner, transmit_owner, setEngine_engines, transmit_engines] at hengine
    by_cases hown : σ.owner h.tx = c
    · subst hown
      rw [Function.update_self, Option.some.injEq] at hengine
      subst hengine
      have hcur₀ : e₀.cur = some h.tx := hcur ▸ on'.cur
      obtain ⟨ms, hout, hsent, hice⟩ := idles.sends
      have quiet : ms.filter ClientMsg.negotiates = [] := List.filter_eq_nil_iff.mpr fun m hm => by
        obtain ⟨_, _, rfl⟩ := hice m hm
        simp [ClientMsg.negotiates]
      have quiet' : msgs.filter ClientMsg.negotiates = [] := List.filter_eq_nil_iff.mpr fun m hm => by
        rcases hmsgs m hm with ⟨_, rfl⟩ | ⟨rfl, -⟩ <;> simp [ClientMsg.negotiates]
      refine ⟨e₀, k', ⟨listed, he₀, hrun, hcur₀, hk, on'.rx⟩,
        .idle (by simp [downstream]) rfl names idles.owner idles.myId idles.link idles.serial ?_ ?_ rfl⟩
      · rw [hsent, List.filter_append, quiet, List.append_nil]
      · simp only [upstream, setEngine_wire, transmit_wire, hcur₀, if_true]
        rw [hout]
        simp only [List.filter_append, quiet, quiet', List.append_nil]
    · rw [Function.update_of_ne hown] at hengine
      have hne : e₀.cur ≠ some h.tx := fun hc => hown (wf.cur c e₀ _ he₀ hc).2
      refine ⟨e', k', ⟨listed, hengine, on'.running, on'.cur, hk, on'.rx⟩,
        .idle (by simp [downstream]) rfl rfl rfl rfl (fun _ => rfl) rfl rfl ?_ rfl⟩
      simp [upstream, transmit_wire, hne]

/-- What the acceptance of a Join leaves: the room with the newcomer, its Roster captured, and the rest of
    its wire. -/
theorem joined_step (wf : WF cfg σ) {s : SocketId} (hs : step cfg σ (.recv s) = some σ') (full : σ'.server.NeverFull)
    {name : String} {token : Option String} {rest : List ClientMsg} (hw : σ.wire s = .join room userId name token :: rest)
    (admits : Server.Admits cfg.server σ.server s room userId name token) :
    σ'.server = σ.server.enroll s room userId name token ∧ σ'.wire s = rest ∧ σ'.engines = σ.engines ∧ σ'.owner = σ.owner ∧
      σ.sends cfg (.recv s) = Server.joinSends (σ.server.roomOf room) s userId name ∧
      ∀ k', σ'.server.conns s = some k' → k'.pending = [.roster (Server.rosterOf (σ.server.roomOf room) userId)] := by
  obtain ⟨msg, rest', srv, hw', hstep, rfl⟩ := step_recv_inv hs
  rw [hw, List.cons.injEq] at hw'
  obtain ⟨rfl, rfl⟩ := hw'
  obtain ⟨⟨c, hc, hr, hnone⟩, -⟩ := id admits
  obtain ⟨c', k₁, hc', -, hsrv, hk₁, -, -, hphase, -⟩ := Server.frame_reception wf.server hstep full hc
  cases hc.symm.trans hc'
  obtain ⟨sent, joining, enrolled⟩ := admits.frame hc
  refine ⟨hsrv.trans enrolled, by simp, rfl, rfl, by simp only [sends, hw, hc]; exact sent, fun k' hk' => ?_⟩
  cases hk'.symm.trans hk₁
  rw [Conn.pending, hphase, if_pos rfl, joining]

end

end Sys

end SquadLink

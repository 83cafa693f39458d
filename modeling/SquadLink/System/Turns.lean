import SquadLink.System.Races
import SquadLink.System.Rosters

/-! Runs in which a mesh forms or rotates its keys, seen from one client that stays online: what it has for
    a peer, what it has still to say to it and to hear of it, and how a step changes that. -/

namespace SquadLink

theorem ClientMsg.signalFor_eq_ice {q : String} {msg : ClientMsg} {cand : Candidate}
    (h : msg.signalFor q = some (.ice cand)) :
    msg = .ice q cand := by
  cases msg with
  | ice dest c =>
    obtain ⟨hdest, heq⟩ := Option.ite_none_right_eq_some.mp h
    cases heq
    rw [hdest]
  | offer dest sdp | answer dest sdp => cases (Option.ite_none_right_eq_some.mp h).2
  | _ => cases h

/-- A round that handles no message says nothing to a peer but a candidate that is reported, and changes
    nothing for it but that its chat channel may arrive. -/
theorem Engine.onEvent_turn {rtc : Webrtc} {e e' : Engine} {ev : LocalEvent} {msgs : List ClientMsg}
    (h : e.onEvent ev = some (e', msgs)) (q : String) :
    msgs.filterMap (ClientMsg.signalFor q) = [] ∧ ∃ ms, e'.mesh.out = e.mesh.out ++ ms ∧ e'.mesh.sent = e.mesh.sent ++ ms ∧
      (ms = [] ∨ ∃ pc text, ev = .candidate pc text ∧ ms = [.ice pc.peer { text, pc }]) ∧
      Side.Reacts rtc (decide (e.mesh.myId < q)) (e.mesh.pcFor q) (e.mesh.side q) .other (e'.mesh.side q) [] := by
  obtain ⟨-, -, -, -, hmsgs, -⟩ := Engine.onEvent_spec h
  have silent : msgs.filterMap (ClientMsg.signalFor q) = [] := List.filterMap_eq_nil_iff.mpr fun msg hm => by
    rcases hmsgs msg hm with ⟨on, rfl⟩ | ⟨rfl, -⟩ <;> rfl
  refine ⟨silent, ?_⟩
  -- The mesh stays as it is.
  have still : e'.mesh = e.mesh → ∃ ms, e'.mesh.out = e.mesh.out ++ ms ∧ e'.mesh.sent = e.mesh.sent ++ ms ∧
      (ms = [] ∨ ∃ pc text, ev = .candidate pc text ∧ ms = [.ice pc.peer { text, pc }]) ∧
      Side.Reacts rtc (decide (e.mesh.myId < q)) (e.mesh.pcFor q) (e.mesh.side q) .other (e'.mesh.side q) [] := fun hm => by
    rw [hm]
    exact ⟨[], by simp, by simp, .inl rfl, .other⟩
  cases ev with
  | reconnectFailed err =>
    cases (Option.ite_none_right_eq_some.mp h).2
    exact still rfl
  | command cmd =>
    injection h with h
    rw [Prod.mk.injEq] at h
    obtain ⟨rfl, rfl⟩ := h
    refine still ?_
    cases cmd with
    | setTx on | reconnect =>
      simp only [command]
      split <;> rfl
    | _ => rfl
  | quit => cases h; exact still rfl
  | mesh ev =>
    cases h
    refine still ?_
    cases ev with
    | chat sender text => rfl
    | badge peer badge =>
      obtain ⟨members, hm⟩ := e.modifyMember_eq peer fun m => { m with badge := some badge }
      simp only [meshEvent, emitRoster, emit_mesh, hm]
  | candidate pc text =>
    cases h
    exact ⟨[.ice pc.peer { text, pc }], rfl, rfl, .inr ⟨pc, text, rfl, rfl⟩, .other⟩
  | dataChannel pc =>
    cases h
    simp only [Mesh.onDataChannel]
    cases hp : e.mesh.conn? pc.peer with
    | none => exact ⟨[], by simp, by simp, .inl rfl, .other⟩
    | some p =>
      dsimp only
      split
      · refine ⟨[], by simp [Mesh.put], by simp [Mesh.put], .inl rfl, ?_⟩
        by_cases hq : q = pc.peer
        · subst hq
          have side : (e.mesh.put pc.peer { p with chat := true }).side pc.peer =
              (e.mesh.side pc.peer).changed fun p => { p with chat := true } :=
            (Mesh.side_eq (e.mesh.put_conn?_self pc.peer _) rfl).trans (by simp [Mesh.side, Side.changed, hp])
          rw [side]
          exact .chats
        · have side : (e.mesh.put pc.peer { p with chat := true }).side q = e.mesh.side q :=
            Mesh.side_eq (e.mesh.put_conn?_ne pc.peer _ hq) rfl
          rw [side]
          exact .other
      · exact ⟨[], by simp, by simp, .inl rfl, .other⟩
  | rehash peers =>
    obtain ⟨perm, h⟩ := Option.ite_none_right_eq_some.mp h
    cases h
    have side : Mesh.side { e.mesh with peers } q = e.mesh.side q := Mesh.side_eq (AList.perm_lookup perm) rfl
    refine ⟨[], by simp, by simp, .inl rfl, ?_⟩
    show Side.Reacts rtc _ _ _ _ (Mesh.side { e.mesh with peers } q) []
    rw [side]
    exact .other

/-- The action takes a member's socket away from its room, or a client loses its connection. -/
def Server.departs (st : Server) : SAct → Bool
  | .restart => true
  | .writeFail s => ((st.conns s).map fun c => decide (c.phase ≠ .ended)).getD false
  | b => (b.ends.bind st.ident).isSome

namespace SysEvent

/-- The client in whose process the event happens. -/
def client : SysEvent → Option ClientId
  | .act (.handle c _) | .act (.lost c) | .act (.uplink c) | .act (.reconnect c) | .act (.event c _) | .race c _ _ => some c
  | _ => none

/-- A client ends or loses its connection, or opens another one. -/
def parts : SysEvent → Bool
  | .act (.lost _) | .act (.reconnect _) | .act (.event _ .quit) => true
  | _ => false

end SysEvent

namespace Sys

section
variable (cfg : SysConfig) (σ : Sys)

/-- The server's part in an event. -/
def serverPart : SysEvent → Option SAct
  | .act a => σ.serverAct a
  | .race _ _ _ => none

/-- What the server sends in an event that is not the second part of a Join. -/
def news : SysEvent → List (SocketId × ServerMsg)
  | .act a => σ.sends cfg a
  | .race _ _ _ => []

/-- What the server reads from `s` in an event. -/
def takes (s : SocketId) : SysEvent → List ClientMsg
  | .act a => σ.reads s a
  | .race _ _ _ => []

/-- What a client has still to say to `q`. -/
def unsaid (s : SocketId) (e : Engine) (q : String) : List Signal :=
  (σ.wire s ++ e.mesh.out).filterMap (ClientMsg.signalFor q)

end

/-- A step of a run in which nobody leaves, loses a connection or supersedes another one, no queue is full, no
    call of the library fails, and the library reports candidates of PeerConnections that there are. -/
structure Forming (cfg : SysConfig) (σ : Sys) (ev : SysEvent) (σ' : Sys) : Prop where
  room : σ'.server.NeverFull
  sole : ∀ b ∈ σ.serverPart ev, σ.server.supersedes cfg.server b = false
  stay : ∀ b ∈ σ.serverPart ev, σ.server.departs b = false
  held : ev.parts = false
  calls : ∀ p ∈ ev.handler, p.2.AllOk
  genuine : ∀ c ∈ ev.client, ∀ e' ∈ σ'.engines c, ∀ cand ∈ ev.reports,
    cand.pc.owner = c ∧ cand.pc.serial < e'.mesh.serial cand.pc.peer

/-- What a step makes of a client that stays online, as far as `q` goes. -/
inductive Turns (cfg : SysConfig) (σ σ' : Sys) (ev : SysEvent) (s : SocketId) (userId q : String) (e : Engine) (k : Conn)
    (e' : Engine) (k' : Conn) : Prop
  /-- The server reads from it or sends to it, or nothing happens to it. -/
  | told (side : e'.mesh.side q = e.mesh.side q) (sent : e'.mesh.sent = e.mesh.sent)
      (unsaid : σ.unsaid s e q = (σ.takes s ev).filterMap (ClientMsg.signalFor q) ++ σ'.unsaid s e' q)
      (down : σ'.downstream s k' = σ.downstream s k ++ Fifo.sentTo s (σ.news cfg ev)) (pending : k'.pending = k.pending)
  /-- The server sends the Roster of its Join. -/
  | finished (now : Nat) (act : ev = .act (.server (.finishJoin s now))) (side : e'.mesh.side q = e.mesh.side q)
      (sent : e'.mesh.sent = e.mesh.sent) (unsaid : σ.unsaid s e q = σ'.unsaid s e' q)
      (down : σ'.downstream s k' = σ.downstream s k ++ k.pending ++ turnMsgs cfg now userId) (pending : k'.pending = [])
  /-- It handles a message, or its PeerConnections report something. -/
  | hears (cue : Cue) (taken : List ServerMsg) (ms : List ClientMsg) (own : ev.client = some (σ.owner s))
      (takes : taken = [] ∧ cue = .other ∧ ev.handler = none ∨ ∃ w msg, ev.handler = some (σ.owner s, w) ∧
        (σ.inbox s).head? = some msg ∧ taken = [msg] ∧ cue = msg.cue q)
      (reacts : Side.Reacts cfg.rtc (decide (e.mesh.myId < q)) (e.mesh.pcFor q) (e.mesh.side q) cue (e'.mesh.side q)
        ((ms.filterMap (ClientMsg.signalFor q)).filter Signal.negotiates))
      (sent : e'.mesh.sent = e.mesh.sent ++ ms)
      (unsaid : σ'.unsaid s e' q = σ.unsaid s e q ++ ms.filterMap (ClientMsg.signalFor q))
      (down : σ.downstream s k = taken ++ σ'.downstream s k') (pending : k'.pending = k.pending)
      (reports : ∀ cand, .ice cand ∈ ms.filterMap (ClientMsg.signalFor q) → cand ∈ ev.reports ∧ cand.pc.peer = q)
      (race : ∀ c w out, ev = .race c w out → ms = out)

section
variable {cfg : SysConfig} {σ σ' : Sys} {ev : SysEvent} {room userId q : String} {h : PeerHandle}
  {e e' : Engine} {k k' : Conn}

theorem handler_silent {p : ClientId × Outcomes} (hev : ev.handler = some p) (s : SocketId) :
    σ.news cfg ev = [] ∧ σ.takes s ev = [] ∧ ev.client = some p.1 := by
  cases ev with
  | race c w said => cases hev; exact ⟨rfl, rfl, rfl⟩
  | act a =>
    cases a with
    | handle c w => cases hev; exact ⟨rfl, rfl, rfl⟩
    | _ => cases hev

/-- A round in which a client takes a message, for this client and for the others. -/
theorem turns_of_round {c : ClientId} {e₀ e₁ : Engine} {s : SocketId} {msg : ServerMsg}
    {said : List ClientMsg} (wf : WF cfg σ)
    (round : Round cfg σ σ' ev c e₀ e₁ s msg said) (on' : Online σ' room userId h e' k')
    (listed : σ.server.handle? room userId = some h) :
    ∃ e k, Online σ room userId h e k ∧ ∀ q, Turns cfg σ σ' ev h.tx userId q e k e' k' := by
  obtain ⟨w, hev, hhandle, -⟩ := round.handled
  obtain ⟨news, takes, client⟩ := @handler_silent cfg σ ev _ hev h.tx
  have hconn : σ.server.conns h.tx = some k' := round.server ▸ on'.conn
  have hengine := on'.engine
  rw [round.owner, round.engines] at hengine
  by_cases hown : σ.owner h.tx = c
  · subst hown
    rw [Function.update_self, Option.some.injEq] at hengine
    subst hengine
    have hcur : e₁.cur = e₀.cur := by
      rw [hhandle]
      exact Engine.handle_cur msg
    have hst : s = h.tx := Option.some.inj (round.cur.symm.trans (hcur.symm.trans on'.cur))
    subst hst
    refine ⟨e₀, k', ⟨listed, round.engine, round.running, round.cur, hconn, on'.rx⟩, fun q => ?_⟩
    refine .hears (msg.cue q) [msg] said client (.inr ⟨w, msg, hev, by rw [round.inbox]; rfl, rfl, rfl⟩) (round.reacts q)
      round.sent ?_ ?_ rfl (fun cand hm => ?_) fun c w out h => ?_
    · simp only [Sys.unsaid, round.wire, round.out, List.filterMap_append, List.append_assoc]
    · simp only [downstream, round.inbox]
      rfl
    · obtain ⟨m, hm, hsig⟩ := List.mem_filterMap.mp hm
      obtain rfl := ClientMsg.signalFor_eq_ice hsig
      have own := round.own _ hm cand rfl
      simp only [ClientMsg.reports, decide_eq_true_eq, Bool.and_eq_true, ClientMsg.ice.injEq, and_true] at own
      refine ⟨?_, own.1.symm⟩
      rw [← round.reports]
      exact List.mem_filterMap.mpr ⟨_, hm, rfl⟩
    · exact round.race c w out h
  · rw [Function.update_of_ne hown] at hengine
    have hne : h.tx ≠ s := fun he => hown (by rw [he]; exact (wf.cur c e₀ s round.engine round.cur).2)
    refine ⟨e', k', ⟨listed, hengine, on'.running, on'.cur, hconn, on'.rx⟩, fun q => .told rfl rfl ?_ ?_ rfl⟩
    · simp only [Sys.unsaid, round.wire, takes]
      rfl
    · simp [downstream, news, round.others h.tx hne]

/-- A step in which no engine takes a message. -/
theorem turns_of_act {a : Act} (wf : WF cfg σ) (hs : step cfg σ a = some σ') (idle : (SysEvent.act a).handler = none)
    (full : σ'.server.NeverFull) (on' : Online σ' room userId h e' k') (listed : σ.server.handle? room userId = some h) :
    ∃ e k, Online σ room userId h e k ∧ ∀ q, Turns cfg σ σ' (.act a) h.tx userId q e k e' k' := by
  obtain ⟨e, k, on, prog⟩ := online_step wf hs full on' listed
  refine ⟨e, k, on, fun q => ?_⟩
  have howner : σ'.owner h.tx = σ.owner h.tx := (step_kept wf hs).owner _ (on.opened wf)
  have hengine := on'.engine
  rw [howner] at hengine
  obtain ⟨e₁, msgs, he₁, turn, wire⟩ := engine_step wf hs on.engine
  cases hengine.symm.trans he₁
  have hears : σ'.downstream h.tx k' = σ.downstream h.tx k ++ Fifo.sentTo h.tx (σ.sends cfg a) ∧ k'.pending = k.pending ∨
      ∃ now, a = .server (.finishJoin h.tx now) ∧
        σ'.downstream h.tx k' = σ.downstream h.tx k ++ k.pending ++ turnMsgs cfg now userId ∧ k'.pending = [] := by
    cases prog with
    | told same down phase => exact .inl ⟨down, pending_congr phase⟩
    | finished now act same down phase => exact .inr ⟨now, act, down, by rw [Conn.pending, phase]⟩
    | handled w msg act => rw [act] at idle; cases idle
    | idle down phase _ _ _ _ _ _ _ server => exact .inl ⟨by rw [down, server]; simp, pending_congr phase⟩
  -- The mesh is the same, as far as `q` goes.
  have still : e'.mesh.side q = e.mesh.side q → e'.mesh.sent = e.mesh.sent →
      σ.unsaid h.tx e q = (σ.reads h.tx a).filterMap (ClientMsg.signalFor q) ++ σ'.unsaid h.tx e' q →
      Turns cfg σ σ' (.act a) h.tx userId q e k e' k' := by
    intro side sent unsaid
    rcases hears with ⟨down, pending⟩ | ⟨now, rfl, down, pending⟩
    · exact .told side sent unsaid down pending
    · exact .finished now rfl side sent unsaid down pending
  have unread : a ≠ .recv h.tx → σ.reads h.tx a = [] := by
    intro ha
    cases a with
    | recv t => exact if_neg fun ht => ha (by rw [ht])
    | _ => rfl
  cases turn with
  | idle =>
    refine still rfl rfl ?_
    by_cases ha : a = .recv h.tx
    · subst ha
      obtain ⟨msg, rest, srv, hw, -, rfl⟩ := step_recv_inv hs
      simp [unsaid, reads, hw, ← List.filterMap_append]
    · rw [unread ha]
      simp only [unsaid, wire h.tx on.cur ha, List.append_nil]
      rfl
  | handle w s msg act => rw [act] at idle; cases idle
  | lost act => cases on'.cur
  | reconnect act off => rw [on.cur] at off; cases off
  | uplink msg rest act out =>
    subst act
    refine still rfl rfl ?_
    simp [unsaid, reads, wire h.tx on.cur (by simp), out]
  | @event ev msgs e₁ act round =>
    subst act
    obtain ⟨silent, ms, hout, hsent, hms, reacts⟩ := @Engine.onEvent_turn cfg.rtc _ _ _ _ round q
    have quiet : (ms.filterMap (ClientMsg.signalFor q)).filter Signal.negotiates = [] := by
      rcases hms with rfl | ⟨pc, text, -, rfl⟩
      · rfl
      · rw [ClientMsg.filter_signalFor]
        rfl
    rcases hears with ⟨down, pending⟩ | ⟨now, act, -⟩
    · refine .hears .other [] ms rfl (.inl ⟨rfl, rfl, rfl⟩) (by rw [quiet]; exact reacts) hsent ?_ ?_ pending
        (fun cand hm => ?_) fun _ _ _ h => by cases h
      · simp [unsaid, wire h.tx on.cur (by simp), hout, silent]
      · rw [down]
        simp [sends]
      · rcases hms with rfl | ⟨pc, text, rfl, rfl⟩
        · cases hm
        · obtain ⟨m, hm, hsig⟩ := List.mem_filterMap.mp hm
          rw [List.mem_singleton.mp hm] at hsig
          cases ClientMsg.signalFor_eq_ice hsig
          exact ⟨List.mem_singleton_self _, rfl⟩
    · cases act

/-- Whatever happens, a client that is online after a step, on a socket that was listed before, was online before. -/
theorem turn_step (wf : WF cfg σ) (hs : next cfg σ ev = some σ') (full : σ'.server.NeverFull)
    (calls : ∀ p ∈ ev.handler, p.2.AllOk) (distinct : ∀ s peers, .roster peers ∈ σ.inbox s → (peers.map (·.userId)).Nodup)
    (on' : Online σ' room userId h e' k')
    (listed : σ.server.handle? room userId = some h) :
    ∃ e k, Online σ room userId h e k ∧ ∀ q, Turns cfg σ σ' ev h.tx userId q e k e' k' := by
  cases hev : ev.handler with
  | some p =>
    obtain ⟨c, w⟩ := p
    obtain ⟨e₀, e₁, s, msg, said, round⟩ := next_round hs hev (calls _ hev) distinct
    exact turns_of_round wf round on' listed
  | none =>
    cases ev with
    | act a => exact turns_of_act wf hs hev full on' listed
    | race c w said => cases hev

end

end Sys

end SquadLink

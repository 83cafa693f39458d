import SquadLink.System.News
import SquadLink.System.Speaking
import SquadLink.System.Traffic

/-! While a mesh forms, a client has nothing to do with a user that its room does not list, and before it has
    joined with none at all: it holds no PeerConn for the user, has said nothing to it, and hears nothing of
    it. -/

namespace SquadLink

namespace Sys

section
variable {cfg : SysConfig} {σ σ' : Sys} {ev : SysEvent} {a : Act} {s : SocketId} {msg : ServerMsg}

/-- The message is the Roster of a Join that the step gets accepted on `s`. -/
def Welcomes (cfg : SysConfig) (σ : Sys) (a : Act) (s : SocketId) (msg : ServerMsg) : Prop :=
  ∃ room userId name token rest, a = .recv s ∧ σ.wire s = .join room userId name token :: rest ∧
    Server.Admits cfg.server σ.server s room userId name token ∧
    msg = .roster (Server.rosterOf (σ.server.roomOf room) userId)

theorem mem_heard : msg ∈ σ.heard s ↔ msg ∈ σ.inbox s ∨ ∃ k, σ.server.conns s = some k ∧
    (msg ∈ k.queue ∨ msg ∈ k.pending) := by
  unfold heard
  cases σ.server.conns s with
  | none => simp
  | some k => simp

theorem mem_pending {k : Conn} (hm : msg ∈ k.pending) :
    ∃ room userId roster, k.phase = .joining room userId roster ∧ msg = .roster roster := by
  unfold Conn.pending at hm
  split at hm
  · exact ⟨_, _, _, ‹_›, List.mem_singleton.mp hm⟩
  · cases hm

/-- What a client has to hear after a step, it had to hear before, or the server has sent it now. -/
theorem heard_step (hs : step cfg σ a = some σ') (hm : msg ∈ σ'.heard s) :
    msg ∈ σ.heard s ∨ msg ∈ Fifo.sentTo s (σ.sends cfg a) ∨ Welcomes cfg σ a s msg ∨ ∃ creds, msg = .turn creds := by
  -- What the server has appended to a queue.
  have grown : ∀ {k : Conn} {out pending : List ServerMsg}, σ.server.conns s = some k →
      (msg ∈ (k.pushAll out).queue ∨ msg ∈ pending) → (pending = k.pending ∨ msg ∉ pending) →
      msg ∈ σ.heard s ∨ msg ∈ out := by
    intro k out pending hk hm hp
    rcases hm with hm | hm
    · exact (Conn.mem_pushAll_queue _ _ hm).imp_left fun hm => mem_heard.mpr (.inr ⟨k, hk, .inl hm⟩)
    · rcases hp with rfl | hp
      · exact .inl (mem_heard.mpr (.inr ⟨k, hk, .inr hm⟩))
      · exact absurd hm hp
  -- A step that changes no queue.
  have same : σ'.inbox s = σ.inbox s → σ'.server.conns s = σ.server.conns s → msg ∈ σ.heard s := by
    intro hin hconn
    rw [mem_heard, hin, hconn] at hm
    exact mem_heard.mpr hm
  have opened : σ'.inbox = σ.inbox → σ.server.step cfg.server .accept = some σ'.server → msg ∈ σ.heard s := by
    intro hin hstep
    by_cases hs : s = σ.server.nextSocket
    · subst hs
      rcases mem_heard.mp hm with hm | ⟨k', hk', hm⟩
      · exact mem_heard.mpr (.inl (hin ▸ hm))
      · rw [accept_eq hstep] at hk'
        simp only [Function.update_self, Option.some.injEq] at hk'
        subst hk'
        simp [Conn.pending] at hm
    · exact same (by rw [hin]) (by rw [accept_eq hstep]; exact Function.update_of_ne hs ..)
  cases a with
  | recv t =>
    obtain ⟨m, rest, srv, hw, hstep, rfl⟩ := step_recv_inv hs
    obtain ⟨c, hc, hr, rfl⟩ := Server.step_frame_inv hstep
    rcases mem_heard.mp hm with hm | ⟨k', hk', hm⟩
    · exact .inl (mem_heard.mpr (.inl hm))
    · simp only [Server.handleFrame_conns hc hr] at hk'
      obtain ⟨k, hk, rfl⟩ := Option.map_eq_some_iff.mp hk'
      have hsends : σ.sends cfg (.recv t) = Server.frameSends cfg.server σ.server t c.me (.text m) := by
        simp [sends, hw, hc]
      rw [hsends]
      by_cases hst : s = t
      · subst hst
        simp only [↓reduceIte] at hm
        by_cases hp : msg ∈ Conn.pending
          { (k.pushAll (Fifo.sentTo s (Server.frameSends cfg.server σ.server s c.me (.text m)))) with
            phase := Server.framePhase cfg.server σ.server c.me (.text m) }
        · -- The socket's Join has been accepted.
          obtain ⟨room, userId, roster, hphase, rfl⟩ := mem_pending hp
          simp only at hphase
          rcases Server.frame_cases cfg.server m hc hr with ⟨room', joiner, name, token, rfl,
            admits, -, hjoin, -⟩ | rfl | ⟨-, h, -⟩
          · rw [hjoin] at hphase
            cases hphase
            exact .inr (.inr (.inl ⟨_, _, name, token, rest, rfl, hw, admits, rfl⟩))
          · cases hphase
          · rw [hphase] at h
            rcases h with h | ⟨h, -⟩ <;> cases h
        · exact (grown hk hm (.inr hp)).imp_right .inl
      · simp only [hst, ↓reduceIte] at hm
        exact (grown hk hm (.inl (pending_congr (Conn.pushAll_phase k _)))).imp_right .inl
  | write t =>
    obtain ⟨c, m, rest, srv, hc, hq, hstep, rfl⟩ := step_write_inv hs
    obtain ⟨c', hc', -, rfl⟩ := Server.step_write_inv hstep
    cases hc.symm.trans hc'
    have head : s = t → m ∈ σ.heard s := by
      rintro rfl
      exact mem_heard.mpr (.inr ⟨c, hc, .inl (by rw [hq]; exact List.mem_cons_self)⟩)
    left
    rcases mem_heard.mp hm with hm | ⟨k', hk', hm⟩
    · simp only [delivered] at hm
      split at hm
      · by_cases hst : s = t
        · subst hst
          rw [Function.update_self, List.mem_append, List.mem_singleton] at hm
          rcases hm with hm | rfl
          · exact mem_heard.mpr (.inl hm)
          · exact head rfl
        · rw [Function.update_of_ne hst] at hm
          exact mem_heard.mpr (.inl hm)
      · exact mem_heard.mpr (.inl hm)
    · simp only [delivered, Server.modifyConn_conns] at hk'
      split at hk'
      · rename_i hst
        subst hst
        obtain ⟨k, hk, rfl⟩ := Option.map_eq_some_iff.mp hk'
        exact mem_heard.mpr (.inr ⟨k, hk, hm.imp_left List.mem_of_mem_tail⟩)
      · exact mem_heard.mpr (.inr ⟨k', hk', hm⟩)
  | server b =>
    obtain ⟨hi, srv, hstep, rfl⟩ := step_server_inv hs
    rcases mem_heard.mp hm with hm | ⟨k', hk', hm⟩
    · exact .inl (mem_heard.mpr (.inl hm))
    · -- The receiver of some socket is dropped.
      have dropped : ∀ {t}, srv = σ.server.modifyConn t Conn.dropRx → msg ∈ σ.heard s := by
        intro t hsrv
        simp only [hsrv, Server.modifyConn_conns] at hk'
        split at hk'
        · rename_i hst
          subst hst
          obtain ⟨k, hk, rfl⟩ := Option.map_eq_some_iff.mp hk'
          exact mem_heard.mpr (.inr ⟨k, hk, .inr (hm.resolve_left (by simp [Conn.dropRx]))⟩)
        · exact mem_heard.mpr (.inr ⟨k', hk', hm⟩)
      cases b with
      | accept => cases hi
      | frame t f => cases hi
      | write t => cases hi
      | finishJoin t now =>
        obtain ⟨c, room, userId, roster, hc, hp, rfl⟩ := Server.step_finishJoin_inv hstep
        simp only [Server.finishJoin_conns] at hk'
        obtain ⟨k, hk, rfl⟩ := Option.map_eq_some_iff.mp hk'
        by_cases hst : s = t
        · subst hst
          cases hc.symm.trans hk
          simp only [↓reduceIte] at hm
          have old := hm.resolve_right (by simp [Conn.pending])
          rcases Conn.mem_pushAll_queue _ _ old with old | new
          · exact .inl (mem_heard.mpr (.inr ⟨c, hc, .inl old⟩))
          · have new := Fifo.mem_sentTo.mp new
            rcases List.mem_cons.mp new with new | new
            · obtain ⟨-, rfl⟩ := Prod.mk.inj new
              exact .inl (mem_heard.mpr (.inr ⟨c, hc, .inr (by simp [Conn.pending, hp])⟩))
            · obtain ⟨creds, -, he⟩ := Option.map_eq_some_iff.mp (Option.mem_toList.mp new)
              exact .inr (.inr (.inr ⟨_, (Prod.mk.inj he).2.symm⟩))
        · simp only [hst, ↓reduceIte, sentTo_finishSends, Conn.pushAll_nil] at hm
          exact .inl (mem_heard.mpr (.inr ⟨k, hk, hm⟩))
      | close t =>
        obtain ⟨c, hc, hr, rfl⟩ := Server.step_close_inv hstep
        simp only [Server.cleanup_conns] at hk'
        obtain ⟨k, hk, rfl⟩ := Option.map_eq_some_iff.mp hk'
        have hsends : σ.sends cfg (.server (.close t)) = Server.cleanupSends σ.server c.me := by simp [sends, hc]
        rw [hsends]
        by_cases hst : s = t
        · subst hst
          simp only [↓reduceIte] at hm
          exact (grown hk hm (.inr (by simp [Conn.pending]))).imp_right .inl
        · simp only [hst, ↓reduceIte] at hm
          exact (grown hk hm (.inl (pending_congr (Conn.pushAll_phase k _)))).imp_right .inl
      | writeFail t =>
        obtain ⟨c, -, -, hsrv⟩ := Server.step_writeFail_inv hstep
        exact .inl (dropped hsrv)
      | abort t =>
        obtain ⟨c, -, -, hsrv⟩ := Server.step_abort_inv hstep
        exact .inl (dropped hsrv)
      | rehash room r =>
        obtain ⟨r₀, -, -, hsrv⟩ := Server.step_rehash_inv hstep
        simp only [hsrv, Server.setRoom_conns] at hk'
        exact .inl (mem_heard.mpr (.inr ⟨k', hk', hm⟩))
      | restart =>
        cases Option.some.inj hstep
        obtain ⟨k, -, rfl⟩ := Option.map_eq_some_iff.mp hk'
        simp [Conn.dropRx, Conn.pending] at hm
  | start ecfg =>
    obtain ⟨srv, hstep, rfl⟩ := step_start_inv hs
    exact .inl (opened rfl hstep)
  | reconnect c =>
    obtain ⟨e, srv, -, -, -, hstep, rfl⟩ := step_reconnect_inv hs
    exact .inl (opened rfl hstep)
  | handle c w =>
    obtain ⟨e, t, m, rest, -, -, -, hin, rfl⟩ := step_handle_inv hs
    left
    rcases mem_heard.mp hm with hm | hm
    · refine mem_heard.mpr (.inl ?_)
      by_cases hst : s = t
      · subst hst
        simp only [setEngine_inbox, Function.update_self] at hm
        rw [hin]
        exact List.mem_cons_of_mem _ hm
      · simpa [hst] using hm
    · exact mem_heard.mpr (.inr hm)
  | lost c =>
    obtain ⟨e, t, -, -, -, -, rfl⟩ := step_lost_inv hs
    exact .inl (same rfl rfl)
  | uplink c =>
    obtain ⟨e, m, rest, -, -, -, rfl⟩ := step_uplink_inv hs
    exact .inl (same (by simp) (by simp))
  | event c ev =>
    obtain ⟨e, e', msgs, -, -, -, rfl⟩ := step_event_inv hs
    exact .inl (same (by simp) (by simp))

theorem heard_next (hs : next cfg σ ev = some σ') (hm : msg ∈ σ'.heard s) :
    msg ∈ σ.heard s ∨ msg ∈ Fifo.sentTo s (σ.news cfg ev) ∨ (∃ a, ev = .act a ∧ Welcomes cfg σ a s msg) ∨
    ∃ creds, msg = .turn creds := by
  cases ev with
  | act a => exact (heard_step hs hm).imp_right (Or.imp_right (Or.imp_left fun h => ⟨a, rfl, h⟩))
  | race c w said =>
    obtain ⟨e, he, hs⟩ := Option.bind_eq_some_iff.mp hs
    obtain ⟨σ₁, hs₁, hs⟩ := Option.bind_eq_some_iff.mp hs
    obtain ⟨e₁, he₁, hs⟩ := Option.bind_eq_some_iff.mp hs
    cases (Option.ite_none_right_eq_some.mp hs).2
    rcases heard_step hs₁ hm with h | h | ⟨_, _, _, _, _, act, -⟩ | h
    · exact .inl h
    · cases h
    · cases act
    · exact .inr (.inr (.inr h))

theorem mem_takes {m : ClientMsg} (hm : m ∈ σ.takes s ev) : m ∈ σ.wire s := by
  cases ev with
  | race c w said => cases hm
  | act a =>
    cases a with
    | recv t =>
      simp only [takes, reads] at hm
      split at hm
      · exact List.mem_of_mem_take hm
      · cases hm
    | _ => cases hm

/-- What the server sends a socket is no Roster, and of no peer unless the socket is listed. -/
theorem mem_news (hs : next cfg σ ev = some σ') (hm : msg ∈ Fifo.sentTo s (σ.news cfg ev)) :
    (∀ peers, msg ≠ .roster peers) ∧
      ((∃ room userId h, σ.server.handle? room userId = some h ∧ h.tx = s) ∨ ∀ q, msg.cue q = .other) := by
  cases ev with
  | race c w said => cases hm
  | act a =>
    have hm := Fifo.mem_sentTo.mp hm
    cases a with
    | recv t =>
      obtain ⟨m, rest, srv, hw, hstep, -⟩ := step_recv_inv hs
      obtain ⟨c, hc, hr, -⟩ := Server.step_frame_inv hstep
      have hsends : σ.news cfg (.act (.recv t)) = Server.frameSends cfg.server σ.server t c.me (.text m) := by
        simp [news, sends, hw, hc]
      rw [hsends] at hm
      exact (Server.mem_frameSends hc hr hm).imp_right (Or.imp_right And.right)
    | server b =>
      cases b with
      | close t =>
        have hs' : step cfg σ (.server (.close t)) = some σ' := hs
        obtain ⟨-, srv, hstep, -⟩ := step_server_inv hs'
        obtain ⟨c, hc, hr, -⟩ := Server.step_close_inv hstep
        have hsends : σ.news cfg (.act (.server (.close t))) =
            Server.frameSends cfg.server σ.server t c.me (.text .leave) := by
          simp [news, sends, hc, Server.frameSends]
        rw [hsends] at hm
        exact (Server.mem_frameSends hc hr hm).imp_right (Or.imp_right And.right)
      | _ => cases hm
    | _ => cases hm

theorem nodup_rosterOf (r : Room) (userId : String) : ((Server.rosterOf r userId).map (·.userId)).Nodup := by
  have ids : (Server.rosterOf r userId).map (·.userId) = (r.erase userId).keys := by
    simp only [Server.rosterOf, List.map_map]
    rfl
  rw [ids]
  exact (r.erase userId).keys_nodup

/-- No Roster names anybody twice. -/
def RostersDistinct (σ : Sys) : Prop := ∀ s peers, .roster peers ∈ σ.heard s → (peers.map (·.userId)).Nodup

theorem rostersDistinct_next (distinct : RostersDistinct σ) (hs : next cfg σ ev = some σ') : RostersDistinct σ' := by
  intro s peers hm
  rcases heard_next hs hm with h | h | ⟨a, -, _, _, _, _, _, -, -, -, h⟩ | ⟨creds, h⟩
  · exact distinct s peers h
  · exact absurd rfl ((mem_news hs h).1 peers)
  · cases h
    exact nodup_rosterOf _ _
  · cases h

/-- A client holds no PeerConn for `q`, has made none and has said nothing to it. -/
structure Apart (σ : Sys) (s : SocketId) (e : Engine) (q : String) : Prop where
  side : e.mesh.side q = ⟨none, 0⟩
  sent : e.mesh.sent.filterMap (ClientMsg.signalFor q) = []
  unsaid : σ.unsaid s e q = []

/-- It stays so while the client hears of `q` nothing but of key rotations. -/
theorem apart_next (wf : WF cfg σ) (hs : next cfg σ ev = some σ') (forming : Forming cfg σ ev σ')
    (distinct : RostersDistinct σ)
    {c : ClientId} {e : Engine} {q : String} (he : σ.engines c = some e) (cur : e.cur = some s) (apart : Apart σ s e q)
    (heard : ∀ msg ∈ σ.inbox s, msg.cue q = .other ∨ msg.cue q = .rekey) :
    ∃ e', σ'.engines c = some e' ∧ e'.cur = some s ∧ Apart σ' s e' q := by
  have distinct' : ∀ s peers, .roster peers ∈ σ.inbox s → (peers.map (·.userId)).Nodup := fun s peers hm =>
    distinct s peers (mem_heard.mpr (.inl hm))
  have blank : ∀ {offers pc cue s' said}, Side.Reacts cfg.rtc offers pc ⟨none, 0⟩ cue s' said →
      cue = .other ∨ cue = .rekey → s' = ⟨none, 0⟩ ∧ said = [] := by
    rintro offers pc cue s' said reacts (rfl | rfl)
    · cases reacts <;> exact ⟨rfl, rfl⟩
    · cases reacts with
      | rotated smaller held has => cases held
      | unrotated h => exact ⟨rfl, rfl⟩
  -- The library reports no candidate of a PeerConnection that there is not.
  have unreported : ∀ {e' : Engine} {ms : List ClientMsg}, ev.client = some c → σ'.engines c = some e' →
      e'.mesh.side q = ⟨none, 0⟩ → (∀ cand, .ice q cand ∈ ms → cand ∈ ev.reports ∧ cand.pc.peer = q) →
      (ms.filterMap (ClientMsg.signalFor q)).filter Signal.negotiates = [] → ms.filterMap (ClientMsg.signalFor q) = [] := by
    intro e' ms client he' side reports quiet
    refine eq_nil_of_quiet quiet (List.eq_nil_iff_forall_not_mem.mpr fun cand hm => ?_)
    obtain ⟨m, hm, hsig⟩ := List.mem_filterMap.mp (mem_cands.mp hm)
    obtain rfl := ClientMsg.signalFor_eq_ice hsig
    obtain ⟨hr, hpeer⟩ := reports cand hm
    have made := (forming.genuine c client e' he' cand hr).2
    rw [hpeer, show e'.mesh.serial q = 0 from congrArg Side.serial side] at made
    exact Nat.not_lt_zero _ made
  -- What the client says besides, and how its wire goes on.
  have later : ∀ {e' : Engine} {ms : List ClientMsg}, σ'.engines c = some e' → e'.cur = some s →
      e'.mesh.side q = ⟨none, 0⟩ → ms.filterMap (ClientMsg.signalFor q) = [] → e'.mesh.sent = e.mesh.sent ++ ms →
      σ'.unsaid s e' q = σ.unsaid s e q ++ ms.filterMap (ClientMsg.signalFor q) →
      ∃ e', σ'.engines c = some e' ∧ e'.cur = some s ∧ Apart σ' s e' q := by
    intro e' ms he' cur' side silent sent hunsaid
    refine ⟨e', he', cur', side, ?_, ?_⟩
    · rw [sent, List.filterMap_append, apart.sent, silent]
      rfl
    · rw [hunsaid, apart.unsaid, silent]
      rfl
  cases hev : ev.handler with
  | some p =>
    obtain ⟨d, w⟩ := p
    obtain ⟨e₀, e₁, t, msg, said, round⟩ := next_round hs hev (forming.calls _ hev) distinct'
    by_cases hd : c = d
    · subst hd
      cases he.symm.trans round.engine
      cases cur.symm.trans round.cur
      have he₁ : σ'.engines c = some e₁ := by rw [round.engines, Function.update_self]
      have reacts := round.reacts q
      rw [apart.side] at reacts
      obtain ⟨side, quiet⟩ := blank reacts (heard msg (by rw [round.inbox]; exact List.mem_cons_self))
      obtain ⟨w', -, hhandle, -⟩ := round.handled
      refine later he₁ ?_ side (unreported (@handler_silent cfg σ ev _ hev s).2.2 he₁ side (fun cand hm => ?_) quiet)
        round.sent ?_
      · rw [hhandle]
        exact (Engine.handle_cur msg).trans cur
      · have own := round.own _ hm cand rfl
        simp only [ClientMsg.reports, decide_eq_true_eq, Bool.and_eq_true, ClientMsg.ice.injEq, and_true] at own
        rw [← round.reports]
        exact ⟨List.mem_filterMap.mpr ⟨_, hm, rfl⟩, own.1.symm⟩
      · simp only [unsaid, round.wire, round.out, List.filterMap_append, List.append_assoc]
    · refine ⟨e, by rw [round.engines, Function.update_of_ne hd]; exact he, cur, apart.side, apart.sent, ?_⟩
      rw [unsaid, round.wire]
      exact apart.unsaid
  | none =>
    cases ev with
    | race d w said => cases hev
    | act a =>
      obtain ⟨e', msgs, he', turn, wire⟩ := engine_step wf hs he
      -- Nothing happens to the mesh, and the server may read from the wire.
      have still : e'.mesh.side q = e.mesh.side q → e'.mesh.sent = e.mesh.sent → e'.cur = some s →
          (a ≠ .recv s → σ'.unsaid s e' q = σ.unsaid s e q) → (a = .recv s → e'.mesh.out = e.mesh.out) →
          ∃ e', σ'.engines c = some e' ∧ e'.cur = some s ∧ Apart σ' s e' q := by
        intro side sent cur' unread read
        refine ⟨e', he', cur', side.trans apart.side, by rw [sent]; exact apart.sent, ?_⟩
        by_cases ha : a = .recv s
        · have hout := read ha
          subst ha
          obtain ⟨m, rest, srv, hw, -, rfl⟩ := step_recv_inv hs
          have before := apart.unsaid
          simp only [unsaid, hw, List.cons_append, hout, Function.update_self] at before ⊢
          exact List.filterMap_eq_nil_iff.mpr fun m hm => List.filterMap_eq_nil_iff.mp before m (List.mem_cons_of_mem _ hm)
        · rw [unread ha]
          exact apart.unsaid
      cases turn with
      | idle => exact still rfl rfl cur (fun ha => by simp only [unsaid, wire s cur ha, List.append_nil]) fun _ => rfl
      | handle w t msg act => rw [act] at hev; cases hev
      | lost act => have := forming.held; rw [act] at this; cases this
      | reconnect act => have := forming.held; rw [act] at this; cases this
      | uplink msg rest act out =>
        subst act
        exact still rfl rfl cur (fun ha => by simp [unsaid, wire s cur ha, out]) fun h => by cases h
      | @event lev msgs e₁ act round =>
        subst act
        obtain ⟨silent, ms, hout, hsent, hms, reacts⟩ := @Engine.onEvent_turn cfg.rtc _ _ _ _ round q
        rw [apart.side] at reacts
        obtain ⟨side, -⟩ := blank reacts (.inl rfl)
        refine later he' ((Engine.onEvent_spec round).2.1.trans cur) side
          (unreported rfl he' side (fun cand hm => ?_) ?_) hsent ?_
        · rcases hms with rfl | ⟨pc, text, rfl, rfl⟩
          · cases hm
          · cases List.mem_singleton.mp hm
            exact ⟨List.mem_singleton_self _, rfl⟩
        · rcases hms with rfl | ⟨pc, text, -, rfl⟩
          · rfl
          · rw [ClientMsg.filter_signalFor]
            rfl
        · simp [unsaid, wire s cur (by simp), hout, silent]

theorem next_server (hs : next cfg σ ev = some σ') :
    σ'.server = σ.server ∨ ∃ b, σ.serverPart ev = some b ∧ σ.server.step cfg.server b = some σ'.server := by
  cases ev with
  | act a => exact (step_server hs).imp And.right id
  | race c w said =>
    obtain ⟨e, he, hs⟩ := Option.bind_eq_some_iff.mp hs
    obtain ⟨σ₁, hs₁, hs⟩ := Option.bind_eq_some_iff.mp hs
    obtain ⟨e₁, he₁, hs⟩ := Option.bind_eq_some_iff.mp hs
    cases (Option.ite_none_right_eq_some.mp hs).2
    rcases step_server hs₁ with ⟨-, heq⟩ | ⟨b, hb, -⟩
    · exact .inl heq
    · cases hb

theorem next_kept (wf : WF cfg σ) (hs : next cfg σ ev = some σ') : Kept σ σ' := by
  cases ev with
  | act a => exact step_kept wf hs
  | race c w said =>
    obtain ⟨e, he, hs⟩ := Option.bind_eq_some_iff.mp hs
    obtain ⟨σ₁, hs₁, hs⟩ := Option.bind_eq_some_iff.mp hs
    obtain ⟨e₁, he₁, hs⟩ := Option.bind_eq_some_iff.mp hs
    cases (Option.ite_none_right_eq_some.mp hs).2
    exact (step_kept wf hs₁).trans (.of_setEngine { e₁ with mesh := e.mesh.saying e₁.mesh said } he₁ rfl rfl rfl rfl)

/-- What a step does to the members of the rooms. -/
inductive Roll (cfg : SysConfig) (σ σ' : Sys) (ev : SysEvent) : Prop
  | same (handles : ∀ room userId, σ'.server.handle? room userId = σ.server.handle? room userId)
      (idents : ∀ s, σ'.server.ident s = σ.server.ident s)
  /-- A Join is accepted, and nobody is superseded. -/
  | entered (s : SocketId) (room userId name : String) (token : Option String) (rest : List ClientMsg)
      (act : ev = .act (.recv s)) (wire : σ.wire s = .join room userId name token :: rest)
      (admits : Server.Admits cfg.server σ.server s room userId name token)
      (vacant : σ.server.handle? room userId = none)
      (handles : ∀ room' userId', σ'.server.handle? room' userId' =
        if room' = room ∧ userId' = userId then some { name, tx := s } else σ.server.handle? room' userId')
      (idents : ∀ t, σ'.server.ident t = if t = s then some (room, userId) else σ.server.ident t)

theorem roll_next (wf : WF cfg σ) (hs : next cfg σ ev = some σ') (forming : Forming cfg σ ev σ') : Roll cfg σ σ' ev := by
  rcases next_server hs with heq | ⟨b, hb, hstep⟩
  · exact .same (fun _ _ => by rw [heq]) fun _ => by rw [heq]
  · have sole := forming.sole b hb
    have stay := forming.stay b hb
    obtain ⟨evs, -, change⟩ := Server.step_change (wf.server.fresh _ (Nat.le_refl _)) hstep
    cases change with
    | same handles idents placed => exact .same handles idents
    | admitted s room userId name token rest act admits events handles idents placed =>
      subst act
      have vacant : σ.server.handle? room userId = none := by
        obtain ⟨-, hbounds, hauth, -⟩ := id admits
        simpa [Server.supersedes, admits.idle, hbounds, hauth] using sole
      cases ev with
      | race d w said => cases hb
      | act a =>
        cases a with
        | recv t =>
          obtain ⟨msg, hmsg, heq⟩ := Option.map_eq_some_iff.mp hb
          cases heq
          obtain ⟨rest, hw⟩ := List.head?_eq_some_iff.mp hmsg
          exact .entered s room userId name token rest rfl hw admits vacant handles idents
        | server b =>
          cases hb
          have hs' : step cfg σ (.server (.frame s (.text (.join room userId name token)))) = some σ' := hs
          cases (step_server_inv hs').1
        | _ => cases hb
    | left s room userId identity act handles idents ended placed =>
      rcases act with rfl | rfl | rfl <;> simp [Server.departs, SAct.ends, identity] at stay
    | restarted act handles ended events =>
      subst act
      cases stay

/-- Who is in a room stays in it. -/
theorem stays_next (wf : WF cfg σ) (hs : next cfg σ ev = some σ') (forming : Forming cfg σ ev σ') :
    (∀ room userId h, σ.server.handle? room userId = some h → σ'.server.handle? room userId = some h) ∧
      ∀ s p, σ.server.ident s = some p → σ'.server.ident s = some p := by
  cases roll_next wf hs forming with
  | same handles idents => exact ⟨fun room userId h hh => (handles room userId).trans hh, fun s p hp => (idents s).trans hp⟩
  | entered s room userId name token rest act wire admits vacant handles idents =>
    refine ⟨fun room' userId' h hh => ?_, fun t p hp => ?_⟩
    · rw [handles, if_neg]
      · exact hh
      · rintro ⟨rfl, rfl⟩
        rw [vacant] at hh
        cases hh
    · rw [idents, if_neg]
      · exact hp
      · rintro rfl
        rw [admits.idle] at hp
        cases hp

/-- The client has to do with `q` as little as it hears of it. -/
structure Stranger (σ : Sys) (s : SocketId) (e : Engine) (q : String) : Prop where
  apart : Apart σ s e q
  deaf : ∀ msg ∈ σ.heard s, msg.cue q = .other ∨ msg.cue q = .rekey

/-- Clients have to do with the others of their room only. -/
structure Introduced (σ : Sys) : Prop where
  idents : σ.server.IdentsListed
  rosters : RostersDistinct σ
  staying : ∀ s, ∀ msg ∈ σ.heard s, ∀ q, msg.cue q ≠ .left
  unlisted : ∀ room userId h e k, Online σ room userId h e k → ∀ q, (q = userId ∨ σ.server.handle? room q = none) →
    Stranger σ h.tx e q
  unjoined : ∀ s e, s < σ.server.nextSocket → σ.engines (σ.owner s) = some e → e.cur = some s → σ.server.ident s = none →
    ∀ q, Stranger σ s e q

theorem identsListed_next (wf : WF cfg σ) (hs : next cfg σ ev = some σ') (forming : Forming cfg σ ev σ')
    (idents : σ.server.IdentsListed) : σ'.server.IdentsListed := by
  rcases next_server hs with heq | ⟨b, hb, hstep⟩
  · rw [heq]
    exact idents
  · exact Server.identsListed_step wf.server (forming.sole b hb) hstep idents

/-- A member goes on hearing nothing of itself and of who is still not listed. -/
theorem unlisted_next (wf : WF cfg σ) (hs : next cfg σ ev = some σ') (forming : Forming cfg σ ev σ') (known : Introduced σ)
    {room userId q : String} {h : PeerHandle} {e' : Engine} {k' : Conn} (on' : Online σ' room userId h e' k')
    (listed : σ.server.handle? room userId = some h) (hq : q = userId ∨ σ'.server.handle? room q = none) :
    Stranger σ' h.tx e' q := by
  have distinct : ∀ s peers, .roster peers ∈ σ.inbox s → (peers.map (·.userId)).Nodup := fun s peers hm =>
    known.rosters s peers (mem_heard.mpr (.inl hm))
  obtain ⟨e, k, on, -⟩ := turn_step wf hs forming.room forming.calls distinct on' listed
  have stays := (stays_next wf hs forming).1
  have hq₀ : q = userId ∨ σ.server.handle? room q = none := hq.imp_right fun hnone => by
    cases hh : σ.server.handle? room q with
    | none => rfl
    | some h₀ => rw [stays room q h₀ hh] at hnone; cases hnone
  obtain ⟨apart, deaf⟩ := known.unlisted room userId h e k on q hq₀
  obtain ⟨e₁, he₁, -, apart'⟩ := apart_next wf hs forming known.rosters on.engine on.cur apart
    fun msg hm => deaf msg (mem_heard.mpr (.inl hm))
  have owner : σ'.owner h.tx = σ.owner h.tx := (next_kept wf hs).owner _ (on.opened wf)
  have engine := on'.engine
  rw [owner, he₁, Option.some.injEq] at engine
  subst engine
  refine ⟨apart', fun msg hm => ?_⟩
  rcases heard_next hs hm with hm | hm | ⟨a, rfl, room', u', name, token, rest, rfl, hw, admits, -⟩ | ⟨creds, rfl⟩
  · exact deaf msg hm
  · -- Nothing of `q` is among the news.
    have silent : heardOf q (Fifo.sentTo h.tx (σ.news cfg ev)) = [] := by
      rw [news_heard wf hs forming known.idents listed]
      rcases hq₀ with rfl | hnone
      · rw [listed, Option.map_some, Option.getD_some, List.filterMap_eq_nil_iff.mpr]
        · rfl
        · intro m hm
          exact List.filterMap_eq_nil_iff.mp apart.unsaid m (List.mem_append_left _ (mem_takes hm))
      · rw [hnone]
        rfl
    rcases news_members wf hs forming listed with ⟨joiner, name, n, hne, -, ⟨h', hh'⟩, hnews⟩ | quiet
    · rw [hnews] at hm
      rcases List.mem_cons.mp hm with rfl | hm
      · left
        simp only [ServerMsg.cue]
        rw [if_neg]
        rintro rfl
        rcases hq with rfl | hnone
        · exact hne rfl
        · rw [hnone] at hh'; cases hh'
      · unfold Server.warning at hm
        split at hm
        · rw [List.mem_singleton.mp hm]
          exact .inl rfl
        · cases hm
    · obtain ⟨seen, left⟩ := ServerMsg.cue_of_not_membership (quiet msg hm) q
      cases hcue : msg.cue q with
      | seen => exact absurd hcue seen
      | left => exact absurd hcue left
      | rekey => exact .inr rfl
      | signal sig =>
        have := List.filterMap_eq_nil_iff.mp silent msg hm
        rw [hcue] at this
        cases this
      | other => exact .inl rfl
  · have hidle := admits.idle
    rw [on.ident wf] at hidle
    cases hidle
  · exact .inl rfl

/-- No client takes another connection. -/
theorem cur_next (wf : WF cfg σ) (hs : next cfg σ ev = some σ') (forming : Forming cfg σ ev σ')
    (distinct : RostersDistinct σ)
    {c : ClientId} {e : Engine} (he : σ.engines c = some e) : ∃ e', σ'.engines c = some e' ∧ e'.cur = e.cur := by
  cases hev : ev.handler with
  | some p =>
    obtain ⟨d, w⟩ := p
    obtain ⟨e₀, e₁, t, msg, said, round⟩ := next_round hs hev (forming.calls _ hev) fun s peers hm =>
      distinct s peers (mem_heard.mpr (.inl hm))
    by_cases hd : c = d
    · subst hd
      cases he.symm.trans round.engine
      obtain ⟨w', -, hhandle, -⟩ := round.handled
      refine ⟨e₁, by rw [round.engines, Function.update_self], ?_⟩
      rw [hhandle]
      exact Engine.handle_cur msg
    · exact ⟨e, by rw [round.engines, Function.update_of_ne hd]; exact he, rfl⟩
  | none =>
    cases ev with
    | race d w said => cases hev
    | act a =>
      obtain ⟨e', msgs, he', turn, -⟩ := engine_step wf hs he
      refine ⟨e', he', ?_⟩
      cases turn with
      | idle => rfl
      | handle w t msg act => rw [act] at hev; cases hev
      | lost act => have := forming.held; rw [act] at this; cases this
      | reconnect act => have := forming.held; rw [act] at this; cases this
      | uplink msg rest act out => rfl
      | event lev act round => exact (Engine.onEvent_spec round).2.1

/-- Only a client that is started opens a socket. -/
theorem opened_next (hs : next cfg σ ev = some σ') (forming : Forming cfg σ ev σ') (hge : σ.server.nextSocket ≤ s)
    (hlt : s < σ'.server.nextSocket) : s = σ.server.nextSocket ∧ ∃ ecfg, ev = .act (.start ecfg) := by
  rcases next_server hs with heq | ⟨b, hb, hstep⟩
  · rw [heq] at hlt
    exact absurd hlt (Nat.not_lt.mpr hge)
  · by_cases hacc : b = .accept
    · subst hacc
      rw [accept_eq hstep] at hlt
      refine ⟨Nat.le_antisymm (Nat.le_of_lt_succ hlt) hge, ?_⟩
      cases ev with
      | race d w said => cases hb
      | act a =>
        cases a with
        | start ecfg => exact ⟨ecfg, rfl⟩
        | reconnect c => cases forming.held
        | server b =>
          cases hb
          have hs' : step cfg σ (.server .accept) = some σ' := hs
          cases (step_server_inv hs').1
        | recv t =>
          obtain ⟨msg, -, heq⟩ := Option.map_eq_some_iff.mp hb
          cases heq
        | _ => cases hb
    · rw [Server.step_nextSocket hstep hacc] at hlt
      exact absurd hlt (Nat.not_lt.mpr hge)

/-- Before it has joined, a client hears nothing of anybody. -/
theorem unjoined_next (wf : WF cfg σ) (hs : next cfg σ ev = some σ') (forming : Forming cfg σ ev σ') (known : Introduced σ)
    {e' : Engine} (hlt : s < σ'.server.nextSocket) (he' : σ'.engines (σ'.owner s) = some e') (cur' : e'.cur = some s)
    (idle : σ.server.ident s = none) (q : String) :
    Apart σ' s e' q ∧ ∀ msg ∈ σ'.heard s, (∃ a, ev = .act a ∧ Welcomes cfg σ a s msg) ∨
    msg.cue q = .other ∨ msg.cue q = .rekey := by
  by_cases hold : s < σ.server.nextSocket
  · obtain ⟨e, he⟩ := Option.isSome_iff_exists.mp (wf.owned s hold)
    rw [(next_kept wf hs).owner s hold] at he'
    obtain ⟨e₁, he₁, hcur⟩ := cur_next wf hs forming known.rosters he
    cases he'.symm.trans he₁
    have cur : e.cur = some s := hcur.symm.trans cur'
    obtain ⟨apart, deaf⟩ := known.unjoined s e hold he cur idle q
    obtain ⟨e₂, he₂, -, apart'⟩ := apart_next wf hs forming known.rosters he cur apart
      fun msg hm => deaf msg (mem_heard.mpr (.inl hm))
    cases he'.symm.trans he₂
    refine ⟨apart', fun msg hm => ?_⟩
    rcases heard_next hs hm with hm | hm | welcome | ⟨creds, rfl⟩
    · exact .inr (deaf msg hm)
    · rcases (mem_news hs hm).2 with ⟨room, userId, h, listed, rfl⟩ | other
      · rw [wf.server.listed _ _ _ listed] at idle
        cases idle
      · exact .inr (.inl (other q))
    · exact .inl welcome
    · exact .inr (.inl rfl)
  · obtain ⟨rfl, ecfg, rfl⟩ := opened_next hs forming (not_lt.mp hold) hlt
    have hs' : step cfg σ (.start ecfg) = some σ' := hs
    obtain ⟨srv, hstep, rfl⟩ := step_start_inv hs'
    have unopened := wf.unopened _ (Nat.le_refl σ.server.nextSocket)
    simp only [started, dialed, Function.update_self, Option.some.injEq] at he'
    subst he'
    refine ⟨⟨rfl, rfl, ?_⟩, fun msg hm => ?_⟩
    · simp [unsaid, started, dialed, Engine.joinMsg, Engine.start, ClientMsg.signalFor]
    · rcases mem_heard.mp hm with hm | ⟨k, hk, hm⟩
      · rw [show (started σ srv ecfg).inbox σ.server.nextSocket = [] from unopened.2] at hm
        cases hm
      · have conn : srv.conns σ.server.nextSocket = some {} := by
          rw [accept_eq hstep]
          exact Function.update_self ..
        cases hk.symm.trans conn
        simp [Conn.pending] at hm

theorem ident_of_welcome {room userId name : String} {token : Option String} {rest : List ClientMsg}
    (hs : next cfg σ (.act (.recv s)) = some σ') (wire : σ.wire s = .join room userId name token :: rest)
    (admits : Server.Admits cfg.server σ.server s room userId name token) : σ'.server.ident s = some (room, userId) := by
  have hs' : step cfg σ (.recv s) = some σ' := hs
  obtain ⟨msg, rest', srv, hw, hstep, rfl⟩ := step_recv_inv hs'
  obtain ⟨c, hc, -, rfl⟩ := Server.step_frame_inv hstep
  cases wire.symm.trans hw
  show (σ.server.handleFrame cfg.server s c.me _).ident s = _
  rw [(admits.frame hc).2.2, Server.enroll_ident, if_pos rfl, hc]
  rfl

/-- Nobody is told that somebody has left. -/
theorem staying_next (wf : WF cfg σ) (hs : next cfg σ ev = some σ') (forming : Forming cfg σ ev σ')
    (staying : ∀ msg ∈ σ.heard s, ∀ q, msg.cue q ≠ .left) : ∀ msg ∈ σ'.heard s, ∀ q, msg.cue q ≠ .left := by
  intro msg hm q
  rcases heard_next hs hm with hm | hm | ⟨a, -, _, _, _, _, _, -, -, -, rfl⟩ | ⟨creds, rfl⟩
  · exact staying msg hm q
  · rcases (mem_news hs hm).2 with ⟨room, userId, h, listed, rfl⟩ | other
    · rcases news_members wf hs forming listed with ⟨joiner, name, n, -, -, -, hnews⟩ | quiet
      · rw [hnews] at hm
        rcases List.mem_cons.mp hm with rfl | hm
        · simp only [ServerMsg.cue]
          split <;> simp
        · unfold Server.warning at hm
          split at hm
          · rw [List.mem_singleton.mp hm]
            simp [ServerMsg.cue]
          · cases hm
      · exact (ServerMsg.cue_of_not_membership (quiet msg hm) q).2
    · rw [other q]
      simp
  · simp only [ServerMsg.cue]
    split <;> simp
  · simp [ServerMsg.cue]

theorem introduced_next (wf : WF cfg σ) (hs : next cfg σ ev = some σ') (forming : Forming cfg σ ev σ')
    (known : Introduced σ) :
    Introduced σ' := by
  refine ⟨identsListed_next wf hs forming known.idents, rostersDistinct_next known.rosters hs,
    fun s => staying_next wf hs forming (known.staying s), ?_, ?_⟩
  · intro room userId h e' k' on' q hq
    by_cases listed : σ.server.handle? room userId = some h
    · exact unlisted_next wf hs forming known on' listed hq
    · -- It has just joined.
      cases roll_next wf hs forming with
      | same handles idents => exact absurd ((handles room userId).symm.trans on'.listed) listed
      | entered s room' joiner name token rest act wire admits vacant handles idents =>
        have listed' := on'.listed
        rw [handles] at listed'
        split at listed'
        · rename_i heq
          obtain ⟨rfl, rfl⟩ := heq
          cases listed'
          obtain ⟨apart, deaf⟩ :=
            unjoined_next wf hs forming known (on'.opened (wf_next wf hs)) on'.engine on'.cur admits.idle q
          refine ⟨apart, fun msg hm => (deaf msg hm).elim (fun welcome => .inl ?_) id⟩
          obtain ⟨a, rfl, room'', joiner', name', token', rest', -, wire', -, rfl⟩ := welcome
          cases wire.symm.trans wire'
          refine if_neg fun hm => ?_
          obtain ⟨hne, h₀, hh₀⟩ := Server.mem_rosterOf.mp hm
          rcases hq with rfl | hnone
          · exact hne rfl
          · rw [(stays_next wf hs forming).1 _ _ _ hh₀] at hnone
            cases hnone
        · exact absurd listed' listed
  · intro s e' hlt he' cur' idle' q
    have idle : σ.server.ident s = none := by
      cases hi : σ.server.ident s with
      | none => rfl
      | some p => rw [(stays_next wf hs forming).2 s p hi] at idle'; cases idle'
    obtain ⟨apart, deaf⟩ := unjoined_next wf hs forming known hlt he' cur' idle q
    refine ⟨apart, fun msg hm => (deaf msg hm).elim (fun welcome => ?_) id⟩
    obtain ⟨a, rfl, room, userId, name, token, rest, rfl, wire, admits, rfl⟩ := welcome
    rw [ident_of_welcome hs wire admits] at idle'
    cases idle'

theorem introduced_empty : Introduced empty := by
  refine ⟨?_, fun s peers hm => ?_, fun s msg hm => ?_, fun room userId h e k on => ?_, fun s e hlt =>
    absurd hlt (Nat.not_lt_zero s)⟩
  · exact fun s room userId hi => by cases hi
  · simp [mem_heard, empty, Server.empty] at hm
  · simp [mem_heard, empty, Server.empty] at hm
  · cases on.engine

end

end Sys

end SquadLink

import SquadLink.System.Pairs

/-! While a mesh forms, every client that a room lists is there: it runs, it is on its socket, and the socket's
    writer task runs. And nobody hears of a key rotation that nobody has asked for. -/

namespace SquadLink

namespace Server

section
variable {cfg : ServerConfig} {st st' : Server} {s t : SocketId} {c : Conn} {m : ServerMsg} {msg : ClientMsg} {b : SAct}

/-- A socket is told that its room is full when its Join ends it, and rotations are announced on request. -/
theorem frameSends_kinds (hm : (t, m) ∈ frameSends cfg st s c.me (.text msg)) :
    (∀ cap, m = .roomFull cap → t = s ∧ framePhase cfg st c.me (.text msg) = .ended) ∧
    ∀ by', m = .rekey by' → msg = .rekey := by
  have relayed : ∀ dest (build : String → ServerMsg), (∀ x cap, build x ≠ .roomFull cap) → (∀ x by', build x ≠ .rekey by') →
      (t, m) ∈ relaySends st c.me dest build → (∀ cap, m ≠ .roomFull cap) ∧ ∀ by', m ≠ .rekey by' := by
    intro dest build hfull hrekey hm
    unfold relaySends at hm
    split at hm
    · cases hm
    · obtain ⟨h, -, he⟩ := Option.map_eq_some_iff.mp (Option.mem_toList.mp hm)
      rw [← (Prod.mk.inj he).2]
      exact ⟨hfull _, hrekey _⟩
  have neither : (∀ cap, m ≠ .roomFull cap) ∧ (∀ by', m ≠ .rekey by') →
      (∀ cap, m = .roomFull cap → t = s ∧ framePhase cfg st c.me (.text msg) = .ended) ∧
      ∀ by', m = .rekey by' → msg = .rekey :=
    fun h => ⟨fun cap hc => absurd hc (h.1 cap), fun by' hb => absurd hb (h.2 by')⟩
  cases msg with
  | join room userId name token =>
    simp only [frameSends, joinReply] at hm
    simp only [framePhase, joinPhase]
    split at hm
    · cases List.mem_singleton.mp hm
      exact neither (by simp)
    · split at hm
      · cases List.mem_singleton.mp hm
        exact neither (by simp)
      · split at hm
        · cases List.mem_singleton.mp hm
          exact neither (by simp)
        · split at hm
          · cases List.mem_singleton.mp hm
            simp_all
          · refine neither ?_
            simp only [joinSends, List.mem_append] at hm
            rcases hm with (hm | hm) | hm
            · obtain ⟨old, -, he⟩ := Option.map_eq_some_iff.mp (Option.mem_toList.mp hm)
              rw [← (Prod.mk.inj he).2]
              simp
            · obtain ⟨id, h, -, -, hg⟩ := Fifo.mem_broadcast.mp hm
              simp only [ne_eq, ite_not, Option.ite_none_left_eq_some, Option.some.injEq] at hg
              rw [← hg.2]
              simp
            · split at hm
              · obtain ⟨id, h, -, -, hg⟩ := Fifo.mem_broadcast.mp hm
                rw [← Option.some.inj hg]
                simp
              · cases hm
  | offer dest sdp | answer dest sdp | ice dest cand =>
    simp only [frameSends] at hm
    split at hm
    · cases hm
    · exact neither (relayed dest _ (by simp) (by simp) hm)
  | ptt active =>
    simp only [frameSends] at hm
    split at hm
    · cases hm
    · obtain ⟨id, h, -, -, hg⟩ := Fifo.mem_broadcast.mp hm
      simp only [ne_eq, ite_not, Option.ite_none_left_eq_some, Option.some.injEq] at hg
      refine neither ?_
      rw [← hg.2]
      simp
  | rekey =>
    simp only [frameSends] at hm
    split at hm
    · cases hm
    · obtain ⟨id, h, -, -, hg⟩ := Fifo.mem_broadcast.mp hm
      cases hg
      exact ⟨by simp, fun _ _ => rfl⟩
  | leave =>
    simp only [frameSends, cleanupSends] at hm
    split at hm
    · cases hm
    · obtain ⟨id, h, -, -, hg⟩ := Fifo.mem_broadcast.mp hm
      cases hg
      exact neither (by simp)

/-- The writer task of every socket that has not ended runs. -/
def Writes (st : Server) : Prop := ∀ s k, st.conns s = some k → k.phase ≠ .ended → k.rxOpen = true

theorem writes_step (h : step cfg st b = some st') (stay : st.departs b = false) (writes : st.Writes) : st'.Writes := by
  intro t k' hk' open'
  -- What happens to a connection leaves its receiver, and ends it at most.
  have kept : ∀ {k : Conn}, st.conns t = some k → k'.rxOpen = k.rxOpen → (k.phase = .ended → k'.phase = .ended) →
      k'.rxOpen = true :=
    fun hk hrx hphase => hrx.trans (writes t _ hk fun he => open' (hphase he))
  have dropped : ∀ {u}, st' = st.modifyConn u Conn.dropRx → (∀ k, st.conns u = some k → k.phase = .ended) →
      k'.rxOpen = true := by
    intro u hst hended
    rw [hst, modifyConn_conns] at hk'
    split at hk'
    · obtain ⟨k, hk, rfl⟩ := Option.map_eq_some_iff.mp hk'
      exact absurd (hended k hk) open'
    · exact kept hk' rfl id
  cases b with
  | accept =>
    cases Option.some.inj h
    by_cases ht : t = st.nextSocket
    · simp only [ht, Function.update_self, Option.some.injEq] at hk'
      rw [← hk']
    · simp only [Function.update_of_ne ht] at hk'
      exact kept hk' rfl id
  | frame s f =>
    obtain ⟨c, hc, hr, rfl⟩ := step_frame_inv h
    rw [handleFrame_conns hc hr] at hk'
    obtain ⟨k, hk, rfl⟩ := Option.map_eq_some_iff.mp hk'
    by_cases hts : t = s
    · subst hts
      cases hc.symm.trans hk
      refine kept hk (by simp) fun he => ?_
      rw [hr] at he
      cases he
    · exact kept hk (by simp [hts]) (by simp [hts])
  | finishJoin s now =>
    obtain ⟨c, room, userId, roster, hc, hp, rfl⟩ := step_finishJoin_inv h
    rw [finishJoin_conns] at hk'
    obtain ⟨k, hk, rfl⟩ := Option.map_eq_some_iff.mp hk'
    by_cases hts : t = s
    · subst hts
      cases hc.symm.trans hk
      refine kept hk (by simp) fun he => ?_
      rw [hp] at he
      cases he
    · exact kept hk (by simp [hts]) (by simp [hts])
  | close s =>
    obtain ⟨c, hc, hr, rfl⟩ := step_close_inv h
    rw [cleanup_conns] at hk'
    obtain ⟨k, hk, rfl⟩ := Option.map_eq_some_iff.mp hk'
    by_cases hts : t = s
    · exact kept hk (by simp [hts]) (by simp [hts])
    · exact kept hk (by simp [hts]) (by simp [hts])
  | write s =>
    obtain ⟨c, hc, -, rfl⟩ := step_write_inv h
    rw [modifyConn_conns] at hk'
    split at hk'
    · rename_i hts
      subst hts
      obtain ⟨k, hk, rfl⟩ := Option.map_eq_some_iff.mp hk'
      exact kept hk rfl id
    · exact kept hk' rfl id
  | writeFail s =>
    obtain ⟨c, hc, -, hst⟩ := step_writeFail_inv h
    refine dropped hst fun k hk => ?_
    simpa [departs, hk] using stay
  | abort s =>
    obtain ⟨c, hc, hended, hst⟩ := step_abort_inv h
    refine dropped hst fun k hk => ?_
    cases hc.symm.trans hk
    exact hended
  | rehash room r =>
    obtain ⟨r₀, -, -, rfl⟩ := step_rehash_inv h
    exact kept hk' rfl id
  | restart => cases stay

end

end Server

/-- The socket from which the server reads a request to rotate the keys. -/
def SysEvent.rotates (σ : Sys) (ev : SysEvent) : Option SocketId :=
  match σ.serverPart ev with
  | some (.frame s (.text .rekey)) => some s
  | _ => none

namespace Sys

section
variable {cfg : SysConfig} {σ σ' : Sys} {ev : SysEvent} {room userId : String} {h : PeerHandle} {s : SocketId}

/-- Every client is on the one socket that it has opened, where it runs as long as the socket is open. -/
structure Present (σ : Sys) : Prop where
  attached : ∀ s e, s < σ.server.nextSocket → σ.engines (σ.owner s) = some e → e.cur = some s
  writes : σ.server.Writes
  awake : ∀ s e, σ.server.IsOpen s → σ.engines (σ.owner s) = some e → e.running = true ∧ ∀ cap, .roomFull cap ∉ σ.heard s

theorem attached_next (wf : WF cfg σ) (hs : next cfg σ ev = some σ') (forming : Forming cfg σ ev σ')
    (distinct : RostersDistinct σ)
    (attached : ∀ s e, s < σ.server.nextSocket → σ.engines (σ.owner s) = some e → e.cur = some s) {e' : Engine}
    (hlt : s < σ'.server.nextSocket) (he' : σ'.engines (σ'.owner s) = some e') : e'.cur = some s := by
  by_cases hold : s < σ.server.nextSocket
  · obtain ⟨e, he⟩ := Option.isSome_iff_exists.mp (wf.owned s hold)
    obtain ⟨e₁, he₁, hcur⟩ := cur_next wf hs forming distinct he
    rw [(next_kept wf hs).owner s hold, he₁, Option.some.injEq] at he'
    subst he'
    exact hcur.trans (attached s e hold he)
  · obtain ⟨rfl, ecfg, rfl⟩ := opened_next hs forming (Nat.le_of_not_lt hold) hlt
    have hs' : step cfg σ (.start ecfg) = some σ' := hs
    obtain ⟨srv, -, rfl⟩ := step_start_inv hs'
    simp only [started, dialed, Function.update_self, Option.some.injEq] at he'
    rw [← he']
    rfl

/-- Nobody is told that its room is full while its socket stays open. -/
theorem unrefused_next (hs : next cfg σ ev = some σ') (forming : Forming cfg σ ev σ')
    (open' : σ'.server.IsOpen s) {cap : Nat} (unheard : .roomFull cap ∉ σ.heard s) : .roomFull cap ∉ σ'.heard s := by
  intro hm
  rcases heard_next hs hm with hm | hm | ⟨a, -, _, _, _, _, _, -, -, -, heq⟩ | ⟨creds, heq⟩
  · exact unheard hm
  · rcases news_cases hs forming with ⟨t, msg, rest, c, rfl, hw, hc, hr, hsrv, hnews, -⟩ | ⟨hnews, -⟩
    · rw [hnews] at hm
      obtain ⟨rfl, hended⟩ := (Server.frameSends_kinds (Fifo.mem_sentTo.mp hm)).1 cap rfl
      obtain ⟨k', hk', hopen⟩ := open'
      rw [hsrv, Server.handleFrame_conns hc hr, hc] at hk'
      simp only [Option.map_some, if_pos, Option.some.injEq] at hk'
      exact hopen (by rw [← hk']; exact hended)
    · rw [hnews] at hm
      cases hm
  · cases heq
  · cases heq

/-- An engine goes on unless it is told that its room is full. -/
theorem running_next (wf : WF cfg σ) (hs : next cfg σ ev = some σ') (forming : Forming cfg σ ev σ')
    (distinct : RostersDistinct σ)
    {c : ClientId} {e e' : Engine} (he : σ.engines c = some e) (he' : σ'.engines c = some e') (cur : e.cur = some s)
    (running : e.running = true) (unheard : ∀ cap, .roomFull cap ∉ σ.heard s) : e'.running = true := by
  cases hev : ev.handler with
  | some p =>
    obtain ⟨d, w⟩ := p
    obtain ⟨e₀, e₁, t, msg, said, round⟩ := next_round hs hev (forming.calls _ hev) fun s peers hm =>
      distinct s peers (mem_heard.mpr (.inl hm))
    rw [round.engines] at he'
    by_cases hd : c = d
    · subst hd
      cases he.symm.trans round.engine
      cases cur.symm.trans round.cur
      rw [Function.update_self, Option.some.injEq] at he'
      subst he'
      obtain ⟨w', -, hhandle, -⟩ := round.handled
      rw [hhandle]
      refine (Engine.handle_running fun cap hc => unheard cap (mem_heard.mpr (.inl ?_))).trans running
      rw [round.inbox, hc]
      exact List.mem_cons_self
    · rw [Function.update_of_ne hd, he, Option.some.injEq] at he'
      exact he' ▸ running
  | none =>
    cases ev with
    | race d w said => cases hev
    | act a =>
      obtain ⟨e₁, msgs, he₁, turn, -⟩ := engine_step wf hs he
      cases he'.symm.trans he₁
      cases turn with
      | idle => exact running
      | handle w t msg act => rw [act] at hev; cases hev
      | lost act => have := forming.held; rw [act] at this; cases this
      | reconnect act => have := forming.held; rw [act] at this; cases this
      | uplink msg rest act out => exact running
      | @event lev msgs e₁ act round =>
        rcases (Engine.onEvent_spec round).2.2.2.2.2 with h | rfl | h
        · exact h
        · have := forming.held
          rw [act] at this
          cases this
        · rw [running] at h
          cases h

theorem present_next (wf : WF cfg σ) (hs : next cfg σ ev = some σ') (forming : Forming cfg σ ev σ')
    (distinct : RostersDistinct σ) (present : Present σ) : Present σ' := by
  refine ⟨fun s e' => attached_next wf hs forming distinct present.attached, ?_, fun s e' open' he' => ?_⟩
  · rcases next_server hs with heq | ⟨b, hb, hstep⟩
    · rw [heq]
      exact present.writes
    · exact Server.writes_step hstep (forming.stay b hb) present.writes
  · by_cases hold : s < σ.server.nextSocket
    · have open₀ : σ.server.IsOpen s := by
        rcases next_server hs with heq | ⟨b, hb, hstep⟩
        · exact heq ▸ open'
        · by_cases hacc : b = .accept
          · subst hacc
            obtain ⟨k, hk, hopen⟩ := open'
            rw [accept_eq hstep] at hk
            exact ⟨k, (Function.update_of_ne (Nat.ne_of_lt hold) ..).symm.trans hk, hopen⟩
          · exact Server.isOpen_of_step wf.server.fresh hstep hacc s open'
      obtain ⟨e, he⟩ := Option.isSome_iff_exists.mp (wf.owned s hold)
      obtain ⟨running, unheard⟩ := present.awake s e open₀ he
      rw [(next_kept wf hs).owner s hold] at he'
      exact ⟨running_next wf hs forming distinct he he' (present.attached s e hold he) running unheard,
        fun cap => unrefused_next hs forming open' (unheard cap)⟩
    · have hlt : s < σ'.server.nextSocket := by
        refine Nat.lt_of_not_le fun hge => ?_
        obtain ⟨k, hk, -⟩ := open'
        rw [(wf_next wf hs).server.fresh s hge] at hk
        cases hk
      obtain ⟨rfl, ecfg, rfl⟩ := opened_next hs forming (Nat.le_of_not_lt hold) hlt
      have hs' : step cfg σ (.start ecfg) = some σ' := hs
      obtain ⟨srv, -, hσ'⟩ := step_start_inv hs'
      have unheard : ∀ cap, .roomFull cap ∉ σ.heard σ.server.nextSocket := by
        intro cap hm
        rcases mem_heard.mp hm with hm | ⟨k, hk, -⟩
        · rw [(wf.unopened _ (Nat.le_refl _)).2] at hm
          cases hm
        · rw [wf.server.fresh _ (Nat.le_refl _)] at hk
          cases hk
      refine ⟨?_, fun cap => unrefused_next hs forming open' (unheard cap)⟩
      simp only [hσ', started, dialed, Function.update_self, Option.some.injEq] at he'
      rw [← he']
      rfl

theorem present_empty : Present empty := by
  refine ⟨fun s e hlt => absurd hlt (Nat.not_lt_zero s), fun s k hk => ?_, fun s e h => ?_⟩
  · cases hk
  · obtain ⟨k, hk, -⟩ := h
    cases hk

/-- A listed client is online. -/
theorem Present.online (present : Present σ) (wf : WF cfg σ) (listed : σ.server.handle? room userId = some h) :
    ∃ e k, Online σ room userId h e k := by
  have ident := wf.server.listed _ _ _ listed
  have hlt := wf.opened_of_ident ident
  have hopen := Server.isOpen_of_ident ident
  obtain ⟨e, he⟩ := Option.isSome_iff_exists.mp (wf.owned h.tx hlt)
  obtain ⟨k, hk, hphase⟩ := id hopen
  exact ⟨e, k, listed, he, (present.awake h.tx e hopen he).1, present.attached h.tx e hlt he,
    hk, present.writes h.tx k hk hphase⟩

/-! ### Rotations -/

/-- Nobody hears of a rotation. -/
def Unrotated (σ : Sys) : Prop := ∀ s by', .rekey by' ∉ σ.heard s

theorem unrotated_next (hs : next cfg σ ev = some σ') (forming : Forming cfg σ ev σ') (unasked : ev.rotates σ = none)
    (unrotated : Unrotated σ) : Unrotated σ' := by
  intro s by' hm
  rcases heard_next hs hm with hm | hm | ⟨a, -, _, _, _, _, _, -, -, -, heq⟩ | ⟨creds, heq⟩
  · exact unrotated s by' hm
  · rcases news_cases hs forming with ⟨t, msg, rest, c, rfl, hw, hc, hr, hsrv, hnews, -⟩ | ⟨hnews, -⟩
    · rw [hnews] at hm
      obtain rfl := (Server.frameSends_kinds (Fifo.mem_sentTo.mp hm)).2 by' rfl
      simp [SysEvent.rotates, serverPart, serverAct, hw] at unasked
    · rw [hnews] at hm
      cases hm
  · cases heq
  · cases heq

theorem unrotated_empty : Unrotated empty := by
  intro s by' hm
  simp [mem_heard, empty, Server.empty] at hm

end

end Sys

end SquadLink

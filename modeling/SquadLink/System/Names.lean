import SquadLink.System.Attribution
import SquadLink.System.Strangers

/-! Under which names users are shown. Whoever a client shows has been let in to its room, under the id and the name
    that are shown, even where the list is not up to date. -/

namespace SquadLink

/-- The users that a message introduces. -/
def ServerMsg.introduces : ServerMsg → List PeerInfo
  | .roster peers => peers
  | .peerJoined userId name => [{ userId, name }]
  | _ => []

namespace Engine

/-- What the collected members are called comes from the entries of the Roster. -/
theorem mem_of_rosterMembers (peers : List PeerInfo) (l : HashMap Member) {q n : String}
    (h : ((peers.foldl (fun l p => l.insert p.userId { name := p.name, badge := none, speaking := false }) l).lookup q).map
      (·.name) = some n) : { userId := q, name := n } ∈ peers ∨ (l.lookup q).map (·.name) = some n := by
  induction peers generalizing l with
  | nil => exact .inr h
  | cons p peers ih =>
    rcases ih _ h with hm | hl
    · exact .inl (List.mem_cons_of_mem _ hm)
    · by_cases hq : q = p.userId
      · subst hq
        rw [AList.lookup_insert, Option.map_some, Option.some.injEq] at hl
        exact .inl (hl ▸ List.mem_cons_self)
      · rw [AList.lookup_insert_ne hq] at hl
        exact .inr hl

/-- A name that is shown was shown before, or the message introduces it. -/
theorem hear_source {shown : String → Option String} {msg : ServerMsg} {q n : String} (h : hear shown msg q = some n) :
    shown q = some n ∨ { userId := q, name := n } ∈ msg.introduces := by
  cases msg with
  | roster peers =>
    refine .inr ((mem_of_rosterMembers peers ∅ h).resolve_right fun hl => ?_)
    cases hl
  | peerJoined userId name =>
    by_cases hq : q = userId
    · subst hq
      rw [hear, Function.update_self, Option.some.injEq] at h
      exact .inr (h ▸ List.mem_cons_self)
    · rw [hear, Function.update_of_ne hq] at h
      exact .inl h
  | peerLeft userId =>
    by_cases hq : q = userId
    · subst hq
      rw [hear, Function.update_self] at h
      cases h
    · rw [hear, Function.update_of_ne hq] at h
      exact .inl h
  | _ => exact .inl h

end Engine

namespace Server

section
variable {cfg : ServerConfig} {st : Server} {s dest : SocketId} {k : Conn} {msg : ServerMsg} {p : PeerInfo}

theorem introduces_cleanupSends {me : Option (String × String)} (hm : (dest, msg) ∈ cleanupSends st me) :
    msg.introduces = [] := by
  cases me with
  | none => cases hm
  | some q =>
    obtain ⟨room, userId⟩ := q
    simp only [cleanupSends] at hm
    obtain ⟨_, _, -, -, hx⟩ := Fifo.mem_broadcast.mp hm
    cases hx
    rfl

/-- The members of a room are told of who joins it. -/
theorem introduced_by_join {m : ClientMsg} (hc : st.conns s = some k) (hr : k.phase = .reading)
    (hm : (dest, msg) ∈ frameSends cfg st s k.me (.text m)) (hp : p ∈ msg.introduces) :
    ∃ room token id h, m = .join room p.userId p.name token ∧ Admits cfg st s room p.userId p.name token ∧
      st.handle? room id = some h ∧ h.tx = dest := by
  rcases frame_cases cfg m hc hr with ⟨room, userId, name, token, rfl, admits, sends, -, -⟩ | rfl | ⟨-, -, quiet⟩
  · rw [sends] at hm
    simp only [joinSends, List.mem_append] at hm
    rcases hm with (hm | hm) | hm
    · obtain ⟨_, -, heq⟩ := Option.map_eq_some_iff.mp (Option.mem_toList.mp hm)
      cases heq
      cases hp
    · obtain ⟨id, h, hh, htx, hx⟩ := Fifo.mem_broadcast.mp hm
      split at hx
      · rename_i hne
        cases hx
        cases List.mem_singleton.mp hp
        rw [AList.lookup_insert_ne hne, AList.lookup_erase_ne hne, roomOf_lookup] at hh
        exact ⟨room, token, id, h, rfl, admits, hh, htx⟩
      · cases hx
    · split at hm
      · obtain ⟨_, _, -, -, hx⟩ := Fifo.mem_broadcast.mp hm
        cases hx
        cases hp
      · cases hm
  · rw [introduces_cleanupSends hm] at hp
    cases hp
  · have := quiet _ hm
    cases msg with
    | roster peers => cases this
    | peerJoined userId name => cases this
    | _ => cases hp

end

end Server

namespace Sys

/-- A client with this id and name has been let in to the room. -/
def Registered (cfg : SysConfig) (σ : Sys) (room : String) (p : PeerInfo) : Prop :=
  ∃ c e, σ.engines c = some e ∧ e.cfg.room = room ∧ e.cfg.userId = p.userId ∧ e.cfg.name = p.name ∧ Entitled cfg e.cfg

/-- The names that the server keeps, tells and has told are those of clients that it has let in. -/
structure Named (cfg : SysConfig) (σ : Sys) : Prop where
  handles : ∀ room userId h, σ.server.handle? room userId = some h → Registered cfg σ room { userId, name := h.name }
  heard : ∀ s, ∀ msg ∈ σ.heard s, ∀ p ∈ msg.introduces, ∃ ecfg, σ.cfgOf s = some ecfg ∧ Registered cfg σ ecfg.room p
  members : ∀ c e q n, σ.engines c = some e → e.names q = some n → Registered cfg σ e.cfg.room { userId := q, name := n }

section
variable {cfg : SysConfig} {σ σ' : Sys} {a : Act}

theorem Registered.kept {room : String} {p : PeerInfo} (h : Registered cfg σ room p) (kept : Kept σ σ') :
    Registered cfg σ' room p := by
  obtain ⟨c, e, he, registered⟩ := h
  obtain ⟨e', he', hcfg⟩ := kept.engine c e he
  exact ⟨c, e', he', hcfg ▸ registered⟩

theorem registered_of_cfgOf {s : SocketId} {ecfg : EngineConfig} (h : σ.cfgOf s = some ecfg)
    (entitled : Entitled cfg ecfg) :
    Registered cfg σ ecfg.room { userId := ecfg.userId, name := ecfg.name } := by
  obtain ⟨e, he, rfl⟩ := Option.map_eq_some_iff.mp h
  exact ⟨_, e, he, rfl, rfl, rfl, entitled⟩

theorem WF.opened_of_heard (wf : WF cfg σ) {s : SocketId} {msg : ServerMsg} (hm : msg ∈ σ.heard s) :
    s < σ.server.nextSocket := by
  by_contra hge
  rcases mem_heard.mp hm with hm | ⟨k, hk, -⟩
  · rw [(wf.unopened s (Nat.le_of_not_lt hge)).2] at hm
    cases hm
  · rw [wf.server.fresh s (Nat.le_of_not_lt hge)] at hk
    cases hk

theorem named_handles (wf : WF cfg σ) (enr : Enrolled cfg σ) (named : Named cfg σ) (hs : step cfg σ a = some σ') :
    ∀ room userId h, σ'.server.handle? room userId = some h → Registered cfg σ' room { userId, name := h.name } := by
  have kept := step_kept wf hs
  intro room userId h hh
  rcases step_server hs with ⟨-, heq⟩ | ⟨b, hb, hstep⟩
  · exact (named.handles room userId h (heq ▸ hh)).kept kept
  · obtain ⟨evs, -, change⟩ := Server.step_change (wf.server.fresh _ (Nat.le_refl _)) hstep
    cases change with
    | same handles idents placed => exact (named.handles room userId h (handles room userId ▸ hh)).kept kept
    | admitted s room' joiner name token rest act admits events handles idents placed =>
      rw [handles] at hh
      split at hh
      · rename_i heq
        obtain ⟨rfl, rfl⟩ := heq
        cases hh
        obtain ⟨-, ecfg, hc, hj⟩ := enr.read hs hb act
        cases hj
        exact (registered_of_cfgOf hc admits.2.2.1).kept kept
      · exact (named.handles room userId h hh).kept kept
    | left s room' gone identity act handles idents ended placed =>
      rw [handles] at hh
      split at hh
      · cases hh
      · exact (named.handles room userId h hh).kept kept
    | restarted act handles ended events =>
      rw [handles] at hh
      cases hh

theorem named_heard (wf : WF cfg σ) (enr : Enrolled cfg σ) (named : Named cfg σ) (hs : step cfg σ a = some σ') :
    ∀ s, ∀ msg ∈ σ'.heard s, ∀ p ∈ msg.introduces, ∃ ecfg, σ'.cfgOf s = some ecfg ∧ Registered cfg σ' ecfg.room p := by
  have kept := step_kept wf hs
  intro s msg hm p hp
  rcases heard_step hs hm with old | sent | ⟨room, userId, name, token, rest, rfl, hw, admits, rfl⟩ | ⟨creds, rfl⟩
  · obtain ⟨ecfg, hc, registered⟩ := named.heard s msg old p hp
    exact ⟨ecfg, kept.cfgOf (wf.opened_of_heard old) hc, registered.kept kept⟩
  · rw [Fifo.mem_sentTo] at sent
    cases a with
    | recv t =>
      obtain ⟨m, rest, srv, hw, hstep, rfl⟩ := step_recv_inv hs
      obtain ⟨k, hk, hr, -⟩ := Server.step_frame_inv hstep
      simp only [sends, hw, hk] at sent
      obtain ⟨room, token, id, h, rfl, admits, hh, rfl⟩ := Server.introduced_by_join hk hr sent hp
      -- The one who joins is the client behind the socket that the Join was read from.
      obtain ⟨fcfg, hf, hj⟩ := enr.joins t _ (hw ▸ List.mem_cons_self) rfl
      obtain ⟨rfl, hid, hname, rfl⟩ : room = fcfg.room ∧ p.userId = fcfg.userId ∧ p.name = fcfg.name ∧
          token = fcfg.token := by
        simpa [Engine.joinMsg] using hj
      have ident : σ.server.ident h.tx = some (fcfg.room, id) := wf.server.listed _ _ _ hh
      obtain ⟨ecfg, he, hroom, -⟩ := wf.ident _ _ _ ident
      refine ⟨ecfg, kept.cfgOf (wf.opened_of_ident ident) he, ?_⟩
      have registered : Registered cfg σ _ _ := registered_of_cfgOf hf admits.2.2.1
      rw [← hid, ← hname, ← hroom] at registered
      exact registered.kept kept
    | server b =>
      cases b with
      | close t =>
        simp only [sends] at sent
        split at sent
        · rw [Server.introduces_cleanupSends sent] at hp
          cases hp
        · cases sent
      | _ => cases sent
    | _ => cases sent
  · obtain ⟨ecfg, hc, hj⟩ := enr.joins s _ (hw ▸ List.mem_cons_self) rfl
    obtain ⟨rfl, -⟩ : room = ecfg.room ∧ userId = ecfg.userId ∧ name = ecfg.name ∧ token = ecfg.token := by
      simpa [Engine.joinMsg] using hj
    refine ⟨ecfg, kept.cfgOf (wf.unopened_of_mem (hw ▸ List.mem_cons_self)) hc, ?_⟩
    obtain ⟨x, hx, rfl⟩ := List.mem_map.mp hp
    -- The Roster is taken from the handles of the room.
    have listed : σ.server.handle? ecfg.room x.1 = some x.2 := by
      have : ((σ.server.roomOf ecfg.room).erase userId).lookup x.1 = some x.2 := AList.mem_lookup_iff.mpr hx
      by_cases hne : x.1 = userId
      · rw [hne, AList.lookup_erase] at this
        cases this
      · rwa [AList.lookup_erase_ne hne, Server.roomOf_lookup] at this
    exact (named.handles _ _ _ listed).kept kept
  · cases hp

theorem named_members (wf : WF cfg σ) (named : Named cfg σ) (hs : step cfg σ a = some σ') :
    ∀ c e q n, σ'.engines c = some e →
    e.names q = some n → Registered cfg σ' e.cfg.room { userId := q, name := n } := by
  have kept := step_kept wf hs
  intro c e' q n he' hn
  rcases engines_step hs he' with ⟨e, he⟩ | ⟨ecfg, srv, -, -, -, rfl⟩
  · obtain ⟨e₁, msgs, he₁, turn, -⟩ := engine_step wf hs he
    cases he'.symm.trans he₁
    cases turn with
    | idle => exact (named.members c _ q n he hn).kept kept
    | handle w s msg act cur inbox =>
      rw [Engine.handle_names] at hn
      rw [Engine.handle_cfg]
      rcases Engine.hear_source hn with old | hp
      · exact (named.members c e q n he old).kept kept
      · obtain ⟨ecfg, hc, registered⟩ :=
          named.heard s msg (mem_heard.mpr (.inl (by rw [inbox]; exact List.mem_cons_self))) _ hp
        rw [cfgOf, (wf.cur c e s he cur).2, he, Option.map_some, Option.some.injEq] at hc
        exact hc ▸ registered.kept kept
    | lost act => exact (named.members c e q n he hn).kept kept
    | uplink msg rest act out => exact (named.members c e q n he hn).kept kept
    | reconnect act off => exact (named.members c e q n he hn).kept kept
    | event ev act round =>
      obtain ⟨hcfg, -, -, names, -⟩ := Engine.onEvent_spec round
      rw [names] at hn
      rw [hcfg]
      exact (named.members c e q n he hn).kept kept
  · cases hn

theorem named_reach {ok : Sys → Act → Sys → Prop} (h : Lts.Reach (step cfg) ok empty σ) : Named cfg σ :=
  h.invariant_over (fun _ hr => And.intro (wf_reach hr) (enrolled_reach hr))
    ⟨fun _ _ _ hh => (by cases hh), fun _ _ hm => (by cases hm), fun _ _ _ _ he => (by cases he)⟩
    fun _ _ _ known _ named _ hs =>
      ⟨named_handles known.1 known.2 named hs, named_heard known.1 known.2 named hs, named_members known.1 named hs⟩

/-- Whoever a client shows, at any time, is a user whom the server has let in to the client's room under the name shown. -/
theorem nobody_invented (h : Lts.Reach (step cfg) Lts.anyStep empty σ) {c : ClientId} {e : Engine} {q n : String}
    (he : σ.engines c = some e) (hn : e.names q = some n) : Registered cfg σ e.cfg.room { userId := q, name := n } :=
  (named_reach h).members c e q n he hn

end

theorem nobody_invented_alice : ∃ e, connected.engines 0 = some e ∧
    Registered sampleConfig connected e.cfg.room { userId := "bob", name := "bob" } :=
  ⟨_, rfl, @nobody_invented sampleConfig connected (Lts.Reach.of_exec (fun _ _ _ _ => trivial)
    (show Lts.exec (step sampleConfig) empty connectActs = some connected from rfl)) 0 _ "bob" "bob" rfl rfl⟩

end Sys

end SquadLink

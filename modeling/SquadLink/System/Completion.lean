import SquadLink.Server.Rooms
import SquadLink.System.Formation
import SquadLink.System.Settling

/-! A forming mesh gets finished. Deliveries come to an end, and as long as something is on its way one of them can be made
    without filling a queue; so they end, in whatever order they are made, in a full mesh. -/

namespace SquadLink

namespace Server

section
variable {cfg : ServerConfig} {st : Server} {s : SocketId} {c : Conn} {msg : ClientMsg}

theorem broadcast_length_le (g : String → Option ServerMsg) (r : Room) :
    (Fifo.broadcast PeerHandle.tx g r).length ≤ r.keys.length := by
  rw [Fifo.broadcast, AList.keys, List.keys, List.length_map]
  exact List.length_filterMap_le ..

/-- What a Join sends: each member gets the news of the newcomer and perhaps the warning. -/
theorem joinSends_length_le {r : Room} (within : r.keys.length ≤ hardCap) (userId name : String) :
    (joinSends r s userId name).length ≤ 1 + (hardCap + 1) + (hardCap + 1) := by
  have grown : ((r.erase userId).insert userId { name, tx := s }).keys.length ≤ hardCap + 1 := by
    rw [AList.keys_insert, List.length_cons, AList.keys_erase]
    exact Nat.succ_le_succ ((List.length_erase_le ..).trans ((List.length_erase_le ..).trans within))
  simp only [joinSends, List.length_append]
  generalize (r.erase userId).insert userId { name, tx := s } = r' at grown
  refine Nat.add_le_add (Nat.add_le_add Option.length_toList_le ((broadcast_length_le _ r').trans grown)) ?_
  split
  · exact (broadcast_length_le _ r').trans grown
  · exact Nat.zero_le _

/-- One message makes the server send a few at most. -/
theorem frameSends_few (bounded : st.RoomsBounded) : (frameSends cfg st s c.me (.text msg)).length + 1 < peerChan := by
  have caps : hardCap = 16 ∧ peerChan = 256 := ⟨rfl, rfl⟩
  have told (room : String) (g : String → Option ServerMsg) : (toRoomSends st room g).length ≤ hardCap :=
    (broadcast_length_le g _).trans (roomOf_length_le bounded room)
  have relayed (dest : String) (build : String → ServerMsg) : (relaySends st c.me dest build).length ≤ 1 := by
    unfold relaySends
    split
    · exact Nat.zero_le _
    · exact Option.length_toList_le
  have none : ([] : List (SocketId × ServerMsg)).length + 1 < peerChan := by decide
  have one (p : SocketId × ServerMsg) : [p].length + 1 < peerChan := by rw [List.length_singleton]; decide
  cases msg with
  | join room userId name token =>
    simp only [frameSends, joinReply]
    split
    · exact one _
    · split
      · exact one _
      · split
        · exact one _
        · split
          · exact one _
          · have := joinSends_length_le (s := s) (roomOf_length_le bounded room) userId name
            omega
  | offer dest _ | answer dest _ | ice dest _ =>
    simp only [frameSends]
    split
    · exact none
    · exact (Nat.succ_le_succ (relayed dest _)).trans_lt (by decide)
  | ptt active | rekey =>
    simp only [frameSends]
    split
    · exact none
    · exact (Nat.succ_le_succ (told _ _)).trans_lt (by decide)
  | leave =>
    simp only [frameSends, cleanupSends]
    split
    · exact none
    · refine (Nat.succ_le_succ ((broadcast_length_le _ _).trans ?_)).trans_lt (by decide : hardCap + 1 < peerChan)
      rw [AList.keys_erase]
      exact (List.length_erase_le ..).trans (roomOf_length_le bounded _)

end

end Server

namespace Sys

/-- Within a room no two clients have the same user id. -/
def DistinctUsers (σ : Sys) : Prop :=
  ∀ c d e f, σ.engines c = some e → σ.engines d = some f → e.cfg.room = f.cfg.room → e.cfg.userId = f.cfg.userId → c = d

/-- No request to rotate the keys is on its way to the server. -/
def RekeyFree (σ : Sys) : Prop := ∀ s, .rekey ∉ σ.wire s

/-- Every member of a room is on its socket, holds a PeerConn for every other one and for nobody else, and every two of
    them have been connected by one offer, of the smaller id, and one answer. -/
def FullMesh (σ : Sys) : Prop :=
  ∀ room u hu, σ.server.handle? room u = some hu →
    ∃ e, σ.engines (σ.owner hu.tx) = some e ∧ e.running = true ∧ e.cur = some hu.tx ∧
      (∀ q, (e.mesh.conn? q).isSome ↔ q ≠ u ∧ (σ.server.handle? room q).isSome) ∧
      ∀ v hv, σ.server.handle? room v = some hv → u < v →
        ∃ f, σ.engines (σ.owner hv.tx) = some f ∧ ∃ x y off ans, Connected u v e f x y off ans

/-- A delivery that fills no queue and in which no call of the library fails. -/
def Delivers (cfg : SysConfig) (σ : Sys) (a : Act) (σ' : Sys) : Prop :=
  a.delivers = true ∧ Forming cfg σ (.act a) σ' ∧ (SysEvent.act a).rotates σ = none

/-- What a state has from which the deliveries go on. -/
structure Gathering (cfg : SysConfig) (σ : Sys) : Prop where
  forms : Forms cfg σ
  bounded : σ.server.RoomsBounded
  room : σ.server.NeverFull
  distinct : σ.DistinctUsers
  rekeyFree : σ.RekeyFree
  staying : ∀ s, .leave ∉ σ.wire s

section
variable {cfg : SysConfig} {σ σ' σ₀ : Sys} {a : Act} {ev : SysEvent} {s : SocketId} {msg : ClientMsg}

/-- What a step puts on a wire. -/
theorem said_step (wf : WF cfg σ) (hs : step cfg σ a = some σ') (hm : msg ∈ σ'.wire s) :
    msg ∈ σ.wire s ∨ msg.dest.isSome ∨ msg ≠ .leave ∧ a.delivers = false := by
  have sent {cur : Option SocketId} {msgs : List ClientMsg} (hm : msg ∈ (σ.transmit cur msgs).wire s) : msg ∈ σ.wire s ∨
      msg ∈ msgs := by
    rw [transmit_wire] at hm
    split at hm
    · exact List.mem_append.mp hm
    · exact .inl hm
  have dialed {ecfg : EngineConfig} (hw : σ'.wire = Function.update σ.wire σ.server.nextSocket [Engine.joinMsg ecfg]) :
      msg ∈ σ.wire s ∨ msg = Engine.joinMsg ecfg := by
    rw [hw] at hm
    by_cases hst : s = σ.server.nextSocket
    · rw [hst, Function.update_self, List.mem_singleton] at hm
      exact .inr hm
    · rw [Function.update_of_ne hst] at hm
      exact .inl hm
  cases a with
  | recv t =>
    obtain ⟨m, rest, srv, hw, -, rfl⟩ := step_recv_inv hs
    refine .inl ?_
    by_cases hst : s = t
    · subst hst
      simp only [Function.update_self] at hm
      exact hw ▸ List.mem_cons_of_mem _ hm
    · simp only [Function.update_of_ne hst] at hm
      exact hm
  | write t =>
    obtain ⟨k, m, rest, srv, -, -, -, rfl⟩ := step_write_inv hs
    exact .inl hm
  | server b =>
    obtain ⟨-, srv, -, rfl⟩ := step_server_inv hs
    exact .inl hm
  | start ecfg =>
    obtain ⟨srv, -, rfl⟩ := step_start_inv hs
    rcases dialed rfl with hm | rfl
    · exact .inl hm
    · exact .inr (.inr ⟨nofun, rfl⟩)
  | handle c w =>
    obtain ⟨e, t, m, rest, -, -, -, -, rfl⟩ := step_handle_inv hs
    exact .inl hm
  | lost c =>
    obtain ⟨e, t, -, -, -, -, rfl⟩ := step_lost_inv hs
    exact .inl hm
  | uplink c =>
    obtain ⟨e, m, rest, he, -, hout, rfl⟩ := step_uplink_inv hs
    rcases sent hm with hm | hm
    · exact .inl hm
    · cases List.mem_singleton.mp hm
      exact .inr (.inl (wf.out c e msg he (hout ▸ List.mem_cons_self)))
  | reconnect c =>
    obtain ⟨e, srv, -, -, -, -, rfl⟩ := step_reconnect_inv hs
    rcases dialed rfl with hm | rfl
    · exact .inl hm
    · exact .inr (.inr ⟨nofun, rfl⟩)
  | event c ev =>
    obtain ⟨e, e', msgs, -, -, hev, rfl⟩ := step_event_inv hs
    rcases sent hm with hm | hm
    · exact .inl hm
    · refine .inr (.inr ⟨?_, rfl⟩)
      rcases (Engine.onEvent_spec hev).2.2.2.2.1 msg hm with ⟨on, rfl⟩ | ⟨rfl, -⟩
      · nofun
      · nofun

theorem distinct_step (kept : Kept σ σ') (back : ∀ c e', σ'.engines c = some e' → ∃ e, σ.engines c = some e)
    (distinct : σ.DistinctUsers) : σ'.DistinctUsers := by
  intro c d e' f' he' hf' hroom huser
  obtain ⟨e, he⟩ := back c e' he'
  obtain ⟨f, hf⟩ := back d f' hf'
  obtain ⟨e₁, he₁, hce⟩ := kept.engine c e he
  obtain ⟨f₁, hf₁, hcf⟩ := kept.engine d f hf
  cases he'.symm.trans he₁
  cases hf'.symm.trans hf₁
  exact distinct c d e f he hf (by rw [← hce, ← hcf, hroom]) (by rw [← hce, ← hcf, huser])

theorem gathering_step (gathers : Gathering cfg σ) (hs : step cfg σ a = some σ') (ok : Delivers cfg σ a σ') :
    Gathering cfg σ' := by
  obtain ⟨delivers, forming, -⟩ := ok
  have wf := gathers.forms.wf
  have back (c : ClientId) (e' : Engine) (he' : σ'.engines c = some e') : ∃ e, σ.engines c = some e := by
    rcases engines_step hs he' with old | ⟨ecfg, srv, rfl, -⟩
    · exact old
    · cases delivers
  have said {s : SocketId} {msg : ClientMsg} (hm : msg ∈ σ'.wire s) : msg ∈ σ.wire s ∨ msg.dest.isSome := by
    rcases said_step wf hs hm with old | dest | ⟨-, idle⟩
    · exact .inl old
    · exact .inr dest
    · rw [delivers] at idle
      cases idle
  exact
    { forms := forms_next gathers.forms (show next cfg σ (.act a) = some σ' from hs) forming
      bounded := by
        rcases step_server hs with ⟨-, same⟩ | ⟨b, -, hstep⟩
        · rw [same]
          exact gathers.bounded
        · exact Server.roomsBounded_step gathers.bounded hstep
      room := forming.room
      distinct := distinct_step (step_kept wf hs) back gathers.distinct
      rekeyFree := fun s hm => (said hm).elim (gathers.rekeyFree s) nofun
      staying := fun s hm => (said hm).elim (gathers.staying s) nofun }

/-! ### There is always a delivery that fills no queue -/

/-- A queue that was empty takes a few messages. -/
theorem pushed_few {k : Conn} {msgs : List ServerMsg} (empty : k.queue = []) (few : msgs.length < peerChan) :
    (k.pushAll msgs).queue.length < peerChan := by
  unfold Conn.pushAll
  split
  · obtain ⟨n, h⟩ := Fifo.pushAll_eq_take peerChan k.queue msgs
    dsimp only
    rw [h, empty, List.nil_append]
    exact (List.length_take_le' n msgs).trans_lt few
  · rw [empty]
    decide

/-- A delivery fills no queue if it empties one, or if all are empty. -/
theorem room_step (gathers : Gathering cfg σ) (hs : step cfg σ a = some σ') (delivers : a.delivers = true)
    (calm : (∃ s, a = .write s) ∨ ∀ s k, σ.server.conns s = some k → k.queue = []) : σ'.server.NeverFull := by
  have old : ∀ {t k}, σ.server.conns t = some k → k.queue.length < peerChan := fun {t k} hk =>
    gathers.room t (opened_of_conn gathers.forms.wf hk) k hk
  -- Records that a step leaves alone, or sends a few messages.
  have pushed {srv : Server} (msgs : SocketId → List ServerMsg) (hsrv : σ'.server = srv)
      (empty : ∀ s k, σ.server.conns s = some k → k.queue = []) (few : ∀ t, (msgs t).length < peerChan)
      (hg : ∀ t k', srv.conns t = some k' → ∃ k, σ.server.conns t = some k ∧ k'.queue = (k.pushAll (msgs t)).queue) :
      σ'.server.NeverFull := by
    intro t _ k' hk'
    obtain ⟨k, hk, hq⟩ := hg t k' (hsrv ▸ hk')
    rw [hq]
    exact pushed_few (empty t k hk) (few t)
  cases a with
  | write s =>
    obtain ⟨k₀, m, rest, srv, hk₀, -, hstep, rfl⟩ := step_write_inv hs
    obtain ⟨k₁, hk₁, -, hsrv⟩ := Server.step_write_inv hstep
    intro t _ k' hk'
    rw [show (σ.delivered srv s m).server = srv from rfl, hsrv, Server.modifyConn_conns] at hk'
    split at hk'
    · rename_i hts
      subst hts
      obtain ⟨k, hk, rfl⟩ := Option.map_eq_some_iff.mp hk'
      exact (List.length_tail ▸ Nat.sub_le ..).trans_lt (old hk)
    · exact old hk'
  | recv s =>
    have empty := calm.resolve_left (by rintro ⟨_, ⟨⟩⟩)
    obtain ⟨m, rest, srv, hw, hstep, rfl⟩ := step_recv_inv hs
    obtain ⟨c, hc, hr, hsrv⟩ := Server.step_frame_inv hstep
    refine pushed (fun t => Fifo.sentTo t (Server.frameSends cfg.server σ.server s c.me (.text m))) rfl empty (fun t => ?_)
      fun t k' hk' => ?_
    · exact (List.length_filterMap_le ..).trans_lt (Nat.lt_of_succ_lt (Server.frameSends_few gathers.bounded))
    · rw [hsrv, Server.handleFrame_conns hc hr] at hk'
      obtain ⟨k, hk, rfl⟩ := Option.map_eq_some_iff.mp hk'
      exact ⟨k, hk, by dsimp only; split <;> rfl⟩
  | server b =>
    cases b with
    | finishJoin s now =>
      have empty := calm.resolve_left (by rintro ⟨_, ⟨⟩⟩)
      obtain ⟨-, srv, hstep, rfl⟩ := step_server_inv hs
      obtain ⟨c, room, userId, roster, hc, hp, hsrv⟩ := Server.step_finishJoin_inv hstep
      refine pushed (fun t => Fifo.sentTo t (Server.finishSends cfg.server s now userId roster)) rfl empty (fun t => ?_)
        fun t k' hk' => ?_
      · have two : (Server.finishSends cfg.server s now userId roster).length ≤ 2 :=
          Nat.succ_le_succ Option.length_toList_le
        exact ((List.length_filterMap_le ..).trans two).trans_lt (by decide)
      · rw [hsrv, Server.finishJoin_conns] at hk'
        obtain ⟨k, hk, rfl⟩ := Option.map_eq_some_iff.mp hk'
        exact ⟨k, hk, by dsimp only; split <;> rfl⟩
    | _ => cases delivers
  | handle c w =>
    obtain ⟨e, t, m, rest, -, -, -, -, rfl⟩ := step_handle_inv hs
    exact gathers.room
  | uplink c =>
    obtain ⟨e, m, rest, -, -, -, rfl⟩ := step_uplink_inv hs
    rw [setEngine_server, transmit_server]
    exact gathers.room
  | _ => cases delivers

/-- A Join on its way supersedes nobody. -/
theorem sole_join (gathers : Gathering cfg σ) {s : SocketId} {msg : ClientMsg} (hm : msg ∈ σ.wire s) :
    Server.supersedes cfg.server σ.server (.frame s (.text msg)) = false := by
  have wf := gathers.forms.wf
  cases msg with
  | join room userId name token =>
    by_contra hne
    simp only [Server.supersedes, Bool.not_eq_false, Bool.and_eq_true, Option.isNone_iff_eq_none] at hne
    obtain ⟨⟨⟨unjoined, -⟩, -⟩, listed⟩ := hne
    obtain ⟨hd, hlisted⟩ := Option.isSome_iff_exists.mp listed
    obtain ⟨ecfg, hcfg, hroom, huser⟩ := wf.joins s room userId name token hm
    obtain ⟨e, k, on⟩ := gathers.forms.present.online wf hlisted
    obtain ⟨hroom', huser'⟩ := on.config wf
    obtain ⟨f, hf, rfl⟩ := Option.map_eq_some_iff.mp hcfg
    have owner := gathers.distinct _ _ e f on.engine hf (hroom'.trans hroom.symm) (huser'.trans huser.symm)
    have cur := gathers.forms.present.attached s f (wf.unopened_of_mem hm) hf
    have same : e = f := Option.some.inj (on.engine.symm.trans (owner ▸ hf))
    have socket : hd.tx = s := Option.some.inj (on.cur.symm.trans (same ▸ cur))
    rw [← socket, on.ident wf] at unjoined
    cases unjoined
  | _ => rfl

theorem delivers_of (gathers : Gathering cfg σ) (hs : step cfg σ a = some σ') (delivers : a.delivers = true)
    (easy : ∀ p ∈ (SysEvent.act a).handler, p.2.AllOk) (room : σ'.server.NeverFull) : Delivers cfg σ a σ' := by
  have quiet
      (serverPart : ∀ b ∈ σ.serverAct a, Server.supersedes cfg.server σ.server b = false ∧ σ.server.departs b = false)
      (parts : (SysEvent.act a).parts = false) (reports : (SysEvent.act a).reports = [])
      (rotates : (SysEvent.act a).rotates σ = none) : Delivers cfg σ a σ' := by
    refine ⟨delivers, ⟨room, fun b hb => (serverPart b hb).1, fun b hb => (serverPart b hb).2, parts, easy,
      fun _ _ _ _ _ h => ?_⟩, rotates⟩
    rw [reports] at h
    cases h
  cases a with
  | recv s =>
    obtain ⟨msg, rest, srv, hw, -, -⟩ := step_recv_inv hs
    have mem : msg ∈ σ.wire s := hw ▸ List.mem_cons_self
    have part : σ.serverAct (.recv s) = some (.frame s (.text msg)) := by simp [serverAct, hw]
    refine quiet (fun b hb => ?_) rfl rfl ?_
    · rw [part] at hb
      cases hb
      refine ⟨sole_join gathers mem, ?_⟩
      cases msg with
      | leave => exact absurd mem (gathers.staying s)
      | _ => rfl
    · dsimp only [SysEvent.rotates, serverPart]
      rw [part]
      cases msg with
      | rekey => exact absurd mem (gathers.rekeyFree s)
      | _ => rfl
  | write s =>
    refine quiet (fun b hb => ?_) rfl rfl rfl
    cases hb
    exact ⟨rfl, rfl⟩
  | server b =>
    cases b with
    | finishJoin s now =>
      refine quiet (fun b hb => ?_) rfl rfl rfl
      cases hb
      exact ⟨rfl, rfl⟩
    | _ => cases delivers
  | handle c w => exact quiet (fun b hb => by cases hb) rfl rfl rfl
  | uplink c => exact quiet (fun b hb => by cases hb) rfl rfl rfl
  | _ => cases delivers

/-- Nobody who is listed goes. -/
theorem listed_kept (wf : WF cfg σ) (hs : step cfg σ a = some σ') (forming : Forming cfg σ (.act a) σ') {room u : String}
    {hu : PeerHandle} (listed : σ.server.handle? room u = some hu) : σ'.server.handle? room u = some hu := by
  rcases step_server hs with ⟨-, same⟩ | ⟨b, hb, hstep⟩
  · rw [same]
    exact listed
  · obtain ⟨evs, -, change⟩ := Server.step_change (wf.server.fresh _ (Nat.le_refl _)) hstep
    cases change with
    | same handles idents placed => rw [handles, listed]
    | admitted s room' userId' name token rest act admits events handles idents placed =>
      have vacant : σ.server.handle? room' userId' = none := by
        have sole := forming.sole b hb
        obtain ⟨⟨c, hc, hr, hme⟩, bounds, checks, -⟩ := admits
        rw [act] at sole
        simpa [Server.supersedes, Server.ident_of_reading hc hr, hme, bounds, checks] using sole
      rw [handles, if_neg fun heq => ?_, listed]
      rw [← heq.1, ← heq.2, listed] at vacant
      cases vacant
    | left s room' userId' identity act handles idents ended placed =>
      have departs : σ.server.departs b = true := by
        rcases act with rfl | rfl | rfl <;> simp [Server.departs, SAct.ends, identity]
      rw [forming.stay b hb] at departs
      cases departs
    | restarted act handles ended events =>
      have stay := forming.stay b hb
      rw [act] at stay
      cases stay

/-- As long as something is on its way, one of the deliveries is such a one. -/
theorem delivers_or_settled (gathers : Gathering cfg σ) (rest : ∀ a σ', Delivers cfg σ a σ' → step cfg σ a ≠ some σ') :
    σ.Settled := by
  -- What waits in a queue can be sent.
  have emptied (s : SocketId) (k : Conn) (hk : σ.server.conns s = some k) : k.queue = [] := by
    cases hq : k.queue with
    | nil => rfl
    | cons msg msgs =>
      have enabled : (step cfg σ (.write s)).isSome := by simp [step, hk, hq, Server.step]
      obtain ⟨σ', hs⟩ := Option.isSome_iff_exists.mp enabled
      exact absurd hs
        (rest _ σ' (delivers_of gathers hs rfl (fun p hp => by cases hp) (room_step gathers hs rfl (.inl ⟨s, rfl⟩))))
  have stuck (a : Act) (delivers : a.delivers = true) (easy : ∀ p ∈ (SysEvent.act a).handler, p.2.AllOk) :
      step cfg σ a = none := by
    refine Option.eq_none_iff_forall_not_mem.mpr fun σ' hs => ?_
    exact rest a σ' (delivers_of gathers hs delivers easy (room_step gathers hs delivers (.inr emptied))) hs
  refine @settled_of_stuck cfg σ fun a delivers => ?_
  cases a with
  | handle c w =>
    -- Whether a message can be handled does not depend on the calls.
    refine Option.eq_none_iff_forall_not_mem.mpr fun σ' hs => ?_
    obtain ⟨e, s, msg, msgs, he, hr, hcur, hin, -⟩ := step_handle_inv hs
    have none := stuck (.handle c noFailure) rfl fun p hp => by cases hp; exact fun _ _ => rfl
    simp [step, running?, he, hr, hcur, hin, Option.filter] at none
  | _ => exact stuck _ delivers fun p hp => by cases hp

/-! ### What is settled is a full mesh -/

variable {room userId u v : String} {h hu hv : PeerHandle} {e f : Engine} {k l : Conn}

/-- Where nothing can be delivered any more a member has nothing to hear and nothing to say. -/
theorem Settled.silent (settled : σ.Settled) (wf : WF cfg σ) (on : Online σ room userId h e k) :
    σ.heard h.tx = [] ∧ ∀ q, σ.unsaid h.tx e q = [] := by
  have reading : k.phase = .reading := by
    rcases on.phase wf with ⟨reading, -⟩ | ⟨roster, joining⟩
    · exact reading
    · have := settled.joined h.tx k on.conn
      rw [Conn.pending, joining] at this
      cases this
  refine ⟨?_, fun q => ?_⟩
  · rw [heard_of_conn on.conn, settled.handled _ e h.tx on.engine on.running on.cur, settled.written h.tx k on.conn,
      settled.joined h.tx k on.conn]
    rfl
  · rw [unsaid, settled.read h.tx k on.conn reading, settled.said _ e on.engine on.running]
    rfl

theorem Settled.quiet (settled : σ.Settled) (wf : WF cfg σ) (U : Online σ room u hu e k) (V : Online σ room v hv f l) :
    (σ.pair u v hu.tx hv.tx e f).Quiet := by
  obtain ⟨heardU, unsaidU⟩ := settled.silent wf U
  obtain ⟨heardV, unsaidV⟩ := settled.silent wf V
  refine ⟨?_, ?_, ?_⟩
  · simp [pair, lane, heardV, unsaidU]
  · simp [pair, lane, heardU, unsaidV]
  · simp [pair, heardU]

theorem fullMesh_of_settled (fits : Fits cfg.rtc)
    (h : Lts.Reach (next cfg) (fun σ ev σ' => Forming cfg σ ev σ' ∧ ev.rotates σ = none) empty σ) (settled : σ.Settled) :
    σ.FullMesh := by
  intro room u hu listed
  have forms : Forms cfg σ := forms_reach forms_empty (h.mono fun _ _ _ ok => ok.1)
  have connected {u v hu hv e k f l} (hlt : u < v) (U : Online σ room u hu e k) (V : Online σ room v hv f l) :
      ∃ x y off ans, Connected u v e f x y off ans := by
    obtain ⟨d, stage⟩ := (formation_reach fits h).2 room u v hu hv e k f l hlt U V
    obtain ⟨x, y, off, ans, here, there, -, matched, offered, answered⟩ := stage.matched (settled.quiet forms.wf U V)
    exact ⟨x, y, off, ans, here, there, matched, offered, answered⟩
  obtain ⟨e, k, U⟩ := forms.present.online forms.wf listed
  refine ⟨e, U.engine, U.running, U.cur, fun q => ⟨fun hq => ?_, fun ⟨hne, hq⟩ => ?_⟩, fun v hv listed' hlt => ?_⟩
  · -- A PeerConn is for a listed member.
    by_contra hother
    have unknown : q = u ∨ σ.server.handle? room q = none := by
      rwa [not_and_or, not_not, Option.not_isSome_iff_eq_none] at hother
    have none : e.mesh.conn? q = none := congrArg Side.conn (forms.known.unlisted room u hu e k U q unknown).apart.side
    rw [none] at hq
    cases hq
  · -- The one with the smaller id is connected with the other one.
    obtain ⟨hv, listed'⟩ := Option.isSome_iff_exists.mp hq
    obtain ⟨f, l, V⟩ := forms.present.online forms.wf listed'
    by_cases hlt : q < u
    · obtain ⟨x, y, off, ans, conn⟩ := connected hlt V U
      rw [conn.there]
      rfl
    · have hgt : u < q := String.not_le.mp fun hle => hne (String.le_antisymm hle (String.not_lt.mp hlt))
      obtain ⟨x, y, off, ans, conn⟩ := connected hgt U V
      rw [conn.here]
      rfl
  · obtain ⟨f, l, V⟩ := forms.present.online forms.wf listed'
    exact ⟨f, V.engine, connected hlt U V⟩

theorem race_same {c : ClientId} {w : Outcomes} {said : List ClientMsg} (hs : next cfg σ (.race c w said) = some σ') :
    σ'.server = σ.server ∧ σ'.wire = σ.wire := by
  obtain ⟨e, -, hs⟩ := Option.bind_eq_some_iff.mp hs
  obtain ⟨σ₁, hs₁, hs⟩ := Option.bind_eq_some_iff.mp hs
  obtain ⟨e₀, s, msg, rest, -, -, -, -, rfl⟩ := step_handle_inv hs₁
  obtain ⟨e₁, -, hs⟩ := Option.bind_eq_some_iff.mp hs
  obtain ⟨-, hs⟩ := Option.ite_none_right_eq_some.mp hs
  cases hs
  exact ⟨rfl, rfl⟩

theorem gathering_reach (h : Lts.Reach (next cfg) (fun σ ev σ' => Forming cfg σ ev σ' ∧ ev.rotates σ = none) empty σ)
    (distinct : σ.DistinctUsers) (rekeyFree : σ.RekeyFree) : Gathering cfg σ := by
  have forms (τ : Sys)
      (hτ : Lts.Reach (next cfg) (fun σ ev σ' => Forming cfg σ ev σ' ∧ ev.rotates σ = none) empty τ) : Forms cfg τ :=
    forms_reach forms_empty (hτ.mono fun _ _ _ ok => ok.1)
  have kept : σ.server.RoomsBounded ∧ σ.server.NeverFull ∧ ∀ s, .leave ∉ σ.wire s := by
    refine h.invariant_over (P := fun σ => σ.server.RoomsBounded ∧ σ.server.NeverFull ∧ ∀ s, .leave ∉ σ.wire s) forms ?_ ?_
    · exact ⟨(fun _ _ hr => by cases hr), fun s hs => absurd hs (Nat.not_lt_zero s), fun s hm => by cases hm⟩
    · rintro τ ev τ' forms - ⟨bounded, room, staying⟩ ⟨forming, -⟩ hs
      cases ev with
      | race c w said =>
        obtain ⟨server, wire⟩ := race_same hs
        rw [server, wire]
        exact ⟨bounded, room, staying⟩
      | act a =>
        have hs : step cfg τ a = some τ' := hs
        refine ⟨?_, forming.room, fun s hm => ?_⟩
        · rcases step_server hs with ⟨-, same⟩ | ⟨b, -, hstep⟩
          · rw [same]
            exact bounded
          · exact Server.roomsBounded_step bounded hstep
        · rcases said_step forms.wf hs hm with old | dest | ⟨other, -⟩
          · exact staying s old
          · cases dest
          · exact other rfl
  exact ⟨forms σ h, kept.1, kept.2.1, distinct, rekeyFree, kept.2.2⟩

/-- A mesh that forms gets finished. From wherever its formation has come to, the deliveries that fill no queue do not go on
    for ever, and when there is none left, in whatever order they were made, everybody who was listed still is and the
    members of every room are a full mesh. -/
theorem mesh_completes (fits : Fits cfg.rtc)
    (h : Lts.Reach (next cfg) (fun σ ev σ' => Forming cfg σ ev σ' ∧ ev.rotates σ = none) empty σ)
    (distinct : σ.DistinctUsers) (rekeyFree : σ.RekeyFree) :
    (∀ f : ℕ → Sys, f 0 = σ → ¬ ∀ n, ∃ a, Delivers cfg (f n) a (f (n + 1)) ∧ step cfg (f n) a = some (f (n + 1))) ∧
      ∀ τ, Lts.Reach (step cfg) (Delivers cfg) σ τ → (∀ a τ', Delivers cfg τ a τ' → step cfg τ a ≠ some τ') →
        τ.FullMesh ∧ ∀ room u hu, σ.server.handle? room u = some hu → τ.server.handle? room u = some hu := by
  have gathers : Gathering cfg σ := gathering_reach h distinct rekeyFree
  have spends (τ τ' : Sys) (gathers : Gathering cfg τ) (goes : Settling.Goes (step cfg) (Delivers cfg) τ τ') :
      Gathering cfg τ' ∧ Settling.Spends (· < ·) τ'.left τ.left := by
    obtain ⟨a, ok, hs⟩ := goes
    exact ⟨gathering_step gathers hs ok, spends_step gathers.forms.wf hs ok.1⟩
  refine ⟨fun f start => Settling.no_endless_run Nat.lt_wfRel.wf spends gathers f start, fun τ reach rest => ⟨?_, ?_⟩⟩
  · have gathers' : Gathering cfg τ := reach.invariant gathers fun _ _ _ gathers ok hs => gathering_step gathers hs ok
    have run : Lts.Reach (next cfg) (fun σ ev σ' => Forming cfg σ ev σ' ∧ ev.rotates σ = none) σ τ := by
      refine Lts.Reach.relabel .act ?_
      exact reach.mono fun _ _ _ ok => ok.2
    exact fullMesh_of_settled fits (h.trans run) (delivers_or_settled gathers' rest)
  · intro room u hu listed
    have kept : Gathering cfg τ ∧ τ.server.handle? room u = some hu :=
      reach.invariant (P := fun τ => Gathering cfg τ ∧ τ.server.handle? room u = some hu) ⟨gathers, listed⟩
        fun _ _ _ known ok hs => ⟨gathering_step known.1 hs ok, listed_kept known.1.forms.wf hs ok.2.1 known.2⟩
    exact kept.2

end

/-! Two clients that have joined, with everything else still to come. -/

def bothJoined : Sys :=
  (Lts.exec (next sampleConfig) empty ((startActs "alice" 0 ++ startActs "bob" 1).map .act)).getD empty

theorem mesh_completes_two_users : (bothJoined.server.handle? "r" "alice").isSome ∧
    (∀ f : ℕ → Sys, f 0 = bothJoined →
      ¬ ∀ n, ∃ a, Delivers sampleConfig (f n) a (f (n + 1)) ∧ step sampleConfig (f n) a = some (f (n + 1))) ∧
    ∀ τ, Lts.Reach (step sampleConfig) (Delivers sampleConfig) bothJoined τ →
      (∀ a τ', Delivers sampleConfig τ a τ' → step sampleConfig τ a ≠ some τ') →
        τ.FullMesh ∧ ∀ room u hu, bothJoined.server.handle? room u = some hu → τ.server.handle? room u = some hu := by
  have reach : Lts.Reach (next sampleConfig) (fun σ ev σ' => Forming sampleConfig σ ev σ' ∧
      ev.rotates σ = none) empty bothJoined := by
    refine (reach_of_formingTest (fun σ ev _ => decide (ev.rotates σ = none)) (show Lts.execOk _ _ empty
      ((startActs "alice" 0 ++ startActs "bob" 1).map .act) = some bothJoined from rfl)).mono ?_
    exact fun _ _ _ ok => ⟨ok.1, of_decide_eq_true ok.2⟩
  have engine (c : ClientId) (e : Engine) (he : bothJoined.engines c = some e) :
      c = 0 ∧ e.cfg = sampleUser "alice" ∨ c = 1 ∧ e.cfg = sampleUser "bob" := by
    match c with
    | 0 => cases he; exact .inl ⟨rfl, rfl⟩
    | 1 => cases he; exact .inr ⟨rfl, rfl⟩
    | c + 2 => cases he
  refine ⟨rfl, mesh_completes sampleFits reach (fun c d e f he hf _ hu => ?_) fun s hm => ?_⟩
  · rcases engine c e he with ⟨rfl, hc⟩ | ⟨rfl, hc⟩ <;> rcases engine d f hf with ⟨rfl, hd⟩ | ⟨rfl, hd⟩
    · rfl
    · rw [hc, hd] at hu
      exact absurd hu (by decide)
    · rw [hc, hd] at hu
      exact absurd hu (by decide)
    · rfl
  · match s with
    | 0 => cases hm
    | 1 => cases hm
    | s + 2 => cases hm

end Sys

end SquadLink

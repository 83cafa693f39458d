import SquadLink.Server.Supersession
import SquadLink.System.Online
import SquadLink.System.Participants

/-! The members that a client shows. What it has still to hear, replayed on what it shows now, gives the
    other users of its room, unless the room changed while the client's Roster was captured but not sent. -/

namespace SquadLink

namespace Engine

/-- What a message makes of the members shown. -/
def hear (shown : String → Option String) : ServerMsg → String → Option String
  | .roster peers => fun q => ((rosterMembers peers).lookup q).map (·.name)
  | .peerJoined userId name => Function.update shown userId (some name)
  | .peerLeft userId => Function.update shown userId none
  | _ => shown

section
variable {rtc : Webrtc} {w : Outcomes} {e : Engine}

theorem handle_names (msg : ServerMsg) : (e.handle rtc w msg).names = hear e.names msg := by
  cases msg with
  | roster peers => rfl
  | peerJoined userId name =>
    funext q
    by_cases hq : q = userId
    · subst hq; simp [handle, hear, names, emitRoster]
    · simp [handle, hear, names, emitRoster, hq, AList.lookup_insert_ne hq]
  | peerLeft userId =>
    funext q
    by_cases hq : q = userId
    · subst hq; simp [handle, hear, names, emitRoster]
    · simp [handle, hear, names, emitRoster, hq, AList.lookup_erase_ne hq]
  | ptt userId active => exact e.modifyMember_names userId _ fun _ => rfl
  | turn creds => simp only [handle]; split <;> rfl
  | _ => rfl

theorem hear_of_not_membership {msg : ServerMsg} (h : msg.membership = false) (shown : String → Option String) :
    hear shown msg = shown := by
  cases msg <;> first | rfl | cases h

theorem foldl_hear_of_not_membership {msgs : List ServerMsg} (h : ∀ msg ∈ msgs, msg.membership = false)
    (shown : String → Option String) : msgs.foldl hear shown = shown := by
  induction msgs with
  | nil => rfl
  | cons msg msgs ih =>
    rw [List.foldl_cons, hear_of_not_membership (h msg List.mem_cons_self)]
    exact ih fun m hm => h m (List.mem_cons_of_mem _ hm)

end

/-- The members collected from the entries of a room are the room's users with their names. -/
theorem lookup_rosterMembers_entries (r : Room) (q : String) :
    ((rosterMembers (r.entries.map fun x => { userId := x.1, name := x.2.name })).lookup q).map (·.name) =
      (r.lookup q).map (·.name) := by
  have fold : ∀ (l : List (Sigma fun _ : String => PeerHandle)) (m : HashMap Member), l.NodupKeys →
      (((l.map fun x => ({ userId := x.1, name := x.2.name } : PeerInfo)).foldl
        (fun l p => l.insert p.userId { name := p.name, badge := none, speaking := false }) m).lookup q).map (·.name) =
      ((l.dlookup q).map (·.name)).or ((m.lookup q).map (·.name)) := by
    intro l
    induction l with
    | nil => intro m _; simp
    | cons x l ih =>
      intro m hnd
      obtain ⟨id, b⟩ := x
      rw [List.nodupKeys_cons] at hnd
      rw [List.map_cons, List.foldl_cons, ih _ hnd.2]
      by_cases hq : q = id
      · subst hq
        have hnone : l.dlookup q = none := List.dlookup_eq_none.mpr hnd.1
        simp [hnone]
      · rw [AList.lookup_insert_ne hq, List.dlookup_cons_ne _ _ hq]
  have := fold r.entries ∅ r.nodupKeys
  rw [rosterMembers, this]
  simp [AList.lookup]

end Engine

namespace Server

/-- The users of a room other than one of them, with their names. -/
def others (st : Server) (room userId q : String) : Option String :=
  if q = userId then none else (st.handle? room q).map (·.name)

theorem hear_rosterOf (st : Server) (room userId : String) (shown : String → Option String) :
    Engine.hear shown (.roster (rosterOf (st.roomOf room) userId)) = st.others room userId := by
  funext q
  simp only [Engine.hear, rosterOf, others]
  rw [Engine.lookup_rosterMembers_entries]
  split
  · subst q; simp
  · rename_i hq
    rw [AList.lookup_erase_ne hq, roomOf_lookup]

/-- The socket whose accepted Join or end the action is, with the room that this changes. -/
def alters (cfg : ServerConfig) (st : Server) (a : SAct) : Option (SocketId × String) :=
  match st.admitted cfg a with
  | some (s, room, _) => some (s, room)
  | none => a.ends.bind fun s => (st.ident s).map fun p => (s, p.1)

/-- A room that a step does not alter keeps its handles, unless the server restarts. -/
theorem handle?_of_unaltered {cfg : ServerConfig} {st st' : Server} {a : SAct} (inv : Inv cfg st)
    (hs : step cfg st a = some st')
    {room userId : String} {h : PeerHandle} (listed' : st'.handle? room userId = some h)
    (far : ∀ p ∈ st.alters cfg a, p.2 ≠ room) (q : String) : st'.handle? room q = st.handle? room q := by
  obtain ⟨evs, -, change⟩ := step_change (inv.fresh _ (Nat.le_refl _)) hs
  cases change with
  | same handles idents placed => exact handles room q
  | admitted s room' joiner name token rest act admits events handles idents placed =>
    have hne : room' ≠ room := far (s, room') (by rw [act]; simp [alters, admits.admitted])
    rw [handles, if_neg fun he => hne he.1.symm]
  | left s room' gone identity act handles idents ended placed =>
    have hne : room' ≠ room := far (s, room') (by
      rcases act with rfl | rfl | rfl <;> simp [alters, admitted, SAct.ends, identity])
    rw [handles, if_neg fun he => hne he.1.symm]
  | restarted act handles ended events => rw [handles] at listed'; cases listed'

theorem alters_reading {cfg : ServerConfig} {st st' : Server} {a : SAct} (hs : step cfg st a = some st')
    {p : SocketId × String} (hp : p ∈ st.alters cfg a) : ∃ c, st.conns p.1 = some c ∧ c.phase = .reading := by
  have ended : ∀ s, a.ends = some s → ∃ c, st.conns s = some c ∧ c.phase = .reading := by
    intro s he
    cases a with
    | close t =>
      cases he
      obtain ⟨c, hc, hr, -⟩ := step_close_inv hs
      exact ⟨c, hc, hr⟩
    | frame t f =>
      obtain ⟨c, hc, hr, -⟩ := step_frame_inv hs
      have : t = s := by
        unfold SAct.ends at he
        split at he <;> simp_all
      exact this ▸ ⟨c, hc, hr⟩
    | _ => cases he
  unfold alters at hp
  split at hp
  · rename_i s room rest h
    obtain ⟨userId, name⟩ := rest
    obtain ⟨token, -, ⟨c, hc, hr, -⟩, -⟩ := admitted_cases hs h
    cases hp
    exact ⟨c, hc, hr⟩
  · obtain ⟨s, he, hp⟩ := Option.bind_eq_some_iff.mp hp
    obtain ⟨_, -, rfl⟩ := Option.map_eq_some_iff.mp hp
    exact ended s he

end Server

/-- The connection's task has left a Join's critical section in the room and not sent the Roster yet. -/
def Conn.joins (room : String) (k : Conn) : Bool :=
  match k.phase with
  | .joining room' _ _ => room' == room
  | _ => false

/-- The action changes no room in which another socket's Roster is captured but not sent. -/
def Server.Undisturbed (cfg : ServerConfig) (st : Server) (a : SAct) : Prop :=
  ∀ p ∈ st.alters cfg a, ∀ t, t < st.nextSocket → t ≠ p.1 → ∀ k ∈ st.conns t, k.joins p.2 = false

instance (cfg : ServerConfig) (st : Server) (a : SAct) : Decidable (st.Undisturbed cfg a) := by
  unfold Server.Undisturbed
  infer_instance

namespace Sys

/-- A run without full queues and superseding Joins. -/
def Orderly (cfg : SysConfig) (σ : Sys) (a : Act) (σ' : Sys) : Prop :=
  σ'.server.NeverFull ∧ ∀ b ∈ σ.serverAct a, σ.server.supersedes cfg.server b = false

/-- No room changes between the capture and the sending of a Roster. -/
def RostersUndisturbed (cfg : SysConfig) (σ : Sys) (a : Act) : Prop :=
  ∀ b ∈ σ.serverAct a, σ.server.Undisturbed cfg.server b

instance (cfg : SysConfig) (σ : Sys) (a : Act) (σ' : Sys) : Decidable (Orderly cfg σ a σ') := by
  unfold Orderly
  infer_instance

instance (cfg : SysConfig) (σ : Sys) (a : Act) : Decidable (RostersUndisturbed cfg σ a) := by
  unfold RostersUndisturbed
  infer_instance

/-- What an online client has still to hear makes it show the others of its room. -/
def Informed (σ : Sys) : Prop :=
  ∀ room userId h e k, Online σ room userId h e k →
    (σ.downstream h.tx k ++ k.pending).foldl Engine.hear e.names = σ.server.others room userId

section
variable {cfg : SysConfig} {σ σ' : Sys} {a : Act}

theorem others_cleanup {st : Server} {s : SocketId} {room userId gone room' : String} (shown : String → Option String)
    (inf : shown = st.others room userId) (hne : ¬ (room' = room ∧ userId = gone)) :
    (if room' = room ∧ userId ≠ gone then [ServerMsg.peerLeft gone] else []).foldl Engine.hear shown =
      (st.cleanup s (some (room', gone))).others room userId := by
  funext q
  simp only [Server.others, Server.cleanup_handle?, Option.some.injEq, Prod.mk.injEq]
  by_cases hroom : room' = room
  · subst hroom
    have hu : userId ≠ gone := fun h => hne ⟨rfl, h⟩
    simp only [ne_eq, hu, not_false_eq_true, and_self, ↓reduceIte, List.foldl_cons, List.foldl_nil, Engine.hear, inf]
    by_cases hq : q = gone
    · subst hq
      simp [Ne.symm hu]
    · simp [Server.others, hq, Ne.symm hq]
  · simp [hroom, inf, Server.others]

/-- How the members of a room change in a step, and what its sockets are told of it. -/
theorem others_step (wf : WF cfg σ) (hs : step cfg σ a = some σ') (orderly : Orderly cfg σ a σ')
    {room userId : String} {h : PeerHandle} (listed : σ.server.handle? room userId = some h)
    (listed' : σ'.server.handle? room userId = some h) (shown : String → Option String)
    (inf : shown = σ.server.others room userId) :
    (Fifo.sentTo h.tx (σ.sends cfg a)).foldl Engine.hear shown = σ'.server.others room userId := by
  have hident := wf.server.listed _ _ _ listed
  -- A step whose handles are the same and whose messages are about no membership.
  have unchanged : (∀ r u, σ'.server.handle? r u = σ.server.handle? r u) →
      (∀ p ∈ σ.sends cfg a, p.2.membership = false) →
      (Fifo.sentTo h.tx (σ.sends cfg a)).foldl Engine.hear shown = σ'.server.others room userId := by
    intro handles quiet
    rw [Engine.foldl_hear_of_not_membership fun msg hm => quiet _ (Fifo.mem_sentTo.mp hm), inf]
    funext q
    simp only [Server.others, handles]
  -- The end of a reader loop.
  have left : ∀ {s c}, σ.server.conns s = some c → c.phase = .reading → σ'.server = σ.server.cleanup s c.me →
      σ.sends cfg a = Server.cleanupSends σ.server c.me →
      (Fifo.sentTo h.tx (σ.sends cfg a)).foldl Engine.hear shown = σ'.server.others room userId := by
    intro s c hc hr hsrv hsends
    rcases hme : c.me with _ | ⟨room', gone⟩
    · refine unchanged (fun r u => ?_) ?_
      · rw [hsrv, hme, Server.cleanup_handle?]
        simp
      · rw [hsends, hme]
        simp [Server.cleanupSends]
    · have hne : ¬ (room' = room ∧ userId = gone) := by
        rintro ⟨rfl, rfl⟩
        rw [hsrv, hme, Server.cleanup_handle?, if_pos rfl] at listed'
        cases listed'
      rw [hsends, hme, Server.sentTo_cleanupSends wf.server listed, hsrv, hme]
      exact others_cleanup shown inf hne
  rcases step_server hs with ⟨hnone, heq⟩ | ⟨b, hb, hstep⟩
  · refine unchanged (fun r u => by rw [heq]) ?_
    cases a with
    | recv s =>
      have hw : σ.wire s = [] := by simpa [serverAct] using hnone
      simp [sends, hw]
    | server b => cases hnone
    | _ => simp [sends]
  · cases a with
    | recv s =>
      obtain ⟨msg, hw, rfl⟩ := Option.map_eq_some_iff.mp hb
      obtain ⟨rest, hw⟩ := List.head?_eq_some_iff.mp hw
      obtain ⟨c, hc, hr, hsrv⟩ := Server.step_frame_inv hstep
      have hsends : σ.sends cfg (.recv s) = Server.frameSends cfg.server σ.server s c.me (.text msg) := by
        simp [sends, hw, hc]
      rcases Server.frame_cases cfg.server msg hc hr with
        ⟨room', joiner, name, token, rfl, admits, hjoin, -, henroll⟩ | rfl | ⟨handles, -, quiet⟩
      · obtain ⟨⟨c', hc', -, hnone⟩, hbounds, hauth, -⟩ := admits
        cases hc.symm.trans hc'
        have hidle : σ.server.ident s = none := (Server.ident_of_reading hc hr).trans hnone
        have vacant : σ.server.handle? room' joiner = none := by
          have := orderly.2 _ hb
          simpa [Server.supersedes, hidle, hbounds, hauth] using this
        have hst : s ≠ h.tx := fun he => by rw [he, hident] at hidle; cases hidle
        rw [hsends, hjoin, Server.sentTo_joinSends wf.server listed hst, hsrv, henroll]
        funext q
        simp only [Server.others, Server.enroll_handle?]
        by_cases hroom : room' = room
        · subst hroom
          have hu : userId ≠ joiner := fun he => by
            rw [he, vacant] at listed
            cases listed
          simp only [↓reduceIte, hu, List.foldl_cons]
          rw [Engine.foldl_hear_of_not_membership]
          · simp only [Engine.hear, inf]
            by_cases hq : q = joiner
            · subst hq
              simp [Ne.symm hu]
            · simp [Server.others, hq]
          · intro msg hm
            unfold Server.warning at hm
            split at hm
            · rw [List.mem_singleton.mp hm]; rfl
            · cases hm
        · simp [hroom, Ne.symm hroom, inf, Server.others]
      · exact left hc hr hsrv hsends
      · exact unchanged (fun r u => by rw [hsrv]; exact handles r u) (by rw [hsends]; exact quiet)
    | server b =>
      cases Option.some.inj hb
      by_cases hclose : ∃ s, b = .close s
      · obtain ⟨s, rfl⟩ := hclose
        obtain ⟨c, hc, hr, hsrv⟩ := Server.step_close_inv hstep
        exact left hc hr hsrv (by simp [sends, hc])
      · obtain ⟨hi, -⟩ := step_server_inv hs
        refine unchanged (fun r u => ?_) ?_
        · obtain ⟨evs, -, change⟩ := Server.step_change (wf.server.fresh _ (Nat.le_refl _)) hstep
          cases change with
          | same handles idents placed => exact handles r u
          | admitted s room' userId' name token rest act admits events handles idents placed => subst act; cases hi
          | left s room' userId' identity act handles idents ended placed =>
            rcases act with rfl | rfl | rfl
            · exact absurd ⟨s, rfl⟩ hclose
            · cases hi
            · cases hi
          | restarted act handles ended events => rw [handles] at listed'; cases listed'
        · cases b <;> first | (simp [sends]; done) | exact absurd ⟨_, rfl⟩ hclose
    | write _ | start _ | reconnect _ =>
      refine unchanged (fun r u => ?_) (by simp [sends])
      cases Option.some.inj hb
      obtain ⟨evs, -, change⟩ := Server.step_change (wf.server.fresh _ (Nat.le_refl _)) hstep
      cases change with
      | same handles idents placed => exact handles r u
      | admitted s room' userId' name token rest act admits events handles idents placed => cases act
      | left s room' userId' identity act handles idents ended placed => rcases act with act | act | act <;> cases act
      | restarted act handles ended events => cases act
    | _ => cases hb

theorem informed_step (wf : WF cfg σ) (hs : step cfg σ a = some σ') (orderly : Orderly cfg σ a σ')
    (calm : RostersUndisturbed cfg σ a) (inf : Informed σ) : Informed σ' := by
  intro room userId h e' k' on'
  rcases listed_cases wf hs on'.listed with listed | ⟨name, token, rest, rfl, hname, hw, admits⟩
  · obtain ⟨e, k, on, prog⟩ := online_step wf hs orderly.1 on' listed
    have known := inf room userId h e k on
    have news := others_step wf hs orderly listed on'.listed
    rcases prog with ⟨rfl, down, phase, -, server⟩ | ⟨now, rfl, rfl, down, phase, -⟩ |
      ⟨w, msg, rfl, -, down, rfl, rfl, -⟩ | ⟨down, phase, names, -, -, -, -, -, -, quiet⟩
    · rw [down, pending_congr phase]
      rcases on.phase wf with ⟨hp, -⟩ | ⟨roster, hp⟩
      · have hnil : k.pending = [] := by rw [Conn.pending, hp]
        rw [hnil, List.append_nil, List.foldl_append]
        rw [hnil, List.append_nil] at known
        exact news _ known
      · have hpend : k.pending = [.roster roster] := by rw [Conn.pending, hp]
        rw [hpend, List.foldl_append, List.foldl_cons, List.foldl_nil] at known
        rw [hpend, List.foldl_append, List.foldl_cons, List.foldl_nil]
        -- The Roster is captured already, so the step does not alter the room.
        have same : ∀ q, σ'.server.handle? room q = σ.server.handle? room q := by
          rcases step_server hs with ⟨hnone, -⟩ | ⟨b, hb, hstep⟩
          · rw [hnone] at server
            cases server
          · refine Server.handle?_of_unaltered wf.server hstep on'.listed fun p hp' hroom => ?_
            obtain ⟨c, hc, hr⟩ := Server.alters_reading hstep hp'
            have hne : h.tx ≠ p.1 := fun he => by
              rw [← he, on.conn, Option.some.injEq] at hc
              rw [← hc, hp] at hr
              cases hr
            have := calm b hb p hp' h.tx (on.opened wf) hne k on.conn
            rw [Conn.joins, hp, hroom] at this
            simp at this
        funext q
        have := congrFun known q
        simp only [Server.others, same] at this ⊢
        exact this
    · have same : σ'.server.others room userId = σ.server.others room userId := (news _ rfl).symm
      have hnil : k'.pending = [] := by rw [Conn.pending, phase]
      rw [hnil, List.append_nil, down, List.foldl_append, known, same]
      refine Engine.foldl_hear_of_not_membership (fun msg hm => ?_) _
      simp only [turnMsgs, Option.mem_toList, Option.map_eq_some_iff] at hm
      obtain ⟨_, -, rfl⟩ := hm
      rfl
    · have same : σ'.server.others room userId = σ.server.others room userId := (news _ rfl).symm
      rw [down, List.cons_append, List.foldl_cons] at known
      rw [Engine.handle_names, same]
      exact known
    · have same : σ'.server.others room userId = σ.server.others room userId := by
        have := news _ rfl
        rw [quiet] at this
        exact this.symm
      rw [down, pending_congr phase, names, same]
      exact known
  · -- The client's own Join: everything it is told before its Roster is void.
    obtain ⟨srv, -, -, -, -, captured⟩ := joined_step wf hs orderly.1 hw admits
    rw [captured k' on'.conn, List.foldl_append, List.foldl_cons, List.foldl_nil, Server.hear_rosterOf]
    funext q
    simp only [Server.others]
    split
    · rfl
    · rename_i hq
      rw [srv, Server.enroll_handle?, if_neg fun he => hq he.2]

theorem informed_reach (h : Lts.Reach (step cfg) (fun σ a σ' => Orderly cfg σ a σ' ∧ RostersUndisturbed cfg σ a) empty σ) :
    Informed σ :=
  h.invariant_over (fun _ hr => wf_reach hr) (fun _ _ _ _ _ on => by cases on.engine)
    fun _ _ _ wf _ inf ok hs => informed_step wf hs ok.1 ok.2 inf

/-- As long as no room changes while another socket's Roster for it is captured but not sent, every online
    client that has heard everything shows the others of its room, and nobody else. -/
theorem sees_whole_room (h : Lts.Reach (step cfg) (fun σ a σ' => Orderly cfg σ a σ' ∧ RostersUndisturbed cfg σ a) empty σ)
    {room userId : String} {hd : PeerHandle} {e : Engine} {k : Conn} (on : Online σ room userId hd e k)
    (heard : σ.downstream hd.tx k = []) (told : k.pending = []) : e.names = σ.server.others room userId := by
  have := informed_reach h room userId hd e k on
  rw [heard, told] at this
  exact this

end

theorem sees_whole_room_connected :
    ∃ e, connected.engines 0 = some e ∧ e.names "bob" = some "bob" ∧ e.names = connected.server.others "r" "alice" := by
  have on : Online connected "r" "alice" ⟨"alice", 0⟩ _ _ := ⟨rfl, rfl, rfl, rfl, rfl, rfl⟩
  refine ⟨_, rfl, rfl, @sees_whole_room sampleConfig _ ?_ _ _ _ _ _ on rfl rfl⟩
  exact Lts.Reach.of_execOk (fun _ _ _ => of_decide_eq_true)
    (show Lts.execOk (step sampleConfig)
      (fun σ a σ' => decide (Orderly sampleConfig σ a σ' ∧ RostersUndisturbed sampleConfig σ a)) empty connectActs =
        some connected from rfl)

/-- The second client joins between the capture and the sending of the first one's Roster. -/
def overtakenActs : List Act :=
  [.start (sampleUser "alice"), .start (sampleUser "bob"), .recv 0, .recv 1, .server (.finishJoin 0 0),
    .server (.finishJoin 1 0)] ++ getActs 0 0 2 ++ sendActs 0 0 ++ getActs 1 1 2 ++ sendActs 1 1 ++ getActs 0 0 1

def afterOvertaken : Sys := (Lts.exec (step sampleConfig) empty overtakenActs).getD empty

/-- The late Roster takes the newcomer out of the list again, for good. -/
theorem member_lost_to_late_roster :
    ¬ ∀ σ, Lts.Reach (step sampleConfig) (Orderly sampleConfig) empty σ → Drained σ →
      ∀ room userId h e k, Online σ room userId h e k → e.names = σ.server.others room userId := by
  intro all
  have reach : Lts.Reach (step sampleConfig) (Orderly sampleConfig) empty afterOvertaken :=
    Lts.Reach.of_execOk (fun _ _ _ => of_decide_eq_true)
      (show Lts.execOk (step sampleConfig) (fun σ a σ' => decide (Orderly sampleConfig σ a σ')) empty overtakenActs =
        some afterOvertaken from rfl)
  have on : Online afterOvertaken "r" "alice" ⟨"alice", 0⟩ _ _ := ⟨rfl, rfl, rfl, rfl, rfl, rfl⟩
  have shown := congrFun (all _ reach (by decide) _ _ _ _ _ on) "bob"
  exact absurd shown (by decide)

end Sys

end SquadLink

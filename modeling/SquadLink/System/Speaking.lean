import SquadLink.Server.Supersession
import SquadLink.System.Rosters

/-! The speaking flags that a client shows. What it has still to hear, replayed on what it shows now, and
    then what the other has still to say, give the transmit flag of the other. A Join takes that away when it
    finds a member that has announced that it transmits: the newcomer's entry for it starts as silent. -/

namespace SquadLink

/-- What the messages say of their sender's transmit flag, which was `flag` before. -/
def announce (flag : Bool) (msgs : List ClientMsg) : Bool :=
  msgs.foldl (fun flag msg => match msg with | .ptt active => active | _ => flag) flag

/-- The message is a Join. -/
def ClientMsg.opens : ClientMsg → Bool
  | .join _ _ _ _ => true
  | _ => false

/-- The message says something of the speaking flag of `q`. -/
def ServerMsg.tells (q : String) : ServerMsg → Bool
  | .roster _ => true
  | .peerJoined userId _ | .peerLeft userId | .ptt userId _ => userId = q
  | _ => false

section
variable {flag : Bool} {msgs msgs' : List ClientMsg}

theorem announce_append : announce flag (msgs ++ msgs') = announce (announce flag msgs) msgs' := List.foldl_append

theorem announce_cons_ptt (active : Bool) : announce flag (.ptt active :: msgs) = announce active msgs := rfl

theorem announce_cons_of_ne {msg : ClientMsg} (h : ∀ active, msg ≠ .ptt active) :
    announce flag (msg :: msgs) = announce flag msgs := by
  cases msg <;> first | rfl | exact absurd rfl (h _)

end

namespace Engine

/-- The speaking flag shown for a member. -/
def speaks (e : Engine) (q : String) : Option Bool := (e.members.lookup q).map (·.speaking)

/-- What a message makes of the speaking flag shown for `q`. -/
def hearSpeaking (q : String) (flag : Option Bool) : ServerMsg → Option Bool
  | .roster peers => if q ∈ peers.map (·.userId) then some false else none
  | .peerJoined userId _ => if userId = q then some false else flag
  | .peerLeft userId => if userId = q then none else flag
  | .ptt userId active => if userId = q then flag.map fun _ => active else flag
  | _ => flag

section
variable {rtc : Webrtc} {w : Outcomes} {e e' : Engine} {q : String}

theorem hearSpeaking_of_not_tells {msg : ServerMsg} (h : msg.tells q = false) (flag : Option Bool) :
    hearSpeaking q flag msg = flag := by
  cases msg <;> simp_all [ServerMsg.tells, hearSpeaking]

theorem foldl_hearSpeaking_of_not_tells {msgs : List ServerMsg} (h : ∀ msg ∈ msgs, msg.tells q = false)
    (flag : Option Bool) : msgs.foldl (hearSpeaking q) flag = flag := by
  induction msgs with
  | nil => rfl
  | cons msg msgs ih =>
    rw [List.foldl_cons, hearSpeaking_of_not_tells (h msg List.mem_cons_self)]
    exact ih fun m hm => h m (List.mem_cons_of_mem _ hm)

/-- Everybody in a Roster starts as silent. -/
theorem rosterMembers_speaking (peers : List PeerInfo) (q : String) :
    ((rosterMembers peers).lookup q).map (·.speaking) = if q ∈ peers.map (·.userId) then some false else none := by
  have fold : ∀ (l : List PeerInfo) (m : HashMap Member),
      ((l.foldl (fun l p => l.insert p.userId { name := p.name, badge := none, speaking := false }) m).lookup q).map
        (·.speaking) = if q ∈ l.map (·.userId) then some false else (m.lookup q).map (·.speaking) := by
    intro l
    induction l with
    | nil => intro m; simp
    | cons p l ih =>
      intro m
      rw [List.foldl_cons, ih]
      by_cases hq : q = p.userId
      · subst hq
        simp
      · simp [AList.lookup_insert_ne hq, hq]
  rw [rosterMembers, fold]
  simp

theorem speaks_modifyMember (peer : String) (f : Member → Member) (q : String) :
    (e.modifyMember peer f).speaks q =
      if peer = q then (e.members.lookup q).map fun m => (f m).speaking else e.speaks q := by
  unfold modifyMember speaks
  by_cases hq : peer = q
  · subst hq
    cases hm : e.members.lookup peer <;> simp [hm]
  · rw [if_neg hq]
    cases hm : e.members.lookup peer with
    | none => rfl
    | some m => simp [AList.lookup_insert_ne (Ne.symm hq)]

theorem handle_speaks (msg : ServerMsg) : (e.handle rtc w msg).speaks q = hearSpeaking q (e.speaks q) msg := by
  cases msg with
  | roster peers => exact rosterMembers_speaking peers q
  | peerJoined userId name =>
    simp only [handle, hearSpeaking]
    split
    · rename_i h
      subst h
      simp [speaks, emitRoster]
    · rename_i h
      simp [speaks, emitRoster, AList.lookup_insert_ne (Ne.symm h)]
  | peerLeft userId =>
    simp only [handle, hearSpeaking]
    split
    · rename_i h
      subst h
      simp [speaks, emitRoster]
    · rename_i h
      simp [speaks, emitRoster, AList.lookup_erase_ne (Ne.symm h)]
  | ptt userId active =>
    refine (e.speaks_modifyMember userId (fun m => { m with speaking := active }) q).trans ?_
    simp only [hearSpeaking, speaks]
    split
    · rw [Option.map_map]
      rfl
    · rfl
  | turn creds => simp only [handle]; split <;> rfl
  | _ => rfl

theorem handle_transmit (msg : ServerMsg) : (e.handle rtc w msg).transmit = e.transmit := by
  cases msg with
  | ptt userId active =>
    obtain ⟨members, h⟩ := e.modifyMember_eq userId fun m => { m with speaking := active }
    simp only [handle, emitRoster, emit, h]
  | turn creds => simp only [handle]; split <;> rfl
  | _ => rfl

/-- A round that handles no message keeps the flags shown, and announces the engine's own. -/
theorem onEvent_speaks {ev : LocalEvent} {msgs : List ClientMsg} (h : e.onEvent ev = some (e', msgs)) :
    (∀ q, e'.speaks q = e.speaks q) ∧ announce e.transmit msgs = e'.transmit := by
  cases ev with
  | reconnectFailed err =>
    cases (Option.ite_none_right_eq_some.mp h).2
    exact ⟨fun _ => rfl, rfl⟩
  | command cmd =>
    injection h with h
    rw [Prod.mk.injEq] at h
    obtain ⟨rfl, rfl⟩ := h
    cases cmd with
    | setTx on | reconnect =>
      simp only [command]
      split <;> exact ⟨fun _ => rfl, rfl⟩
    | _ => exact ⟨fun _ => rfl, rfl⟩
  | mesh ev =>
    cases h
    cases ev with
    | chat sender text => exact ⟨fun _ => rfl, rfl⟩
    | badge peer badge =>
      obtain ⟨members, hm⟩ := e.modifyMember_eq peer fun m => { m with badge := some badge }
      refine ⟨fun q => (e.speaks_modifyMember peer (fun m => { m with badge := some badge }) q).trans ?_, ?_⟩
      · split <;> rfl
      · simp only [meshEvent, emitRoster, emit, hm]
        rfl
  | rehash peers =>
    cases (Option.ite_none_right_eq_some.mp h).2
    exact ⟨fun _ => rfl, rfl⟩
  | _ => cases h; exact ⟨fun _ => rfl, rfl⟩

end

end Engine

theorem ServerMsg.tells_cases {msg : ServerMsg} {q : String} (h : msg.tells q = true) :
    msg.membership = true ∨ ∃ active, msg = .ptt q active := by
  cases msg with
  | ptt userId active => exact Or.inr ⟨active, by rw [of_decide_eq_true h]⟩
  | _ => first | exact Or.inl rfl | cases h

/-- Only a Ptt makes the server send one. -/
theorem Server.ptt_of_frameSends {cfg : ServerConfig} {st : Server} {s dest : SocketId} {me : Option (String × String)}
    {msg : ClientMsg} {q : String} {active : Bool} (hm : (dest, .ptt q active) ∈ frameSends cfg st s me (.text msg)) :
    msg = .ptt active ∧ ∃ room, me = some (room, q) := by
  have relayed : ∀ peer (build : String → ServerMsg), (∀ x, build x ≠ .ptt q active) →
      (dest, .ptt q active) ∉ relaySends st me peer build := by
    intro peer build hb hm
    unfold relaySends at hm
    split at hm
    · cases hm
    · obtain ⟨_, -, he⟩ := Option.map_eq_some_iff.mp (Option.mem_toList.mp hm)
      exact hb _ (Prod.mk.inj he).2
  have sentToRoom : ∀ {room g}, (dest, .ptt q active) ∈ toRoomSends st room g → ∃ id, g id = some (.ptt q active) := by
    intro room g hm
    obtain ⟨id, _, -, -, hx⟩ := Fifo.mem_broadcast.mp hm
    exact ⟨id, hx⟩
  cases msg with
  | join room userId name token =>
    simp only [frameSends, joinReply] at hm
    split at hm
    · cases List.mem_singleton.mp hm
    · split at hm
      · cases List.mem_singleton.mp hm
      · split at hm
        · cases List.mem_singleton.mp hm
        · split at hm
          · cases List.mem_singleton.mp hm
          · cases (mem_joinSends hm rfl).2.2.1
  | offer peer sdp | answer peer sdp | ice peer candidate =>
    simp only [frameSends] at hm
    split at hm
    · cases hm
    · exact absurd hm (relayed peer _ fun _ => by simp)
  | ptt on =>
    simp only [frameSends] at hm
    split at hm
    · cases hm
    · obtain ⟨id, hx⟩ := sentToRoom hm
      simp only [ne_eq, ite_not, Option.ite_none_left_eq_some, Option.some.injEq, ServerMsg.ptt.injEq] at hx
      obtain ⟨-, rfl, rfl⟩ := hx
      exact ⟨rfl, _, rfl⟩
  | rekey =>
    simp only [frameSends] at hm
    split at hm
    · cases hm
    · obtain ⟨id, hx⟩ := sentToRoom hm
      cases hx
  | leave =>
    simp only [frameSends, cleanupSends] at hm
    split at hm
    · cases hm
    · obtain ⟨id, _, -, -, hx⟩ := Fifo.mem_broadcast.mp hm
      cases hx

theorem Server.Admits.idle {cfg : ServerConfig} {st : Server} {s : SocketId} {room userId name : String}
    {token : Option String} (admits : Admits cfg st s room userId name token) : st.ident s = none := by
  obtain ⟨⟨c, hc, hr, hnone⟩, -⟩ := admits
  exact (ident_of_reading hc hr).trans hnone

theorem Server.mem_rosterOf {st : Server} {room userId q : String} :
    q ∈ (rosterOf (st.roomOf room) userId).map (·.userId) ↔ q ≠ userId ∧ ∃ h, st.handle? room q = some h := by
  have ids : (rosterOf (st.roomOf room) userId).map (·.userId) = ((st.roomOf room).erase userId).keys := by
    simp only [rosterOf, List.map_map]
    rfl
  rw [ids, ← AList.mem_keys, AList.mem_erase, ← AList.lookup_isSome, roomOf_lookup, Option.isSome_iff_exists]

/-- The action ends a signaling connection of a client that has one. -/
def Act.drops : Act → Bool
  | .lost _ => true
  | _ => false

namespace Sys

/-- A step without a full queue and without the loss of a signaling connection. -/
def Steady (_ : Sys) (a : Act) (σ' : Sys) : Prop := σ'.server.NeverFull ∧ a.drops = false

/-- Every other member of the room whose client is on its socket passes the test. -/
def AllOthers (σ : Sys) (room userId : String) (test : SocketId → Engine → Conn → Bool) : Prop :=
  ∀ x ∈ (σ.server.roomOf room).entries, x.1 ≠ userId → ∀ e ∈ σ.running? (σ.owner x.2.tx), e.cur = some x.2.tx →
    ∀ k ∈ σ.server.conns x.2.tx, test x.2.tx e k = true

/-- No other member of the room has its Roster captured but not sent. -/
def Listening (σ : Sys) (room userId : String) : Prop := σ.AllOthers room userId fun _ _ k => !k.joins room

/-- Every other member of the room that transmits has still to announce it. -/
def Unannounced (σ : Sys) (room userId : String) : Prop :=
  σ.AllOthers room userId fun s e _ => announce false (σ.wire s) == e.transmit

/-- An accepted Join finds no member that has announced that it transmits, and none whose Roster is
    captured but not sent. An announcement comes from the member's listed socket, and finds none of the
    latter if it is that the member transmits. -/
def TimelyMsg (cfg : SysConfig) (σ : Sys) (s : SocketId) : ClientMsg → Prop
  | .join room userId name token =>
    (σ.server.admitted cfg.server (.frame s (.text (.join room userId name token)))).isSome →
      σ.Listening room userId ∧ σ.Unannounced room userId
  | .ptt active => ∀ p ∈ σ.server.ident s,
    (∀ h ∈ σ.server.handle? p.1 p.2, h.tx = s) ∧ (active = true → σ.Listening p.1 p.2)
  | _ => True

/-- If the step reads a message of a client, the message comes in time. -/
def Timely (cfg : SysConfig) (σ : Sys) : Act → Prop
  | .recv s => ∀ msg ∈ (σ.wire s).head?, σ.TimelyMsg cfg s msg
  | _ => True

instance (σ : Sys) (a : Act) (σ' : Sys) : Decidable (Steady σ a σ') := by
  unfold Steady
  infer_instance

instance (σ : Sys) (room userId : String) (test : SocketId → Engine → Conn → Bool) :
    Decidable (σ.AllOthers room userId test) := by
  unfold AllOthers
  infer_instance

instance (cfg : SysConfig) (σ : Sys) (s : SocketId) (msg : ClientMsg) : Decidable (TimelyMsg cfg σ s msg) := by
  cases msg <;> unfold TimelyMsg <;> unfold Listening <;> unfold Unannounced <;> infer_instance

instance (cfg : SysConfig) (σ : Sys) (a : Act) : Decidable (Timely cfg σ a) :=
  match a with
  | .recv s => inferInstanceAs (Decidable (∀ msg ∈ (σ.wire s).head?, σ.TimelyMsg cfg s msg))
  | .write _ | .server _ | .start _ | .handle _ _ | .lost _ | .uplink _ | .reconnect _ | .event _ _ =>
    inferInstanceAs (Decidable True)

/-- What holds of the flags in every state of a run. -/
structure Voiced (σ : Sys) : Prop where
  attached : ∀ c e, σ.engines c = some e → e.cur.isSome
  /-- A client opens its connection with its Join and sends no other one. -/
  first : ∀ s, ∀ msg ∈ (σ.wire s).tail, msg.opens = false
  /-- A client that has not joined yet will be taken for silent, and announces the rest. -/
  unjoined : ∀ s e, σ.engines (σ.owner s) = some e → e.cur = some s → (∃ msg ∈ σ.wire s, msg.opens = true) →
    σ.server.ident s = none ∧ announce false (σ.wire s) = e.transmit
  told : ∀ room a h e k b h' e' k', Online σ room a h e k → Online σ room b h' e' k' → a ≠ b →
    ∃ flag, (σ.downstream h.tx k ++ k.pending).foldl (Engine.hearSpeaking b) (e.speaks b) = some flag ∧
      announce flag (σ.wire h'.tx) = e'.transmit

section
variable {cfg : SysConfig} {σ σ' : Sys} {a : Act} {room userId : String} {h : PeerHandle} {e : Engine} {k : Conn}

theorem AllOthers.of_online {test : SocketId → Engine → Conn → Bool} {userId' : String}
    (all : σ.AllOthers room userId' test) (on : Online σ room userId h e k) (hne : userId ≠ userId') :
    test h.tx e k = true := by
  have entry : ⟨userId, h⟩ ∈ (σ.server.roomOf room).entries :=
    AList.mem_lookup_iff.mp ((Server.roomOf_lookup ..).trans on.listed)
  have runs : e ∈ σ.running? (σ.owner h.tx) := Option.filter_eq_some_iff.mpr ⟨on.engine, on.running⟩
  exact all _ entry hne e runs on.cur k on.conn

/-- The socket of an accepted Join is the only one that a step gives an identity. -/
theorem ident_step (wf : WF cfg σ) (hs : step cfg σ a = some σ') {s : SocketId} {p : String × String}
    (hi : σ'.server.ident s = some p) :
    σ.server.ident s = some p ∨ a = .recv s ∧ ∃ msg rest, σ.wire s = msg :: rest ∧ msg.opens = true := by
  rcases step_server hs with ⟨-, heq⟩ | ⟨b, hb, hstep⟩
  · exact Or.inl (heq ▸ hi)
  · obtain ⟨evs, -, change⟩ := Server.step_change (wf.server.fresh _ (Nat.le_refl _)) hstep
    cases change with
    | same handles idents placed => exact Or.inl (idents s ▸ hi)
    | admitted t room userId name token rest act admits events handles idents placed =>
      rw [idents] at hi
      split at hi
      · rename_i ht
        subst ht act
        refine Or.inr ?_
        cases a with
        | recv t =>
          obtain ⟨msg, hw, he⟩ := Option.map_eq_some_iff.mp hb
          injection he with h₁ h₂
          injection h₂ with h₂
          subst h₁ h₂
          obtain ⟨rest, hrest⟩ := List.head?_eq_some_iff.mp hw
          exact ⟨rfl, _, rest, hrest, rfl⟩
        | server b =>
          cases Option.some.inj hb
          obtain ⟨hi, -⟩ := step_server_inv hs
          cases hi
        | _ => cases hb
      · exact Or.inl hi
    | left t room userId identity act handles idents ended placed =>
      rw [idents] at hi
      split at hi
      · cases hi
      · exact Or.inl hi
    | restarted act handles ended events => exact absurd (Server.isOpen_of_ident hi) (ended s)

/-- What a step makes of the wire and the transmit flag of a client that stays on its socket. -/
theorem voice_step (wf : WF cfg σ) (hs : step cfg σ a = some σ') {s : SocketId} {c : ClientId} {e e' : Engine}
    (he : σ.engines c = some e) (cur : e.cur = some s) (he' : σ'.engines c = some e') (cur' : e'.cur = some s) :
    (∃ msg, a = .recv s ∧ σ.wire s = msg :: σ'.wire s ∧ e' = e) ∨
      a ≠ .recv s ∧ ∃ msgs, σ'.wire s = σ.wire s ++ msgs ∧ (∀ msg ∈ msgs, msg.opens = false) ∧
        announce e.transmit msgs = e'.transmit := by
  by_cases ha : a = .recv s
  · subst ha
    obtain ⟨msg, rest, srv, hw, -, rfl⟩ := step_recv_inv hs
    exact Or.inl ⟨msg, rfl, by simp [hw], Option.some.inj (he'.symm.trans he)⟩
  · obtain ⟨e₁, msgs, he₁, turn, wire⟩ := engine_step wf hs he
    cases he'.symm.trans he₁
    refine Or.inr ⟨ha, msgs, wire s cur ha, ?_⟩
    cases turn with
    | idle => exact ⟨by simp, rfl⟩
    | handle w t msg act on inbox => exact ⟨by simp, (Engine.handle_transmit msg).symm⟩
    | lost act => cases cur'
    | uplink msg rest act out =>
      have aimed : msg.dest.isSome := wf.out c e msg he (by rw [out]; exact List.mem_cons_self)
      refine ⟨fun m hm => ?_, ?_⟩
      · rw [List.mem_singleton.mp hm]
        cases msg <;> first | rfl | cases aimed
      · cases msg <;> first | rfl | cases aimed
    | reconnect act off => rw [cur] at off; cases off
    | event ev act round =>
      obtain ⟨-, -, -, -, hmsgs, -⟩ := Engine.onEvent_spec round
      refine ⟨fun m hm => ?_, (Engine.onEvent_speaks round).2⟩
      rcases hmsgs m hm with ⟨_, rfl⟩ | ⟨rfl, -⟩ <;> rfl

/-- Only a message that its client handles changes the flags that an engine shows. -/
theorem speaks_step (wf : WF cfg σ) (hs : step cfg σ a = some σ') {c : ClientId} {e e' : Engine}
    (he : σ.engines c = some e) (he' : σ'.engines c = some e') :
    (∃ w s msg, a = .handle c w ∧ e.cur = some s ∧ σ.inbox s = msg :: σ'.inbox s) ∨ ∀ q, e'.speaks q = e.speaks q := by
  obtain ⟨e₁, msgs, he₁, turn, -⟩ := engine_step wf hs he
  cases he'.symm.trans he₁
  cases turn with
  | handle w t msg act on inbox => exact Or.inl ⟨w, t, msg, act, on, inbox⟩
  | event ev act round => exact Or.inr (Engine.onEvent_speaks round).1
  | _ => exact Or.inr fun _ => rfl

/-- Without a loss every client stays on the connection that it was started with. -/
theorem cur_step (wf : WF cfg σ) (hs : step cfg σ a = some σ') (held : a.drops = false) {c : ClientId} {e e' : Engine}
    (he : σ.engines c = some e) (on : e.cur.isSome) (he' : σ'.engines c = some e') : e'.cur = e.cur := by
  obtain ⟨e₁, msgs, he₁, turn, -⟩ := engine_step wf hs he
  cases he'.symm.trans he₁
  cases turn with
  | handle w t msg act cur inbox => exact Engine.handle_cur msg
  | lost act => rw [act] at held; cases held
  | reconnect act off => rw [off] at on; cases on
  | event ev act round => exact (Engine.onEvent_spec round).2.1
  | _ => rfl

/-- What a member's client is sent of another member that stays listed: the other's announcement as the
    server reads it, and nothing else. -/
theorem told_step (wf : WF cfg σ) (hs : step cfg σ a = some σ') (timely : Timely cfg σ a) {p q : String} {h' : PeerHandle}
    (listed : σ.server.handle? room p = some h) (listed₁ : σ.server.handle? room q = some h')
    (listed₂ : σ'.server.handle? room q = some h') (hne : p ≠ q) :
    (∃ active rest, a = .recv h'.tx ∧ σ.wire h'.tx = .ptt active :: rest ∧
      Fifo.sentTo h.tx (σ.sends cfg a) = [.ptt q active] ∧ (active = true → σ.Listening room q)) ∨
    (∀ active rest, a = .recv h'.tx → σ.wire h'.tx ≠ .ptt active :: rest) ∧
      ∀ msg ∈ Fifo.sentTo h.tx (σ.sends cfg a), msg.tells q = false := by
  have hident := wf.server.listed _ _ _ listed₁
  -- The cleanup of a socket is not for `q`, which would not be listed any more.
  have left : ∀ {s} {c : Conn}, σ'.server = σ.server.cleanup s c.me →
      ∀ msg ∈ Fifo.sentTo h.tx (Server.cleanupSends σ.server c.me), msg.tells q = false := by
    intro s c hsrv msg hm
    rcases hme : c.me with _ | ⟨room', gone⟩
    · rw [hme] at hm
      simp [Server.cleanupSends] at hm
    · rw [hme, Server.sentTo_cleanupSends wf.server listed] at hm
      split at hm
      · rename_i hc
        obtain ⟨rfl, -⟩ := hc
        rw [List.mem_singleton.mp hm]
        refine decide_eq_false fun hg => ?_
        rw [hsrv, hme, Server.cleanup_handle?, hg, if_pos rfl] at listed₂
        cases listed₂
      · cases hm
  cases a with
  | recv s =>
    obtain ⟨msg, rest, srv, hw, hstep, rfl⟩ := step_recv_inv hs
    obtain ⟨c, hc, hr, rfl⟩ := Server.step_frame_inv hstep
    have hi := Server.ident_of_reading hc hr
    have hsends : σ.sends cfg (.recv s) = Server.frameSends cfg.server σ.server s c.me (.text msg) := by
      simp [sends, hw, hc]
    rw [hsends]
    by_cases hptt : ∃ active, msg = .ptt active
    · obtain ⟨active, rfl⟩ := hptt
      by_cases hme : c.me = some (room, q)
      · -- The announcement of `q`, which comes from its listed socket.
        have intime : σ.TimelyMsg cfg s (.ptt active) := timely _ (by rw [hw]; rfl)
        obtain ⟨own, quiet⟩ := intime (room, q) (hi.trans hme)
        obtain rfl := own h' listed₁
        refine Or.inl ⟨active, rest, rfl, hw, ?_, quiet⟩
        rw [hme]
        simp only [Server.frameSends]
        rw [Server.sentTo_toRoomSends wf.server listed, if_pos rfl, if_pos hne]
        rfl
      · refine Or.inr ⟨fun on rest' ha _ => ?_, fun m hm => ?_⟩
        · rw [← Act.recv.inj ha, hi] at hident
          exact hme hident
        · by_contra htells
          rcases ServerMsg.tells_cases (by simpa using htells) with hmem | ⟨on, rfl⟩
          · rcases Server.frame_cases cfg.server (.ptt active) hc hr with ⟨_, _, _, _, he, -⟩ | he | ⟨-, -, quiet⟩
            · cases he
            · cases he
            · rw [quiet _ (Fifo.mem_sentTo.mp hm)] at hmem
              cases hmem
          · obtain ⟨-, room', hme'⟩ := Server.ptt_of_frameSends (Fifo.mem_sentTo.mp hm)
            have hroom : room' = room := by
              rw [hme'] at hm
              simp only [Server.frameSends] at hm
              rw [Server.sentTo_toRoomSends wf.server listed] at hm
              split at hm
              · assumption
              · cases hm
            exact hme (hroom ▸ hme')
    · refine Or.inr ⟨fun on rest' ha hw' => ?_, fun m hm => ?_⟩
      · rw [← Act.recv.inj ha, hw] at hw'
        exact hptt ⟨on, (List.cons.inj hw').1⟩
      · by_contra htells
        have htells : m.tells q = true := by simpa using htells
        rcases Server.frame_cases cfg.server msg hc hr with
          ⟨room', joiner, name, token, rfl, admits, hjoin, -, henroll⟩ | rfl | ⟨-, -, quiet⟩
        · obtain ⟨⟨c', hc', -, hnone⟩, -⟩ := admits
          cases hc.symm.trans hc'
          have hidle : σ.server.ident s = none := hi.trans hnone
          have hst : s ≠ h.tx := fun he => by rw [he, wf.server.listed _ _ _ listed] at hidle; cases hidle
          rw [hjoin, Server.sentTo_joinSends wf.server listed hst] at hm
          split at hm
          · rename_i hroom
            subst hroom
            split at hm
            · rw [List.mem_singleton.mp hm] at htells
              cases htells
            · rcases List.mem_cons.mp hm with rfl | hm
              · -- The newcomer is not `q`, whose socket has joined before.
                have hq : joiner = q := of_decide_eq_true htells
                subst hq
                simp only [henroll, Server.enroll_handle?, and_self, if_true, Option.some.injEq] at listed₂
                rw [← listed₂, hidle] at hident
                cases hident
              · unfold Server.warning at hm
                split at hm
                · rw [List.mem_singleton.mp hm] at htells
                  cases htells
                · cases hm
          · cases hm
        · rw [left rfl m hm] at htells
          cases htells
        · rcases ServerMsg.tells_cases htells with hmem | ⟨on, rfl⟩
          · rw [quiet _ (Fifo.mem_sentTo.mp hm)] at hmem
            cases hmem
          · exact hptt ⟨on, (Server.ptt_of_frameSends (Fifo.mem_sentTo.mp hm)).1⟩
  | server b =>
    refine Or.inr ⟨by simp, ?_⟩
    cases b with
    | close s =>
      obtain ⟨-, srv, hstep, rfl⟩ := step_server_inv hs
      obtain ⟨c, hc, hr, rfl⟩ := Server.step_close_inv hstep
      simp only [sends, hc]
      exact left rfl
    | _ => simp [sends]
  | _ => exact Or.inr ⟨by simp, by simp [sends]⟩

/-- What a step makes of a wire. -/
theorem wire_step (wf : WF cfg σ) (hs : step cfg σ a = some σ') (s : SocketId) :
    (∃ msg, σ.wire s = msg :: σ'.wire s) ∨ (∃ ecfg, σ'.wire s = [Engine.joinMsg ecfg]) ∨
      ∃ msgs, σ'.wire s = σ.wire s ++ msgs ∧ ∀ msg ∈ msgs, msg.opens = false := by
  have same : σ'.wire s = σ.wire s → ∃ msgs, σ'.wire s = σ.wire s ++ msgs ∧ ∀ msg ∈ msgs, msg.opens = false :=
    fun hw => ⟨[], by rw [hw, List.append_nil], by simp⟩
  -- What an engine sends to the connection it is on.
  have sent : ∀ {cur : Option SocketId} {msgs : List ClientMsg}, (∀ msg ∈ msgs, msg.opens = false) →
      σ'.wire = (σ.transmit cur msgs).wire → ∃ msgs, σ'.wire s = σ.wire s ++ msgs ∧ ∀ msg ∈ msgs, msg.opens = false := by
    intro cur msgs quiet hw
    rw [hw, transmit_wire]
    split
    · exact ⟨msgs, rfl, quiet⟩
    · exact ⟨[], by simp, by simp⟩
  -- A new connection.
  have dial : ∀ {ecfg : EngineConfig}, σ'.wire = Function.update σ.wire σ.server.nextSocket [Engine.joinMsg ecfg] →
      (∃ ecfg, σ'.wire s = [Engine.joinMsg ecfg]) ∨
        ∃ msgs, σ'.wire s = σ.wire s ++ msgs ∧ ∀ msg ∈ msgs, msg.opens = false := by
    intro ecfg hw
    by_cases hst : s = σ.server.nextSocket
    · exact Or.inl ⟨ecfg, by rw [hw, hst, Function.update_self]⟩
    · exact Or.inr (same (by rw [hw, Function.update_of_ne hst]))
  cases a with
  | recv t =>
    obtain ⟨msg, rest, srv, hw, -, rfl⟩ := step_recv_inv hs
    by_cases hst : s = t
    · subst hst
      exact Or.inl ⟨msg, by simp [hw]⟩
    · exact Or.inr (Or.inr (same (Function.update_of_ne hst ..)))
  | write t =>
    obtain ⟨_, _, _, srv, -, -, -, rfl⟩ := step_write_inv hs
    exact Or.inr (Or.inr (same rfl))
  | server b =>
    obtain ⟨-, srv, -, rfl⟩ := step_server_inv hs
    exact Or.inr (Or.inr (same rfl))
  | start ecfg =>
    obtain ⟨srv, -, rfl⟩ := step_start_inv hs
    exact Or.inr (dial rfl)
  | handle c w =>
    obtain ⟨_, _, _, _, -, -, -, -, rfl⟩ := step_handle_inv hs
    exact Or.inr (Or.inr (same rfl))
  | lost c =>
    obtain ⟨_, _, -, -, -, -, rfl⟩ := step_lost_inv hs
    exact Or.inr (Or.inr (same rfl))
  | uplink c =>
    obtain ⟨e, msg, rest, he, -, hout, rfl⟩ := step_uplink_inv hs
    have aimed : msg.dest.isSome := wf.out c e msg he (by rw [hout]; exact List.mem_cons_self)
    refine Or.inr (Or.inr (sent (fun m hm => ?_) rfl))
    rw [List.mem_singleton.mp hm]
    cases msg <;> first | rfl | cases aimed
  | reconnect c =>
    obtain ⟨e, srv, -, -, -, -, rfl⟩ := step_reconnect_inv hs
    exact Or.inr (dial rfl)
  | event c ev =>
    obtain ⟨e, e', msgs, -, -, hev, rfl⟩ := step_event_inv hs
    obtain ⟨-, -, -, -, hmsgs, -⟩ := Engine.onEvent_spec hev
    refine Or.inr (Or.inr (sent (fun m hm => ?_) rfl))
    rcases hmsgs m hm with ⟨_, rfl⟩ | ⟨rfl, -⟩ <;> rfl

theorem first_step (wf : WF cfg σ) (hs : step cfg σ a = some σ')
    (first : ∀ s, ∀ msg ∈ (σ.wire s).tail, msg.opens = false) (s : SocketId) :
    ∀ msg ∈ (σ'.wire s).tail, msg.opens = false := by
  intro msg hm
  rcases wire_step wf hs s with ⟨head, hw⟩ | ⟨ecfg, hw⟩ | ⟨msgs, hw, quiet⟩
  · refine first s msg ?_
    rw [hw]
    exact List.mem_of_mem_tail hm
  · rw [hw] at hm
    cases hm
  · rw [hw] at hm
    cases hold : σ.wire s with
    | nil =>
      rw [hold] at hm
      exact quiet msg (List.mem_of_mem_tail hm)
    | cons head rest =>
      rw [hold, List.cons_append, List.tail_cons] at hm
      rcases List.mem_append.mp hm with hm | hm
      · exact first s msg (by rw [hold]; exact hm)
      · exact quiet msg hm

theorem unjoined_step (wf : WF cfg σ) (hs : step cfg σ a = some σ') (held : a.drops = false) (voiced : Voiced σ)
    {s : SocketId} {e' : Engine} (he' : σ'.engines (σ'.owner s) = some e') (cur' : e'.cur = some s)
    (opening : ∃ msg ∈ σ'.wire s, msg.opens = true) :
    σ'.server.ident s = none ∧ announce false (σ'.wire s) = e'.transmit := by
  have wf' := wf_step wf hs
  obtain ⟨msg, hm, hopens⟩ := opening
  -- The Join is on the wire still, so the socket has no identity.
  have idle (hi : σ.server.ident s = none) : σ'.server.ident s = none := by
    cases hi' : σ'.server.ident s with
    | none => rfl
    | some p =>
      rcases ident_step wf hs hi' with h | ⟨rfl, head, rest, hw, -⟩
      · rw [hi] at h
        cases h
      · obtain ⟨head', rest', srv, hw', -, rfl⟩ := step_recv_inv hs
        simp only [Function.update_self] at hm
        have := voiced.first s msg (by rw [hw']; exact hm)
        rw [hopens] at this
        cases this
  rcases engines_step hs he' with ⟨e, he⟩ | ⟨ecfg, srv, rfl, rfl, -, rfl⟩
  · have hcur := (cur_step wf hs held he (voiced.attached _ e he) he').symm.trans cur'
    have howner := (wf.cur _ e s he hcur).2
    rcases voice_step wf hs he hcur he' cur' with ⟨head, -, hw, -⟩ | ⟨-, msgs, hw, quiet, said⟩
    · have := voiced.first s msg (by rw [hw]; exact hm)
      rw [hopens] at this
      cases this
    · rw [hw, List.mem_append] at hm
      have hm := hm.resolve_right fun h => by rw [quiet msg h] at hopens; cases hopens
      obtain ⟨hi, hsaid⟩ := voiced.unjoined s e (by rw [howner]; exact he) hcur ⟨msg, hm, hopens⟩
      exact ⟨idle hi, by rw [hw, announce_append, hsaid, said]⟩
  · cases Option.some.inj cur'
    refine ⟨idle ?_, by simp [started, dialed]; rfl⟩
    cases hi : σ.server.ident σ.server.nextSocket with
    | none => rfl
    | some p => exact absurd (wf.opened_of_ident hi) (Nat.lt_irrefl _)

/-- Two members that stay online. -/
theorem told_kept (wf : WF cfg σ) (hs : step cfg σ a = some σ') (steady : Steady σ a σ') (timely : Timely cfg σ a)
    (voiced : Voiced σ) {p q : String} {h' : PeerHandle} {e' f' : Engine} {k' l' : Conn} (hne : p ≠ q)
    (on' : Online σ' room p h e' k') (other' : Online σ' room q h' f' l')
    (listed : σ.server.handle? room p = some h) (listed' : σ.server.handle? room q = some h') :
    ∃ flag, (σ'.downstream h.tx k' ++ k'.pending).foldl (Engine.hearSpeaking q) (e'.speaks q) = some flag ∧
      announce flag (σ'.wire h'.tx) = f'.transmit := by
  obtain ⟨e, k, on, prog⟩ := online_step wf hs steady.1 on' listed
  obtain ⟨f, l, other, -⟩ := online_step wf hs steady.1 other' listed'
  obtain ⟨flag, shown, said⟩ := voiced.told room p h e k q h' f l on other hne
  have owner : σ'.owner h'.tx = σ.owner h'.tx := (step_kept wf hs).owner _ (other.opened wf)
  have voice := voice_step wf hs other.engine other.cur (owner ▸ other'.engine) other'.cur
  -- The flag shown stays what it is, and so does what the other has announced or has still to announce.
  have quiet : (∀ active rest, a = .recv h'.tx → σ.wire h'.tx ≠ .ptt active :: rest) →
      announce flag (σ'.wire h'.tx) = f'.transmit := by
    intro silent
    rcases voice with ⟨msg, ha, hw, rfl⟩ | ⟨-, msgs, hw, -, hsaid⟩
    · rw [← said, hw]
      exact (announce_cons_of_ne fun active hm => silent active _ ha (hm ▸ hw)).symm
    · rw [hw, announce_append, said, hsaid]
  rcases prog with ⟨rfl, down, phase, -, -⟩ | ⟨now, rfl, rfl, down, phase, -⟩ |
    ⟨w, msg, rfl, -, down, rfl, rfl, -⟩ | ⟨down, phase, -, -, -, -, -, -, -, nothing⟩
  · rw [down, pending_congr phase]
    rcases told_step wf hs timely listed listed' other'.listed hne with ⟨active, rest, rfl, hw,
      sent, listening⟩ | ⟨silent, sent⟩
    · rw [sent]
      obtain ⟨msg, rest', srv, hw', -, rfl⟩ := step_recv_inv hs
      rw [hw, List.cons.injEq] at hw'
      obtain ⟨rfl, rfl⟩ := hw'
      cases Option.some.inj (other.engine.symm.trans other'.engine)
      rw [hw, announce_cons_ptt] at said
      rcases on.phase wf with ⟨hp, -⟩ | ⟨roster, hp⟩
      · rw [Conn.pending, hp, List.append_nil] at shown ⊢
        rw [List.foldl_append, shown]
        exact ⟨active, by simp [Engine.hearSpeaking], by simp [said]⟩
      · -- The Roster to come shows everybody as silent, as the announcement does then.
        rw [Conn.pending, hp, List.foldl_append, List.foldl_cons, List.foldl_nil] at shown ⊢
        have hactive : active = false := by
          by_contra hon
          have := (listening (by simpa using hon)).of_online on hne
          simp [Conn.joins, hp] at this
        simp only [Engine.hearSpeaking] at shown ⊢
        split at shown
        · rename_i hmem
          exact ⟨false, by rw [if_pos hmem], by rw [← hactive]; simp [said]⟩
        · cases shown
    · refine ⟨flag, ?_, quiet silent⟩
      rw [List.foldl_append, List.foldl_append, Engine.foldl_hearSpeaking_of_not_tells sent, ← List.foldl_append]
      exact shown
  · refine ⟨flag, ?_, quiet (by simp)⟩
    have hnil : k'.pending = [] := by rw [Conn.pending, phase]
    rw [hnil, List.append_nil, down, List.foldl_append, shown]
    refine Engine.foldl_hearSpeaking_of_not_tells (fun msg hm => ?_) _
    simp only [turnMsgs, Option.mem_toList, Option.map_eq_some_iff] at hm
    obtain ⟨_, -, rfl⟩ := hm
    rfl
  · refine ⟨flag, ?_, quiet (by simp)⟩
    rw [down, List.cons_append, List.foldl_cons] at shown
    rw [Engine.handle_speaks]
    exact shown
  · have owner' : σ'.owner h.tx = σ.owner h.tx := (step_kept wf hs).owner _ (on.opened wf)
    rcases speaks_step wf hs on.engine (owner' ▸ on'.engine) with ⟨w, s, msg, rfl, cur, inbox⟩ | same
    · -- Handling a message takes it out of the inbox.
      cases on.cur.symm.trans cur
      obtain ⟨_, _, _, _, -, -, -, -, rfl⟩ := step_handle_inv hs
      cases on.conn.symm.trans on'.conn
      simp only [downstream, inbox, List.cons_append] at down
      exact absurd (congrArg List.length down) (by simp)
    · refine ⟨flag, by rw [down, pending_congr phase, same]; exact shown, ?_⟩
      rcases told_step wf hs timely listed listed' other'.listed hne with ⟨active, rest, -, -, sent, -⟩ | ⟨silent, -⟩
      · rw [nothing] at sent
        cases sent
      · exact quiet silent

theorem voiced_step (wf : WF cfg σ) (hs : step cfg σ a = some σ') (steady : Steady σ a σ') (timely : Timely cfg σ a)
    (voiced : Voiced σ) : Voiced σ' := by
  refine ⟨fun c e' he' => ?_, first_step wf hs voiced.first, fun s e' => unjoined_step wf hs steady.2 voiced,
    fun room p h e' k' q h' f' l' on' other' hne => ?_⟩
  · rcases engines_step hs he' with ⟨e, he⟩ | ⟨ecfg, srv, -, -, -, rfl⟩
    · rw [cur_step wf hs steady.2 he (voiced.attached c e he) he']
      exact voiced.attached c e he
    · rfl
  · rcases listed_cases wf hs on'.listed with listed | ⟨name, token, rest, rfl, hname, hw, admits⟩
    · rcases listed_cases wf hs other'.listed with listed' | ⟨name, token, rest, rfl, hname, hw, admits⟩
      · exact told_kept wf hs steady timely voiced hne on' other' listed listed'
      · -- The other one has just joined: everybody is told of it as a silent newcomer.
        obtain ⟨e, k, on, prog⟩ := online_step wf hs steady.1 on' listed
        obtain ⟨srv, wire, engines, owner, sent, -⟩ := joined_step wf hs steady.1 hw admits
        have intime : TimelyMsg cfg σ h'.tx (.join room q name token) := timely _ (by rw [hw]; rfl)
        obtain ⟨listening, -⟩ := intime (by rw [admits.admitted]; rfl)
        have hidle : σ.server.ident h'.tx = none := admits.idle
        have hst : h'.tx ≠ h.tx := fun he => by rw [he, on.ident wf] at hidle; cases hidle
        have news : Fifo.sentTo h.tx (σ.sends cfg (.recv h'.tx)) = .peerJoined q name ::
            Server.warning (((σ.server.roomOf room).erase q).insert q { name, tx := h'.tx }).keys.length := by
          rw [sent, Server.sentTo_joinSends wf.server listed hst, if_pos rfl, if_neg hne]
        have told : σ'.downstream h.tx k' = σ.downstream h.tx k ++ Fifo.sentTo h.tx (σ.sends cfg (.recv h'.tx)) ∧
            k'.phase = k.phase := by
          rcases prog with ⟨-, down, phase, -⟩ | ⟨_, act, -⟩ | ⟨_, _, act, -⟩ | ⟨-, -, -, -, -, -, -, -, -, nothing⟩
          · exact ⟨down, phase⟩
          · cases act
          · cases act
          · rw [nothing] at news
            cases news
        have hnil : k'.pending = [] := by
          rw [pending_congr told.2]
          have := listening.of_online on hne
          rcases on.phase wf with ⟨hp, -⟩ | ⟨roster, hp⟩
          · rw [Conn.pending, hp]
          · simp [Conn.joins, hp] at this
        refine ⟨false, ?_, ?_⟩
        · rw [hnil, List.append_nil, told.1, news, List.foldl_append, List.foldl_cons,
            Engine.foldl_hearSpeaking_of_not_tells]
          · simp [Engine.hearSpeaking]
          · intro msg hm
            unfold Server.warning at hm
            split at hm
            · rw [List.mem_singleton.mp hm]
              rfl
            · cases hm
        · have engine := other'.engine
          rw [engines, owner] at engine
          have := (voiced.unjoined h'.tx f' engine other'.cur ⟨_, by rw [hw]; exact List.mem_cons_self, rfl⟩).2
          rw [hw] at this
          rw [wire]
          exact this
    · -- The client itself has just joined: its Roster shows everybody as silent.
      obtain ⟨srv, wire, engines, owner, -, captured⟩ := joined_step wf hs steady.1 hw admits
      have intime : TimelyMsg cfg σ h.tx (.join room p name token) := timely _ (by rw [hw]; rfl)
      obtain ⟨-, unannounced⟩ := intime (by rw [admits.admitted]; rfl)
      have hidle : σ.server.ident h.tx = none := admits.idle
      rcases listed_cases wf hs other'.listed with listed' | ⟨_, _, _, act, -, hw', -⟩
      · obtain ⟨f, l, other, -⟩ := online_step wf hs steady.1 other' listed'
        have hst : h.tx ≠ h'.tx := fun he => by rw [he, other.ident wf] at hidle; cases hidle
        have said : announce false (σ.wire h'.tx) = f.transmit := by
          simpa using unannounced.of_online other (Ne.symm hne)
        refine ⟨false, ?_, ?_⟩
        · have present : q ∈ (Server.rosterOf (σ.server.roomOf room) p).map (·.userId) :=
            Server.mem_rosterOf.mpr ⟨Ne.symm hne, h', listed'⟩
          rw [captured k' on'.conn, List.foldl_append]
          exact if_pos present
        · rcases voice_step wf hs other.engine other.cur (by rw [← owner]; exact other'.engine) other'.cur with
            ⟨_, act, -⟩ | ⟨-, msgs, hw', -, hsaid⟩
          · exact absurd (Act.recv.inj act) hst
          · rw [hw', announce_append, said, hsaid]
      · have hst : h.tx = h'.tx := Act.recv.inj act
        rw [← hst, hw] at hw'
        cases hw'
        exact absurd rfl hne

theorem voiced_empty : Voiced empty where
  attached _ _ he := by cases he
  first _ _ hm := by cases hm
  unjoined _ _ he := by cases he
  told _ _ _ _ _ _ _ _ _ on := by cases on.engine

theorem voiced_reach (h : Lts.Reach (step cfg) (fun σ a σ' => Steady σ a σ' ∧ Timely cfg σ a) empty σ) : Voiced σ :=
  h.invariant_over (fun _ hr => wf_reach hr) voiced_empty
    fun _ _ _ wf _ voiced ok hs => voiced_step wf hs ok.1 ok.2 voiced

/-- As long as every Join and every announcement comes in time, two members whose messages have all arrived
    agree: the one shows the other as speaking exactly when the other transmits. -/
theorem speaking_agrees (h : Lts.Reach (step cfg) (fun σ a σ' => Steady σ a σ' ∧ Timely cfg σ a) empty σ)
    (drained : Drained σ)
    {p q : String} {hp hq : PeerHandle} {ep eq : Engine} {kp kq : Conn} (hne : p ≠ q) (on : Online σ room p hp ep kp)
    (other : Online σ room q hq eq kq) : ep.speaks q = some eq.transmit := by
  have wf := wf_reach h
  obtain ⟨flag, shown, said⟩ := (voiced_reach h).told room p hp ep kp q hq eq kq on other hne
  obtain ⟨heard, told⟩ := drained.settled on wf
  rw [heard, told] at shown
  rw [(drained.said other wf).1] at said
  exact shown.trans (congrArg some said)

end

/-- The second client starts to transmit once the two are connected. -/
def speakActs : List Act := connectActs ++ [.event 1 (.command .toggleTx), .recv 1] ++ getActs 0 0 1

def afterSpeak : Sys := (Lts.exec (step sampleConfig) empty speakActs).getD empty

theorem speaking_agrees_bob :
    ∃ e e', afterSpeak.engines 0 = some e ∧ afterSpeak.engines 1 = some e' ∧ e'.transmit = true ∧
      e.speaks "bob" = some e'.transmit := by
  have alice : Online afterSpeak "r" "alice" ⟨"alice", 0⟩ _ _ := ⟨rfl, rfl, rfl, rfl, rfl, rfl⟩
  have bob : Online afterSpeak "r" "bob" ⟨"bob", 1⟩ _ _ := ⟨rfl, rfl, rfl, rfl, rfl, rfl⟩
  refine ⟨_, _, rfl, rfl, rfl, @speaking_agrees sampleConfig _ _ ?_ (by decide) _ _ _ _ _ _ _ _ (by decide) alice bob⟩
  exact Lts.Reach.of_execOk (fun _ _ _ => of_decide_eq_true)
    (show Lts.execOk (step sampleConfig) (fun σ a σ' => decide (Steady σ a σ' ∧ Timely sampleConfig σ a)) empty speakActs =
      some afterSpeak from rfl)

/-- The first client transmits already when the second one joins. -/
def lateActs : List Act :=
  startActs "alice" 0 ++ [.event 0 (.command .toggleTx), .recv 0] ++ startActs "bob" 1 ++ getActs 0 0 2 ++ sendActs 0 0 ++
    getActs 1 1 2 ++ sendActs 1 1 ++ getActs 0 0 1

def afterLate : Sys := (Lts.exec (step sampleConfig) empty lateActs).getD empty

/-- The newcomer goes on showing the other one as silent. -/
theorem speaker_silent_for_newcomer :
    ¬ ∀ σ, Lts.Reach (step sampleConfig) Steady empty σ → Drained σ →
      ∀ room p q hp hq ep eq kp kq, p ≠ q → Online σ room p hp ep kp → Online σ room q hq eq kq →
        ep.speaks q = some eq.transmit := by
  intro all
  have reach : Lts.Reach (step sampleConfig) Steady empty afterLate :=
    Lts.Reach.of_execOk (fun _ _ _ => of_decide_eq_true)
      (show Lts.execOk (step sampleConfig) (fun σ a σ' => decide (Steady σ a σ')) empty lateActs = some afterLate from rfl)
  have bob : Online afterLate "r" "bob" ⟨"bob", 1⟩ _ _ := ⟨rfl, rfl, rfl, rfl, rfl, rfl⟩
  have alice : Online afterLate "r" "alice" ⟨"alice", 0⟩ _ _ := ⟨rfl, rfl, rfl, rfl, rfl, rfl⟩
  have shown := all _ reach (by decide) _ _ _ _ _ _ _ _ _ (by decide) bob alice
  exact absurd shown (by decide)

end Sys

end SquadLink

import SquadLink.Client.Ties
import SquadLink.System.Formation
import SquadLink.System.Offers

/-! Two members of a room of which either may have been gone before, as a tie. Each step of the system is a step of
    the tie, so that in a run in which no client re-offers from a PeerConn it has kept the two get to be negotiated
    with each other. -/

namespace SquadLink

/-- The comings and goings of `q` in the messages. -/
def sightingsOf (q : String) (msgs : List ServerMsg) : List Bool := msgs.filterMap fun msg => (msg.cue q).sighting?

/-- What `q` says in the messages, and its goings. -/
def trailOf (q : String) (msgs : List ServerMsg) : List (Option Signal) := msgs.filterMap fun msg => (msg.cue q).track?

section
variable {q : String} {msgs msgs' : List ServerMsg}

@[simp] theorem sightingsOf_append : sightingsOf q (msgs ++ msgs') = sightingsOf q msgs ++ sightingsOf q msgs' :=
  List.filterMap_append

@[simp] theorem trailOf_append : trailOf q (msgs ++ msgs') = trailOf q msgs ++ trailOf q msgs' := List.filterMap_append

theorem sightingsOf_singleton (msg : ServerMsg) : sightingsOf q [msg] = (msg.cue q).sighting?.toList := by
  cases h : (msg.cue q).sighting? <;> simp [sightingsOf, h]

theorem trailOf_singleton (msg : ServerMsg) : trailOf q [msg] = (msg.cue q).track?.toList := by
  cases h : (msg.cue q).track? <;> simp [trailOf, h]

theorem sightingsOf_eq_nil (h : ∀ msg ∈ msgs, msg.cue q ≠ .seen ∧ msg.cue q ≠ .left) : sightingsOf q msgs = [] :=
  List.filterMap_eq_nil_iff.mpr fun msg hm => by
    have := h msg hm
    cases hcue : msg.cue q <;> simp_all [Cue.sighting?]

/-- Where nobody leaves the trail is what is said. -/
theorem trailOf_eq_map (h : ∀ msg ∈ msgs, msg.cue q ≠ .left) : trailOf q msgs = (heardOf q msgs).map some := by
  induction msgs with
  | nil => rfl
  | cons msg msgs ih =>
    have rest := ih fun m hm => h m (List.mem_cons_of_mem _ hm)
    have stays := h msg List.mem_cons_self
    simp only [trailOf, heardOf] at rest ⊢
    cases hcue : msg.cue q <;> simp_all [Cue.track?, Cue.signal?]

theorem countP_signalFor_le (pc : PcId) (ec : EngineConfig) (ms : List ClientMsg) :
    (ms.filterMap (ClientMsg.signalFor q)).countP (Signal.deals pc) ≤ (Weight.dealing pc).ups (some ec) ms := by
  induction ms with
  | nil => exact Nat.zero_le _
  | cons msg ms ih =>
    rw [Weight.ups_cons, Weight.ups_singleton]
    cases hsig : msg.signalFor q with
    | none =>
      rw [List.filterMap_cons_none hsig]
      exact ih.trans (Nat.le_add_left _ _)
    | some sig =>
      have weight : (Weight.dealing pc).up ec msg = (sig.deals pc).toNat := by
        rw [ClientMsg.signalFor_eq_some hsig]
        cases sig <;> rfl
      rw [List.filterMap_cons_some hsig, List.countP_cons, weight, Bool.toNat, Bool.cond_eq_ite]
      omega

theorem down_dealing {pc : PcId} {ed : EngineConfig} {msg : ServerMsg} {sig : Signal} (h : msg.cue q = .signal sig) :
    (Weight.dealing pc).down ed msg = (sig.deals pc).toNat := by
  rw [ServerMsg.cue_eq_signal h]
  cases sig <;> rfl

theorem countP_trailOf_le (pc : PcId) (ed : EngineConfig) (msgs : List ServerMsg) :
    (trailOf q msgs).countP (fun t => t.any (Signal.deals pc)) ≤ (Weight.dealing pc).downs (some ed) msgs := by
  induction msgs with
  | nil => exact Nat.zero_le _
  | cons msg msgs ih =>
    rw [Weight.downs_cons, Weight.downs_singleton, ← List.singleton_append, trailOf_append,
      List.countP_append, trailOf_singleton]
    refine Nat.add_le_add ?_ ih
    cases hcue : msg.cue q with
    | signal sig =>
      rw [down_dealing hcue]
      cases hd : sig.deals pc <;> simp [Cue.track?, hd]
    | _ => simp [Cue.track?]

theorem countP_heardOf_le (pc : PcId) (ed : EngineConfig) (msgs : List ServerMsg) :
    (heardOf q msgs).countP (Signal.deals pc) ≤ (Weight.dealing pc).downs (some ed) msgs := by
  induction msgs with
  | nil => exact Nat.zero_le _
  | cons msg msgs ih =>
    rw [Weight.downs_cons, Weight.downs_singleton, ← List.singleton_append, heardOf_append,
      List.countP_append, heardOf_singleton]
    refine Nat.add_le_add ?_ ih
    cases hcue : msg.cue q with
    | signal sig =>
      rw [down_dealing hcue]
      cases hd : sig.deals pc <;> simp [Cue.signal?, hd]
    | _ => simp [Cue.signal?]

end

/-- Both PeerConns have remote descriptions, and all of them are made by the other one. -/
structure Link.Mutual (x y : Link) : Prop where
  here : x.remotes ≠ [] ∧ ∀ d ∈ x.remotes, d.id.pc = y.pc
  there : y.remotes ≠ [] ∧ ∀ d ∈ y.remotes, d.id.pc = x.pc

namespace Sys

/-- The users `u` and `v`, on `s` and `t`, as a tie. -/
def tie (σ : Sys) (u v : String) (s t : SocketId) (e f : Engine) : Tie :=
  { lo := e.mesh.side v
    hi := f.mesh.side u
    sightings := sightingsOf v (σ.heard s)
    up := σ.unsaid s e v
    trail := trailOf u (σ.heard t)
    down := heardOf v (σ.heard s) ++ σ.unsaid t f u }

section
variable {cfg : SysConfig} {σ σ' : Sys} {a : Act} {room userId q u v : String} {h hq hu hv : PeerHandle}
  {e e' f f' : Engine}
variable {k k' l l' : Conn} {W : Weight}

/-! ### What is on its way between two members -/

theorem Online.load_down (on : Online σ room userId h e k) :
    σ.load W (.down h.tx) = W.downs (some e.cfg) (σ.heard h.tx) := by
  have here : σ.attached h.tx = true := attached_iff.mpr ⟨e, on.engine, on.running, on.cur⟩
  simp only [load, here, if_true, cfgOf, on.engine, Option.map_some]

theorem Online.load_up (on : Online σ room userId h e k) (wf : WF cfg σ) :
    σ.load W (.wire h.tx) + σ.load W (.out (σ.owner h.tx)) = W.ups (some e.cfg) (σ.wire h.tx ++ e.mesh.out) := by
  have ident := on.ident wf
  have open' : σ.server.IsOpen h.tx := by
    refine ⟨k, on.conn, fun hp => ?_⟩
    rcases on.phase wf with ⟨hp', -⟩ | ⟨_, hp'⟩ <;> rw [hp] at hp' <;> cases hp'
  have running : σ.running? (σ.owner h.tx) = some e := by
    rw [running?, on.engine]
    exact Option.filter_eq_some_iff.mpr ⟨rfl, on.running⟩
  simp only [load, open', if_true, cfgOf, on.engine, running, Option.map_some, Option.getD_some, Weight.ups_append]

/-- An offer comes from a smaller id, and an answer from a greater one. -/
theorem Exclusive.directed (ex : Exclusive σ) (on : Online σ room userId h e k) (wf : WF cfg σ) {sdp : Sdp} :
    (.offer q sdp ∈ σ.heard h.tx → q < userId) ∧ (.answer q sdp ∈ σ.heard h.tx → userId < q) := by
  have light : ∀ msg ∈ σ.heard h.tx, Weight.contrary.down e.cfg msg = 0 := fun msg hm => by
    have none := ex.contrary (.down h.tx)
    rw [on.load_down] at none
    exact Nat.le_zero.mp ((Weight.le_downs hm).trans none.le)
  have id := (on.config wf).2
  constructor
  · intro hm
    have := light _ hm
    simpa [Weight.contrary, id] using this
  · intro hm
    have := light _ hm
    simpa [Weight.contrary, id] using this

theorem tie_sound (wf : WF cfg σ) (ex : Exclusive σ) (hlt : u < v) (U : Online σ room u hu e k)
    (V : Online σ room v hv f l) :
    (σ.tie u v hu.tx hv.tx e f).Sound := by
  have owners := owner_ne wf U V (String.ne_of_lt hlt)
  have sockets : hu.tx ≠ hv.tx := fun h => owners (by rw [h])
  -- The tie's messages lie at six places.
  have places : ∀ pc, (σ.tie u v hu.tx hv.tx e f).dealing pc ≤
      ([.wire hu.tx, .out (σ.owner hu.tx), .down hv.tx, .down hu.tx, .wire hv.tx, .out (σ.owner hv.tx)].map
        (σ.load (.dealing pc))).sum := fun pc => by
    have up := @countP_signalFor_le v pc e.cfg (σ.wire hu.tx ++ e.mesh.out)
    have answers := @countP_signalFor_le u pc f.cfg (σ.wire hv.tx ++ f.mesh.out)
    have trail := @countP_trailOf_le u pc f.cfg (σ.heard hv.tx)
    have heard := @countP_heardOf_le v pc e.cfg (σ.heard hu.tx)
    rw [← U.load_up wf] at up
    rw [← V.load_up wf] at answers
    rw [← V.load_down] at trail
    rw [← U.load_down] at heard
    simp only [Tie.dealing, tie, unsaid, List.countP_append, List.map_cons, List.map_nil, List.sum_cons, List.sum_nil]
    omega
  have nodup : [Place.wire hu.tx, .out (σ.owner hu.tx), .down hv.tx, .down hu.tx, .wire hv.tx,
      .out (σ.owner hv.tx)].Nodup := by
    simp [sockets, Ne.symm sockets, owners]
  refine ⟨fun pc => (places pc).trans ((ex.single pc).sum_le nodup), fun x hx some => ?_, fun y hy => ?_⟩
  · have none := (ex.sole _ e v x U.engine hx).2 fun _ => some
    refine Nat.le_zero.mp ((places x.pc).trans (Nat.le_of_eq ?_))
    simp [none _]
  · exact (ex.sole _ f u y V.engine hy).1.unset

/-! ### What the server sends the two -/

/-- While `q` stays on its socket nobody is told that it has come or gone. -/
theorem unsighted_sends (wf : WF cfg σ) (hs : step cfg σ a = some σ') (listed : σ.server.handle? room userId = some h)
    (before : σ.server.handle? room q = some hq) (after : σ'.server.handle? room q = some hq) :
    ∀ msg ∈ Fifo.sentTo h.tx (σ.sends cfg a), msg.cue q ≠ .seen ∧ msg.cue q ≠ .left := by
  -- The end of a reader loop.
  have cleaned : ∀ {s : SocketId} {me : Option (String × String)}, (σ.server.cleanup s me).handle? room q = some hq →
      ∀ msg ∈ Fifo.sentTo h.tx (Server.cleanupSends σ.server me), msg.cue q ≠ .seen ∧ msg.cue q ≠ .left := by
    intro s me kept msg hm
    rw [Server.cleanup_handle?] at kept
    cases me with
    | none => cases hm
    | some p =>
      obtain ⟨room', gone⟩ := p
      rw [Server.sentTo_cleanupSends wf.server listed] at hm
      split at hm
      · rename_i heq
        rw [List.mem_singleton.mp hm]
        have other : gone ≠ q := by
          rintro rfl
          rw [if_pos (by rw [heq.1])] at kept
          cases kept
        simp [ServerMsg.cue, other]
      · cases hm
  intro msg hm
  cases a with
  | recv s =>
    obtain ⟨m, rest, srv, hw, hstep, rfl⟩ := step_recv_inv hs
    obtain ⟨c, hc, hr, rfl⟩ := Server.step_frame_inv hstep
    have hsends : σ.sends cfg (.recv s) = Server.frameSends cfg.server σ.server s c.me (.text m) := by simp [sends, hw, hc]
    rw [hsends] at hm
    rcases Server.frame_cases cfg.server m hc hr with
      ⟨room', joiner, name, token, rfl, admits, hjoin, -, henroll⟩ | rfl | ⟨-, -, quiet⟩
    · have idle := admits.idle
      have elsewhere : ∀ {userId' h'}, σ.server.handle? room userId' = some h' → s ≠ h'.tx := by
        rintro userId' h' hh rfl
        rw [wf.server.listed _ _ _ hh] at idle
        cases idle
      rw [hjoin, Server.sentTo_joinSends wf.server listed (elsewhere listed)] at hm
      split at hm
      · rename_i hroom
        subst hroom
        split at hm
        · rw [List.mem_singleton.mp hm]
          simp [ServerMsg.cue]
        · rcases List.mem_cons.mp hm with rfl | hm
          · have other : joiner ≠ q := by
              rintro rfl
              have placed : (σ.server.handleFrame cfg.server s c.me
                  (.text (.join room' joiner name token))).handle? room' joiner =
                  some hq := after
              rw [henroll, Server.enroll_handle?, if_pos ⟨rfl, rfl⟩, Option.some.injEq] at placed
              exact elsewhere before (by rw [← placed])
            simp [ServerMsg.cue, other]
          · unfold Server.warning at hm
            split at hm
            · rw [List.mem_singleton.mp hm]
              simp [ServerMsg.cue]
            · cases hm
      · cases hm
    · exact cleaned after msg hm
    · exact ServerMsg.cue_of_not_membership (quiet _ (Fifo.mem_sentTo.mp hm)) q
  | server b =>
    cases b with
    | close s =>
      obtain ⟨-, srv, hstep, rfl⟩ := step_server_inv hs
      obtain ⟨c, hc, hr, rfl⟩ := Server.step_close_inv hstep
      simp only [sends, hc] at hm
      exact cleaned after msg hm
    | _ => cases hm
  | _ => cases hm

/-- What the server reads from a member it passes on to the one it is said to. -/
theorem passed_on (wf : WF cfg σ) (hs : step cfg σ a = some σ') (listed : σ.server.handle? room u = some hu)
    (listed' : σ.server.handle? room v = some hv) {sig : Signal}
    (hm : sig ∈ (σ.reads hu.tx a).filterMap (ClientMsg.signalFor v))
    (fits : sig.fits = true) : sig ∈ heardOf u (Fifo.sentTo hv.tx (σ.sends cfg a)) := by
  cases a with
  | recv s =>
    simp only [reads] at hm
    split at hm
    · rename_i hst
      subst hst
      obtain ⟨m, rest, srv, hw, hstep, rfl⟩ := step_recv_inv hs
      obtain ⟨c, hc, hr, rfl⟩ := Server.step_frame_inv hstep
      have me : c.me = some (room, u) := (Server.ident_of_reading hc hr).symm.trans (wf.server.listed _ _ _ listed)
      have idle : ∀ room' joiner name token, m = .join room' joiner name token →
          Server.Admits cfg.server σ.server hu.tx room' joiner name token → hu.tx ≠ hv.tx := by
        rintro _ _ _ _ - admits -
        have vacant := admits.idle
        rw [wf.server.listed _ _ _ listed] at vacant
        cases vacant
      have hsends : σ.sends cfg (.recv hu.tx) = Server.frameSends cfg.server σ.server hu.tx c.me (.text m) := by
        simp [sends, hw, hc]
      rw [hsends, Server.heardOf_frameSends wf.server listed' hc hr idle, if_pos me]
      rw [hw, List.take_succ_cons, List.take_zero] at hm
      obtain ⟨m', hm', hsig⟩ := List.mem_filterMap.mp hm
      cases List.mem_singleton.mp hm'
      rw [hsig]
      simpa using fits
    · cases hm
  | _ => cases hm

/-! ### One step -/

theorem pending_quiet (k : Conn) : trailOf q k.pending = [] := by
  refine List.filterMap_eq_nil_iff.mpr fun msg hm => ?_
  obtain ⟨_, _, roster, -, rfl⟩ := mem_pending hm
  simp only [ServerMsg.cue]
  split <;> rfl

theorem sightingsOf_pending (k : Conn) (q : String) : sightingsOf q k.pending = [] ∨ sightingsOf q k.pending = [true] := by
  cases h : k.phase with
  | joining room userId roster =>
    have pending : k.pending = [.roster roster] := by rw [Conn.pending, h]
    rw [pending, sightingsOf_singleton]
    simp only [ServerMsg.cue]
    split
    · exact .inr rfl
    · exact .inl rfl
  | reading => exact .inl (by rw [Conn.pending, h]; rfl)
  | ended => exact .inl (by rw [Conn.pending, h]; rfl)

theorem turnMsgs_quiet (now : Nat) :
    trailOf q (turnMsgs cfg now userId) = [] ∧ sightingsOf q (turnMsgs cfg now userId) = [] := by
  have cue : ∀ msg ∈ turnMsgs cfg now userId, msg.cue q = .other := fun msg hm => by
    obtain ⟨t, -, rfl⟩ := Option.map_eq_some_iff.mp (Option.mem_toList.mp hm)
    rfl
  exact ⟨List.filterMap_eq_nil_iff.mpr fun msg hm => by rw [cue msg hm]; rfl,
    List.filterMap_eq_nil_iff.mpr fun msg hm => by rw [cue msg hm]; rfl⟩

/-- What a step makes of a member, as far as one goes that stays on its socket: it is sent something and read from, or it
    takes a cue. -/
inductive Tends (cfg : SysConfig) (σ σ' : Sys) (a : Act) (s : SocketId) (q : String) (e e' : Engine) : Prop
  | told (side : e'.mesh.side q = e.mesh.side q)
      (unsaid : σ.unsaid s e q = (σ.reads s a).filterMap (ClientMsg.signalFor q) ++ σ'.unsaid s e' q)
      (sightings : sightingsOf q (σ'.heard s) = sightingsOf q (σ.heard s))
      (trail : trailOf q (σ'.heard s) = trailOf q (σ.heard s) ++ (heardOf q (Fifo.sentTo s (σ.sends cfg a))).map some)
      (heard : heardOf q (σ'.heard s) = heardOf q (σ.heard s) ++ heardOf q (Fifo.sentTo s (σ.sends cfg a)))
  | hears (cue : Cue) (out : List Signal) (own : (SysEvent.act a).client = some (σ.owner s))
      (takes : cue = .other ∨ ∃ msg, msg ∈ σ.heard s ∧ e.mesh.ready msg = true ∧ (∀ by', msg ≠ .rekey by') ∧
        cue = msg.cue q)
      (reacts : Side.Reacts cfg.rtc (decide (e.mesh.myId < q)) (e.mesh.pcFor q) (e.mesh.side q) cue (e'.mesh.side q)
        (out.filter Signal.negotiates))
      (unsaid : σ'.unsaid s e' q = σ.unsaid s e q ++ out)
      (sightings : sightingsOf q (σ.heard s) = cue.sighting?.toList ++ sightingsOf q (σ'.heard s))
      (trail : trailOf q (σ.heard s) = cue.track?.toList ++ trailOf q (σ'.heard s))
      (heard : heardOf q (σ.heard s) = cue.signal?.toList ++ heardOf q (σ'.heard s))

theorem tends_step (wf : WF cfg σ) (hs : step cfg σ a = some σ') (careful : Careful cfg σ a σ')
    (rosters : RostersDistinct σ)
    (on' : Online σ' room userId h e' k') (listed : σ.server.handle? room userId = some h)
    (before : σ.server.handle? room q = some hq) (after : σ'.server.handle? room q = some hq) :
    ∃ e k, Online σ room userId h e k ∧ Tends cfg σ σ' a h.tx q e e' := by
  have event : next cfg σ (.act a) = some σ' := hs
  obtain ⟨e, k, on, turns⟩ := turn_step wf event careful.room careful.calls
    (fun s peers hm => rosters s peers (mem_heard.mpr (.inl hm))) on' listed
  refine ⟨e, k, on, ?_⟩
  cases turns q with
  | told side sent unsaid down pending =>
    have unsighted := unsighted_sends wf hs listed before after
    have news : σ.news cfg (.act a) = σ.sends cfg a := rfl
    refine .told side unsaid ?_ ?_ ?_
    · simp only [on.heard, on'.heard, down, pending, news, sightingsOf_append, sightingsOf_eq_nil unsighted,
        List.append_nil]
    · simp only [on.heard, on'.heard, down, pending, news, trailOf_append, pending_quiet, List.append_nil,
        trailOf_eq_map fun msg hm => (unsighted msg hm).2]
    · simp only [on.heard, on'.heard, down, pending, news, heardOf_append, heardOf_pending, List.append_nil]
  | finished now act side sent unsaid down pending =>
    cases act
    obtain ⟨trail, sightings⟩ := @turnMsgs_quiet cfg userId q now
    have silent : Fifo.sentTo h.tx (σ.sends cfg (.server (.finishJoin h.tx now))) = [] := rfl
    refine .told side unsaid ?_ ?_ ?_
    · simp only [on.heard, on'.heard, down, pending, sightingsOf_append, sightings, List.append_nil]
    · simp only [on.heard, on'.heard, down, pending, silent, trailOf_append, trail, heardOf_nil,
        List.map_nil, List.append_nil]
    · simp only [on.heard, on'.heard, down, pending, silent, heardOf_append, heardOf_turnMsgs, heardOf_nil, List.append_nil]
  | hears cue taken ms own takes reacts sent unsaid down pending reports race =>
    have heard : σ.heard h.tx = taken ++ σ'.heard h.tx := by
      rw [on.heard, on'.heard, down, pending, List.append_assoc]
    refine .hears cue (ms.filterMap (ClientMsg.signalFor q)) own ?_ reacts unsaid ?_ ?_ ?_
    · rcases takes with ⟨-, hcue, -⟩ | ⟨w, msg, hw, hin, -, hcue⟩
      · exact .inl hcue
      · have hm : msg ∈ σ.heard h.tx := mem_heard.mpr (.inl (List.mem_of_mem_head? hin))
        have taken : σ.taken (.act a) = some (e, msg) := taken_of hw on.engine on.running on.cur hin
        exact .inr ⟨msg, hm, careful.ready _ taken, careful.unturned _ taken, hcue⟩
    · rw [heard, sightingsOf_append]
      rcases takes with ⟨rfl, rfl, -⟩ | ⟨w, msg, -, -, rfl, rfl⟩
      · rfl
      · rw [sightingsOf_singleton]
    · rw [heard, trailOf_append]
      rcases takes with ⟨rfl, rfl, -⟩ | ⟨w, msg, -, -, rfl, rfl⟩
      · rfl
      · rw [trailOf_singleton]
    · rw [heard, heardOf_append]
      rcases takes with ⟨rfl, rfl, -⟩ | ⟨w, msg, -, -, rfl, rfl⟩
      · rfl
      · rw [heardOf_singleton]

/-- Two members that were listed before a step have taken a step of their tie. -/
theorem tie_step (wf : WF cfg σ) (hs : step cfg σ a = some σ') (careful : Careful cfg σ a σ')
    (ex : Exclusive σ) (hlt : u < v)
    (U' : Online σ' room u hu e' k') (V' : Online σ' room v hv f' l') (listedU : σ.server.handle? room u = some hu)
    (listedV : σ.server.handle? room v = some hv) :
    ∃ e k f l, Online σ room u hu e k ∧ Online σ room v hv f l ∧
      Tie.Step (σ.ends cfg u v hu.tx hv.tx) (σ.tie u v hu.tx hv.tx e f) (σ'.tie u v hu.tx hv.tx e' f') := by
  obtain ⟨e, k, U, here⟩ := tends_step wf hs careful ex.rosters U' listedU listedV V'.listed
  obtain ⟨f, l, V, there⟩ := tends_step wf hs careful ex.rosters V' listedV listedU U'.listed
  refine ⟨e, k, f, l, U, V, ?_⟩
  obtain ⟨ownerU, idU⟩ := wf.mesh _ _ U.engine
  obtain ⟨ownerV, idV⟩ := wf.mesh _ _ V.engine
  rw [(U.config wf).2] at idU
  rw [(V.config wf).2] at idV
  have pcU : e.mesh.pcFor v = (σ.ends cfg u v hu.tx hv.tx).lo := by
    funext n
    rw [Mesh.pcFor, ownerU]
    rfl
  have pcV : f.mesh.pcFor u = (σ.ends cfg u v hu.tx hv.tx).hi := by
    funext n
    rw [Mesh.pcFor, ownerV]
    rfl
  -- A client's own step is none of the server's.
  have silent : ∀ {c : ClientId}, (SysEvent.act a).client = some c → ∀ s, σ.sends cfg a = [] ∧ σ.reads s a = [] :=
    fun own s => @client_silent cfg σ (.act a) _ own s
  cases here with
  | told side unsaid sightings trail heard =>
    cases there with
    | told side' unsaid' sightings' trail' heard' =>
      refine .passes ⟨side, side', sightings, fun sig hm fits => ?_, trail', fun sig hm fits => ?_⟩
      · simp only [tie, unsaid] at hm
        rcases List.mem_append.mp hm with hm | hm
        · exact .inr (passed_on wf hs listedU listedV hm fits)
        · exact .inl hm
      · simp only [tie, unsaid', heard] at hm ⊢
        rcases List.mem_append.mp hm with hm | hm
        · exact List.mem_append_left _ (List.mem_append_left _ hm)
        · rcases List.mem_append.mp hm with hm | hm
          · exact List.mem_append_left _ (List.mem_append_right _ (passed_on wf hs listedV listedU hm fits))
          · exact List.mem_append_right _ hm
    | hears cue out own takes reacts unsaid' sightings' trail' heard' =>
      obtain ⟨sends, reads⟩ := silent own hu.tx
      rw [idV, decide_eq_false (String.lt_asymm hlt), pcV] at reacts
      refine .hi ⟨reacts, ?_, fun sdp hcue => ?_, side, sightings, ?_, trail', ?_⟩
      · rintro rfl
        rcases takes with h | ⟨msg, -, -, unturned, h⟩
        · cases h
        · obtain ⟨by', rfl⟩ := ServerMsg.cue_eq_rekey h.symm
          exact unturned by' rfl
      · rcases takes with h | ⟨msg, hm, -, -, h⟩
        · cases hcue.symm.trans h
        · cases ServerMsg.cue_eq_signal (h.symm.trans hcue)
          exact String.lt_asymm hlt ((ex.directed V wf).2 hm)
      · simp only [tie, unsaid, reads, List.filterMap_nil, List.nil_append]
      · simp only [tie, heard, unsaid', sends, Fifo.sentTo_nil, heardOf_nil, List.append_nil, List.append_assoc]
  | hears cue out own takes reacts unsaid sightings trail heard =>
    cases there with
    | hears cue' out' own' => exact absurd (Option.some.inj (own.symm.trans own')) (owner_ne wf U V (String.ne_of_lt hlt))
    | told side' unsaid' sightings' trail' heard' =>
      obtain ⟨sends, reads⟩ := silent own hv.tx
      have greater : e.mesh.myId < v := by rw [idU]; exact hlt
      rw [decide_eq_true greater, pcU] at reacts
      refine .lo ⟨reacts, ?_, fun sdp hcue => ?_, fun hcue => ?_, fun sdp x hcue hx => ?_, side', sightings, unsaid, ?_, ?_⟩
      · rintro rfl
        rcases takes with h | ⟨msg, -, -, unturned, h⟩
        · cases h
        · obtain ⟨by', rfl⟩ := ServerMsg.cue_eq_rekey h.symm
          exact unturned by' rfl
      · rcases takes with h | ⟨msg, hm, -, -, h⟩
        · cases hcue.symm.trans h
        · cases ServerMsg.cue_eq_signal (h.symm.trans hcue)
          exact String.lt_asymm hlt ((ex.directed U wf).1 hm)
      · rcases takes with h | ⟨msg, -, ready, -, h⟩
        · cases hcue.symm.trans h
        · exact Mesh.ready_seen ready (h.symm.trans hcue) greater
      · rcases takes with h | ⟨msg, -, ready, -, h⟩
        · cases hcue.symm.trans h
        · obtain ⟨p, hp, rfl⟩ := Option.map_eq_some_iff.mp hx
          exact Mesh.ready_answer ready (h.symm.trans hcue) hp
      · simp only [tie, trail', sends, Fifo.sentTo_nil, heardOf_nil, List.map_nil, List.append_nil]
      · simp only [tie, heard, unsaid', reads, List.filterMap_nil, List.nil_append, List.append_assoc]

/-- When one of the two has just got into the room, the smaller id is about to see the other one. -/
theorem tie_begins (wf : WF cfg σ) (hs : step cfg σ (.recv hq.tx) = some σ') (careful : Careful cfg σ (.recv hq.tx) σ')
    (rosters : RostersDistinct σ) {name : String} {token : Option String} {rest : List ClientMsg}
    (wire : σ.wire hq.tx = .join room q name token :: rest)
    (admits : Server.Admits cfg.server σ.server hq.tx room q name token) (hlt : u < v) (U' : Online σ' room u hu e' k')
    (V' : Online σ' room v hv f' l') (new : q = u ∧ hq = hu ∧ σ.server.handle? room v = some hv ∨
      q = v ∧ hq = hv ∧ σ.server.handle? room u = some hu) : (sightingsOf v (σ'.heard hu.tx)).getLast? = some true := by
  have event : next cfg σ (.act (.recv hq.tx)) = some σ' := hs
  have hne : u ≠ v := String.ne_of_lt hlt
  have vacant := admits.idle
  rcases new with ⟨rfl, rfl, listed⟩ | ⟨rfl, rfl, listed⟩
  · obtain ⟨-, old, heard, -⟩ := heard_entered event wire admits
    have named : (ServerMsg.roster (Server.rosterOf (σ.server.roomOf room) q)).cue v = .seen :=
      if_pos (Server.mem_rosterOf.mpr ⟨Ne.symm hne, hv, listed⟩)
    rw [heard, sightingsOf_append, sightingsOf_singleton, named]
    simp [Cue.sighting?]
  · have elsewhere : hq.tx ≠ hu.tx := fun he => by
      rw [he, wf.server.listed _ _ _ listed] at vacant
      cases vacant
    obtain ⟨e, k, U, turns⟩ := turn_step wf event careful.room careful.calls
      (fun s peers hm => rosters s peers (mem_heard.mpr (.inl hm))) U' listed
    cases turns q with
    | hears cue taken ms own => cases own
    | finished now act => cases act
    | told side sent unsaid down pending =>
      obtain ⟨hnews, -⟩ := heard_entered event wire admits
      have told : Fifo.sentTo hu.tx (σ.news cfg (.act (.recv hq.tx))) = .peerJoined q name ::
          Server.warning (((σ.server.roomOf room).erase q).insert q { name, tx := hq.tx }).keys.length := by
        rw [hnews, Server.sentTo_joinSends wf.server listed elsewhere, if_pos rfl, if_neg hne]
      have quiet : ∀ n, sightingsOf q (Server.warning n) = [] := fun n => by
        unfold Server.warning
        split <;> rfl
      have named : (ServerMsg.peerJoined q name).cue q = .seen := if_pos rfl
      -- It is told of the newcomer last of all, or by a Roster that comes behind.
      have shown : sightingsOf q (σ'.heard hu.tx) =
          sightingsOf q (σ.downstream hu.tx k) ++ [true] ++ sightingsOf q k.pending := by
        rw [U'.heard, down, told, pending]
        simp only [sightingsOf_append, ← List.singleton_append (l := Server.warning _), sightingsOf_singleton, named, quiet]
        simp [Cue.sighting?]
      rw [shown]
      rcases sightingsOf_pending k q with h | h <;> rw [h] <;> simp

/-- Every two members are at a stage of getting to be negotiated with each other. -/
def Tied (σ : Sys) : Prop := ∀ room u v hu hv e k f l, u < v → Online σ room u hu e k → Online σ room v hv f l →
  (σ.tie u v hu.tx hv.tx e f).Stage

theorem tied_step (fits : Fits cfg.rtc) (wf : WF cfg σ) (hs : step cfg σ a = some σ') (careful : Careful cfg σ a σ')
    (ex : Exclusive σ) (tied : Tied σ) : Tied σ' := by
  intro room u v hu hv e' k' f' l' hlt U' V'
  have begins : ∀ {q hq name token rest}, a = .recv hq.tx → σ.wire hq.tx = .join room q name token :: rest →
      Server.Admits cfg.server σ.server hq.tx room q name token →
      (q = u ∧ hq = hu ∧ σ.server.handle? room v = some hv ∨ q = v ∧ hq = hv ∧ σ.server.handle? room u = some hu) →
      (σ'.tie u v hu.tx hv.tx e' f').Stage := by
    rintro q hq name token rest rfl wire admits new
    exact .due (tie_begins wf hs careful ex.rosters wire admits hlt U' V' new)
  rcases listed_cases wf hs U'.listed with listedU | ⟨name, token, rest, act, -, wire, admits⟩
  · rcases listed_cases wf hs V'.listed with listedV | ⟨name, token, rest, act, -, wire, admits⟩
    · obtain ⟨e, k, f, l, U, V, step⟩ := tie_step wf hs careful ex hlt U' V' listedU listedV
      exact (tied room u v hu hv e k f l hlt U V).step (tie_sound wf ex hlt U V) fits step
    · exact begins act wire admits (.inr ⟨rfl, rfl, listedU⟩)
  · rcases listed_cases wf hs V'.listed with listedV | ⟨name', token', rest', act', -, wire', admits'⟩
    · exact begins act wire admits (.inl ⟨rfl, rfl, listedV⟩)
    · -- One Join is not of two users.
      have same : hu.tx = hv.tx := Act.recv.inj (act.symm.trans act')
      exact absurd (congrArg σ'.owner same) (owner_ne (wf_step wf hs) U' V' (String.ne_of_lt hlt))

theorem tied_reach (fits : Fits cfg.rtc) (reach : Lts.Reach (step cfg) (Careful cfg) empty σ) : Tied σ :=
  reach.invariant_over (fun _ reach => exclusive_reach reach) (fun _ _ _ _ _ _ _ _ _ _ U => by cases U.engine)
    fun _ _ _ inv _ tied careful hs => tied_step fits inv.1 hs careful inv.2 tied

/-- All remote descriptions of a PeerConn that a client holds have been made by one PeerConn. -/
def Monogamous (σ : Sys) : Prop :=
  ∀ c e q x, σ.engines c = some e → e.mesh.link? q = some x → ∀ d ∈ x.remotes, ∀ d' ∈ x.remotes, d.id.pc = d'.id.pc

/-- The members of a room hold PeerConns for each other, with remote descriptions that the other one has made. -/
def Reunited (σ : Sys) : Prop :=
  ∀ room u v hu hv e k f l, u ≠ v → Online σ room u hu e k → Online σ room v hv f l →
    ∃ x y, e.mesh.link? v = some x ∧ f.mesh.link? u = some y ∧ x.Mutual y

/-- In a run in which every client is ready for what it handles a PeerConn is only ever negotiated with one other, and once
    nothing is on its way every two members are negotiated with each other. -/
theorem negotiated_once (fits : Fits cfg.rtc) (reach : Lts.Reach (step cfg) (Careful cfg) empty σ) :
    Monogamous σ ∧ (Drained σ → Reunited σ) := by
  obtain ⟨wf, ex⟩ := exclusive_reach reach
  refine ⟨fun c e q x he hx d hd d' hd' => ?_, fun drained room u v hu hv e k f l hne U V => ?_⟩
  · have one := (ex.sole c e q x he hx).1.one
    obtain ⟨i, hi, rfl⟩ := List.getElem_of_mem hd
    obtain ⟨j, hj, rfl⟩ := List.getElem_of_mem hd'
    obtain rfl : i = j := by omega
    rfl
  · have reunited : ∀ {u v hu hv e k f l}, u < v → Online σ room u hu e k → Online σ room v hv f l →
        ∃ x y, e.mesh.link? v = some x ∧ f.mesh.link? u = some y ∧ x.Mutual y := by
      intro u v hu hv e k f l hlt U V
      have stage := tied_reach fits reach room u v hu hv e k f l hlt U V
      obtain ⟨heardU, unsaidU⟩ := drained.silent wf U
      obtain ⟨heardV, unsaidV⟩ := drained.silent wf V
      obtain ⟨x, y, off, ans, here, there, took, took', own, theirs, -⟩ :=
        stage.settled (by simp [tie, heardU, sightingsOf])
        (unsaidU v) (by simp [tie, heardV, trailOf]) (by simp [tie, heardU, unsaidV])
      exact ⟨x, y, here, there, ⟨by simp [took], by simp [took, theirs]⟩, ⟨by simp [took'], by simp [took', own]⟩⟩
    by_cases hlt : u < v
    · exact reunited hlt U V
    · have hgt : v < u := String.not_le.mp fun hle => hne (String.le_antisymm hle (String.not_lt.mp hlt))
      obtain ⟨y, x, there, here, mutual'⟩ := reunited hgt V U
      exact ⟨x, y, here, there, mutual'.there, mutual'.here⟩

end

/-! ### Runs that can be executed -/

/-- The action with calls of the library that all succeed. -/
def smooth : Act → Act
  | .handle c _ => .handle c noFailure
  | a => a

theorem smooth_allOk (a : Act) : ∀ p ∈ (SysEvent.act (smooth a)).handler, p.2.AllOk := by
  intro p hp
  cases a with
  | handle c w =>
    cases hp
    exact fun _ _ => rfl
  | _ => cases hp

/-- `Careful` without the calls of the library, where `strict`, and else `Unharmed`. -/
def carefulTest (strict : Bool) (σ : Sys) (a : Act) (σ' : Sys) : Bool :=
  decide σ'.server.NeverFull && (σ.taken (.act a)).all fun p =>
    (!strict || p.1.mesh.ready p.2) && match p.2 with
      | .rekey _ => false
      | _ => true

section
variable {cfg : SysConfig} {σ σ' : Sys} {a : Act} {strict : Bool}

theorem unharmed_of_test (h : carefulTest strict σ (smooth a) σ' = true) : Unharmed cfg σ (smooth a) σ' := by
  obtain ⟨room, taken⟩ := Bool.and_eq_true_iff.mp h
  refine ⟨of_decide_eq_true room, smooth_allOk a, fun p hp by' heq => ?_⟩
  rw [Option.mem_def.mp hp, Option.all_some, heq] at taken
  simp at taken

theorem careful_of_test (h : carefulTest true σ (smooth a) σ' = true) : Careful cfg σ (smooth a) σ' := by
  refine ⟨unharmed_of_test h, fun p hp => ?_⟩
  obtain ⟨-, taken⟩ := Bool.and_eq_true_iff.mp h
  rw [Option.mem_def.mp hp, Option.all_some] at taken
  simpa using (Bool.and_eq_true_iff.mp taken).1

end

/-- The second member joins as another client, and the first one makes it an offer. -/
def anewActs : List Act :=
  startActs "bob" 2 ++ getActs 0 0 1 ++ sendActs 0 0 ++ getActs 2 2 2 ++ sendActs 2 2 ++ getActs 0 0 1

/-- It comes back after the first one has seen it go. What it said last has not been read. -/
def returnActs : List Act :=
  connectActs ++ [.event 1 (.command .toggleTx), .server (.close 1), .lost 1] ++ getActs 0 0 1 ++ anewActs

def afterReturn : Sys := (Lts.exec (step sampleConfig) empty returnActs).getD empty

theorem negotiated_once_alice :
    Monogamous afterReturn ∧ ∃ e f x y, afterReturn.engines 0 = some e ∧ afterReturn.engines 2 = some f ∧
      e.mesh.link? "bob" = some x ∧ f.mesh.link? "alice" = some y ∧ x.Mutual y := by
  have reach : Lts.Reach (step sampleConfig) (Careful sampleConfig) empty afterReturn :=
    .relabel smooth (.of_execOk (fun _ _ _ => careful_of_test)
      (show Lts.execOk (fun σ a => step sampleConfig σ (smooth a)) (fun σ a =>
        carefulTest true σ (smooth a)) empty returnActs = _
        from rfl))
  obtain ⟨once, reunited⟩ := negotiated_once sampleFits reach
  obtain ⟨x, y, here, there, mutual'⟩ := reunited (by decide) "r" "alice" "bob" _ _ _ _ _ _ (by decide)
    ⟨rfl, rfl, rfl, rfl, rfl, rfl⟩ ⟨rfl, rfl, rfl, rfl, rfl, rfl⟩
  exact ⟨once, _, _, x, y, rfl, rfl, here, there, mutual'⟩

/-- It comes back without having left. -/
def rejoinActs : List Act := connectActs ++ anewActs

def afterRejoin : Sys := (Lts.exec (step sampleConfig) empty rejoinActs).getD empty

theorem negotiated_twice :
    ¬ ∀ σ, Lts.Reach (step sampleConfig) (Unharmed sampleConfig) empty σ → Monogamous σ ∧ (Drained σ → Reunited σ) := by
  intro all
  have reach : Lts.Reach (step sampleConfig) (Unharmed sampleConfig) empty afterRejoin :=
    .relabel smooth (.of_execOk (fun _ _ _ => unharmed_of_test)
      (show Lts.execOk (fun σ a => step sampleConfig σ (smooth a)) (fun σ a =>
        carefulTest false σ (smooth a)) empty rejoinActs = _
        from rfl))
  have shown : (((afterRejoin.engines 0).bind fun e => e.mesh.link? "bob").map fun x => x.remotes.map (·.id.pc.owner)) =
      some [1, 2] := by decide
  obtain ⟨x, hx, owners⟩ := Option.map_eq_some_iff.mp shown
  obtain ⟨e, he, hx⟩ := Option.bind_eq_some_iff.mp hx
  -- The two clients of the user have both answered.
  have answered : ∀ c, c ∈ [1, 2] → ∃ d ∈ x.remotes, d.id.pc.owner = c := fun c hc => by
    rw [← owners] at hc
    exact List.mem_map.mp hc
  obtain ⟨d, hd, first⟩ := answered 1 (by simp)
  obtain ⟨d', hd', second⟩ := answered 2 (by simp)
  have same := congrArg PcId.owner ((all _ reach).1 0 e "bob" x he hx d hd d' hd')
  rw [first, second] at same
  cases same

end Sys

end SquadLink

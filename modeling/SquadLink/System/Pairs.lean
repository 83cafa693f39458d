import SquadLink.System.Strangers

/-! Two members of a room as a pair. In a run in which nobody leaves, two clients that have just got into one
    room know nothing of each other, and every later step of the system is a step of the pair. -/

namespace SquadLink

namespace Sys

/-- What `q` has said and the client on `s` has still to hear, when `f` on `t` is the engine of `q`. -/
def lane (σ : Sys) (s : SocketId) (userId : String) (t : SocketId) (f : Engine) (q : String) : List Signal :=
  heardOf q (σ.heard s) ++ (σ.unsaid t f userId).filter Signal.fits

/-- The users `u` and `v`, on `s` and `t`, as a pair. -/
def pair (σ : Sys) (u v : String) (s t : SocketId) (e f : Engine) : Pair :=
  { lo := ⟨e.mesh.side v, e.mesh.sent.filterMap (ClientMsg.signalFor v)⟩
    hi := ⟨f.mesh.side u, f.mesh.sent.filterMap (ClientMsg.signalFor u)⟩
    up := σ.lane t v s e u
    down := σ.lane s u t f v
    sees := (σ.heard s).countP fun msg => decide (msg.cue v = .seen)
    rekeys := (σ.heard s).countP fun msg => decide (msg.cue v = .rekey) }

/-- The library, and the names of the PeerConns that the clients on `s` and `t` make for each other. -/
def ends (cfg : SysConfig) (σ : Sys) (u v : String) (s t : SocketId) : Ends :=
  { rtc := cfg.rtc
    lo := fun n => { owner := σ.owner s, peer := v, serial := n }
    hi := fun n => { owner := σ.owner t, peer := u, serial := n } }

section
variable {cfg : SysConfig} {σ σ' : Sys} {ev : SysEvent} {room userId q : String} {h : PeerHandle}
  {e e' : Engine} {k k' : Conn}

/-- When nothing is on its way a member has nothing to hear and nothing to say. -/
theorem Drained.silent (drained : Drained σ) (wf : WF cfg σ) (on : Online σ room userId h e k) :
    σ.heard h.tx = [] ∧ ∀ q, σ.unsaid h.tx e q = [] := by
  obtain ⟨down, pending⟩ := drained.settled on wf
  refine ⟨by rw [on.heard, down, pending, List.append_nil], fun q => ?_⟩
  obtain ⟨wire, out⟩ := drained.said on wf
  rw [unsaid, wire, out]
  rfl

theorem heardOf_pending (k : Conn) (q : String) : heardOf q k.pending = [] := by
  refine heardOf_eq_nil fun msg hm => ?_
  obtain ⟨_, _, roster, -, rfl⟩ := mem_pending hm
  simp only [ServerMsg.cue]
  split <;> rfl

theorem heardOf_turnMsgs (now : Nat) (userId : String) : heardOf q (turnMsgs cfg now userId) = [] := by
  refine heardOf_eq_nil fun msg hm => ?_
  obtain ⟨t, -, rfl⟩ := Option.map_eq_some_iff.mp (Option.mem_toList.mp hm)
  rfl

theorem countP_turnMsgs (now : Nat) (userId : String) {cue : Cue} (hcue : cue ≠ .other) :
    (turnMsgs cfg now userId).countP (fun msg => decide (msg.cue q = cue)) = 0 := by
  refine List.countP_eq_zero.mpr fun msg hm => ?_
  obtain ⟨t, -, rfl⟩ := Option.map_eq_some_iff.mp (Option.mem_toList.mp hm)
  simp [ServerMsg.cue, Ne.symm hcue]

/-- What a step makes of a member, as far as `q` goes: it is sent something and is read from, or it takes a
    cue. -/
inductive Attends (cfg : SysConfig) (σ σ' : Sys) (ev : SysEvent) (s : SocketId) (q : String) (e e' : Engine) : Prop
  | told (side : e'.mesh.side q = e.mesh.side q) (sent : e'.mesh.sent = e.mesh.sent)
      (unsaid : σ.unsaid s e q = (σ.takes s ev).filterMap (ClientMsg.signalFor q) ++ σ'.unsaid s e' q)
      (heard : heardOf q (σ'.heard s) = heardOf q (σ.heard s) ++ heardOf q (Fifo.sentTo s (σ.news cfg ev)))
      (count : ∀ cue, cue ≠ .other → (σ'.heard s).countP (fun msg => decide (msg.cue q = cue)) =
        (σ.heard s).countP (fun msg => decide (msg.cue q = cue)) +
          (Fifo.sentTo s (σ.news cfg ev)).countP fun msg => decide (msg.cue q = cue))
  | hears (cue : Cue) (ms : List ClientMsg) (own : ev.client = some (σ.owner s))
      (takes : cue = .other ∧ ev.handler = none ∨ ∃ w msg, ev.handler = some (σ.owner s, w) ∧
        (σ.inbox s).head? = some msg ∧ cue = msg.cue q)
      (reacts : Side.Reacts cfg.rtc (decide (e.mesh.myId < q)) (e.mesh.pcFor q) (e.mesh.side q) cue (e'.mesh.side q)
        ((ms.filterMap (ClientMsg.signalFor q)).filter Signal.negotiates))
      (sent : e'.mesh.sent = e.mesh.sent ++ ms)
      (unsaid : σ'.unsaid s e' q = σ.unsaid s e q ++ ms.filterMap (ClientMsg.signalFor q))
      (heard : heardOf q (σ.heard s) = cue.signal?.toList ++ heardOf q (σ'.heard s))
      (count : ∀ c, c ≠ .other → (σ.heard s).countP (fun msg => decide (msg.cue q = c)) =
        (σ'.heard s).countP (fun msg => decide (msg.cue q = c)) + if cue = c then 1 else 0)
      (reports : ∀ cand, .ice cand ∈ ms.filterMap (ClientMsg.signalFor q) → cand ∈ ev.reports ∧ cand.pc.peer = q)
      (race : ∀ c w out, ev = .race c w out → ms = out)

theorem Turns.attends (turns : Turns cfg σ σ' ev h.tx userId q e k e' k') (on : Online σ room userId h e k)
    (on' : Online σ' room userId h e' k') : Attends cfg σ σ' ev h.tx q e e' := by
  cases turns with
  | told side sent unsaid down pending =>
    refine .told side sent unsaid ?_ fun cue _ => ?_
    · simp only [on.heard, on'.heard, down, pending, heardOf_append, heardOf_pending, List.append_nil]
    · simp only [on.heard, on'.heard, down, pending, List.countP_append]
      omega
  | finished now act side sent unsaid down pending =>
    subst act
    have silent : Fifo.sentTo h.tx (σ.news cfg (.act (.server (.finishJoin h.tx now)))) = [] := rfl
    refine .told side sent unsaid ?_ fun cue hcue => ?_
    · simp only [on.heard, on'.heard, down, pending, silent, heardOf_append, heardOf_pending, heardOf_turnMsgs, heardOf_nil,
        List.append_nil]
    · simp only [on.heard, on'.heard, down, pending, silent, List.countP_append,
        countP_turnMsgs now userId hcue, List.countP_nil]
  | hears cue taken ms own takes reacts sent unsaid down pending reports race =>
    have parts : heardOf q taken = cue.signal?.toList ∧ ∀ c, c ≠ .other →
        taken.countP (fun msg => decide (msg.cue q = c)) = if cue = c then 1 else 0 := by
      rcases takes with ⟨rfl, rfl, -⟩ | ⟨w, msg, -, -, rfl, rfl⟩
      · exact ⟨rfl, fun c hc => by rw [if_neg (Ne.symm hc), List.countP_nil]⟩
      · exact ⟨heardOf_singleton q msg, fun c _ => by simp [List.countP_singleton]⟩
    refine .hears cue ms own ?_ reacts sent unsaid ?_ (fun c hc => ?_) reports race
    · refine takes.imp And.right ?_
      rintro ⟨w, msg, hw, hin, -, hcue⟩
      exact ⟨w, msg, hw, hin, hcue⟩
    · simp only [on.heard, on'.heard, down, pending, heardOf_append, parts.1, List.append_assoc]
    · simp only [on.heard, on'.heard, down, pending, List.countP_append, parts.2 c hc]
      omega

/-- A client's own event is none of the server's. -/
theorem client_silent {c : ClientId} (hev : ev.client = some c) (s : SocketId) :
    σ.news cfg ev = [] ∧ σ.takes s ev = [] := by
  cases ev with
  | race c w said => exact ⟨rfl, rfl⟩
  | act a =>
    cases a with
    | recv t | server b => cases hev
    | _ => exact ⟨rfl, rfl⟩

/-- Two members are different clients. -/
theorem owner_ne (wf : WF cfg σ) {u v : String} {hu hv : PeerHandle} {f : Engine} {l : Conn} (U : Online σ room u hu e k)
    (V : Online σ room v hv f l) (hne : u ≠ v) : σ.owner hu.tx ≠ σ.owner hv.tx := by
  intro howner
  have he := U.engine
  rw [howner, V.engine, Option.some.injEq] at he
  subst he
  have htx : hv.tx = hu.tx := Option.some.inj (V.cur.symm.trans U.cur)
  have hident := U.ident wf
  rw [← htx, V.ident wf, Option.some.injEq, Prod.mk.injEq] at hident
  exact hne hident.2.symm

/-- The part of the client on `s` in a step: what it takes, and what it says to `q`. -/
structure Minds (σ : Sys) (ev : SysEvent) (s : SocketId) (q : String) (cue : Cue) (out : List Signal) : Prop where
  own : ev.client = some (σ.owner s)
  takes : cue = .other ∧ ev.handler = none ∨ ∃ w msg, ev.handler = some (σ.owner s, w) ∧
    (σ.inbox s).head? = some msg ∧ cue = msg.cue q
  reports : ∀ cand, .ice cand ∈ out → cand ∈ ev.reports ∧ cand.pc.peer = q
  race : ∀ c w said, ev = .race c w said → out = said.filterMap (ClientMsg.signalFor q)

/-- The move of a pair is its part in a step of the system. -/
def Follows (σ : Sys) (ev : SysEvent) (u v : String) (s t : SocketId) : Pair.Move → Prop
  | .lo cue out => Minds σ ev s v cue out
  | .hi cue out => Minds σ ev t u cue out
  | .rotate _ => True

/-- A step of forming tells no member of another one's coming or going. -/
theorem news_unseen (wf : WF cfg σ) (hs : next cfg σ ev = some σ') (forming : Forming cfg σ ev σ')
    {v : String} {hv : PeerHandle}
    (listed : σ.server.handle? room userId = some h) (listed' : σ.server.handle? room v = some hv) :
    (Fifo.sentTo h.tx (σ.news cfg ev)).countP (fun msg => decide (msg.cue v = .seen)) = 0 := by
  refine List.countP_eq_zero.mpr fun msg hm => ?_
  rw [decide_eq_true_eq]
  rcases news_members wf hs forming listed with ⟨joiner, name, n, -, vacant, -, hnews⟩ | quiet
  · rw [hnews] at hm
    rcases List.mem_cons.mp hm with rfl | hm
    · simp only [ServerMsg.cue]
      rw [if_neg]
      · simp
      · rintro rfl
        rw [listed'] at vacant
        cases vacant
    · unfold Server.warning at hm
      split at hm
      · rw [List.mem_singleton.mp hm]
        simp [ServerMsg.cue]
      · cases hm
  · exact (ServerMsg.cue_of_not_membership (quiet msg hm) v).1

/-- What the server reads from a member goes on its way to another one. -/
theorem lane_told (wf : WF cfg σ) (hs : next cfg σ ev = some σ') (forming : Forming cfg σ ev σ') (known : Introduced σ)
    {u v : String} {hu hv : PeerHandle} (listed : σ.server.handle? room u = some hu)
    (listed' : σ.server.handle? room v = some hv)
    (unsaid : σ.unsaid hu.tx e v = (σ.takes hu.tx ev).filterMap (ClientMsg.signalFor v) ++ σ'.unsaid hu.tx e' v)
    (heard : heardOf u (σ'.heard hv.tx) = heardOf u (σ.heard hv.tx) ++ heardOf u (Fifo.sentTo hv.tx (σ.news cfg ev))) :
    σ'.lane hv.tx v hu.tx e' u = σ.lane hv.tx v hu.tx e u := by
  simp only [lane, heard, unsaid, news_heard wf hs forming known.idents listed' u, listed,
    Option.map_some, Option.getD_some, List.filter_append, List.append_assoc]

/-- Only a message that waits for it is what a client takes, and none says that somebody has left. -/
theorem cue_stays (known : Introduced σ) {s : SocketId} {c : ClientId} {cue : Cue}
    (takes : cue = .other ∧ ev.handler = none ∨ ∃ w msg, ev.handler = some (c, w) ∧
      (σ.inbox s).head? = some msg ∧ cue = msg.cue q) :
    cue ≠ .left := by
  rcases takes with ⟨rfl, -⟩ | ⟨w, msg, -, hin, rfl⟩
  · simp
  · exact known.staying s msg (mem_heard.mpr (.inl (List.mem_of_mem_head? hin))) q

theorem attends_pair (wf : WF cfg σ) (hs : next cfg σ ev = some σ') (forming : Forming cfg σ ev σ') (known : Introduced σ)
    {u v : String} {hu hv : PeerHandle} {f f' : Engine} {l : Conn} (hlt : u < v) (U : Online σ room u hu e k)
    (V : Online σ room v hv f l) (attends : Attends cfg σ σ' ev hu.tx v e e') (other : Attends cfg σ σ' ev hv.tx u f f') :
    ∃ mv, Pair.Step (σ.ends cfg u v hu.tx hv.tx) (σ.pair u v hu.tx hv.tx e f) mv (σ'.pair u v hu.tx hv.tx e' f') ∧
      Follows σ ev u v hu.tx hv.tx mv := by
  have hne : u ≠ v := String.ne_of_lt hlt
  obtain ⟨ownerU, idU⟩ := wf.mesh _ _ U.engine
  obtain ⟨ownerV, idV⟩ := wf.mesh _ _ V.engine
  rw [(U.config wf).2] at idU
  rw [(V.config wf).2] at idV
  have pcU : e.mesh.pcFor v = (σ.ends cfg u v hu.tx hv.tx).lo := by
    funext n
    rw [Mesh.pcFor, ownerU]
    rfl
  have pcV : f.mesh.pcFor u = (σ.ends cfg u v hu.tx hv.tx).hi := by
    funext n
    rw [Mesh.pcFor, ownerV]
    rfl
  cases attends with
  | told side sent unsaid heard count =>
    cases other with
    | told side' sent' unsaid' heard' count' =>
      refine ⟨.rotate ((Fifo.sentTo hu.tx (σ.news cfg ev)).countP fun msg => decide (msg.cue v = .rekey)), ?_, trivial⟩
      have after : σ'.pair u v hu.tx hv.tx e' f' = { σ.pair u v hu.tx hv.tx e f with
          rekeys := (σ.pair u v hu.tx hv.tx e f).rekeys +
            (Fifo.sentTo hu.tx (σ.news cfg ev)).countP fun msg => decide (msg.cue v = .rekey) } := by
        simp only [pair, side, sent, side', sent', lane_told wf hs forming known U.listed V.listed unsaid heard',
          lane_told wf hs forming known V.listed U.listed unsaid' heard, count .seen (by simp), count .rekey (by simp),
          news_unseen wf hs forming U.listed V.listed, Nat.add_zero]
      rw [after]
      exact .rotate _
    | hears cue ms own takes reacts sent' unsaid' heard' count' reports race =>
      refine ⟨.hi cue (ms.filterMap (ClientMsg.signalFor u)), ?_, own, takes, reports,
        fun c w said h => by rw [race c w said h]⟩
      obtain ⟨silent, unread⟩ := @client_silent cfg σ _ _ own hu.tx
      rw [unread, List.filterMap_nil, List.nil_append] at unsaid
      rw [silent, Fifo.sentTo_nil, heardOf_nil, List.append_nil] at heard
      have still : ∀ c, c ≠ .other → (σ'.heard hu.tx).countP (fun msg => decide (msg.cue v = c)) =
          (σ.heard hu.tx).countP fun msg => decide (msg.cue v = c) := fun c hc => by
        rw [count c hc, silent, Fifo.sentTo_nil, List.countP_nil, Nat.add_zero]
      have after : σ'.pair u v hu.tx hv.tx e' f' = { σ.pair u v hu.tx hv.tx e f with
          hi := ⟨f'.mesh.side u, f'.mesh.sent.filterMap (ClientMsg.signalFor u)⟩
          up := heardOf u (σ'.heard hv.tx) ++ (σ.unsaid hu.tx e v).filter Signal.fits
          down := (σ.pair u v hu.tx hv.tx e f).down ++ (ms.filterMap (ClientMsg.signalFor u)).filter Signal.fits } := by
        simp only [pair, lane, side, sent, unsaid, unsaid', heard, still .seen (by simp), still .rekey (by simp),
          List.filter_append, List.append_assoc]
      rw [after]
      refine .hi ⟨?_, ?_, ?_, cue_stays known takes⟩
      · rw [idV, decide_eq_false (String.lt_asymm hlt), pcV] at reacts
        exact reacts
      · simp only [pair, sent', List.filterMap_append]
      · simp only [pair, lane, heard', List.append_assoc]
  | hears cue ms own takes reacts sent unsaid heard count reports race =>
    cases other with
    | hears cue' ms' own' => exact absurd (Option.some.inj (own.symm.trans own')) (owner_ne wf U V hne)
    | told side' sent' unsaid' heard' count' =>
      refine ⟨.lo cue (ms.filterMap (ClientMsg.signalFor v)), ?_, own, takes, reports,
        fun c w said h => by rw [race c w said h]⟩
      obtain ⟨silent, unread⟩ := @client_silent cfg σ _ _ own hv.tx
      rw [unread, List.filterMap_nil, List.nil_append] at unsaid'
      rw [silent, Fifo.sentTo_nil, heardOf_nil, List.append_nil] at heard'
      have after : σ'.pair u v hu.tx hv.tx e' f' = { σ.pair u v hu.tx hv.tx e f with
          lo := ⟨e'.mesh.side v, e'.mesh.sent.filterMap (ClientMsg.signalFor v)⟩
          down := heardOf v (σ'.heard hu.tx) ++ (σ.unsaid hv.tx f u).filter Signal.fits
          up := (σ.pair u v hu.tx hv.tx e f).up ++ (ms.filterMap (ClientMsg.signalFor v)).filter Signal.fits
          sees := (σ'.heard hu.tx).countP fun msg => decide (msg.cue v = .seen)
          rekeys := (σ'.heard hu.tx).countP fun msg => decide (msg.cue v = .rekey) } := by
        simp only [pair, lane, side', sent', unsaid, unsaid', heard', List.filter_append, List.append_assoc]
      rw [after]
      refine .lo ⟨?_, ?_, ?_, cue_stays known takes⟩ (count .seen (by simp)) (count .rekey (by simp))
      · rw [idU, decide_eq_true hlt, pcU] at reacts
        exact reacts
      · simp only [pair, sent, List.filterMap_append]
      · simp only [pair, lane, heard, List.append_assoc]

/-- What a client has still to hear when its Join has just been accepted: the Roster, after what it had before. -/
theorem heard_entered {s : SocketId} {name : String} {token : Option String} {rest : List ClientMsg}
    (hs : next cfg σ (.act (.recv s)) = some σ') (wire : σ.wire s = .join room userId name token :: rest)
    (admits : Server.Admits cfg.server σ.server s room userId name token) :
    σ.news cfg (.act (.recv s)) = Server.joinSends (σ.server.roomOf room) s userId name ∧
      ∃ old, σ'.heard s = old ++ [.roster (Server.rosterOf (σ.server.roomOf room) userId)] ∧
        ∀ msg ∈ old, msg ∈ σ.heard s ∨ msg ∈ Fifo.sentTo s (σ.news cfg (.act (.recv s))) := by
  have hs' : step cfg σ (.recv s) = some σ' := hs
  obtain ⟨msg, rest', srv, hw, hstep, rfl⟩ := step_recv_inv hs'
  obtain ⟨c, hc, hr, rfl⟩ := Server.step_frame_inv hstep
  cases wire.symm.trans hw
  obtain ⟨hsends, hphase, -⟩ := admits.frame hc
  have hnews : σ.news cfg (.act (.recv s)) = Server.joinSends (σ.server.roomOf room) s userId name := by
    simp [news, sends, wire, hc, hsends]
  have conn := @Server.handleFrame_conns cfg.server _ _ _ hc hr (.text (.join room userId name token)) s
  rw [hc, Option.map_some, if_pos rfl, hsends, hphase] at conn
  refine ⟨hnews,
    σ.inbox s ++ (c.pushAll (Fifo.sentTo s (Server.joinSends (σ.server.roomOf room) s userId name))).queue, ?_, ?_⟩
  · simp only [heard, conn, Option.map_some, Option.getD_some, Conn.pending, List.append_assoc]
  · intro msg hm
    rw [hnews]
    rcases List.mem_append.mp hm with hm | hm
    · exact .inl (mem_heard.mpr (.inl hm))
    · exact (Conn.mem_pushAll_queue _ _ hm).imp_left fun hm => mem_heard.mpr (.inr ⟨c, hc, .inl hm⟩)

/-- The client has had nothing to do with `q` and is about to see it. -/
structure Meets (σ : Sys) (s : SocketId) (e : Engine) (q : String) : Prop where
  apart : Apart σ s e q
  silent : heardOf q (σ.heard s) = []
  sees : (σ.heard s).countP (fun msg => decide (msg.cue q = .seen)) = 1

theorem countP_seen {msgs : List ServerMsg} (deaf : ∀ msg ∈ msgs, msg.cue q = .other ∨ msg.cue q = .rekey) :
    heardOf q msgs = [] ∧ msgs.countP (fun msg => decide (msg.cue q = .seen)) = 0 := by
  refine ⟨heardOf_eq_nil fun msg hm => ?_, List.countP_eq_zero.mpr fun msg hm => ?_⟩
  · rcases deaf msg hm with h | h <;> rw [h] <;> rfl
  · rcases deaf msg hm with h | h <;> simp [h]

/-- A newcomer and a member are about to see each other. -/
theorem newcomer_next {s : SocketId} {joiner name : String} {token : Option String} {rest : List ClientMsg} (wf : WF cfg σ)
    (hs : next cfg σ (.act (.recv s)) = some σ') (forming : Forming cfg σ (.act (.recv s)) σ') (known : Introduced σ)
    (wire : σ.wire s = .join room joiner name token :: rest)
    (admits : Server.Admits cfg.server σ.server s room joiner name token) (vacant : σ.server.handle? room joiner = none)
    {h' : PeerHandle} (htx : h'.tx = s) {f' : Engine} {l' : Conn} (on' : Online σ' room joiner h' e' k')
    (listed : σ.server.handle? room userId = some h) (other' : Online σ' room userId h f' l') :
    Meets σ' s e' userId ∧ Meets σ' h.tx f' joiner := by
  have hne : userId ≠ joiner := by
    rintro rfl
    rw [listed] at vacant
    cases vacant
  obtain ⟨hnews, old, hheard, hold⟩ := heard_entered hs wire admits
  have notListed : ∀ room' userId' h, σ.server.handle? room' userId' = some h → h.tx ≠ s := by
    rintro room' userId' h hh rfl
    have hidle := admits.idle
    rw [wf.server.listed _ _ _ hh] at hidle
    cases hidle
  constructor
  · subst htx
    obtain ⟨apart, -⟩ :=
      unjoined_next wf hs forming known (on'.opened (wf_next wf hs)) on'.engine on'.cur admits.idle userId
    have hlt : h'.tx < σ.server.nextSocket := by
      refine Nat.lt_of_not_le fun hge => ?_
      rw [(wf.unopened _ hge).1] at wire
      cases wire
    obtain ⟨e, he⟩ := Option.isSome_iff_exists.mp (wf.owned _ hlt)
    obtain ⟨e₁, he₁, hcur⟩ := cur_next wf hs forming known.rosters he
    have engine := on'.engine
    rw [(next_kept wf hs).owner _ hlt, he₁, Option.some.injEq] at engine
    subst engine
    have deaf : ∀ msg ∈ old, msg.cue userId = .other ∨ msg.cue userId = .rekey := by
      intro msg hm
      rcases hold msg hm with hm | hm
      · exact (known.unjoined _ e hlt he (hcur.symm.trans on'.cur) admits.idle userId).deaf msg hm
      · rcases (mem_news hs hm).2 with ⟨room', userId', h, hh, htx⟩ | other
        · exact absurd htx (notListed room' userId' h hh)
        · exact .inl (other userId)
    obtain ⟨silent, unseen⟩ := countP_seen deaf
    have named : (ServerMsg.roster (Server.rosterOf (σ.server.roomOf room) joiner)).cue userId = .seen :=
      if_pos (Server.mem_rosterOf.mpr ⟨hne, h, listed⟩)
    refine ⟨apart, ?_, ?_⟩
    · rw [hheard, heardOf_append, silent, heardOf_singleton, named]
      rfl
    · rw [hheard, List.countP_append, unseen, List.countP_singleton, named]
      rfl
  · have distinct : ∀ s peers, .roster peers ∈ σ.inbox s → (peers.map (·.userId)).Nodup := fun s peers hm =>
      known.rosters s peers (mem_heard.mpr (.inl hm))
    obtain ⟨f, l, on, turns⟩ := turn_step wf hs forming.room forming.calls distinct other' listed
    obtain ⟨apart, deaf⟩ := known.unlisted room userId h f l on joiner (.inr vacant)
    obtain ⟨f₁, hf₁, -, apart'⟩ := apart_next wf hs forming known.rosters on.engine on.cur apart
      fun msg hm => deaf msg (mem_heard.mpr (.inl hm))
    have engine := other'.engine
    rw [(next_kept wf hs).owner _ (on.opened wf), hf₁, Option.some.injEq] at engine
    subst engine
    obtain ⟨silent, unseen⟩ := countP_seen deaf
    have told : Fifo.sentTo h.tx (σ.news cfg (.act (.recv s))) = .peerJoined joiner name ::
        Server.warning (((σ.server.roomOf room).erase joiner).insert joiner { name, tx := s }).keys.length := by
      rw [hnews, Server.sentTo_joinSends wf.server listed (notListed _ _ _ listed).symm, if_pos rfl, if_neg hne]
    have quiet : ∀ n, ∀ msg ∈ Server.warning n, msg.cue joiner = .other ∨ msg.cue joiner = .rekey := by
      intro n msg hm
      unfold Server.warning at hm
      split at hm
      · rw [List.mem_singleton.mp hm]
        exact .inl rfl
      · cases hm
    obtain ⟨silent', unseen'⟩ := countP_seen (quiet _)
    have named : (ServerMsg.peerJoined joiner name).cue joiner = .seen := if_pos rfl
    cases (turns joiner).attends on other' with
    | hears cue ms own => cases own
    | told side sent unsaid heard count =>
      refine ⟨apart', ?_, ?_⟩
      · rw [heard, told, silent, heardOf, List.filterMap_cons, named]
        exact silent'
      · rw [count .seen (by simp), told, unseen, List.countP_cons, unseen', named]
        rfl

/-- Two members that were listed before a step have taken a step as a pair. -/
theorem pair_step (wf : WF cfg σ) (hs : next cfg σ ev = some σ') (forming : Forming cfg σ ev σ') (known : Introduced σ)
    {u v : String} {hu hv : PeerHandle} {f' : Engine} {l' : Conn} (hlt : u < v) (U' : Online σ' room u hu e' k')
    (V' : Online σ' room v hv f' l') (listedU : σ.server.handle? room u = some hu)
    (listedV : σ.server.handle? room v = some hv) :
    ∃ e k f l mv, Online σ room u hu e k ∧ Online σ room v hv f l ∧
      Pair.Step (σ.ends cfg u v hu.tx hv.tx) (σ.pair u v hu.tx hv.tx e f) mv (σ'.pair u v hu.tx hv.tx e' f') ∧
      Follows σ ev u v hu.tx hv.tx mv := by
  have distinct : ∀ s peers, .roster peers ∈ σ.inbox s → (peers.map (·.userId)).Nodup := fun s peers hm =>
    known.rosters s peers (mem_heard.mpr (.inl hm))
  obtain ⟨e, k, U, turnsU⟩ := turn_step wf hs forming.room forming.calls distinct U' listedU
  obtain ⟨f, l, V, turnsV⟩ := turn_step wf hs forming.room forming.calls distinct V' listedV
  obtain ⟨mv, step, follows⟩ := attends_pair wf hs forming known hlt U V ((turnsU v).attends U U') ((turnsV u).attends V V')
  exact ⟨e, k, f, l, mv, U, V, step, follows⟩

/-- A pair of members has just met, or takes a step of its own in every step of the system. -/
theorem pair_next (wf : WF cfg σ) (hs : next cfg σ ev = some σ') (forming : Forming cfg σ ev σ') (known : Introduced σ)
    {u v : String} {hu hv : PeerHandle} {f' : Engine} {l' : Conn} (hlt : u < v) (U' : Online σ' room u hu e' k')
    (V' : Online σ' room v hv f' l') :
    (σ'.pair u v hu.tx hv.tx e' f').Met ∨ ∃ e k f l mv, Online σ room u hu e k ∧ Online σ room v hv f l ∧
      Pair.Step (σ.ends cfg u v hu.tx hv.tx) (σ.pair u v hu.tx hv.tx e f) mv (σ'.pair u v hu.tx hv.tx e' f') ∧
      Follows σ ev u v hu.tx hv.tx mv := by
  have hne : u ≠ v := String.ne_of_lt hlt
  have met : Meets σ' hu.tx e' v → Meets σ' hv.tx f' u → (σ'.pair u v hu.tx hv.tx e' f').Met := by
    intro here there
    refine ⟨?_, ?_, ?_, ?_, here.sees⟩
    · rw [pair, here.apart.side, here.apart.sent]
    · rw [pair, there.apart.side, there.apart.sent]
    · simp [pair, lane, there.silent, here.apart.unsaid]
    · simp [pair, lane, here.silent, there.apart.unsaid]
  cases roll_next wf hs forming with
  | same handles idents =>
    exact .inr (pair_step wf hs forming known hlt U' V' ((handles room u).symm.trans U'.listed)
      ((handles room v).symm.trans V'.listed))
  | entered s room' joiner name token rest act wire admits vacant handles idents =>
    subst act
    have old : ∀ {q h}, σ'.server.handle? room q = some h →
        room = room' ∧ q = joiner ∧ h.tx = s ∨ σ.server.handle? room q = some h := by
      intro q h hh
      rw [handles] at hh
      split at hh
      · rename_i heq
        cases hh
        exact .inl ⟨heq.1, heq.2, rfl⟩
      · exact .inr hh
    rcases old U'.listed with ⟨rfl, rfl, htx⟩ | listedU
    · rcases old V'.listed with ⟨-, rfl, -⟩ | listedV
      · exact absurd rfl hne
      · obtain ⟨here, there⟩ := newcomer_next wf hs forming known wire admits vacant htx U' listedV V'
        subst htx
        exact .inl (met here there)
    · rcases old V'.listed with ⟨rfl, rfl, htx⟩ | listedV
      · obtain ⟨there, here⟩ := newcomer_next wf hs forming known wire admits vacant htx V' listedU U'
        subst htx
        exact .inl (met here there)
      · exact .inr (pair_step wf hs forming known hlt U' V' listedU listedV)

end

end Sys

end SquadLink

import SquadLink.System.Rotation

/-! The candidates that PeerConnections report while a mesh forms or rotates its keys. A candidate says only
    which user it is from: it is lost where nobody expects it yet, and it meets whatever PeerConn is held when
    it arrives. As long as candidates come in time, each gets to the PeerConn that its reporter is negotiated
    with, and to no other one. -/

namespace SquadLink

/-- The message is an offer of `q`. -/
def ServerMsg.offers (q : String) : ServerMsg → Bool
  | .offer sender _ => sender = q
  | _ => false

theorem ServerMsg.offers_iff {q : String} {msg : ServerMsg} : msg.offers q = true ↔ ∃ sdp, msg = .offer q sdp := by
  cases msg <;> simp [offers]

/-- What got to the uplink in a round in which PeerConnections reported candidates. -/
def SysEvent.said : SysEvent → List ClientMsg
  | .race _ _ said => said
  | _ => []

/-- The peer that the message brings a candidate of. -/
def ServerMsg.trickles : ServerMsg → Option String
  | .ice sender _ => some sender
  | _ => none

namespace Engine

/-- A candidate meets a PeerConn of its sender. -/
def Expects (e : Engine) (msg : ServerMsg) : Prop := ∀ sender ∈ msg.trickles, (e.mesh.conn? sender).isSome = true

instance (e : Engine) (msg : ServerMsg) : Decidable (e.Expects msg) := by
  unfold Expects
  infer_instance

/-- The candidates that a PeerConnection of the engine has reported for `q`. -/
def reported (e : Engine) (q : String) (pc : PcId) : List Candidate :=
  (cands (e.mesh.sent.filterMap (ClientMsg.signalFor q))).filter fun cand => decide (cand.pc = pc)

end Engine

theorem Pair.Stage.up_taken {past : List Signal × List Signal} {P : Pair} {d : Pair.Deal} {sdp : Sdp} {rest : List Signal}
    (stage : Pair.Stage past P d) (lane : P.up = .offer sdp :: rest) : rest.filter Signal.negotiates = [] := by
  have taken : P.up.filter Signal.negotiates = .offer sdp :: rest.filter Signal.negotiates := by
    rw [lane]
    rfl
  cases stage with
  | offered talk =>
    rw [talk.up] at taken
    exact (List.cons.inj taken).2.symm
  | unseen talk => rw [talk.up] at taken; cases taken
  | answered talk => rw [talk.up] at taken; cases taken
  | settled talk => rw [talk.up] at taken; cases taken

namespace Sys

section
variable (cfg : SysConfig) (σ : Sys)

/-- What the member on `t` says to the member on `s` of the same room, and is still on its way. -/
def coming (s t : SocketId) : List Signal :=
  match σ.server.ident s, σ.server.ident t, σ.engines (σ.owner t) with
  | some (room, u), some (room', v), some f => if room = room' then σ.lane s u t f v else []
  | _, _, _ => []

/-- When a client rotates its keys, no candidate of a peer to which it offers is on its way to it, and the
    new PeerConns report theirs after the offer. -/
def Turned (ev : SysEvent) (e : Engine) (msg : ServerMsg) : Prop :=
  msg.rotates = true → ∀ q ∈ e.mesh.peers.keys, e.mesh.myId < q →
    (∀ s ∈ e.cur, ∀ t < σ.server.nextSocket, ∀ p ∈ σ.server.ident t, p.2 = q → cands (σ.coming s t) = []) ∧
      ∀ first ∈ (ev.said.filterMap (ClientMsg.signalFor q)).head?, first.negotiates = true

/-- No offer of the peer that a candidate is for is on its way, unless it is the one that is taken now. -/
def Unasked (ev : SysEvent) (e : Engine) (cand : Candidate) : Prop :=
  cand.pc.peer < e.mesh.myId → (∃ p ∈ σ.taken ev, p.2.offers cand.pc.peer = true) ∨
    ∀ s ∈ e.cur, ∀ t < σ.server.nextSocket, ∀ p ∈ σ.server.ident t, p.2 = cand.pc.peer →
      (σ.coming s t).filter Signal.negotiates = []

instance (ev : SysEvent) (e : Engine) (msg : ServerMsg) : Decidable (σ.Turned ev e msg) := by
  unfold Turned
  infer_instance

instance (ev : SysEvent) (e : Engine) (cand : Candidate) : Decidable (σ.Unasked ev e cand) := by
  unfold Unasked
  infer_instance

/-- What the library promises of the candidates that it reports: they are short enough to be relayed and can be
    parsed, and their PeerConnection, if it is in use, has been given a local description. -/
structure Genuine (ev : SysEvent) (σ' : Sys) : Prop where
  sound : ∀ cand ∈ ev.reports, (Signal.ice cand).fits = true ∧ cfg.rtc.parsesIce cand.text = true
  begun : ∀ c ∈ ev.client, ∀ e' ∈ σ'.engines c, ∀ cand ∈ ev.reports, ∀ p ∈ e'.mesh.conn? cand.pc.peer,
    p.pc = cand.pc → 0 < p.descs

/-- The candidates of a step come in time. -/
structure InTime (ev : SysEvent) (σ' : Sys) : Prop where
  current : ∀ c ∈ ev.client, ∀ e' ∈ σ'.engines c, ∀ cand ∈ ev.reports,
    (e'.mesh.conn? cand.pc.peer).map (·.pc) = some cand.pc
  unasked : ∀ c ∈ ev.client, ∀ e ∈ σ.engines c, ∀ cand ∈ ev.reports, σ.Unasked ev e cand
  expects : ∀ p ∈ σ.taken ev, p.1.Expects p.2
  turned : ∀ p ∈ σ.taken ev, σ.Turned ev p.1 p.2

end

section
variable {cfg : SysConfig} {σ σ₀ σ₁ σ₂ σ' : Sys} {ev : SysEvent} {room userId u v q : String} {h hu hv : PeerHandle}
variable {e e' f f' : Engine} {k k' l l' : Conn}

theorem coming_eq (wf : WF cfg σ) (U : Online σ room u hu e k) (V : Online σ room v hv f l) :
    σ.coming hu.tx hv.tx = σ.lane hu.tx u hv.tx f v := by
  simp [coming, U.ident wf, V.ident wf, V.engine]

/-- What a member says to a peer in a step that is in time. -/
theorem timely_minds {cue : Cue} {out : List Signal} {P' : Half} (genuine : Genuine cfg ev σ') (intime : InTime σ ev σ')
    (on : Online σ room userId h e k) (he' : σ'.engines (σ.owner h.tx) = some e') (side : P'.side = e'.mesh.side q)
    (minds : Minds σ ev h.tx q cue out) :
    Half.Timely cfg.rtc cue out ⟨e.mesh.side q, e.mesh.sent.filterMap (ClientMsg.signalFor q)⟩ P' := by
  refine ⟨fun c hc => ?_, fun c hc => ?_, fun c hcue => ?_⟩
  · obtain ⟨hr, hpeer⟩ := minds.reports c (mem_cands.mp hc)
    obtain ⟨p, hp, hpc⟩ := Option.map_eq_some_iff.mp (intime.current _ minds.own e' he' c hr)
    refine ⟨p, ?_, hpc.symm, genuine.begun _ minds.own e' he' c hr p hp hpc⟩
    rw [side, ← hpeer]
    exact hp
  · exact genuine.sound c (minds.reports c (mem_cands.mp hc)).1
  · rcases minds.takes with ⟨hother, -⟩ | ⟨w, msg, hev, hin, hmsg⟩
    · rw [hother] at hcue
      cases hcue
    · obtain rfl := ServerMsg.cue_eq_signal (hmsg.symm.trans hcue)
      exact intime.expects _ (on.taken hev hin) _ rfl

theorem timely_move {past : List Signal × List Signal} {d : Pair.Deal} {mv : Pair.Move} (forms : Forms cfg σ)
    (hs : next cfg σ ev = some σ') (genuine : Genuine cfg ev σ') (intime : InTime σ ev σ') (hlt : u < v)
    (U : Online σ room u hu e k) (V : Online σ room v hv f l) (U' : Online σ' room u hu e' k')
    (V' : Online σ' room v hv f' l') (stage : Pair.Stage past (σ.pair u v hu.tx hv.tx e f) d)
    (step : Pair.Step (σ.ends cfg u v hu.tx hv.tx) (σ.pair u v hu.tx hv.tx e f) mv (σ'.pair u v hu.tx hv.tx e' f'))
    (follows : Follows σ ev u v hu.tx hv.tx mv) :
    mv.Timely (σ.ends cfg u v hu.tx hv.tx) (σ.pair u v hu.tx hv.tx e f) (σ'.pair u v hu.tx hv.tx e' f') := by
  have kept := next_kept forms.wf hs
  have heU : σ'.engines (σ.owner hu.tx) = some e' := kept.owner _ (U.opened forms.wf) ▸ U'.engine
  have heV : σ'.engines (σ.owner hv.tx) = some f' := kept.owner _ (V.opened forms.wf) ▸ V'.engine
  have idU : e.mesh.myId = u := (forms.wf.mesh _ _ U.engine).2.trans (U.config forms.wf).2
  have idV : f.mesh.myId = v := (forms.wf.mesh _ _ V.engine).2.trans (V.config forms.wf).2
  cases mv with
  | rotate n => trivial
  | lo cue out =>
    refine ⟨timely_minds genuine intime U heU rfl follows, ?_⟩
    rintro rfl held
    rcases follows.takes with ⟨hother, -⟩ | ⟨w, msg, hev, hin, hmsg⟩
    · cases hother
    · obtain ⟨by', rfl⟩ := ServerMsg.cue_eq_rekey hmsg.symm
      obtain ⟨silent, first⟩ := intime.turned _ (U.taken hev hin) rfl v (Mesh.mem_keys_iff.mpr held) (idU ▸ hlt)
      refine ⟨?_, fun c hc => ?_⟩
      · have := silent hu.tx U.cur hv.tx (V.opened forms.wf) (room, v) (V.ident forms.wf) rfl
        rwa [coming_eq forms.wf U V] at this
      · have hm : .ice c ∈ out := List.mem_of_mem_head? hc
        cases ev with
        | act a =>
          cases a with
          | handle d w' => cases (follows.reports c hm).1
          | _ => cases hev
        | race d w' said =>
          rw [follows.race d w' said rfl] at hc
          cases first _ hc
  | hi cue out =>
    refine ⟨timely_minds genuine intime V heV rfl follows, fun some => ?_⟩
    obtain ⟨c, hc⟩ := List.exists_mem_of_ne_nil _ some
    obtain ⟨hr, hpeer⟩ := follows.reports c (mem_cands.mp hc)
    obtain ⟨P', after⟩ : ∃ P', σ'.pair u v hu.tx hv.tx e' f' = P' := ⟨_, rfl⟩
    rw [after] at step ⊢
    cases step with
    | @hi _ _ up _ hears =>
      rcases intime.unasked _ follows.own f V.engine c hr (by rw [hpeer, idV]; exact hlt) with ⟨p, hp, hoffers⟩ | silent
      · -- It takes the offer that is on its way.
        rcases follows.takes with ⟨-, hnone⟩ | ⟨w, msg, hev, hin, hmsg⟩
        · simp [taken, hnone] at hp
        · rw [V.taken hev hin, Option.mem_def, Option.some.injEq] at hp
          subst hp
          obtain ⟨sdp, rfl⟩ := ServerMsg.offers_iff.mp (hpeer ▸ hoffers)
          rw [show cue = .signal (.offer sdp) from hmsg.trans (if_pos rfl)] at hears
          exact stage.up_taken hears.lane
      · have quiet := silent hv.tx V.cur hu.tx (U.opened forms.wf) (room, u) (U.ident forms.wf) hpeer.symm
        rw [coming_eq forms.wf V U] at quiet
        have lane := congrArg (List.filter Signal.negotiates) hears.lane
        rw [List.filter_append] at lane
        exact (List.append_eq_nil_iff.mp (lane.symm.trans quiet)).2

/-- The steps of the runs: no unanswered offer is discarded, and candidates come in time. -/
structure Trickling (cfg : SysConfig) (σ : Sys) (ev : SysEvent) (σ' : Sys) : Prop where
  rotating : Rotating cfg σ ev σ'
  genuine : Genuine cfg ev σ'
  intime : InTime σ ev σ'

theorem ends_injective : Function.Injective (σ.ends cfg u v hu.tx hv.tx).lo ∧
    Function.Injective (σ.ends cfg u v hu.tx hv.tx).hi :=
  ⟨fun _ _ h => congrArg PcId.serial h, fun _ _ h => congrArg PcId.serial h⟩

theorem trickling_forms (h : Lts.Reach (next cfg) (Trickling cfg) empty σ) : Forms cfg σ :=
  forms_reach forms_empty (h.mono fun _ _ _ ok => ok.rotating.1)

theorem delivery_reach (fits : Fits cfg.rtc) (h : Lts.Reach (next cfg) (Trickling cfg) empty σ) :
    AllPairs cfg σ fun ends P => ∃ past d, Pair.Stage past P d ∧ Pair.Carried ends P d := by
  refine h.invariant_over (P := fun σ => AllPairs cfg σ fun ends P => ∃ past d, Pair.Stage past P d ∧ Pair.Carried ends P d)
    (fun _ => trickling_forms) ?_ ?_
  · exact fun room u v hu hv e k f l _ U => by cases U.engine
  · rintro σ ev σ' forms - all ok hs
    refine allPairs_next forms hs ok.rotating.1 (fun _ P met => ⟨_, _, met.stage, met.carried⟩) ?_ all
    rintro room u v hu hv e k f l e' k' f' l' mv hlt U V U' V' ⟨past, d, stage, carried⟩ step follows
    have calm := calm_move (f := f) forms hlt U ok.rotating.2 follows
    have timely := timely_move forms hs ok.genuine ok.intime hlt U V U' V' stage step follows
    obtain ⟨past', stage', -⟩ := Pair.stage_step fits stage step calm
    exact ⟨past', _, stage', Pair.carried_step fits ends_injective stage carried step calm timely⟩

/-! ### What has been reported -/

/-- A candidate that is reported is put on the uplink. -/
theorem reported_sent (hs : next cfg σ ev = some σ') {cand : Candidate} (hm : cand ∈ ev.reports) :
    ∃ c e', ev.client = some c ∧ σ'.engines c = some e' ∧ .ice cand.pc.peer cand ∈ e'.mesh.sent := by
  cases ev with
  | act a =>
    cases a with
    | event c lev =>
      cases lev with
      | candidate pc text =>
        rw [List.mem_singleton.mp hm]
        have hs' : step cfg σ (.event c (.candidate pc text)) = some σ' := hs
        obtain ⟨e, e', msgs, -, -, round, rfl⟩ := step_event_inv hs'
        cases round
        exact ⟨c, { e with mesh := e.mesh.onIceCandidate pc text }, rfl, by simp, by simp [Mesh.onIceCandidate, Mesh.send]⟩
      | _ => cases hm
    | _ => cases hm
  | race c w said =>
    obtain ⟨msg, hmsg, hcand⟩ := List.mem_filterMap.mp hm
    obtain ⟨e, he, hs⟩ := Option.bind_eq_some_iff.mp hs
    obtain ⟨σ₁, hs₁, hs⟩ := Option.bind_eq_some_iff.mp hs
    obtain ⟨e₁, he₁, hs⟩ := Option.bind_eq_some_iff.mp hs
    obtain ⟨⟨-, own⟩, hs⟩ := Option.ite_none_right_eq_some.mp hs
    cases hs
    have reports := own msg hmsg cand hcand
    simp only [ClientMsg.reports, decide_eq_true_eq, Bool.and_eq_true] at reports
    exact ⟨c, { e₁ with mesh := e.mesh.saying e₁.mesh said }, rfl, by simp, List.mem_append_right _ (reports.1 ▸ hmsg)⟩

/-- What an engine has put on the uplink, it goes on having put there. -/
theorem sent_next (wf : WF cfg σ) (hs : next cfg σ ev = some σ') (forming : Forming cfg σ ev σ')
    (distinct : RostersDistinct σ) {c : ClientId} (he : σ.engines c = some e) :
    ∃ e', σ'.engines c = some e' ∧ ∀ msg ∈ e.mesh.sent, msg ∈ e'.mesh.sent := by
  cases hev : ev.handler with
  | some p =>
    obtain ⟨d, w⟩ := p
    obtain ⟨e₀, e₁, t, msg, said, round⟩ := next_round hs hev (forming.calls _ hev) fun s peers hm =>
      distinct s peers (mem_heard.mpr (.inl hm))
    by_cases hd : c = d
    · subst hd
      cases he.symm.trans round.engine
      refine ⟨e₁, by rw [round.engines, Function.update_self], fun m hm => ?_⟩
      rw [round.sent]
      exact List.mem_append_left _ hm
    · exact ⟨e, by rw [round.engines, Function.update_of_ne hd]; exact he, fun _ hm => hm⟩
  | none =>
    cases ev with
    | race d w said => cases hev
    | act a =>
      obtain ⟨e', msgs, he', turn, -⟩ := engine_step wf hs he
      refine ⟨e', he', fun m hm => ?_⟩
      cases turn with
      | idle => exact hm
      | handle w t msg act => rw [act] at hev; cases hev
      | lost act => exact hm
      | reconnect act => exact hm
      | uplink msg rest act out => exact hm
      | event lev act round =>
        obtain ⟨-, ms, -, sent, -⟩ := @Engine.onEvent_turn cfg.rtc _ _ _ _ round ""
        rw [sent]
        exact List.mem_append_left _ hm

theorem sent_reach (h : Lts.Reach (next cfg) (Trickling cfg) σ₁ σ) (forms : Forms cfg σ₁)
    {c : ClientId} (he : σ₁.engines c = some e) :
    ∃ e', σ.engines c = some e' ∧ ∀ msg ∈ e.mesh.sent, msg ∈ e'.mesh.sent := by
  induction h with
  | refl => exact ⟨e, he, fun _ hm => hm⟩
  | step ev hr ok hs ih =>
    obtain ⟨e₁, he₁, sent₁⟩ := ih
    have forms₁ := forms_reach forms (hr.mono fun _ _ _ ok => ok.rotating.1)
    obtain ⟨e', he', sent'⟩ := sent_next forms₁.wf hs ok.rotating.1 forms₁.known.rosters he₁
    exact ⟨e', he', fun m hm => sent' m (sent₁ m hm)⟩

/-- The PeerConns are negotiated with each other, whichever of them has made the offer. -/
def Negotiated (x y : PeerConn) : Prop := ∃ off ans, Pair.Matched x y off ans ∨ Pair.Matched y x off ans

/-- The PeerConns of a pair once nothing is on its way: each has added what the other has reported. -/
theorem pair_delivered (fits : Fits cfg.rtc) (h : Lts.Reach (next cfg) (Trickling cfg) empty σ)
    (drained : Drained σ) (hlt : u < v) (U : Online σ room u hu e k) (V : Online σ room v hv f l) :
    ∃ x y off ans, e.mesh.conn? v = some x ∧ f.mesh.conn? u = some y ∧ Pair.Matched x y off ans ∧
      y.added = e.reported v x.pc ∧ x.added = f.reported u y.pc ∧ (x.pc.owner = σ.owner hu.tx ∧ x.pc.peer = v) ∧
      (y.pc.owner = σ.owner hv.tx ∧ y.pc.peer = u) := by
  have forms := trickling_forms h
  obtain ⟨past, d, stage, carried⟩ := delivery_reach fits h room u v hu hv e k f l hlt U V
  have quiet := (drained.quiet forms.wf U V).1
  obtain ⟨x, y, off, ans, here, there, rfl, matched, -⟩ := stage.matched quiet
  obtain ⟨up, down⟩ := carried.delivered quiet here there matched
  obtain ⟨n, -, ownX⟩ := carried.lo.own.held x here
  obtain ⟨m, -, ownY⟩ := carried.hi.own.held y there
  exact ⟨x, y, off, ans, here, there, matched, up, down, by rw [ownX]; exact ⟨rfl, rfl⟩, by rw [ownY]; exact ⟨rfl, rfl⟩⟩

/-- Every candidate of a PeerConnection of the client on `h` that is reported in a run has been told in the end. -/
theorem told_of_reports (h₁ : Lts.Reach (next cfg) (Trickling cfg) empty σ₁) (ok : Trickling cfg σ₁ ev σ₂)
    (hs : next cfg σ₁ ev = some σ₂) (h₂ : Lts.Reach (next cfg) (Trickling cfg) σ₂ σ) {s : SocketId}
    (he : σ.engines (σ.owner s) = some e)
    {cand : Candidate} (hm : cand ∈ ev.reports) (own : cand.pc.owner = σ.owner s) :
    cand ∈ e.reported cand.pc.peer cand.pc := by
  obtain ⟨c, e₂, client, he₂, sent⟩ := reported_sent hs hm
  have owner := (ok.rotating.1.genuine c client e₂ he₂ cand hm).1
  have forms₂ := (trickling_forms (h₁.step ev ok hs))
  obtain ⟨e', he', later⟩ := sent_reach h₂ forms₂ he₂
  rw [← owner, own, he, Option.some.injEq] at he'
  subst he'
  refine List.mem_filter.mpr ⟨mem_cands.mpr (List.mem_filterMap.mpr ⟨_, later _ sent, ?_⟩), by simp⟩
  simp [ClientMsg.signalFor]

/-- A member adds candidates only of the PeerConnection that it is negotiated with. -/
theorem added_sound (fits : Fits cfg.rtc) (h : Lts.Reach (next cfg) (Trickling cfg) empty σ) (U : Online σ room u hu e k)
    {p : PeerConn} (hp : e.mesh.conn? q = some p) {cand : Candidate} (hm : cand ∈ p.added) :
    ∃ sdp, p.remotes.getLast? = some sdp ∧ cand.pc = sdp.id.pc := by
  have forms := trickling_forms h
  have known : q ≠ u ∧ σ.server.handle? room q ≠ none := by
    rw [← not_or]
    intro unknown
    have none : e.mesh.conn? q = none := congrArg Side.conn (forms.known.unlisted room u hu e k U q unknown).apart.side
    rw [none] at hp
    cases hp
  obtain ⟨hq, listed⟩ := Option.ne_none_iff_exists'.mp known.2
  obtain ⟨f, l, V⟩ := forms.present.online forms.wf listed
  by_cases hlt : u < q
  · obtain ⟨past, d, -, carried⟩ := delivery_reach fits h room u q hu hq e k f l hlt U V
    exact carried.lo.added hp hm
  · have hgt : q < u := String.not_le.mp fun hle => known.1 (String.le_antisymm (String.not_lt.mp hlt) hle)
    obtain ⟨past, d, -, carried⟩ := delivery_reach fits h room q u hq hu f l e k hgt V U
    exact carried.hi.added hp hm

/-- As long as candidates come in time and no unanswered offer is discarded, no candidate is ever added to a
    PeerConn that is not negotiated with its reporter; and once nothing is on its way, every candidate that a
    PeerConnection still in use has reported has been added to the one that it is negotiated with. -/
theorem candidates_arrive (fits : Fits cfg.rtc) (h : Lts.Reach (next cfg) (Trickling cfg) empty σ)
    (listed : σ.server.handle? room u = some hu) :
    ∃ e, σ.engines (σ.owner hu.tx) = some e ∧
      (∀ q p, e.mesh.conn? q = some p → ∀ cand ∈ p.added, ∃ sdp, p.remotes.getLast? = some sdp ∧ cand.pc = sdp.id.pc) ∧
      (Drained σ → ∀ v hv, σ.server.handle? room v = some hv → v ≠ u →
        ∃ f x y, σ.engines (σ.owner hv.tx) = some f ∧ e.mesh.conn? v = some x ∧ f.mesh.conn? u = some y ∧ Negotiated x y ∧
          y.added = e.reported v x.pc ∧
          ∀ σ₁ ev σ₂, Lts.Reach (next cfg) (Trickling cfg) empty σ₁ → Trickling cfg σ₁ ev σ₂ → next cfg σ₁ ev = some σ₂ →
            Lts.Reach (next cfg) (Trickling cfg) σ₂ σ → ∀ cand ∈ ev.reports, cand.pc = x.pc → cand ∈ y.added) := by
  have forms := trickling_forms h
  obtain ⟨e, k, U⟩ := forms.present.online forms.wf listed
  refine ⟨e, U.engine, fun q p hp cand hm => added_sound fits h U hp hm, fun drained v hv listed' hne => ?_⟩
  obtain ⟨f, l, V⟩ := forms.present.online forms.wf listed'
  -- What holds of the pair, whichever of the two has the smaller id.
  obtain ⟨x, y, here, there, negotiated, arrived, owner, peer⟩ : ∃ x y, e.mesh.conn? v = some x ∧ f.mesh.conn? u = some y ∧
      Negotiated x y ∧ y.added = e.reported v x.pc ∧ x.pc.owner = σ.owner hu.tx ∧ x.pc.peer = v := by
    by_cases hlt : u < v
    · obtain ⟨x, y, off, ans, here, there, matched, up, -, own, -⟩ := pair_delivered fits h drained hlt U V
      exact ⟨x, y, here, there, ⟨off, ans, .inl matched⟩, up, own⟩
    · have hgt : v < u := String.not_le.mp fun hle => hne (String.le_antisymm (String.not_lt.mp hlt) hle)
      obtain ⟨y, x, off, ans, there, here, matched, -, down, -, own⟩ := pair_delivered fits h drained hgt V U
      exact ⟨x, y, here, there, ⟨off, ans, .inr matched⟩, down, own⟩
  refine ⟨f, x, y, V.engine, here, there, negotiated, arrived, fun σ₁ ev σ₂ h₁ ok hs h₂ cand hm hpc => ?_⟩
  have told := told_of_reports h₁ ok hs h₂ U.engine hm (hpc ▸ owner)
  rw [hpc, peer] at told
  exact arrived ▸ told

end

/-! ### Runs with candidates -/

/-- What the library promises, as a test. -/
def genuineTest (cfg : SysConfig) (ev : SysEvent) (σ' : Sys) : Bool :=
  decide ((∀ cand ∈ ev.reports, (Signal.ice cand).fits = true ∧ cfg.rtc.parsesIce cand.text = true) ∧
    ∀ c ∈ ev.client, ∀ e' ∈ σ'.engines c, ∀ cand ∈ ev.reports, ∀ p ∈ e'.mesh.conn? cand.pc.peer,
      p.pc = cand.pc → 0 < p.descs)

theorem genuine_of_test {cfg : SysConfig} {ev : SysEvent} {σ' : Sys} (h : genuineTest cfg ev σ' = true) :
    Genuine cfg ev σ' := by
  obtain ⟨sound, begun⟩ := of_decide_eq_true h
  exact ⟨sound, begun⟩

def inTimeTest (σ : Sys) (ev : SysEvent) (σ' : Sys) : Bool :=
  decide ((∀ c ∈ ev.client, ∀ e' ∈ σ'.engines c, ∀ cand ∈ ev.reports,
    (e'.mesh.conn? cand.pc.peer).map (·.pc) = some cand.pc) ∧
    (∀ c ∈ ev.client, ∀ e ∈ σ.engines c, ∀ cand ∈ ev.reports, σ.Unasked ev e cand) ∧ (∀ p ∈ σ.taken ev, p.1.Expects p.2) ∧
    ∀ p ∈ σ.taken ev, σ.Turned ev p.1 p.2)

theorem inTime_of_test {σ : Sys} {ev : SysEvent} {σ' : Sys} (h : inTimeTest σ ev σ' = true) : InTime σ ev σ' := by
  obtain ⟨current, unasked, expects, turned⟩ := of_decide_eq_true h
  exact ⟨current, unasked, expects, turned⟩

def alicePc : PcId := { owner := 0, peer := "bob", serial := 0 }

def aliceCandidate : Candidate := { text := "candidate", pc := alicePc }

def aliceOffer : ClientMsg := .offer "bob" { text := "v=0", id := { pc := alicePc, n := 0 }, replyTo := none }

/-- The candidate of the first client follows its offer, and that of the second one its answer. -/
def trickleActs : List SysEvent :=
  (startActs "alice" 0 ++ startActs "bob" 1 ++ getActs 0 0 1 ++ [Act.write 0]).map .act ++
    [.race 0 noFailure [aliceOffer, .ice "bob" aliceCandidate]] ++
    (sendActs 0 0 ++ sendActs 0 0 ++ getActs 1 1 3 ++
      [Act.event 1 (.candidate { owner := 1, peer := "alice", serial := 0 } "candidate")] ++
      sendActs 1 1 ++ sendActs 1 1 ++ getActs 0 0 2).map .act

def afterTrickle : Sys := (Lts.exec (next sampleConfig) empty trickleActs).getD empty

theorem candidates_arrive_alice :
    ∃ e f x y, afterTrickle.engines 0 = some e ∧ afterTrickle.engines 1 = some f ∧ e.mesh.conn? "bob" = some x ∧
      f.mesh.conn? "alice" = some y ∧ Negotiated x y ∧ y.added = e.reported "bob" x.pc := by
  have reach : Lts.Reach (next sampleConfig) (Trickling sampleConfig) empty afterTrickle := by
    refine (reach_of_formingTest (fun σ ev σ' =>
      decide (Calm σ ev) && (genuineTest sampleConfig ev σ' && inTimeTest σ ev σ'))
      (show Lts.execOk _ _ empty trickleActs = _ from rfl)).mono fun σ ev σ' ⟨forming, ok⟩ => ?_
    obtain ⟨calm, ok⟩ := Bool.and_eq_true_iff.mp ok
    obtain ⟨genuine, intime⟩ := Bool.and_eq_true_iff.mp ok
    exact ⟨⟨forming, of_decide_eq_true calm⟩, genuine_of_test genuine, inTime_of_test intime⟩
  obtain ⟨e, engine, -, all⟩ :=
    candidates_arrive sampleFits reach (show afterTrickle.server.handle? "r" "alice" = some ⟨"alice", 0⟩ from rfl)
  obtain ⟨f, x, y, engine', here, there, negotiated, arrived, -⟩ := all (by decide) "bob" ⟨"bob", 1⟩ rfl (by decide)
  exact ⟨e, f, x, y, engine, engine', here, there, negotiated, arrived⟩

/-- The candidate gets to the second client before the offer, and before its Roster. -/
def earlyActs : List SysEvent :=
  (startActs "alice" 0 ++ [Act.start (sampleUser "bob"), .recv 1] ++ getActs 0 0 1 ++ [Act.write 0]).map .act ++
    [.race 0 noFailure [.ice "bob" aliceCandidate, aliceOffer]] ++
    (sendActs 0 0 ++ sendActs 0 0 ++ getActs 1 1 2 ++ [Act.server (.finishJoin 1 0)] ++
      getActs 1 1 1 ++ sendActs 1 1 ++ getActs 0 0 1).map .act

def afterEarly : Sys := (Lts.exec (next sampleConfig) empty earlyActs).getD empty

/-- It is dropped, and nothing brings it back. -/
theorem early_candidate_lost :
    ¬ ∀ σ, Lts.Reach (next sampleConfig) (fun σ ev σ' => Rotating sampleConfig σ ev σ' ∧
      Genuine sampleConfig ev σ') empty σ → Drained σ →
      ∀ e f x y, σ.engines 0 = some e → σ.engines 1 = some f → e.mesh.conn? "bob" = some x → f.mesh.conn? "alice" = some y →
        ∀ cand ∈ e.reported "bob" x.pc, cand ∈ y.added ∨ cand ∈ y.pendingIce := by
  intro all
  have reach : Lts.Reach (next sampleConfig) (fun σ ev σ' => Rotating sampleConfig σ ev σ' ∧
      Genuine sampleConfig ev σ') empty afterEarly := by
    refine (reach_of_formingTest (fun σ ev σ' => decide (Calm σ ev) && genuineTest sampleConfig ev σ')
      (show Lts.execOk _ _ empty earlyActs = _ from rfl)).mono fun σ ev σ' ⟨forming, ok⟩ => ?_
    obtain ⟨calm, genuine⟩ := Bool.and_eq_true_iff.mp ok
    exact ⟨⟨forming, of_decide_eq_true calm⟩, genuine_of_test genuine⟩
  have arrived := all _ reach (by decide) _ _ _ _ rfl rfl rfl rfl aliceCandidate (by decide)
  exact absurd arrived (by decide)

end Sys

end SquadLink

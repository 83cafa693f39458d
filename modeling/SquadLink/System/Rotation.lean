import SquadLink.Client.Surplus
import SquadLink.System.Formation

/-! Key rotations of a mesh. An answer says only who it is from: when a client discards an offer before it has
    the answer, that answer meets the PeerConn of the next offer. The library takes one answer for an offer and refuses
    the next, so that where no call fails and everything has been handled no answer has gone astray: every pair
    ends in a negotiation that began after the last rotation. -/

namespace SquadLink

/-- The message announces a rotation. -/
def ServerMsg.rotates : ServerMsg → Bool
  | .rekey _ => true
  | _ => false

/-- Who an answer is from. -/
def ServerMsg.answerer : ServerMsg → Option String
  | .answer sender _ => some sender
  | _ => none

namespace Engine

/-- A rotation discards no offer that has not been answered. -/
def Calm (e : Engine) (msg : ServerMsg) : Prop :=
  msg.rotates = true → ∀ q ∈ e.mesh.peers.keys, e.mesh.myId < q → ∀ p ∈ e.mesh.conn? q, p.remoteSet = true

instance (e : Engine) (msg : ServerMsg) : Decidable (e.Calm msg) := by
  unfold Calm
  infer_instance

/-- What the library does with an answer for a PeerConnection that has no local offer waiting for one: setting it fails. -/
def Refuses (e : Engine) (w : Outcomes) (msg : ServerMsg) : Prop :=
  ∀ sender ∈ msg.answerer, ∀ p ∈ e.mesh.conn? sender, p.haveLocalOffer = false → w sender .setRemoteDescription = false

instance (e : Engine) (w : Outcomes) (msg : ServerMsg) : Decidable (e.Refuses w msg) := by
  unfold Refuses
  infer_instance

end Engine

namespace Pair

section
variable {ends : Ends} {P P' : Pair} {mv : Move}

/-- An end that holds an established PeerConn for the other goes on holding one. -/
theorem Step.established (h : Step ends P mv P') (set : ∃ y, P.hi.side.link = some y ∧ y.remoteSet = true) :
    ∃ y, P'.hi.side.link = some y ∧ y.remoteSet = true := by
  cases h with
  | lo hears sight turn => exact set
  | rotate n => exact set
  | @hi cue out up h hears =>
    obtain ⟨y, hy, hset⟩ := set
    obtain ⟨p, hp, rfl⟩ := Option.map_eq_some_iff.mp hy
    have reacts := hears.reacts
    have changed : ∀ {f : PeerConn → PeerConn}, (∀ p, p.remoteSet = true → (f p).remoteSet = true) →
        ∃ y, (P.hi.side.changed f).link = some y ∧ y.remoteSet = true := fun {f} hf =>
      ⟨(f p).link, by simp [Side.link, Side.changed, hp], hf p hset⟩
    generalize h.side = s' at reacts
    generalize out.filter Signal.negotiates = said at reacts
    cases reacts with
    | offered smaller => cases smaller
    | @waits p' n larger has =>
      cases has with
      | held hp' =>
        cases hp.symm.trans hp'
        exact ⟨p.link, rfl, hset⟩
      | new hnone new =>
        rw [hp] at hnone
        cases hnone
    | left => exact absurd rfl hears.stays
    | rotated smaller => cases smaller
    | unrotated h => exact ⟨p.link, by simp [Side.link, hp], hset⟩
    | @answered sdp p' n has => exact ⟨_, rfl, p'.concluded_remoteSet ends.rtc sdp⟩
    | concluded sdp => exact changed fun p _ => p.concluded_remoteSet ends.rtc sdp
    | ice cand =>
      refine changed fun p hset => ?_
      have link := congrArg Link.remoteSet (p.link_addOrQueueIce ends.rtc cand)
      exact link.trans hset
    | other => exact ⟨p.link, by simp [Side.link, hp], hset⟩
    | chats => exact changed fun _ hset => hset

theorem renewed_zero (P : Pair) : P.Renewed 0 0 :=
  ⟨.inr fun _ _ => Nat.zero_le _, .inr (.inr fun _ _ => Nat.zero_le _), fun _ _ _ => Nat.zero_le _, Nat.zero_le _,
    Nat.zero_le _⟩

/-- A rotation that is announced to an established pair is still to renew its PeerConns. -/
theorem renewed_of_rekey (due : 0 < P.rekeys) (set : ∃ y, P.hi.side.link = some y ∧ y.remoteSet = true) :
    Renewed P.lo.side.serial P.hi.side.serial P := by
  refine ⟨.inl due, .inl due, fun y hy unset => ?_, Nat.le_refl _, Nat.le_refl _⟩
  obtain ⟨y', hy', hset⟩ := set
  cases hy.symm.trans hy'
  rw [hset] at unset
  cases unset

end

end Pair

namespace Sys

/-- No unanswered offer is discarded. -/
def Calm (σ : Sys) (ev : SysEvent) : Prop := ∀ p ∈ σ.taken ev, p.1.Calm p.2

instance (σ : Sys) (ev : SysEvent) : Decidable (Calm σ ev) := by
  unfold Calm
  infer_instance

/-- The library refuses the answers that a PeerConnection does not wait for. -/
def Refuses (σ : Sys) (ev : SysEvent) : Prop := ∀ h ∈ ev.handler, ∀ p ∈ σ.taken ev, p.1.Refuses h.2 p.2

instance (σ : Sys) (ev : SysEvent) : Decidable (Refuses σ ev) := by
  unfold Refuses
  infer_instance

section
variable {cfg : SysConfig} {σ σ₀ σ₁ σ₂ σ' : Sys} {ev : SysEvent} {room userId u v : String} {h hu hv : PeerHandle}
variable {e e' f f' : Engine} {k k' l l' : Conn}

theorem Online.taken (on : Online σ room userId h e k) {w : Outcomes} {msg : ServerMsg}
    (hev : ev.handler = some (σ.owner h.tx, w))
    (hin : (σ.inbox h.tx).head? = some msg) : σ.taken ev = some (e, msg) :=
  taken_of hev on.engine on.running on.cur hin

theorem calm_move (forms : Forms cfg σ) (hlt : u < v) (U : Online σ room u hu e k) (calm : Calm σ ev) {mv : Pair.Move}
    (follows : Follows σ ev u v hu.tx hv.tx mv) : mv.Calm (σ.pair u v hu.tx hv.tx e f) := by
  cases mv with
  | hi cue out => trivial
  | rotate n => trivial
  | lo cue out =>
    cases cue with
    | rekey =>
      rcases follows.takes with ⟨hcue, -⟩ | ⟨w, msg, hev, hin, hcue⟩
      · cases hcue
      · obtain ⟨by', rfl⟩ := ServerMsg.cue_eq_rekey hcue.symm
        intro x hx
        obtain ⟨p, hp, rfl⟩ := Option.map_eq_some_iff.mp hx
        have idU : e.mesh.myId = u := (forms.wf.mesh _ _ U.engine).2.trans (U.config forms.wf).2
        have held : e.mesh.conn? v = some p := hp
        exact calm _ (U.taken hev hin) rfl v (Mesh.mem_keys_iff.mpr (by rw [held]; rfl)) (idU ▸ hlt) p held
    | _ => trivial

/-- The steps of the runs in which no unanswered offer is discarded. -/
def Rotating (cfg : SysConfig) (σ : Sys) (ev : SysEvent) (σ' : Sys) : Prop := Forming cfg σ ev σ' ∧ Calm σ ev

/-- The steps of the runs in which rotations may overlap. -/
def Rekeying (cfg : SysConfig) (σ : Sys) (ev : SysEvent) (σ' : Sys) : Prop := Forming cfg σ ev σ' ∧ Refuses σ ev

/-- Where no call fails, an answer finds an offer that waits for one. -/
theorem obeys_move (forming : Forming cfg σ ev σ') (U : Online σ room u hu e k) (refuses : Refuses σ ev)
    {mv : Pair.Move} (follows : Follows σ ev u v hu.tx hv.tx mv) : mv.Obeys (σ.pair u v hu.tx hv.tx e f) := by
  cases mv with
  | hi cue out => trivial
  | rotate n => trivial
  | lo cue out =>
    cases cue with
    | signal sig =>
      cases sig with
      | answer sdp =>
        rcases follows.takes with ⟨hcue, -⟩ | ⟨w, msg, hev, hin, hcue⟩
        · cases hcue
        · intro p (hp : e.mesh.conn? v = some p)
          obtain rfl : msg = .answer v sdp := ServerMsg.cue_eq_signal hcue.symm
          have accepted := forming.calls (σ.owner hu.tx, w) hev v .setRemoteDescription
          have refused := refuses _ hev _ (U.taken hev hin) v rfl p hp
          by_contra unset
          cases accepted.symm.trans (refused (Bool.eq_false_of_not_eq_true unset))
      | _ => trivial
    | _ => trivial

theorem rekeying_reach (fits : Fits cfg.rtc) (h : Lts.Reach (next cfg) (Rekeying cfg) empty σ) :
    Forms cfg σ ∧ AllPairs cfg σ fun _ P => P.Renewing 0 0 := by
  have forms : ∀ t, Lts.Reach (next cfg) (Rekeying cfg) empty t → Forms cfg t := fun t ht =>
    forms_reach forms_empty (ht.mono fun _ _ _ ok => ok.1)
  refine ⟨forms σ h, ?_⟩
  refine h.invariant_over (P := fun σ => AllPairs cfg σ fun _ P => P.Renewing 0 0) forms ?_ ?_
  · exact fun room u v hu hv e k f l _ U => by cases U.engine
  · rintro σ ev σ' forms - all ⟨forming, refuses⟩ hs
    refine allPairs_next forms hs forming (fun _ P met => .inr ⟨⟨_, _, met.stage⟩, P.renewed_zero⟩) ?_ all
    rintro room u v hu hv e k f l e' k' f' l' mv hlt U - - - renewing step follows
    exact Pair.renewing_step fits (fun _ => ⟨rfl, rfl⟩) renewing step (obeys_move forming U refuses follows)

/-- The members of a pair stay online, and the pair takes a step. -/
theorem pair_kept (forms : Forms cfg σ) (hs : next cfg σ ev = some σ') (forming : Forming cfg σ ev σ') (hlt : u < v)
    (U : Online σ room u hu e k) (V : Online σ room v hv f l) :
    ∃ e' k' f' l' mv, Online σ' room u hu e' k' ∧ Online σ' room v hv f' l' ∧
      Pair.Step (σ.ends cfg u v hu.tx hv.tx) (σ.pair u v hu.tx hv.tx e f) mv (σ'.pair u v hu.tx hv.tx e' f') ∧
      Follows σ ev u v hu.tx hv.tx mv := by
  have stays := (stays_next forms.wf hs forming).1
  have forms' := forms_next forms hs forming
  obtain ⟨e', k', U'⟩ := forms'.present.online forms'.wf (stays room u hu U.listed)
  obtain ⟨f', l', V'⟩ := forms'.present.online forms'.wf (stays room v hv V.listed)
  obtain ⟨e₀, k₀, f₀, l₀, mv, U₀, V₀, step, follows⟩ :=
    pair_step forms.wf hs forming forms.known hlt U' V' U.listed V.listed
  cases U.engine.symm.trans U₀.engine
  cases V.engine.symm.trans V₀.engine
  exact ⟨e', k', f', l', mv, U', V', step, follows⟩

/-- A rotation is announced in the room. -/
def Announces (σ : Sys) (room : String) (ev : SysEvent) : Prop :=
  ∃ s userId, ev.rotates σ = some s ∧ σ.server.ident s = some (room, userId)

theorem rotates_recv {s : SocketId} (hs : next cfg σ ev = some σ') (h : ev.rotates σ = some s) :
    ∃ rest, ev = .act (.recv s) ∧ σ.wire s = .rekey :: rest := by
  have part : σ.serverPart ev = some (.frame s (.text .rekey)) := by
    unfold SysEvent.rotates at h
    split at h
    · rename_i t hp
      cases h
      exact hp
    · cases h
  cases ev with
  | race c w said => cases part
  | act a =>
    cases a with
    | recv t =>
      obtain ⟨msg, hmsg, heq⟩ := Option.map_eq_some_iff.mp part
      cases heq
      obtain ⟨rest, hw⟩ := List.head?_eq_some_iff.mp hmsg
      exact ⟨rest, rfl, hw⟩
    | server b =>
      cases part
      have hs' : step cfg σ (.server (.frame s (.text .rekey))) = some σ' := hs
      cases (step_server_inv hs').1
    | _ => cases part

/-- A member is told of a rotation that is announced, and nothing else happens to it. -/
theorem member_announced (forms : Forms cfg σ) (hs : next cfg σ ev = some σ') (forming : Forming cfg σ ev σ')
    (announces : σ.Announces room ev) (on : Online σ room userId h e k) (on' : Online σ' room userId h e' k') (q : String) :
    e'.mesh.side q = e.mesh.side q ∧ 0 < (σ'.heard h.tx).countP fun msg => decide (msg.cue q = .rekey) := by
  obtain ⟨s, w, hrot, hident⟩ := announces
  obtain ⟨rest, rfl, hw⟩ := rotates_recv hs hrot
  have hs' : step cfg σ (.recv s) = some σ' := hs
  obtain ⟨msg, rest', srv, hw', hstep, -⟩ := step_recv_inv hs'
  cases hw.symm.trans hw'
  obtain ⟨c, hc, hr, -⟩ := Server.step_frame_inv hstep
  have hme : c.me = some (room, w) := (Server.ident_of_reading hc hr).symm.trans hident
  obtain ⟨by', hnews⟩ : ∃ by', Fifo.sentTo h.tx (σ.news cfg (.act (.recv s))) = [.rekey by'] := by
    refine ⟨((σ.server.handle? room w).map (·.name)).getD "", ?_⟩
    simp only [news, sends, hw, hc, Server.frameSends, hme, Server.sentTo_toRoomSends forms.wf.server on.listed, if_true]
    rfl
  obtain ⟨e₀, k₀, on₀, turns⟩ := turn_step forms.wf hs forming.room forming.calls
    (fun s peers hm => forms.known.rosters s peers (mem_heard.mpr (.inl hm))) on' on.listed
  cases on.engine.symm.trans on₀.engine
  cases (turns q).attends on₀ on' with
  | hears cue ms own => cases own
  | told side sent unsaid heard count =>
    refine ⟨side, ?_⟩
    rw [count .rekey (by simp), hnews]
    exact Nat.lt_of_lt_of_le Nat.zero_lt_one (Nat.le_add_left _ _)

/-- Once nothing is on its way, a pair has no surplus. -/
theorem staged_of_drained (fits : Fits cfg.rtc) (reach : Lts.Reach (next cfg) (Rekeying cfg) empty σ) (drained : Drained σ)
    (hlt : u < v) (U : Online σ room u hu e k) (V : Online σ room v hv f l) :
    ∃ past d, Pair.Stage past (σ.pair u v hu.tx hv.tx e f) d := by
  obtain ⟨forms, all⟩ := rekeying_reach fits reach
  rcases all room u v hu hv e k f l hlt U V with surplus | ⟨staged, -⟩
  · exact absurd surplus (drained.quiet forms.wf U V).1.not_surplus
  · exact staged

/-- In a mesh that has formed, every pair holds established PeerConns and goes on doing so. -/
theorem established_reach (fits : Fits cfg.rtc) (formed : Lts.Reach (next cfg) (Rekeying cfg) empty σ₀)
    (drained : Drained σ₀) (hlt : u < v) (U : Online σ₀ room u hu e k) (V : Online σ₀ room v hv f l)
    (h : Lts.Reach (next cfg) (Rekeying cfg) σ₀ σ) :
    ∃ e k f l, Online σ room u hu e k ∧ Online σ room v hv f l ∧
      ∃ y, (σ.pair u v hu.tx hv.tx e f).hi.side.link = some y ∧ y.remoteSet = true := by
  induction h with
  | refl =>
    have forms := (rekeying_reach fits formed).1
    obtain ⟨past, d, stage⟩ := staged_of_drained fits formed drained hlt U V
    obtain ⟨x, y, off, ans, -, there, -, matched, -⟩ := stage.matched (drained.quiet forms.wf U V).1
    refine ⟨e, k, f, l, U, V, y.link, ?_, matched.taken.2⟩
    simp [Side.link, there]
  | step ev hr ok hs ih =>
    obtain ⟨e, k, f, l, U, V, set⟩ := ih
    have forms := (rekeying_reach fits (formed.trans hr)).1
    obtain ⟨e', k', f', l', mv, U', V', step, -⟩ := pair_kept forms hs ok.1 hlt U V
    exact ⟨e', k', f', l', U', V', step.established set⟩

/-- After a rotation has been announced to an established pair, its PeerConns will be newer. -/
theorem renewing_reach (fits : Fits cfg.rtc) {n m : Nat}
    (begun : Lts.Reach (next cfg) (Rekeying cfg) empty σ₂) (hlt : u < v)
    (U : Online σ₂ room u hu e k) (V : Online σ₂ room v hv f l) (renewing : (σ₂.pair u v hu.tx hv.tx e f).Renewing n m)
    (h : Lts.Reach (next cfg) (Rekeying cfg) σ₂ σ) :
    ∃ e k f l, Online σ room u hu e k ∧ Online σ room v hv f l ∧ (σ.pair u v hu.tx hv.tx e f).Renewing n m := by
  induction h with
  | refl => exact ⟨e, k, f, l, U, V, renewing⟩
  | step ev hr ok hs ih =>
    obtain ⟨e, k, f, l, U, V, renewing⟩ := ih
    have forms := (rekeying_reach fits (begun.trans hr)).1
    obtain ⟨e', k', f', l', mv, U', V', step, follows⟩ := pair_kept forms hs ok.1 hlt U V
    refine ⟨e', k', f', l', U', V', Pair.renewing_step fits (fun _ => ⟨rfl, rfl⟩) renewing step ?_⟩
    exact obeys_move ok.1 U ok.2 follows

/-- Where no call fails, once nothing is on its way the PeerConns that two members of a mesh hold for each other are
    negotiated with each other, and both have been made after every rotation that has been announced since the mesh
    had formed. -/
theorem rotation_links (fits : Fits cfg.rtc) (formed : Lts.Reach (next cfg) (Rekeying cfg) empty σ₀) (drained₀ : Drained σ₀)
    (h : Lts.Reach (next cfg) (Rekeying cfg) σ₀ σ) (drained : Drained σ) (hlt : u < v)
    (listed : σ₀.server.handle? room u = some hu) (listed' : σ₀.server.handle? room v = some hv) :
    ∃ e f x y off ans, σ.engines (σ.owner hu.tx) = some e ∧ σ.engines (σ.owner hv.tx) = some f ∧ e.mesh.conn? v = some x ∧
      f.mesh.conn? u = some y ∧ Pair.Matched x y off ans ∧
      ∀ σ₁ ev σ₂, Lts.Reach (next cfg) (Rekeying cfg) σ₀ σ₁ → Rekeying cfg σ₁ ev σ₂ → next cfg σ₁ ev = some σ₂ →
        σ₁.Announces room ev → Lts.Reach (next cfg) (Rekeying cfg) σ₂ σ →
        ∀ e₁ f₁, σ₁.engines (σ₁.owner hu.tx) = some e₁ → σ₁.engines (σ₁.owner hv.tx) = some f₁ →
          e₁.mesh.serial v ≤ x.pc.serial ∧ f₁.mesh.serial u ≤ y.pc.serial := by
  have forms₀ := (rekeying_reach fits formed).1
  obtain ⟨e₀, k₀, U₀⟩ := forms₀.present.online forms₀.wf listed
  obtain ⟨f₀, l₀, V₀⟩ := forms₀.present.online forms₀.wf listed'
  have forms := (rekeying_reach fits (formed.trans h)).1
  obtain ⟨e, k, f, l, U, V, -⟩ := established_reach fits formed drained₀ hlt U₀ V₀ h
  obtain ⟨quiet, done⟩ := drained.quiet forms.wf U V
  obtain ⟨past, d, stage⟩ := staged_of_drained fits (formed.trans h) drained hlt U V
  obtain ⟨x, y, off, ans, here, there, -, matched, -⟩ := stage.matched quiet
  refine ⟨e, f, x, y, off, ans, U.engine, V.engine, here, there, matched, ?_⟩
  intro σ₁ ev σ₂ before ok hs announces after e₁ f₁ he₁ hf₁
  have forms₁ := (rekeying_reach fits (formed.trans before)).1
  obtain ⟨e₁', k₁, f₁', l₁, U₁, V₁, y₁, hy₁, hset⟩ := established_reach fits formed drained₀ hlt U₀ V₀ before
  cases he₁.symm.trans U₁.engine
  cases hf₁.symm.trans V₁.engine
  obtain ⟨e₂, k₂, f₂, l₂, mv, U₂, V₂, -⟩ := pair_kept forms₁ hs ok.1 hlt U₁ V₁
  obtain ⟨sideU, due⟩ := member_announced forms₁ hs ok.1 announces U₁ U₂ v
  obtain ⟨sideV, -⟩ := member_announced forms₁ hs ok.1 announces V₁ V₂ u
  have begun : Lts.Reach (next cfg) (Rekeying cfg) empty σ₂ := (formed.trans before).step ev ok hs
  -- The rotation is on its way to the pair, which will renew its PeerConns.
  have renewing : (σ₂.pair u v hu.tx hv.tx e₂ f₂).Renewing (e₁.mesh.serial v) (f₁.mesh.serial u) := by
    refine ((rekeying_reach fits begun).2 room u v hu hv e₂ k₂ f₂ l₂ hlt U₂ V₂).imp_right fun staged => ⟨staged.1, ?_⟩
    have same : (σ₂.pair u v hu.tx hv.tx e₂ f₂).lo.side = e₁.mesh.side v ∧
        (σ₂.pair u v hu.tx hv.tx e₂ f₂).hi.side = f₁.mesh.side u :=
      ⟨sideU, sideV⟩
    have := Pair.renewed_of_rekey (P := σ₂.pair u v hu.tx hv.tx e₂ f₂) due ⟨y₁, by rw [same.2]; exact hy₁, hset⟩
    rwa [same.1, same.2] at this
  obtain ⟨e', k', f', l', U', V', renewing'⟩ := renewing_reach fits begun hlt U₂ V₂ renewing after
  cases U.engine.symm.trans U'.engine
  cases V.engine.symm.trans V'.engine
  have renewed := (renewing'.resolve_left quiet.not_surplus).2
  have none : ∀ off, .offer off ∉ (σ.pair u v hu.tx hv.tx e f).up := fun off => by rw [quiet.up]; exact List.not_mem_nil
  have here' : (σ.pair u v hu.tx hv.tx e f).lo.side.link = some x.link := by simp [Side.link, here]
  have there' : (σ.pair u v hu.tx hv.tx e f).hi.side.link = some y.link := by simp [Side.link, there]
  have idle : ¬ 0 < (σ.pair u v hu.tx hv.tx e f).rekeys := by rw [done]; exact Nat.lt_irrefl 0
  refine ⟨renewed.lo.resolve_left idle _ here', ?_⟩
  rcases renewed.hi with h | ⟨off, hm⟩ | old
  · exact absurd h idle
  · exact absurd hm (none off)
  · exact old _ there'

end

/-- One rotation of the mesh of two. -/
def rotateActs : List SysEvent :=
  ([Act.event 1 (.command .rekey), .recv 1] ++ getActs 0 0 1 ++ sendActs 0 0 ++ getActs 1 1 2 ++
    sendActs 1 1 ++ getActs 0 0 1).map .act

def afterRotate : Sys := (Lts.exec (next sampleConfig) afterForm rotateActs).getD empty

/-- The runs with rotations that can be executed. -/
theorem rekeying_of_test {cfg : SysConfig} {σ₀ σ : Sys} {evs : List SysEvent}
    (h : Lts.execOk (fun σ ev => next cfg σ (easy ev))
      (fun σ ev σ' => formingTest cfg σ (easy ev) σ' && decide (Refuses σ (easy ev))) σ₀ evs = some σ) :
    Lts.Reach (next cfg) (Rekeying cfg) σ₀ σ :=
  (reach_of_formingTest (fun σ ev _ => decide (Refuses σ ev)) h).mono fun _ _ _ ok => ⟨ok.1, of_decide_eq_true ok.2⟩

theorem rotation_links_alice :
    ∃ e f x y off ans, afterRotate.engines 0 = some e ∧ afterRotate.engines 1 = some f ∧ e.mesh.conn? "bob" = some x ∧
      f.mesh.conn? "alice" = some y ∧ Pair.Matched x y off ans := by
  have formed : Lts.Reach (next sampleConfig) (Rekeying sampleConfig) empty afterForm :=
    rekeying_of_test (show Lts.execOk _ _ empty formActs = _ from rfl)
  have rotated : Lts.Reach (next sampleConfig) (Rekeying sampleConfig) afterForm afterRotate :=
    rekeying_of_test (show Lts.execOk _ _ afterForm rotateActs = _ from rfl)
  obtain ⟨e, f, x, y, off, ans, he, hf, here, there, matched, -⟩ :=
    @rotation_links sampleConfig afterRotate afterForm "r" "alice" "bob" ⟨"alice", 0⟩ ⟨"bob", 1⟩
    sampleFits formed (by decide) rotated (by decide) (by decide) rfl rfl
  exact ⟨e, f, x, y, off, ans, he, hf, here, there, matched⟩

end Sys

end SquadLink

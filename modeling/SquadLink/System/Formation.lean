import SquadLink.System.Presence

/-! A mesh forms. The pairs of members are followed through the run, each from the Join that makes it a pair,
    and once nothing is on its way anywhere every two members are negotiated with each other. -/

namespace SquadLink

namespace Sys

/-- What every state of a run of forming has. -/
structure Forms (cfg : SysConfig) (σ : Sys) : Prop where
  wf : WF cfg σ
  known : Introduced σ
  present : Present σ

section
variable {cfg : SysConfig} {σ σ₀ σ' : Sys} {ev : SysEvent} {room userId u v : String}
  {h hu hv : PeerHandle} {e e' f f' : Engine}
variable {k k' l l' : Conn}

theorem forms_next (forms : Forms cfg σ) (hs : next cfg σ ev = some σ') (forming : Forming cfg σ ev σ') : Forms cfg σ' :=
  ⟨wf_next forms.wf hs, introduced_next forms.wf hs forming forms.known,
    present_next forms.wf hs forming forms.known.rosters forms.present⟩

theorem forms_reach (forms : Forms cfg σ₀) (h : Lts.Reach (next cfg) (Forming cfg) σ₀ σ) : Forms cfg σ :=
  h.invariant forms fun _ _ _ forms forming hs => forms_next forms hs forming

theorem forms_empty : Forms cfg empty := ⟨wf_empty, introduced_empty, present_empty⟩

/-- `I` holds of every two members of a room. -/
def AllPairs (cfg : SysConfig) (σ : Sys) (I : Ends → Pair → Prop) : Prop :=
  ∀ room u v hu hv e k f l, u < v → Online σ room u hu e k → Online σ room v hv f l →
    I (σ.ends cfg u v hu.tx hv.tx) (σ.pair u v hu.tx hv.tx e f)

theorem ends_next (forms : Forms cfg σ) (hs : next cfg σ ev = some σ') (U : Online σ room u hu e k)
    (V : Online σ room v hv f l) :
    σ'.ends cfg u v hu.tx hv.tx = σ.ends cfg u v hu.tx hv.tx := by
  have kept := next_kept forms.wf hs
  rw [ends, kept.owner _ (U.opened forms.wf), kept.owner _ (V.opened forms.wf), ends]

/-- What holds of two members that have just met, and is kept by the moves of a pair, holds of all pairs. -/
theorem allPairs_next {I : Ends → Pair → Prop} (forms : Forms cfg σ) (hs : next cfg σ ev = some σ')
    (forming : Forming cfg σ ev σ') (met : ∀ ends P, P.Met → I ends P)
    (keep : ∀ room u v hu hv e k f l e' k' f' l' mv, u < v → Online σ room u hu e k → Online σ room v hv f l →
      Online σ' room u hu e' k' → Online σ' room v hv f' l' →
      I (σ.ends cfg u v hu.tx hv.tx) (σ.pair u v hu.tx hv.tx e f) →
      Pair.Step (σ.ends cfg u v hu.tx hv.tx) (σ.pair u v hu.tx hv.tx e f) mv (σ'.pair u v hu.tx hv.tx e' f') →
      Follows σ ev u v hu.tx hv.tx mv → I (σ.ends cfg u v hu.tx hv.tx) (σ'.pair u v hu.tx hv.tx e' f'))
    (all : AllPairs cfg σ I) : AllPairs cfg σ' I := by
  intro room u v hu hv e' k' f' l' hlt U' V'
  rcases pair_next forms.wf hs forming forms.known hlt U' V' with new | ⟨e, k, f, l, mv, U, V, step, follows⟩
  · exact met _ _ new
  · rw [ends_next forms hs U V]
    exact keep room u v hu hv e k f l e' k' f' l' mv hlt U V U' V' (all room u v hu hv e k f l hlt U V) step follows

/-- Everything is quiet between two members when nothing is on its way anywhere. -/
theorem Drained.quiet (drained : Drained σ) (wf : WF cfg σ) (U : Online σ room u hu e k) (V : Online σ room v hv f l) :
    (σ.pair u v hu.tx hv.tx e f).Quiet ∧ (σ.pair u v hu.tx hv.tx e f).rekeys = 0 := by
  obtain ⟨heardU, unsaidU⟩ := drained.silent wf U
  obtain ⟨heardV, unsaidV⟩ := drained.silent wf V
  refine ⟨⟨?_, ?_, ?_⟩, ?_⟩
  · simp [pair, lane, heardV, unsaidU]
  · simp [pair, lane, heardU, unsaidV]
  · simp [pair, heardU]
  · simp [pair, heardU]

/-! ### Without rotations -/

theorem pair_unrotated (unrotated : Unrotated σ) : (σ.pair u v hu.tx hv.tx e f).rekeys = 0 := by
  refine List.countP_eq_zero.mpr fun msg hm => ?_
  rw [decide_eq_true_eq]
  intro hcue
  obtain ⟨by', rfl⟩ := ServerMsg.cue_eq_rekey hcue
  exact unrotated hu.tx by' hm

/-- Every pair is in its first negotiation. -/
theorem formation_reach (fits : Fits cfg.rtc)
    (h : Lts.Reach (next cfg) (fun σ ev σ' => Forming cfg σ ev σ' ∧ ev.rotates σ = none) empty σ) :
    Unrotated σ ∧ AllPairs cfg σ fun _ P => ∃ d, Pair.Stage ([], []) P d := by
  refine h.invariant_over (P := fun σ => Unrotated σ ∧ AllPairs cfg σ fun _ P => ∃ d, Pair.Stage ([], []) P d)
    (fun t ht => forms_reach forms_empty (ht.mono fun _ _ _ ok => ok.1)) ?_ ?_
  · exact ⟨unrotated_empty, fun room u v hu hv e k f l _ U => by cases U.engine⟩
  · rintro σ ev σ' forms - ⟨unrotated, all⟩ ⟨forming, unasked⟩ hs
    refine ⟨unrotated_next hs forming unasked unrotated, ?_⟩
    refine allPairs_next forms hs forming (fun _ P met => ⟨_, met.stage⟩) ?_ all
    rintro room u v hu hv e k f l e' k' f' l' mv - U V - - ⟨d, stage⟩ step -
    have still : mv.rotates = false ∧ mv.Calm (σ.pair u v hu.tx hv.tx e f) := by
      generalize σ'.pair u v hu.tx hv.tx e' f' = P' at step
      cases step with
      | @lo cue out down h sees rekeys hears sight turn =>
        have hcue : cue ≠ .rekey := fun hc => by
          rw [pair_unrotated unrotated, if_pos hc] at turn
          cases turn
        cases cue with
        | rekey => exact absurd rfl hcue
        | _ => exact ⟨rfl, trivial⟩
      | hi hears => exact ⟨rfl, trivial⟩
      | rotate n => exact ⟨rfl, trivial⟩
    obtain ⟨past, stage', kept⟩ := Pair.stage_step fits stage step still.2
    rw [kept still.1] at stage'
    exact ⟨_, stage'⟩

/-- The PeerConns that the engines of `u` and `v` hold for each other are negotiated with each other, and `off`
    and `ans` are the one offer and the one answer that the two have sent each other. -/
structure Connected (u v : String) (e f : Engine) (x y : PeerConn) (off ans : Sdp) : Prop where
  here : e.mesh.conn? v = some x
  there : f.mesh.conn? u = some y
  matched : Pair.Matched x y off ans
  offered : (e.mesh.sent.filterMap (ClientMsg.signalFor v)).filter Signal.negotiates = [.offer off]
  answered : (f.mesh.sent.filterMap (ClientMsg.signalFor u)).filter Signal.negotiates = [.answer ans]

/-- Once nothing is on its way, the members of a room are a full mesh: each holds a PeerConn for every other
    one and for nobody else, and every two have got there by one offer, of the smaller id, and one answer. -/
theorem mesh_forms (fits : Fits cfg.rtc)
    (h : Lts.Reach (next cfg) (fun σ ev σ' => Forming cfg σ ev σ' ∧ ev.rotates σ = none) empty σ) (drained : Drained σ)
    (listed : σ.server.handle? room u = some hu) :
    ∃ e, σ.engines (σ.owner hu.tx) = some e ∧ e.running = true ∧ e.cur = some hu.tx ∧
      (∀ q, (e.mesh.conn? q).isSome ↔ q ≠ u ∧ (σ.server.handle? room q).isSome) ∧
      ∀ v hv, σ.server.handle? room v = some hv → u < v →
        ∃ f, σ.engines (σ.owner hv.tx) = some f ∧ ∃ x y off ans, Connected u v e f x y off ans := by
  have forms : Forms cfg σ := forms_reach forms_empty (h.mono fun _ _ _ ok => ok.1)
  have staged := (formation_reach fits h).2
  -- Every two members are negotiated with each other.
  have connected : ∀ {u v hu hv e k f l}, u < v → Online σ room u hu e k → Online σ room v hv f l →
      ∃ x y off ans, Connected u v e f x y off ans := by
    intro u v hu hv e k f l hlt U V
    obtain ⟨d, stage⟩ := staged room u v hu hv e k f l hlt U V
    obtain ⟨x, y, off, ans, here, there, -, matched, offered, answered⟩ := stage.matched (drained.quiet forms.wf U V).1
    exact ⟨x, y, off, ans, here, there, matched, offered, answered⟩
  obtain ⟨e, k, U⟩ := forms.present.online forms.wf listed
  refine ⟨e, U.engine, U.running, U.cur, fun q => ⟨fun hq => ?_, fun ⟨hne, hq⟩ => ?_⟩, fun v hv listed' hlt => ?_⟩
  · by_contra hother
    have unknown : q = u ∨ σ.server.handle? room q = none := by
      by_cases hqu : q = u
      · exact .inl hqu
      · exact .inr (by simpa [hqu] using hother)
    have none : e.mesh.conn? q = none := congrArg Side.conn (forms.known.unlisted room u hu e k U q unknown).apart.side
    rw [none] at hq
    cases hq
  · obtain ⟨hv, listed'⟩ := Option.isSome_iff_exists.mp hq
    obtain ⟨f, l, V⟩ := forms.present.online forms.wf listed'
    by_cases hlt : q < u
    · obtain ⟨x, y, off, ans, -, there, -⟩ := connected hlt V U
      rw [there]
      rfl
    · have hgt : u < q := String.not_le.mp fun hle => hne (String.le_antisymm hle (String.not_lt.mp hlt))
      obtain ⟨x, y, off, ans, here, -⟩ := connected hgt U V
      rw [here]
      rfl
  · obtain ⟨f, l, V⟩ := forms.present.online forms.wf listed'
    exact ⟨f, V.engine, connected hlt U V⟩

end

/-! ### Runs that can be executed -/

/-- The event with calls of the library that all succeed. -/
def easy : SysEvent → SysEvent
  | .act (.handle c _) => .act (.handle c noFailure)
  | .race c _ said => .race c noFailure said
  | ev => ev

theorem easy_allOk (ev : SysEvent) : ∀ p ∈ (easy ev).handler, p.2.AllOk := by
  intro p hp
  cases ev with
  | race c w said =>
    cases hp
    exact fun _ _ => rfl
  | act a =>
    cases a with
    | handle c w =>
      cases hp
      exact fun _ _ => rfl
    | _ => cases hp

/-- `Forming` without the calls of the library. -/
def formingTest (cfg : SysConfig) (σ : Sys) (ev : SysEvent) (σ' : Sys) : Bool :=
  decide (σ'.server.NeverFull ∧
    (∀ b ∈ σ.serverPart ev, σ.server.supersedes cfg.server b = false ∧ σ.server.departs b = false) ∧ ev.parts = false ∧
    ∀ c ∈ ev.client, ∀ e' ∈ σ'.engines c, ∀ cand ∈ ev.reports, cand.pc.owner = c ∧
      cand.pc.serial < e'.mesh.serial cand.pc.peer)

theorem reach_of_formingTest {cfg : SysConfig} {σ₀ σ : Sys} {evs : List SysEvent} (test : Sys → SysEvent → Sys → Bool)
    (h : Lts.execOk (fun σ ev => next cfg σ (easy ev))
      (fun σ ev σ' => formingTest cfg σ (easy ev) σ' && test σ (easy ev) σ') σ₀ evs = some σ) :
    Lts.Reach (next cfg) (fun σ ev σ' => Forming cfg σ ev σ' ∧ test σ ev σ' = true) σ₀ σ := by
  refine Lts.Reach.relabel easy (Lts.Reach.of_execOk (fun σ ev σ' hok => ?_) h)
  obtain ⟨forming, rest⟩ := Bool.and_eq_true_iff.mp hok
  obtain ⟨room, server, held, genuine⟩ := of_decide_eq_true forming
  exact ⟨⟨room, fun b hb => (server b hb).1, fun b hb => (server b hb).2, held, easy_allOk ev, genuine⟩, rest⟩

/-- The offer of the first client gets to the second one before the second one's own Roster. -/
def formActs : List SysEvent :=
  (startActs "alice" 0 ++ [Act.start (sampleUser "bob"), .recv 1] ++ getActs 0 0 2 ++ sendActs 0 0 ++ getActs 1 1 1 ++
    [Act.server (.finishJoin 1 0)] ++ getActs 1 1 1 ++ sendActs 1 1 ++ getActs 0 0 1).map .act

def afterForm : Sys := (Lts.exec (next sampleConfig) empty formActs).getD empty

theorem sampleFits : Fits sampleConfig.rtc := fun id => by
  show "v=0".utf8ByteSize ≤ maxSdp
  decide

theorem mesh_forms_alice :
    ∃ e f x y off ans, afterForm.engines 0 = some e ∧ afterForm.engines 1 = some f ∧
      Connected "alice" "bob" e f x y off ans := by
  have reach : Lts.Reach (next sampleConfig) (fun σ ev σ' => Forming sampleConfig σ ev σ' ∧
      ev.rotates σ = none) empty afterForm := by
    refine (reach_of_formingTest (fun σ ev _ => decide (ev.rotates σ = none))
      (show Lts.execOk _ _ empty formActs = _ from rfl)).mono ?_
    exact fun _ _ _ ok => ⟨ok.1, of_decide_eq_true ok.2⟩
  obtain ⟨e, engine, -, -, -, all⟩ :=
    mesh_forms sampleFits reach (by decide) (show afterForm.server.handle? "r" "alice" = _ from rfl)
  obtain ⟨f, engine', x, y, off, ans, connected⟩ := all "bob" _ rfl (by decide)
  exact ⟨e, f, x, y, off, ans, engine, engine', connected⟩

end Sys

end SquadLink

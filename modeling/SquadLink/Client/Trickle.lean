import SquadLink.Client.Candidates

/-! The candidates of a pair over its steps. What either end has told of the PeerConnection it negotiates
    with is what the other end has heard of it, once it has taken what is on its way. -/

namespace SquadLink

namespace Side

section
variable {rtc : Webrtc} {offers : Bool} {pc : Nat → PcId} {s s' : Side} {cue : Cue} {p : PeerConn}

/-- An end that says nothing keeps its PeerConn, or makes one that waits for an offer. -/
theorem Reacts.silent (reacts : s.Reacts rtc offers pc cue s' []) (hp : s'.conn = some p) :
    (∃ x, s.conn = some x ∧ p.pc = x.pc ∧ p.descs = x.descs ∧ (p.remoteSet = false → x.remoteSet = false)) ∨
      offers = false ∧ p.IsNew (pc s.serial) := by
  have changed : ∀ {f : PeerConn → PeerConn}, (∀ x, (f x).pc = x.pc ∧ (f x).descs = x.descs ∧
      ((f x).remoteSet = false → x.remoteSet = false)) → (s.changed f).conn = some p →
      ∃ x, s.conn = some x ∧ p.pc = x.pc ∧ p.descs = x.descs ∧ (p.remoteSet = false → x.remoteSet = false) := by
    intro f hf hp
    obtain ⟨x, hx, rfl⟩ := Option.map_eq_some_iff.mp hp
    exact ⟨x, hx, hf x⟩
  cases reacts with
  | waits larger has =>
    cases hp
    cases has with
    | held hp => exact .inl ⟨_, hp, rfl, rfl, id⟩
    | new hnone new => exact .inr ⟨larger, new⟩
  | left => cases hp
  | unrotated h => exact .inl ⟨p, hp, rfl, rfl, id⟩
  | concluded sdp =>
    exact .inl (changed (fun x => ⟨x.concluded_pc rtc sdp, by simp [PeerConn.concluded, PeerConn.setRemote], by simp⟩) hp)
  | ice cand =>
    refine .inl (changed (fun x => ?_) hp)
    obtain ⟨added, pendingIce, h⟩ := x.addOrQueueIce_eq rtc cand
    rw [h]
    exact ⟨rfl, rfl, id⟩
  | other => exact .inl ⟨p, hp, rfl, rfl, id⟩
  | chats => exact .inl (changed (f := fun x => { x with chat := true }) (fun x => ⟨rfl, rfl, id⟩) hp)

theorem Reacts.larger_still {said : List Signal} (reacts : s.Reacts rtc false pc .rekey s' said) : said = [] := by
  cases reacts with
  | rotated smaller => cases smaller
  | unrotated => rfl

end

end Side

namespace Half

/-- What holds of an end by itself. -/
structure Keeps (rtc : Webrtc) (pc : Nat → PcId) (h : Half) : Prop where
  tidy : h.side.Tidy
  sound : h.side.ear.Sound rtc
  own : h.Own pc

section
variable {rtc : Webrtc} {offers : Bool} {pc : Nat → PcId} {h h' : Half} {inc inc' out : List Signal}
  {cue : Cue} {sig : Signal}
variable {sdp : Sdp} {ear : Ear}

/-! #### What is told -/

/-- More candidates of the PeerConnection that the other end negotiates with. -/
theorem tell_more (hsaid : h'.said = h.said ++ out) (quiet : out.filter Signal.negotiates = []) {d : Option Sdp}
    (own : ∀ c ∈ cands out, ∃ sdp, d = some sdp ∧ c.pc = sdp.id.pc) (parse : ∀ c ∈ cands out, rtc.parsesIce c.text = true) :
    Lts.exec (Ear.hear rtc) (h.told d) out = some (h'.told d) := by
  cases hc : cands out with
  | nil =>
    rw [eq_nil_of_quiet quiet hc, told_silent hsaid hc]
    rfl
  | cons c cs =>
    obtain ⟨sdp, rfl, -⟩ := own c (hc ▸ List.mem_cons_self)
    have own' : ∀ c ∈ cands out, c.pc = sdp.id.pc := by
      intro c hc
      obtain ⟨sdp', hsdp, hpc⟩ := own c hc
      cases hsdp
      exact hpc
    rw [told_of_own hsaid own']
    refine Ear.exec_cands fun sig hm => ?_
    obtain ⟨c, rfl⟩ := ice_of_quiet quiet hm
    exact ⟨c, rfl, parse c (mem_cands.mpr hm), fun pc hpc => Option.some.inj hpc ▸ own' c (mem_cands.mpr hm)⟩

/-- A description of a PeerConnection that nothing has been told of, and candidates of it around. -/
theorem tell_anew (hsaid : h'.said = h.said ++ out) (single : out.filter Signal.negotiates = [sig])
    (desc : sig = .offer sdp ∨ sig = .answer sdp) (own : ∀ c ∈ cands out, c.pc = sdp.id.pc)
    (parse : ∀ c ∈ cands out, rtc.parsesIce c.text = true) (unreported : h.reported sdp.id.pc = []) :
    Lts.exec (Ear.hear rtc) .fresh out = some (h'.told (some sdp)) := by
  rw [told_of_own hsaid own, unreported, List.nil_append]
  exact Ear.exec_opening single desc fun c hm => ⟨parse c (mem_cands.mpr hm), own c (mem_cands.mpr hm)⟩

/-- A fresh offer before its candidates replaces what was negotiated. -/
theorem tell_again (hsaid : h'.said = h.said ++ out) (single : out.filter Signal.negotiates = [.offer sdp])
    (first : ∀ c, out.head? ≠ some (.ice c)) (negotiated : ear.peer.isSome = true) (own : ∀ c ∈ cands out, c.pc = sdp.id.pc)
    (parse : ∀ c ∈ cands out, rtc.parsesIce c.text = true) (unreported : h.reported sdp.id.pc = []) :
    Lts.exec (Ear.hear rtc) ear out = some (h'.told (some sdp)) := by
  rw [told_of_own hsaid own, unreported, List.nil_append]
  obtain ⟨before, after, rfl, hbefore, -, hafter⟩ := List.filter_eq_cons_iff.mp single
  cases before with
  | cons sig before =>
    have quiet : [sig].filter Signal.negotiates = [] := by
      rw [List.filter_eq_nil_iff]
      exact fun sig' hm => hbefore sig' (by simp_all)
    obtain ⟨c, rfl⟩ := ice_of_quiet quiet List.mem_cons_self
    exact absurd rfl (first c)
  | nil =>
    have heard : ear.hear rtc (.offer sdp) = some ⟨some sdp.id.pc, []⟩ := if_pos negotiated
    have later : Lts.exec (Ear.hear rtc) ⟨some sdp.id.pc, []⟩ after = some ⟨some sdp.id.pc, [] ++ cands after⟩ := by
      refine Ear.exec_cands fun sig hm => ?_
      obtain ⟨c, rfl⟩ := ice_of_quiet hafter hm
      have hc : c ∈ cands ([] ++ .offer sdp :: after) := mem_cands.mpr (List.mem_cons_of_mem _ hm)
      exact ⟨c, rfl, parse c hc, fun pc hpc => Option.some.inj hpc ▸ own c hc⟩
    rw [List.nil_append, Lts.exec, heard, Option.bind_some, later]
    rfl

/-! #### What is heard -/

/-- Unless a rotation replaces its PeerConn, an end that takes the first signal will have heard as much when
    it has taken the rest. -/
theorem Hears.carries (hears : h.Hears rtc offers pc inc cue out h' inc')
    (still : cue = .rekey → out.filter Signal.negotiates = [])
    (known : ∀ sig, cue = .signal sig → (∀ off, sig ≠ .offer off) → h.side.conn.isSome) (keeps : h.Keeps rtc pc)
    (timely : h.Timely rtc cue out h') (run : Lts.exec (Ear.hear rtc) h.side.ear inc = some ear) :
    h'.Keeps rtc pc ∧ Lts.exec (Ear.hear rtc) h'.side.ear inc' = some ear := by
  rw [hears.lane, Lts.exec_append] at run
  obtain ⟨r, hr, run⟩ := Option.bind_eq_some_iff.mp run
  obtain ⟨hear, tidy⟩ := hears.reacts.ear hears.stays still known keeps.tidy keeps.sound hr
  have sound : r.Sound rtc := by
    cases hcue : cue.signal? with
    | none =>
      rw [hcue] at hr
      cases hr
      exact keeps.sound
    | some sig =>
      rw [hcue] at hr
      obtain ⟨r', hr', hr⟩ := Option.bind_eq_some_iff.mp hr
      cases hr
      exact Ear.sound_hear keeps.sound hr'
  rw [← hear] at sound run
  exact ⟨⟨tidy, sound, keeps.own.hears hears timely⟩, run⟩

end

end Half

namespace Pair

/-- The signals on their way make what either end has heard all that the other has told of the PeerConnection
    it negotiates with. -/
structure Carried (ends : Ends) (P : Pair) (d : Deal) : Prop where
  lo : P.lo.Keeps ends.rtc ends.lo
  hi : P.hi.Keeps ends.rtc ends.hi
  up : Lts.exec (Ear.hear ends.rtc) P.hi.side.ear P.up = some (P.lo.told d.1)
  down : Lts.exec (Ear.hear ends.rtc) P.lo.side.ear P.down = some (P.hi.told d.2)
  /-- A PeerConn that waits for its first offer has no local description. -/
  quiet : ∀ y, P.hi.side.conn = some y → y.remoteSet = false → y.descs = 0 ∧ P.hi.reported y.pc = []

/-- Candidates come in time: a rotation of a PeerConn finds none of the other end's on their way, and puts its
    offer before its own; and the other end tells none while an offer is on its way to it. -/
def Move.Timely (ends : Ends) (P : Pair) : Move → Pair → Prop
  | .lo cue out, P' => P.lo.Timely ends.rtc cue out P'.lo ∧
      (cue = .rekey → P.lo.side.conn.isSome → cands P.down = [] ∧ ∀ c, out.head? ≠ some (.ice c))
  | .hi cue out, P' => P.hi.Timely ends.rtc cue out P'.hi ∧ (cands out ≠ [] → P'.up.filter Signal.negotiates = [])
  | .rotate _, _ => True

section
variable {ends : Ends} {P P' : Pair} {past : List Signal × List Signal} {d : Deal} {cue : Cue}
  {out rest : List Signal} {h : Half}

/-- Everything that an end says is relayed. -/
theorem filter_fits_self {offers : Bool} {pc : Nat → PcId} {s s' : Side} (fits : Fits ends.rtc)
    (reacts : s.Reacts ends.rtc offers pc cue s' (out.filter Signal.negotiates))
    (sound : ∀ c ∈ cands out, (Signal.ice c).fits = true ∧ ends.rtc.parsesIce c.text = true) :
    out.filter Signal.fits = out := by
  refine List.filter_eq_self.mpr fun sig hm => ?_
  cases hn : sig.negotiates with
  | true => exact reacts.fits fits sig (List.mem_filter.mpr ⟨hm, hn⟩)
  | false =>
    cases sig with
    | ice c => exact (sound c (mem_cands.mpr hm)).1
    | _ => cases hn

/-- The offer of the negotiation is that of the PeerConn which the end with the smaller id holds. -/
theorem Stage.deal_of_held (stage : Stage past P d) {x : PeerConn} (hx : P.lo.side.conn = some x) :
    ∃ off, d.1 = some off ∧ off.id.pc = x.pc := by
  have link : P.lo.side.link = some x.link := by simp [Side.link, hx]
  cases stage with
  | unseen talk due here => cases link.symm.trans here
  | offered talk due here awaits own => cases link.symm.trans here; exact ⟨_, rfl, own⟩
  | answered talk due here awaits own => cases link.symm.trans here; exact ⟨_, rfl, own⟩
  | settled talk due here took own => cases link.symm.trans here; exact ⟨_, rfl, own⟩

/-- An answer that the end with the smaller id takes meets the PeerConn of its offer. -/
theorem Stage.answer_known (stage : Stage past P d) {sdp : Sdp} (hm : .answer sdp ∈ P.down) : P.lo.side.conn.isSome := by
  have lane : .answer sdp ∈ P.down.filter Signal.negotiates := List.mem_filter.mpr ⟨hm, rfl⟩
  cases stage with
  | answered talk due here => simpa [Side.link] using congrArg Option.isSome here
  | unseen talk => simp [talk.down] at lane
  | offered talk => simp [talk.down] at lane
  | settled talk => simp [talk.down] at lane

theorem Carried.lo_step (stage : Stage past P d) (carried : Carried ends P d) (fits : Fits ends.rtc)
    (distinct : Function.Injective ends.lo) {sees rekeys : Nat}
    (hears : P.lo.Hears ends.rtc true ends.lo P.down cue out h rest)
    (sight : P.sees = sees + if cue = .seen then 1 else 0) (calm : (Move.lo cue out).Calm P)
    (timely : P.lo.Timely ends.rtc cue out h)
    (turn : cue = .rekey → P.lo.side.conn.isSome → cands P.down = [] ∧ ∀ c, out.head? ≠ some (.ice c)) :
    Carried ends { P with lo := h, down := rest, up := P.up ++ out.filter Signal.fits, sees, rekeys }
      ((Move.lo cue out).deal d) := by
  have parse : ∀ c ∈ cands out, ends.rtc.parsesIce c.text = true := fun c hc => (timely.sound c hc).2
  have known : ∀ sig, cue = .signal sig → (∀ off, sig ≠ .offer off) → P.lo.side.conn.isSome := by
    rintro sig rfl hoff
    cases sig with
    | offer sdp => exact absurd rfl (hoff sdp)
    | ice c => exact timely.known c rfl
    | answer sdp => exact stage.answer_known (by rw [hears.lane]; exact List.mem_cons_self)
  have relayed : P.up ++ out.filter Signal.fits = P.up ++ out := by rw [filter_fits_self fits hears.reacts timely.sound]
  -- Without an offer, the end tells candidates at most.
  have quietly : out.filter Signal.negotiates = [] →
      Carried ends { P with lo := h, down := rest, up := P.up ++ out.filter Signal.fits, sees, rekeys } d := by
    intro quiet
    obtain ⟨lo, down⟩ := hears.carries (fun _ => quiet) known carried.lo timely carried.down
    refine ⟨lo, carried.hi, ?_, down, carried.quiet⟩
    rw [relayed, Lts.exec_append, carried.up, Option.bind_some]
    refine Half.tell_more hears.said quiet (fun c hc => ?_) parse
    obtain ⟨p, hp, hpc, -⟩ := timely.current c hc
    have reacts := hears.reacts
    rw [quiet] at reacts
    rcases reacts.silent hp with ⟨x, hx, hpc', -⟩ | ⟨larger, -⟩
    · obtain ⟨off, hoff, own⟩ := stage.deal_of_held hx
      exact ⟨off, hoff, by rw [hpc, hpc', own]⟩
    · cases larger
  -- The candidates told with an offer are of the PeerConn that makes it.
  have own : ∀ {p : PeerConn}, h.side.conn = some p → ∀ c ∈ cands out, c.pc = p.pc := by
    intro p hp c hc
    obtain ⟨p', hp', hpc, -⟩ := timely.current c hc
    cases hp.symm.trans hp'
    exact hpc
  obtain ⟨said, hsaid⟩ : ∃ said, out.filter Signal.negotiates = said := ⟨_, rfl⟩
  have reacts := hears.reacts
  rw [hsaid] at reacts
  simp only [Move.deal, hsaid]
  obtain ⟨s', said'⟩ := h
  cases reacts with
  | @offered p n smaller has =>
    simp only [if_true] at sight
    cases stage with
    | offered talk due => omega
    | answered talk due => omega
    | settled talk due => omega
    | unseen talk due here there =>
      have absent : P.lo.side.conn = none := Option.map_eq_none_iff.mp here
      have new : p.pc = ends.lo P.lo.side.serial := by
        cases has with
        | held hp => rw [absent] at hp; cases hp
        | new hnone new => exact new.pc
      obtain ⟨lo, down⟩ := hears.carries (fun h => by cases h) known carried.lo timely carried.down
      refine ⟨lo, carried.hi, ?_, down, carried.quiet⟩
      rw [relayed, Lts.exec_append, carried.up, Option.bind_some]
      refine Half.tell_anew hears.said hsaid (.inl rfl) (own (p := p.offered) rfl) parse ?_
      show P.lo.reported p.pc = []
      rw [new]
      exact carried.lo.own.unreported distinct
  | waits larger => cases larger
  | left => exact absurd rfl hears.stays
  | @rotated p n smaller held has =>
    obtain ⟨none, first⟩ := turn rfl held
    obtain ⟨x, hx⟩ := Option.isSome_iff_exists.mp held
    have set : x.remoteSet = true := calm x.link (by simp [Side.link, hx])
    cases has with
    | held hp => cases hp
    | new hnone new =>
      cases stage with
      | unseen talk due here => simp [Side.link, hx] at here
      | offered talk due here awaits =>
        cases (Option.some.inj (here.symm.trans (by simp [Side.link, hx])) : _ = x.link)
        cases set.symm.trans awaits.1
      | answered talk due here awaits =>
        cases (Option.some.inj (here.symm.trans (by simp [Side.link, hx])) : _ = x.link)
        cases set.symm.trans awaits.1
      | @settled off ans x y talk due here took own' there took' =>
        -- Nothing of the other end is on its way, and it keeps its old PeerConn until it takes the offer.
        have still : P.down = [] := eq_nil_of_quiet talk.down none
        have silent : rest = [] := by
          have := hears.lane
          rw [still] at this
          exact (List.append_eq_nil_iff.mp this.symm).2
        refine ⟨⟨?_, ?_, carried.lo.own.hears hears timely⟩, carried.hi, ?_, ?_, carried.quiet⟩
        · intro p' hp'
          cases hp'
          exact new.tidy
        · rw [Side.ear_some rfl]
          exact new.ear ▸ Ear.sound_fresh
        · rw [relayed, Lts.exec_append, carried.up, Option.bind_some]
          refine Half.tell_again hears.said hsaid first rfl (own (p := p.offered) rfl) parse ?_
          show P.lo.reported p.pc = []
          rw [new.pc]
          exact carried.lo.own.unreported distinct
        · rw [silent]
          exact congrArg some new.ear
  | answered sdp has =>
    -- An offer never goes to the end with the smaller id.
    have lane : .offer sdp ∈ P.down.filter Signal.negotiates := by simp [hears.lane, Cue.signal?, Signal.negotiates]
    cases stage with
    | answered talk => simp [talk.down] at lane
    | unseen talk => simp [talk.down] at lane
    | offered talk => simp [talk.down] at lane
    | settled talk => simp [talk.down] at lane
  | unrotated hnone => exact quietly hsaid
  | concluded sdp => exact quietly hsaid
  | ice cand => exact quietly hsaid
  | other => exact quietly hsaid
  | chats => exact quietly hsaid

/-- The answer of the negotiation is that of the PeerConn which the end with the larger id holds, unless that
    one waits for its first offer, or a fresh offer is on its way to it. -/
theorem Stage.answer_of_held (stage : Stage past P d) {y : PeerConn} (hy : P.hi.side.conn = some y)
    (idle : P.up.filter Signal.negotiates = []) : y.remoteSet = false ∨ ∃ ans, d.2 = some ans ∧ ans.id.pc = y.pc := by
  have link : P.hi.side.link = some y.link := by simp [Side.link, hy]
  cases stage with
  | unseen talk due here there => exact .inl (there _ link).1
  | offered talk => cases talk.up.symm.trans idle
  | answered talk due here awaits own there took theirs => cases link.symm.trans there; exact .inr ⟨_, rfl, theirs⟩
  | settled talk due here took own there took' theirs => cases link.symm.trans there; exact .inr ⟨_, rfl, theirs⟩

theorem Carried.hi_step (stage : Stage past P d) (carried : Carried ends P d) (fits : Fits ends.rtc)
    (distinct : Function.Injective ends.hi) (hears : P.hi.Hears ends.rtc false ends.hi P.up cue out h rest)
    (timely : P.hi.Timely ends.rtc cue out h) (turn : cands out ≠ [] → rest.filter Signal.negotiates = []) :
    Carried ends { P with hi := h, up := rest, down := P.down ++ out.filter Signal.fits } ((Move.hi cue out).deal d) := by
  have parse : ∀ c ∈ cands out, ends.rtc.parsesIce c.text = true := fun c hc => (timely.sound c hc).2
  have unasked : ∀ sdp, cue ≠ .signal (.answer sdp) := by
    rintro sdp rfl
    have lane : .answer sdp ∈ P.up.filter Signal.negotiates := by simp [hears.lane, Cue.signal?, Signal.negotiates]
    cases stage with
    | answered talk => simp [talk.up] at lane
    | unseen talk => simp [talk.up] at lane
    | offered talk => simp [talk.up] at lane
    | settled talk => simp [talk.up] at lane
  have known : ∀ sig, cue = .signal sig → (∀ off, sig ≠ .offer off) → P.hi.side.conn.isSome := by
    rintro sig rfl hoff
    cases sig with
    | offer sdp => exact absurd rfl (hoff sdp)
    | ice c => exact timely.known c rfl
    | answer sdp => exact absurd rfl (unasked sdp)
  have still : cue = .rekey → out.filter Signal.negotiates = [] := by
    rintro rfl
    exact hears.reacts.larger_still
  obtain ⟨hi, up⟩ := hears.carries still known carried.hi timely carried.up
  have relayed : P.down ++ out.filter Signal.fits = P.down ++ out := by rw [filter_fits_self fits hears.reacts timely.sound]
  by_cases quiet : out.filter Signal.negotiates = []
  · -- It tells candidates at most, and only when no offer is on its way to it.
    have reacts := hears.reacts
    rw [quiet] at reacts
    have deal : (Move.hi cue out).deal d = d := by simp [Move.deal, quiet]
    have idle : cands out ≠ [] → P.up.filter Signal.negotiates = [] := by
      intro some
      have taken : cue.signal?.toList.filter Signal.negotiates = [] := by
        generalize h.side = s' at reacts
        cases reacts with
        | concluded sdp => exact absurd rfl (unasked sdp)
        | _ => rfl
      rw [hears.lane, List.filter_append, taken, turn some]
      rfl
    rw [deal]
    refine ⟨carried.lo, hi, up, ?_, fun y hy unset => ?_⟩
    · rw [relayed, Lts.exec_append, carried.down, Option.bind_some]
      refine Half.tell_more hears.said quiet (fun c hc => ?_) parse
      obtain ⟨p, hp, hpc, some⟩ := timely.current c hc
      rcases reacts.silent hp with ⟨x, hx, hpc', descs, -⟩ | ⟨-, new⟩
      · rcases stage.answer_of_held hx (idle (List.ne_nil_of_mem hc)) with unset | ⟨ans, hans, own⟩
        · rw [descs, (carried.quiet x hx unset).1] at some
          exact absurd some (Nat.lt_irrefl 0)
        · exact ⟨ans, hans, by rw [hpc, hpc', own]⟩
      · rw [new.descs] at some
        exact absurd some (Nat.lt_irrefl 0)
    · have before : y.descs = 0 ∧ P.hi.reported y.pc = [] := by
        rcases reacts.silent hy with ⟨x, hx, hpc, descs, kept⟩ | ⟨-, new⟩
        · rw [hpc, descs]
          exact carried.quiet x hx (kept unset)
        · rw [new.pc]
          exact ⟨new.descs, carried.hi.own.unreported distinct⟩
      have silent : cands out = [] := by
        refine List.eq_nil_iff_forall_not_mem.mpr fun c hc => ?_
        obtain ⟨p, hp, -, some⟩ := timely.current c hc
        cases hy.symm.trans hp
        rw [before.1] at some
        exact absurd some (Nat.lt_irrefl 0)
      refine ⟨before.1, ?_⟩
      rw [Half.reported_append hears.said, silent, before.2]
      rfl
  · obtain ⟨said, hsaid⟩ : ∃ said, out.filter Signal.negotiates = said := ⟨_, rfl⟩
    have reacts := hears.reacts
    rw [hsaid] at reacts quiet
    simp only [Move.deal, hsaid]
    obtain ⟨s', said'⟩ := h
    cases reacts with
    | offered smaller => cases smaller
    | rotated smaller => cases smaller
    | @answered sdp p n has =>
      have lane : .offer sdp ∈ P.up.filter Signal.negotiates := by simp [hears.lane, Cue.signal?, Signal.negotiates]
      cases stage with
      | unseen talk => simp [talk.up] at lane
      | answered talk => simp [talk.up] at lane
      | settled talk => simp [talk.up] at lane
      | @offered off x talk due here awaits own there =>
        have unreported : P.hi.reported p.pc = [] := by
          cases has with
          | held hp =>
            obtain ⟨hp, unset⟩ := Side.vacated_eq_some hp
            exact (carried.quiet p hp unset).2
          | new hnone new =>
            rw [new.pc]
            exact carried.hi.own.unreported distinct
        refine ⟨carried.lo, hi, up, ?_, fun y hy unset => ?_⟩
        · rw [relayed, Lts.exec_append, carried.down, Option.bind_some]
          refine Half.tell_anew hears.said hsaid (.inr rfl) (fun c hc => ?_) parse ?_
          · obtain ⟨p', hp', hpc, -⟩ := timely.current c hc
            cases hp'
            exact hpc
          · show P.hi.reported (p.concluded ends.rtc sdp).pc = []
            rw [PeerConn.concluded_pc]
            exact unreported
        · cases hy
          cases unset.symm.trans (p.concluded_remoteSet ends.rtc sdp)
    | _ => exact absurd rfl quiet

/-- A timely step of a calm pair carries the candidates on. -/
theorem carried_step (fits : Fits ends.rtc) (distinct : Function.Injective ends.lo ∧ Function.Injective ends.hi)
    {mv : Move} (stage : Stage past P d) (carried : Carried ends P d) (step : Step ends P mv P') (calm : mv.Calm P)
    (timely : mv.Timely ends P P') : Carried ends P' (mv.deal d) := by
  cases step with
  | lo hears sight turn => exact carried.lo_step stage fits distinct.1 hears sight calm timely.1 timely.2
  | hi hears => exact carried.hi_step stage fits distinct.2 hears timely.1 timely.2
  | rotate n => exact ⟨carried.lo, carried.hi, carried.up, carried.down, carried.quiet⟩

/-! ### The beginning and the end -/

/-- Two clients that have just got to know of each other, or will when one of them handles what waits for it. -/
structure Met (P : Pair) : Prop where
  lo : P.lo = ⟨⟨none, 0⟩, []⟩
  hi : P.hi = ⟨⟨none, 0⟩, []⟩
  up : P.up = []
  down : P.down = []
  sees : P.sees = 1

theorem Met.stage (met : P.Met) : Stage ([], []) P (none, none) := by
  refine .unseen ⟨?_, ?_, ?_, ?_⟩ met.sees ?_ fun y hy => ?_
  · rw [met.up]; rfl
  · rw [met.down]; rfl
  · rw [met.lo]; rfl
  · rw [met.hi]; rfl
  · rw [met.lo]; rfl
  · rw [met.hi] at hy; cases hy

theorem Met.carried (met : P.Met) : Carried ends P (none, none) := by
  have blank : ∀ pc, Half.Keeps ends.rtc pc ⟨⟨none, 0⟩, []⟩ := by
    refine fun pc => ⟨fun p hp => ?_, Ear.sound_fresh, ⟨fun p hp => ?_, fun c hc => ?_⟩⟩
    · cases hp
    · cases hp
    · cases hc
  refine ⟨met.lo ▸ blank _, met.hi ▸ blank _, ?_, ?_, fun y hy => ?_⟩
  · rw [met.up, met.hi]; rfl
  · rw [met.down, met.lo]; rfl
  · rw [met.hi] at hy; cases hy

/-- Nothing is on its way between the two. -/
structure Quiet (P : Pair) : Prop where
  up : P.up = []
  down : P.down = []
  sees : P.sees = 0

/-- The PeerConns of a pair are negotiated with each other: each has one remote description, the offer and
    the answer to it, and these are of the two PeerConns. -/
structure Matched (x y : PeerConn) (off ans : Sdp) : Prop where
  taken : x.remoteSet = true ∧ y.remoteSet = true
  answer : x.remotes = [ans]
  offer : y.remotes = [off]
  offerer : off.id.pc = x.pc
  answerer : ans.id.pc = y.pc
  reply : ans.replyTo = some off.id

/-- Once nothing is on its way, a pair is negotiated. -/
theorem Stage.matched (stage : Stage past P d) (quiet : P.Quiet) :
    ∃ x y off ans, P.lo.side.conn = some x ∧ P.hi.side.conn = some y ∧ d = (some off, some ans) ∧ Matched x y off ans ∧
      P.lo.said.filter Signal.negotiates = past.1 ++ [.offer off] ∧
      P.hi.said.filter Signal.negotiates = past.2 ++ [.answer ans] := by
  cases stage with
  | unseen talk due =>
    rw [quiet.sees] at due
    cases due
  | offered talk =>
    have := talk.up
    rw [quiet.up] at this
    cases this
  | answered talk =>
    have := talk.down
    rw [quiet.down] at this
    cases this
  | @settled off ans x y talk due here took own there took' theirs reply =>
    obtain ⟨x, hx, rfl⟩ := Option.map_eq_some_iff.mp here
    obtain ⟨y, hy, rfl⟩ := Option.map_eq_some_iff.mp there
    exact ⟨x, y, off, ans, hx, hy, rfl, ⟨⟨took.1, took'.1⟩, took.2, took'.2, own, theirs, reply⟩, talk.saidLo, talk.saidHi⟩

/-- Then each has added what the other has reported. -/
theorem Carried.delivered {off ans : Sdp} {x y : PeerConn} (carried : Carried ends P (some off, some ans)) (quiet : P.Quiet)
    (hx : P.lo.side.conn = some x) (hy : P.hi.side.conn = some y) (matched : Matched x y off ans) :
    y.added = P.lo.reported x.pc ∧ x.added = P.hi.reported y.pc := by
  have up := carried.up
  have down := carried.down
  rw [quiet.up, Side.ear_some hy, PeerConn.ear_set matched.taken.2] at up
  rw [quiet.down, Side.ear_some hx, PeerConn.ear_set matched.taken.1] at down
  have up' := congrArg Ear.got (Option.some.inj up)
  have down' := congrArg Ear.got (Option.some.inj down)
  rw [← matched.offerer, ← matched.answerer]
  exact ⟨up', down'⟩

end

end Pair

namespace Half

/-- What a PeerConn has added is of the PeerConnection that it is negotiated with. -/
theorem Keeps.added {rtc : Webrtc} {pc : Nat → PcId} {h : Half} (keeps : h.Keeps rtc pc) {p : PeerConn}
    (hp : h.side.conn = some p) {c : Candidate} (hc : c ∈ p.added) :
    ∃ sdp, p.remotes.getLast? = some sdp ∧ c.pc = sdp.id.pc := by
  have tidy := keeps.tidy p hp
  cases hset : p.remoteSet with
  | false =>
    rw [tidy.2 hset] at hc
    cases hc
  | true =>
    obtain ⟨sdp, hsdp⟩ := Option.isSome_iff_exists.mp (List.getLast?_isSome.mpr (tidy.1 hset).1)
    have sound := keeps.sound c
    rw [Side.ear_some hp, PeerConn.ear_set hset, hsdp] at sound
    exact ⟨sdp, hsdp, (sound hc).2 _ rfl⟩

end Half

end SquadLink

import SquadLink.Client.Trickle

/-! A rotation that discards an unanswered offer. The answer to it still comes, and meets the PeerConn of the next offer,
    which takes one answer only. From then on more answers are to come than can be taken: before everything has been
    handled, the library has to refuse one. -/

namespace SquadLink

namespace Side

/-- How many answers the PeerConn that is held can take. -/
def capacity (s : Side) : Nat := if s.conn.any (·.haveLocalOffer) then 1 else 0

section
variable {rtc : Webrtc} {pc : Nat → PcId} {s s' : Side} {cue : Cue} {said : List Signal}

theorem capacity_changed {f : PeerConn → PeerConn} (hf : ∀ p, (f p).haveLocalOffer = p.haveLocalOffer) :
    (s.changed f).capacity = s.capacity := by
  cases h : s.conn with
  | none => simp [capacity, changed, h]
  | some p => simp [capacity, changed, h, hf]

/-- The smaller id can take one more answer for each offer that it makes, and one less for each that it takes. -/
theorem Reacts.capacity_le (reacts : s.Reacts rtc true pc cue s' said) (stays : cue ≠ .left)
    (unoffered : ∀ sdp, cue ≠ .signal (.offer sdp)) (obeys : ∀ sdp, cue = .signal (.answer sdp) → s.capacity = 1) :
    (s.conn.isSome → s'.conn.isSome) ∧ (∀ sdp, .answer sdp ∉ said) ∧
      s'.capacity + cue.signal?.toList.countP Signal.negotiates ≤ s.capacity + said.length := by
  have same : s.capacity ≤ s.capacity + ([] : List Signal).length := Nat.le_refl _
  cases reacts with
  | offered smaller has => exact ⟨fun _ => rfl, by simp, Nat.le_add_left _ _⟩
  | waits larger => cases larger
  | left => exact absurd rfl stays
  | rotated smaller held has => exact ⟨fun _ => rfl, by simp, Nat.le_add_left _ _⟩
  | unrotated none => exact ⟨id, by simp, same⟩
  | answered sdp => exact absurd rfl (unoffered sdp)
  | concluded sdp =>
    have full := obeys sdp rfl
    have empty : (s.changed (·.concluded rtc sdp)).capacity = 0 := by
      cases h : s.conn with
      | none => simp [capacity, changed, h]
      | some p => simp [capacity, changed, h, PeerConn.concluded, PeerConn.setRemote]
    refine ⟨fun held => by simpa [changed] using held, by simp, ?_⟩
    rw [empty, full]
    exact Nat.le_refl 1
  | ice cand =>
    refine ⟨fun held => by simpa [changed] using held, by simp, ?_⟩
    rw [capacity_changed fun p => ?_]
    · exact same
    · obtain ⟨added, pendingIce, h⟩ := p.addOrQueueIce_eq rtc cand
      rw [h]
  | other => exact ⟨id, by simp, same⟩
  | chats =>
    refine ⟨fun held => by simpa [changed] using held, by simp, ?_⟩
    rw [capacity_changed (f := fun p => { p with chat := true }) fun _ => rfl]
    exact same

/-- A rotation makes a PeerConn with an offer that waits for its answer. -/
theorem Reacts.renews {p : PeerConn} (reacts : s.Reacts rtc true pc .rekey s' said) (held : s.conn = some p) :
    s'.conn.isSome ∧ (∀ sdp, .answer sdp ∉ said) ∧ s'.capacity = 1 ∧ said.length = 1 := by
  cases reacts with
  | rotated smaller => exact ⟨rfl, by simp, rfl, rfl⟩
  | unrotated h =>
    rcases h with h | h
    · cases held.symm.trans h
    · cases h

/-- The other end answers each offer. -/
theorem Reacts.answers (reacts : s.Reacts rtc false pc cue s' said) (unanswered : ∀ sdp, cue ≠ .signal (.answer sdp)) :
    (∀ sdp, .offer sdp ∉ said) ∧ cue.signal?.toList.countP Signal.negotiates = said.length := by
  cases reacts with
  | offered smaller => cases smaller
  | rotated smaller => cases smaller
  | concluded sdp => exact absurd rfl (unanswered sdp)
  | _ => exact ⟨by simp, rfl⟩

end

end Side

namespace Pair

/-- How much of the negotiation is on its way: an offer, or the answer to one. -/
def underway (P : Pair) : Nat := P.up.countP Signal.negotiates + P.down.countP Signal.negotiates

/-- More is on its way than the PeerConn of the smaller id can take answers. -/
structure Surplus (P : Pair) : Prop where
  held : P.lo.side.conn.isSome
  more : P.lo.side.capacity < P.underway
  up : ∀ sdp, .answer sdp ∉ P.up
  down : ∀ sdp, .offer sdp ∉ P.down

/-- An answer is only taken where an offer is set that has none. -/
def Move.Obeys (P : Pair) : Move → Prop
  | .lo (.signal (.answer _)) _ => ∀ p ∈ P.lo.side.conn, p.haveLocalOffer = true
  | _ => True

section
variable {ends : Ends} {P P' : Pair} {mv : Move} {past : List Signal × List Signal} {d : Deal} {cue : Cue} {sig : Signal}
variable {rtc : Webrtc} {offers : Bool} {pc : Nat → PcId} {s s' : Side} {out : List Signal} {sees rekeys : Nat}

theorem countP_fits (fits : Fits rtc) (reacts : s.Reacts rtc offers pc cue s' (out.filter Signal.negotiates)) :
    (out.filter Signal.fits).countP Signal.negotiates = (out.filter Signal.negotiates).length := by
  rw [List.countP_eq_length_filter, filter_fits fits reacts]

theorem mem_negotiates (negotiates : sig.negotiates = true) (hm : sig ∈ out.filter Signal.fits) :
    sig ∈ out.filter Signal.negotiates := List.mem_filter.mpr ⟨List.mem_of_mem_filter hm, negotiates⟩

theorem Surplus.lo (surplus : P.Surplus) (fits : Fits ends.rtc) {down : List Signal} {h : Half}
    (hears : P.lo.Hears ends.rtc true ends.lo P.down cue out h down) (obeys : (Move.lo cue out).Obeys P) :
    Surplus { P with lo := h, down, up := P.up ++ out.filter Signal.fits, sees, rekeys } := by
  obtain ⟨p, hp⟩ := Option.isSome_iff_exists.mp surplus.held
  have unoffered (sdp : Sdp) (hcue : cue = .signal (.offer sdp)) : .offer sdp ∈ P.down := by
    rw [hears.lane, hcue]
    exact List.mem_cons_self
  have full (sdp : Sdp) (hcue : cue = .signal (.answer sdp)) : P.lo.side.capacity = 1 := by
    subst hcue
    simp [Side.capacity, hp, obeys p hp]
  obtain ⟨held, offers, capacity⟩ :=
    hears.reacts.capacity_le hears.stays (fun sdp hcue => surplus.down sdp (unoffered sdp hcue)) full
  refine ⟨held surplus.held, ?_, fun sdp hm => ?_, fun sdp hm => ?_⟩
  · have more := surplus.more
    simp only [underway, hears.lane, List.countP_append, countP_fits fits hears.reacts] at more ⊢
    omega
  · rcases List.mem_append.mp hm with hm | hm
    · exact surplus.up sdp hm
    · exact offers sdp (mem_negotiates rfl hm)
  · exact surplus.down sdp (by rw [hears.lane]; exact List.mem_append_right _ hm)

theorem Surplus.hi (surplus : P.Surplus) (fits : Fits ends.rtc) {up : List Signal} {h : Half}
    (hears : P.hi.Hears ends.rtc false ends.hi P.up cue out h up) :
    Surplus { P with hi := h, up, down := P.down ++ out.filter Signal.fits } := by
  have unanswered (sdp : Sdp) (hcue : cue = .signal (.answer sdp)) : .answer sdp ∈ P.up := by
    rw [hears.lane, hcue]
    exact List.mem_cons_self
  obtain ⟨answers, balance⟩ := hears.reacts.answers fun sdp hcue => surplus.up sdp (unanswered sdp hcue)
  refine ⟨surplus.held, ?_, fun sdp hm => ?_, fun sdp hm => ?_⟩
  · have more := surplus.more
    simp only [underway, hears.lane, List.countP_append, countP_fits fits hears.reacts] at more ⊢
    omega
  · exact surplus.up sdp (by rw [hears.lane]; exact List.mem_append_right _ hm)
  · rcases List.mem_append.mp hm with hm | hm
    · exact surplus.down sdp hm
    · exact answers sdp (mem_negotiates rfl hm)

theorem surplus_step (surplus : P.Surplus) (fits : Fits ends.rtc) (h : Step ends P mv P') (obeys : mv.Obeys P) :
    P'.Surplus := by
  cases h with
  | lo hears sight turn => exact surplus.lo fits hears obeys
  | hi hears => exact surplus.hi fits hears
  | rotate n => exact ⟨surplus.held, surplus.more, surplus.up, surplus.down⟩

theorem Quiet.not_surplus (quiet : P.Quiet) : ¬ P.Surplus := by
  intro surplus
  have more := surplus.more
  rw [underway, quiet.up, quiet.down] at more
  cases more

/-- As long as the smaller id has no answer, something of the negotiation is on its way, in one direction. -/
theorem Stage.underway_eq_one (stage : Stage past P d) {x : Link} (held : P.lo.side.link = some x)
    (unset : x.remoteSet ≠ true) :
    P.underway = 1 ∧ (∀ sdp, .answer sdp ∉ P.up) ∧ ∀ sdp, .offer sdp ∉ P.down := by
  have of (up down : List Signal) (hu : P.up.filter Signal.negotiates = up) (hd : P.down.filter Signal.negotiates = down)
      (len : up.length + down.length = 1) (noAnswer : ∀ sdp, .answer sdp ∉ up) (noOffer : ∀ sdp, .offer sdp ∉ down) :
      P.underway = 1 ∧ (∀ sdp, .answer sdp ∉ P.up) ∧ ∀ sdp, .offer sdp ∉ P.down := by
    refine ⟨?_, fun sdp hm => ?_, fun sdp hm => ?_⟩
    · rw [underway, List.countP_eq_length_filter, List.countP_eq_length_filter, hu, hd, len]
    · exact noAnswer sdp (hu ▸ List.mem_filter.mpr ⟨hm, rfl⟩)
    · exact noOffer sdp (hd ▸ List.mem_filter.mpr ⟨hm, rfl⟩)
  cases stage with
  | unseen talk due here => cases here.symm.trans held
  | offered talk => exact of _ _ talk.up talk.down rfl (by simp) (by simp)
  | answered talk => exact of _ _ talk.up talk.down rfl (by simp) (by simp)
  | settled talk due here took =>
    cases here.symm.trans held
    exact absurd took.1 unset

/-- A rotation that discards an unanswered offer leaves a surplus. -/
theorem Stage.calm_or_surplus (stage : Stage past P d) (fits : Fits ends.rtc) (h : Step ends P mv P') :
    mv.Calm P ∨ P'.Surplus := by
  cases h with
  | rotate n => exact .inl trivial
  | hi hears => exact .inl trivial
  | @lo cue out down h sees rekeys hears sight turn =>
    cases cue with
    | rekey =>
      refine or_iff_not_imp_left.mpr fun discards => ?_
      simp only [Move.Calm, not_forall] at discards
      obtain ⟨x, hx, unset⟩ := discards
      obtain ⟨one, noAnswer, noOffer⟩ := stage.underway_eq_one hx unset
      obtain ⟨p, hp, -⟩ := Option.map_eq_some_iff.mp hx
      obtain ⟨made, offers, full, length⟩ := hears.reacts.renews hp
      have lane : down = P.down := hears.lane.symm
      refine ⟨made, ?_, fun sdp hm => ?_, fun sdp => lane ▸ noOffer sdp⟩
      · simp only [underway, List.countP_append, countP_fits fits hears.reacts, lane] at one ⊢
        omega
      · rcases List.mem_append.mp hm with hm | hm
        · exact noAnswer sdp hm
        · exact offers sdp (mem_negotiates rfl hm)
    | _ => exact .inl trivial

/-- A pair negotiates, and its PeerConns are being renewed; or a surplus is on its way. -/
def Renewing (n m : Nat) (P : Pair) : Prop := P.Surplus ∨ (∃ past d, Stage past P d) ∧ Renewed n m P

theorem renewing_step {n m : Nat} (fits : Fits ends.rtc) (serials : ∀ k, (ends.lo k).serial = k ∧ (ends.hi k).serial = k)
    (renewing : Renewing n m P) (h : Step ends P mv P') (obeys : mv.Obeys P) : Renewing n m P' := by
  rcases renewing with surplus | ⟨⟨past, d, stage⟩, renewed⟩
  · exact .inl (surplus_step surplus fits h obeys)
  · refine (stage.calm_or_surplus fits h).symm.imp id fun calm => ?_
    obtain ⟨past', stage', -⟩ := stage_step fits stage h calm
    exact ⟨⟨past', _, stage'⟩, renewed_step fits serials stage renewed h⟩

end

end Pair

end SquadLink

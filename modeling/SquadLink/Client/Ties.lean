import SquadLink.Client.Pair

/-! Two clients of which either may have been gone before: what either end holds for the other, the comings and
    goings that the smaller id has still to hear of, and what is on its way between them, messages of ended sessions
    among it. As long as the smaller id holds no PeerConn when it sees the other, and handles no answer that is not to
    the PeerConn it holds, the two get to be negotiated with each other. -/

namespace SquadLink

namespace Cue

/-- Whether it shows the peer (`true`) or tells that it has left. -/
def sighting? : Cue → Option Bool
  | seen => some true
  | left => some false
  | _ => none

/-- What the peer says in it, or that it has left. -/
def track? : Cue → Option (Option Signal)
  | signal sig => some (some sig)
  | left => some none
  | _ => none

end Cue

/-- The signal is an offer of the PeerConn, or an answer to one. -/
def Signal.deals (pc : PcId) : Signal → Bool
  | offer sdp => sdp.id.pc = pc
  | answer sdp => sdp.replyTo.map (·.pc) = some pc
  | ice _ => false

/-- `lo` is the end with the smaller id. `up` is what it has said and the server has still to read, and `trail` what
    the other end has still to hear of it; `down` is what the other end has said and `lo` has still to hear. -/
structure Tie where
  lo : Side
  hi : Side
  sightings : List Bool
  up : List Signal
  trail : List (Option Signal)
  down : List Signal

namespace Tie

/-- How much of the negotiation of a PeerConn is on its way. -/
def dealing (T : Tie) (pc : PcId) : Nat :=
  T.up.countP (Signal.deals pc) + T.trail.countP (fun t => t.any (Signal.deals pc)) + T.down.countP (Signal.deals pc)

/-- Of no negotiation there are two messages on their way, and of none of a PeerConn that has its remote description. -/
structure Sound (T : Tie) : Prop where
  single : ∀ pc, T.dealing pc ≤ 1
  done : ∀ x, T.lo.link = some x → x.remotes ≠ [] → T.dealing x.pc = 0
  unset : ∀ y, T.hi.link = some y → y.remoteSet = false → y.remotes = []

/-- The server passes on what it reads from the two, and `news` of others that have been the smaller id before. -/
structure Passes (T T' : Tie) (news : List Signal) : Prop where
  lo : T'.lo = T.lo
  hi : T'.hi = T.hi
  sightings : T'.sightings = T.sightings
  up : ∀ sig ∈ T.up, sig.fits = true → sig ∈ T'.up ∨ sig ∈ news
  trail : T'.trail = T.trail ++ news.map some
  down : ∀ sig ∈ T.down, sig.fits = true → sig ∈ T'.down

/-- The smaller id takes a cue. -/
structure LoHears (ends : Ends) (T : Tie) (cue : Cue) (out : List Signal) (T' : Tie) : Prop where
  reacts : T.lo.Reacts ends.rtc true ends.lo cue T'.lo (out.filter Signal.negotiates)
  unturned : cue ≠ .rekey
  unoffered : ∀ sdp, cue ≠ .signal (.offer sdp)
  vacant : cue = .seen → T.lo.conn = none
  meant : ∀ sdp x, cue = .signal (.answer sdp) → T.lo.link = some x → sdp.replyTo.map (·.pc) = some x.pc
  hi : T'.hi = T.hi
  sightings : T.sightings = cue.sighting?.toList ++ T'.sightings
  up : T'.up = T.up ++ out
  trail : T'.trail = T.trail
  down : T.down = cue.signal?.toList ++ T'.down

/-- The other end takes a cue. -/
structure HiHears (ends : Ends) (T : Tie) (cue : Cue) (out : List Signal) (T' : Tie) : Prop where
  reacts : T.hi.Reacts ends.rtc false ends.hi cue T'.hi (out.filter Signal.negotiates)
  unturned : cue ≠ .rekey
  unanswered : ∀ sdp, cue ≠ .signal (.answer sdp)
  lo : T'.lo = T.lo
  sightings : T'.sightings = T.sightings
  up : T'.up = T.up
  trail : T.trail = cue.track?.toList ++ T'.trail
  down : T'.down = T.down ++ out

inductive Step (ends : Ends) (T T' : Tie) : Prop
  | passes {news : List Signal} (passes : T.Passes T' news)
  | lo {cue : Cue} {out : List Signal} (hears : T.LoHears ends cue out T')
  | hi {cue : Cue} {out : List Signal} (hears : T.HiHears ends cue out T')

/-- The offer is on its way to the other end, and nobody leaves behind it. -/
inductive Underway (off : Sdp) (T : Tie) : Prop
  | unread (up : .offer off ∈ T.up)
  | unheard (pre post : List (Option Signal)) (trail : T.trail = pre ++ some (.offer off) :: post) (stays : none ∉ post)

inductive Stage (T : Tie) : Prop
  /-- The smaller id is about to see the other end, after all else that it hears of its coming and going. -/
  | due (last : T.sightings.getLast? = some true)
  /-- It has made its offer. -/
  | offered {x : Link} {off : Sdp} (seen : T.sightings = []) (here : T.lo.link = some x) (own : off.id.pc = x.pc)
      (fits : (Signal.offer off).fits = true) (way : T.Underway off)
  /-- The other end has answered it. -/
  | answered {x y : Link} {off ans : Sdp} (seen : T.sightings = []) (here : T.lo.link = some x) (there : T.hi.link = some y)
      (stays : none ∉ T.trail) (took : y.remotes = [off]) (own : off.id.pc = x.pc) (theirs : ans.id.pc = y.pc)
      (reply : ans.replyTo = some off.id) (fits : (Signal.answer ans).fits = true)
      (way : x.remotes = [ans] ∨ .answer ans ∈ T.down)
  /-- The other end has answered somebody else. -/
  | stuck {x : Link} {ans : Sdp} (seen : T.sightings = []) (here : T.lo.link = some x)
      (foreign : ans.replyTo.map (·.pc) ≠ some x.pc) (fits : (Signal.answer ans).fits = true) (way : .answer ans ∈ T.down)

section
variable {ends : Ends} {T T' : Tie} {cue : Cue} {out news : List Signal} {off ans : Sdp} {x : Link} {pc : PcId}

/-! ### What is on its way -/

theorem countP_pos_of_mem {sig : Signal} {sigs : List Signal} (hm : sig ∈ sigs) (deals : sig.deals pc = true) :
    0 < sigs.countP (Signal.deals pc) := List.countP_pos_iff.mpr ⟨sig, hm, deals⟩

theorem Underway.count (way : T.Underway off) :
    0 < T.up.countP (Signal.deals off.id.pc) + T.trail.countP (fun t => t.any (Signal.deals off.id.pc)) := by
  have deals : (Signal.offer off).deals off.id.pc = true := decide_eq_true rfl
  cases way with
  | unread up => exact Nat.add_pos_left (countP_pos_of_mem up deals) _
  | unheard pre post trail stays =>
    refine Nat.add_pos_right _ (List.countP_pos_iff.mpr ⟨some (.offer off), ?_, deals⟩)
    rw [trail]
    simp

theorem deals_of_reply (reply : ans.replyTo = some off.id) : (Signal.answer ans).deals off.id.pc = true := by
  simp [Signal.deals, reply]

/-- What the other end hears first is no offer that comes later. -/
theorem Underway.tail {t : Option (Option Signal)} (way : T.Underway off) (up : T'.up = T.up)
    (trail : T.trail = t.toList ++ T'.trail) (other : t ≠ some (some (.offer off))) : T'.Underway off := by
  cases way with
  | unread h => exact .unread (up ▸ h)
  | unheard pre post h stays =>
    cases t with
    | none => exact .unheard pre post (trail.symm.trans h) stays
    | some t =>
      cases pre with
      | nil =>
        rw [h] at trail
        exact absurd (congrArg some (List.cons.inj trail).1.symm) other
      | cons t' pre =>
        rw [h] at trail
        exact .unheard pre post (List.cons.inj trail).2.symm stays

/-! ### The server passes something on -/

theorem Underway.passes (way : T.Underway off) (fits : (Signal.offer off).fits = true) (passes : T.Passes T' news) :
    T'.Underway off := by
  cases way with
  | unread up =>
    rcases passes.up _ up fits with up | hm
    · exact .unread up
    · obtain ⟨pre, post, rfl⟩ := List.append_of_mem hm
      refine .unheard (T.trail ++ pre.map some) (post.map some) ?_ (by simp)
      rw [passes.trail, List.map_append, List.map_cons, List.append_assoc]
  | unheard pre post trail stays =>
    refine .unheard pre (post ++ news.map some) ?_ (by simpa using stays)
    rw [passes.trail, trail, List.append_assoc, List.cons_append]

theorem Stage.passes (stage : T.Stage) (passes : T.Passes T' news) : T'.Stage := by
  cases stage with
  | due last => exact .due (by rw [passes.sightings]; exact last)
  | offered seen here own fits way =>
    exact .offered (passes.sightings.trans seen) (by rw [passes.lo]; exact here) own fits (way.passes fits passes)
  | answered seen here there stays took own theirs reply fits way =>
    refine .answered (passes.sightings.trans seen) (by rw [passes.lo]; exact here)
      (by rw [passes.hi]; exact there) ?_ took own
      theirs reply fits (way.imp_right fun hm => passes.down _ hm fits)
    rw [passes.trail]
    simpa using stays
  | stuck seen here foreign fits way =>
    exact .stuck (passes.sightings.trans seen) (by rw [passes.lo]; exact here) foreign fits (passes.down _ way fits)

/-! ### The smaller id takes a cue -/

/-- When it sees the other end, it makes an offer from a new PeerConn. -/
theorem LoHears.offers (hears : T.LoHears ends .seen out T') (fits : Fits ends.rtc) :
    ∃ x off, T'.lo.link = some x ∧ off.id.pc = x.pc ∧ (Signal.offer off).fits = true ∧ .offer off ∈ T'.up := by
  have reacts := hears.reacts
  have mem : ∀ sig ∈ out.filter Signal.negotiates, sig ∈ T'.up := fun sig hm => by
    rw [hears.up]
    exact List.mem_append_right _ (List.mem_filter.mp hm).1
  have fit := reacts.fits fits
  generalize out.filter Signal.negotiates = said at reacts mem fit
  generalize T'.lo = s' at reacts
  cases reacts with
  | @offered p n smaller has =>
    exact ⟨p.offered.link, p.nextSdp ends.rtc none, rfl, rfl, fit _ (List.mem_singleton_self _),
      mem _ (List.mem_singleton_self _)⟩
  | waits larger has => cases larger

/-- What it holds stays, and only an answer to it is added to its remote descriptions. -/
theorem LoHears.keeps (hears : T.LoHears ends cue out T') (here : T.lo.link = some x) (unsighted : cue.sighting? = none) :
    ∃ x', T'.lo.link = some x' ∧ x'.pc = x.pc ∧ ((∀ sdp, cue ≠ .signal (.answer sdp)) ∧ x'.remotes = x.remotes ∨
      ∃ sdp, cue = .signal (.answer sdp) ∧ sdp.replyTo.map (·.pc) = some x.pc ∧ x'.remotes = x.remotes ++ [sdp]) := by
  have reacts := hears.reacts
  have meant := hears.meant
  have unturned := hears.unturned
  have unoffered := hears.unoffered
  generalize out.filter Signal.negotiates = said at reacts
  generalize T'.lo = s' at reacts
  cases reacts with
  | offered | waits | left => cases unsighted
  | rotated | unrotated => exact absurd rfl unturned
  | answered sdp has => exact absurd rfl (unoffered sdp)
  | concluded sdp =>
    obtain ⟨p, hp, rfl⟩ := Option.map_eq_some_iff.mp here
    refine ⟨(p.concluded ends.rtc sdp).link, by simp [Side.link, Side.changed, hp], p.concluded_pc ends.rtc sdp,
      .inr ⟨sdp, rfl, meant sdp _ rfl here, ?_⟩⟩
    rw [PeerConn.link_concluded]
  | ice cand => exact ⟨x, by rw [Side.link_changed (by simp)]; exact here, rfl, .inl ⟨by simp, rfl⟩⟩
  | other => exact ⟨x, here, rfl, .inl ⟨by simp, rfl⟩⟩
  | chats =>
    exact ⟨x, (Side.link_changed (f := fun p => { p with chat := true }) fun _ => rfl).trans here, rfl, .inl ⟨by simp, rfl⟩⟩

theorem LoHears.unsighted (hears : T.LoHears ends cue out T') (seen : T.sightings = []) :
    cue.sighting? = none ∧ T'.sightings = [] := by
  have h := hears.sightings
  rw [seen] at h
  obtain ⟨hcue, hrest⟩ := List.append_eq_nil_iff.mp h.symm
  exact ⟨Option.toList_eq_nil_iff.mp hcue, hrest⟩

theorem Stage.lo (stage : T.Stage) (sound : T.Sound) (fits : Fits ends.rtc) (hears : T.LoHears ends cue out T') :
    T'.Stage := by
  have way : ∀ {off}, T.Underway off → T'.Underway off := fun way => by
    cases way with
    | unread up => exact .unread (by rw [hears.up]; exact List.mem_append_left _ up)
    | unheard pre post trail stays => exact .unheard pre post (hears.trail.trans trail) stays
  -- An answer to the PeerConn held is the one message of its negotiation.
  have only : ∀ {sdp : Sdp}, cue = .signal (.answer sdp) → ∀ pc, sdp.replyTo.map (·.pc) = some pc →
      T.up.countP (Signal.deals pc) + T.trail.countP (fun t => t.any (Signal.deals pc)) = 0 ∧
      T'.down.countP (Signal.deals pc) = 0 ∧
        0 < T.dealing pc := by
    intro sdp hcue pc reply
    have deals : (Signal.answer sdp).deals pc = true := decide_eq_true reply
    have single := sound.single pc
    have count : T.down.countP (Signal.deals pc) = T'.down.countP (Signal.deals pc) + 1 := by
      rw [hears.down, hcue]
      simp [Cue.signal?, deals]
    simp only [dealing] at single ⊢
    omega
  cases stage with
  | due last =>
    have sightings := hears.sightings
    cases hcue : cue.sighting? with
    | none =>
      rw [hcue, Option.toList_none, List.nil_append] at sightings
      exact .due (by rw [← sightings]; exact last)
    | some b =>
      rw [hcue, Option.toList_some, List.singleton_append] at sightings
      rw [sightings] at last
      cases hrest : T'.sightings with
      | nil =>
        rw [hrest] at last
        obtain rfl : b = true := Option.some.inj last
        have hseen : cue = .seen := by cases cue <;> simp_all [Cue.sighting?]
        subst hseen
        obtain ⟨x, off, here, own, fit, up⟩ := hears.offers fits
        exact .offered hrest here own fit (.unread up)
      | cons b' rest =>
        rw [hrest, List.getLast?_cons_cons] at last
        exact .due (by rw [hrest]; exact last)
  | @offered x off seen here own fit underway =>
    obtain ⟨unsighted, seen'⟩ := hears.unsighted seen
    obtain ⟨x', here', pc, -⟩ := hears.keeps here unsighted
    exact .offered seen' here' (own.trans pc.symm) fit (way underway)
  | @answered x y off ans seen here there stays took own theirs reply fit hway =>
    obtain ⟨unsighted, seen'⟩ := hears.unsighted seen
    obtain ⟨x', here', pc, adds⟩ := hears.keeps here unsighted
    refine .answered seen' here' (by rw [hears.hi]; exact there) (by rw [hears.trail]; exact stays) took
      (own.trans pc.symm) theirs
      reply fit ?_
    rcases adds with ⟨unanswered, remotes⟩ | ⟨sdp, hcue, meant, remotes⟩
    · refine hway.imp (fun h => remotes.trans h) fun hm => ?_
      rw [hears.down] at hm
      refine (List.mem_append.mp hm).resolve_left fun hm => ?_
      cases cue with
      | signal sig =>
        obtain rfl := List.mem_singleton.mp hm
        exact unanswered ans rfl
      | _ => cases hm
    · obtain ⟨-, rest, pos⟩ := only hcue x.pc meant
      have none : x.remotes = [] := by
        by_contra some
        exact Nat.ne_of_gt pos (sound.done x here some)
      rw [none] at hway remotes
      have hm := hway.resolve_left (by simp)
      rw [hears.down, hcue] at hm
      rcases List.mem_append.mp hm with hm | hm
      · cases List.mem_singleton.mp hm
        exact .inl remotes
      · have := countP_pos_of_mem hm (deals_of_reply reply)
        rw [own, rest] at this
        exact absurd this (Nat.lt_irrefl 0)
  | @stuck x ans seen here foreign fit hway =>
    obtain ⟨unsighted, seen'⟩ := hears.unsighted seen
    obtain ⟨x', here', pc, adds⟩ := hears.keeps here unsighted
    refine .stuck seen' here' (by rw [pc]; exact foreign) fit ?_
    rw [hears.down] at hway
    refine (List.mem_append.mp hway).resolve_left fun hm => ?_
    cases cue with
    | signal sig =>
      obtain rfl := List.mem_singleton.mp hm
      rcases adds with ⟨unanswered, -⟩ | ⟨sdp, hcue, meant, -⟩
      · exact unanswered ans rfl
      · cases hcue
        exact foreign meant
    | _ => cases hm

/-! ### The other end takes a cue -/

/-- What it holds is replaced when it answers an offer. -/
theorem HiHears.answers {sdp : Sdp} (hears : T.HiHears ends (.signal (.offer sdp)) out T') (fits : Fits ends.rtc)
    (sound : T.Sound) : ∃ y ans, T'.hi.link = some y ∧ y.remotes = [sdp] ∧ ans.id.pc = y.pc ∧ ans.replyTo = some sdp.id ∧
      (Signal.answer ans).fits = true ∧ .answer ans ∈ T'.down := by
  have reacts := hears.reacts
  have mem : ∀ sig ∈ out.filter Signal.negotiates, sig ∈ T'.down := fun sig hm => by
    rw [hears.down]
    exact List.mem_append_right _ (List.mem_filter.mp hm).1
  have fit := reacts.fits fits
  have unset := sound.unset
  generalize out.filter Signal.negotiates = said at reacts mem fit
  generalize T'.hi = s' at reacts
  cases reacts with
  | @answered _ p n has =>
    have awaits : p.remotes = [] := by
      cases has with
      | held hp =>
        obtain ⟨hp, unset'⟩ := Side.vacated_eq_some hp
        exact unset p.link (by simp [Side.link, hp]) unset'
      | new hp new => exact new.remotes
    refine ⟨(p.concluded ends.rtc sdp).created.link, (p.concluded ends.rtc sdp).nextSdp ends.rtc (some sdp.id),
      rfl, ?_, rfl, rfl,
      fit _ (List.mem_singleton_self _), mem _ (List.mem_singleton_self _)⟩
    simp [PeerConn.link, PeerConn.created, PeerConn.concluded, PeerConn.setRemote, awaits]

/-- Otherwise what it holds stays unless the smaller id has left. -/
theorem HiHears.keeps {y : Link} (hears : T.HiHears ends cue out T') (there : T.hi.link = some y) (stays : cue ≠ .left)
    (unoffered : ∀ sdp, cue ≠ .signal (.offer sdp)) : T'.hi.link = some y := by
  have reacts := hears.reacts
  have unturned := hears.unturned
  have unanswered := hears.unanswered
  generalize out.filter Signal.negotiates = said at reacts
  generalize T'.hi = s' at reacts
  cases reacts with
  | offered smaller has => cases smaller
  | @waits p n larger has =>
    cases has with
    | held hp =>
      rw [Side.link, hp] at there
      exact there
    | new hp new =>
      rw [Side.link, hp] at there
      cases there
  | left => exact absurd rfl stays
  | rotated | unrotated => exact absurd rfl unturned
  | answered sdp has => exact absurd rfl (unoffered sdp)
  | concluded sdp => exact absurd rfl (unanswered sdp)
  | ice cand => rw [Side.link_changed (by simp)]; exact there
  | other => exact there
  | chats => exact (Side.link_changed (f := fun p => { p with chat := true }) fun _ => rfl).trans there

theorem Stage.hi (stage : T.Stage) (sound : T.Sound) (fits : Fits ends.rtc) (hears : T.HiHears ends cue out T') :
    T'.Stage := by
  have down : ∀ {sig}, sig ∈ T.down → sig ∈ T'.down := fun hm => by
    rw [hears.down]
    exact List.mem_append_left _ hm
  -- The offer of somebody else is answered, and the answer gets to the smaller id.
  have strays : ∀ {x : Link} {sdp : Sdp}, cue = .signal (.offer sdp) → T.sightings = [] →
      T.lo.link = some x → sdp.id.pc ≠ x.pc → T'.Stage := by
    rintro x sdp rfl seen here other
    obtain ⟨y, ans, -, -, -, reply, fit, way⟩ := hears.answers fits sound
    refine .stuck (hears.sightings.trans seen) (by rw [hears.lo]; exact here) ?_ fit way
    rw [reply, Option.map_some]
    exact fun h => other (Option.some.inj h)
  -- The offer of the PeerConn is the one message of its negotiation.
  have only : ∀ {sdp : Sdp}, cue = .signal (.offer sdp) → T.up.countP (Signal.deals sdp.id.pc) = 0 ∧
      T'.trail.countP (fun t => t.any (Signal.deals sdp.id.pc)) = 0 ∧ T.down.countP (Signal.deals sdp.id.pc) = 0 ∧
        0 < T.dealing sdp.id.pc := by
    intro sdp hcue
    have deals : (Signal.offer sdp).deals sdp.id.pc = true := decide_eq_true rfl
    have single := sound.single sdp.id.pc
    have count : T.trail.countP (fun t => t.any (Signal.deals sdp.id.pc)) =
        T'.trail.countP (fun t => t.any (Signal.deals sdp.id.pc)) + 1 := by
      rw [hears.trail, hcue]
      simp [Cue.track?, deals]
    simp only [dealing] at single ⊢
    omega
  cases stage with
  | due last => exact .due (by rw [hears.sightings]; exact last)
  | stuck seen here foreign fit way =>
    exact .stuck (hears.sightings.trans seen) (by rw [hears.lo]; exact here) foreign fit (down way)
  | @offered x off seen here own fit way =>
    by_cases hcue : ∃ sdp, cue = .signal (.offer sdp)
    · obtain ⟨sdp, hcue⟩ := hcue
      by_cases same : sdp.id.pc = x.pc
      · obtain ⟨unread, unheard, -, -⟩ := only hcue
        have deals : (Signal.offer off).deals sdp.id.pc = true := decide_eq_true (own.trans same.symm)
        -- It is the offer itself that has arrived.
        have arrived : off = sdp ∧ none ∉ T'.trail := by
          have trail := hears.trail
          rw [hcue] at trail
          cases way with
          | unread up =>
            have := countP_pos_of_mem up deals
            omega
          | unheard pre post h stays =>
            rw [h] at trail
            cases pre with
            | nil =>
              obtain ⟨heq, rfl⟩ := List.cons.inj trail
              cases heq
              exact ⟨rfl, stays⟩
            | cons t pre =>
              have rest : pre ++ some (.offer off) :: post = T'.trail := (List.cons.inj trail).2
              have : 0 < T'.trail.countP (fun t => t.any (Signal.deals sdp.id.pc)) := by
                refine List.countP_pos_iff.mpr ⟨some (.offer off), ?_, deals⟩
                rw [← rest]
                simp
              omega
        obtain ⟨rfl, stays⟩ := arrived
        subst hcue
        obtain ⟨y, ans, there, took, theirs, reply, fit', way'⟩ := hears.answers fits sound
        exact .answered (hears.sightings.trans seen) (by rw [hears.lo]; exact here) there stays took own theirs reply fit'
          (.inr way')
      · exact strays hcue seen here same
    · refine .offered (hears.sightings.trans seen) (by rw [hears.lo]; exact here) own fit
        (way.tail hears.up hears.trail fun h => ?_)
      cases cue with
      | signal sig =>
        cases h
        exact hcue ⟨off, rfl⟩
      | _ => cases h
  | @answered x y off ans seen here there stays took own theirs reply fit way =>
    have trail := hears.trail
    by_cases hcue : ∃ sdp, cue = .signal (.offer sdp)
    · obtain ⟨sdp, hcue⟩ := hcue
      refine strays hcue seen here fun same => ?_
      -- There is no other message of the negotiation.
      obtain ⟨-, -, unsaid, pos⟩ := only hcue
      rcases way with took' | way
      · rw [same, sound.done x here (by rw [took']; simp)] at pos
        exact Nat.lt_irrefl 0 pos
      · have := countP_pos_of_mem way (deals_of_reply reply)
        rw [own, ← same, unsaid] at this
        exact Nat.lt_irrefl 0 this
    · have stays' : none ∉ T'.trail := fun hm => stays (by rw [trail]; exact List.mem_append_right _ hm)
      have left : cue ≠ .left := by
        rintro rfl
        exact stays (by rw [trail]; exact List.mem_append_left _ (List.mem_singleton_self _))
      exact .answered (hears.sightings.trans seen) (by rw [hears.lo]; exact here)
        (hears.keeps there left fun sdp h => hcue ⟨sdp, h⟩) stays' took own theirs reply fit (way.imp_right down)

/-- A step keeps the two at a stage of getting to be negotiated with each other. -/
theorem Stage.step (stage : T.Stage) (sound : T.Sound) (fits : Fits ends.rtc) (step : T.Step ends T') : T'.Stage := by
  cases step with
  | passes passes => exact stage.passes passes
  | lo hears => exact stage.lo sound fits hears
  | hi hears => exact stage.hi sound fits hears

/-- Once nothing is on its way, they are. -/
theorem Stage.settled (stage : T.Stage) (seen : T.sightings = []) (up : T.up = []) (trail : T.trail = [])
    (down : T.down = []) :
    ∃ x y off ans, T.lo.link = some x ∧ T.hi.link = some y ∧ x.remotes = [ans] ∧ y.remotes = [off] ∧ off.id.pc = x.pc ∧
      ans.id.pc = y.pc ∧ ans.replyTo = some off.id := by
  cases stage with
  | due last =>
    rw [seen] at last
    cases last
  | offered seen here own fits way =>
    cases way with
    | unread h =>
      rw [up] at h
      cases h
    | unheard pre post h stays =>
      rw [trail] at h
      simp at h
  | @answered x y off ans seen here there stays took own theirs reply fits way =>
    refine ⟨x, y, off, ans, here, there, way.resolve_right fun hm => ?_, took, own, theirs, reply⟩
    rw [down] at hm
    cases hm
  | stuck seen here foreign fits way =>
    rw [down] at way
    cases way

end

end Tie

end SquadLink

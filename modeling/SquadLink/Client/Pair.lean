import SquadLink.Client.Sides

/-! Two clients that negotiate with each other, as far as this concerns no third one: what either end holds
    and has said, and what is on its way between them. A step is the reaction of one end to a cue. As long
    as no unanswered offer is discarded, the pair goes through the stages of one negotiation, and a key
    rotation starts it again. -/

namespace SquadLink

/-! ### Sides as links -/

def Side.link (s : Side) : Option Link := s.conn.map PeerConn.link

/-- A PeerConn that has no remote description yet. -/
def Link.Awaits (l : Link) : Prop := l.remoteSet = false ∧ l.remotes = []

/-- The one remote description of a PeerConn. -/
def Link.Took (l : Link) (sdp : Sdp) : Prop := l.remoteSet = true ∧ l.remotes = [sdp]

namespace PeerConn

@[simp] theorem link_pc (p : PeerConn) : p.link.pc = p.pc := rfl

@[simp] theorem link_remoteSet (p : PeerConn) : p.link.remoteSet = p.remoteSet := rfl

@[simp] theorem link_addOrQueueIce (rtc : Webrtc) (p : PeerConn) (cand : Candidate) :
    (p.addOrQueueIce rtc cand).link = p.link := by
  obtain ⟨added, pendingIce, h⟩ := p.addOrQueueIce_eq rtc cand
  rw [h]
  rfl

@[simp] theorem concluded_pc (rtc : Webrtc) (sdp : Sdp) (p : PeerConn) : (p.concluded rtc sdp).pc = p.pc := by
  simp [concluded, setRemote]

@[simp] theorem concluded_remoteSet (rtc : Webrtc) (sdp : Sdp) (p : PeerConn) : (p.concluded rtc sdp).remoteSet = true := by
  simp [concluded]

theorem link_concluded (rtc : Webrtc) (sdp : Sdp) (p : PeerConn) :
    (p.concluded rtc sdp).link = { p.link with remoteSet := true, remotes := p.link.remotes ++ [sdp] } := by
  simp [concluded, link, setRemote]

theorem concluded_took (rtc : Webrtc) {sdp : Sdp} {p : PeerConn} (awaits : p.link.Awaits) :
    (p.concluded rtc sdp).link.Took sdp := by
  rw [link_concluded]
  exact ⟨rfl, by simp [awaits.2]⟩

theorem IsNew.awaits {p : PeerConn} {pc : PcId} (new : p.IsNew pc) : p.link.Awaits := ⟨new.remoteSet, new.remotes⟩

end PeerConn

/-- The library's descriptions are all short enough to be relayed. -/
def Fits (rtc : Webrtc) : Prop := ∀ id, (rtc.sdpText id).utf8ByteSize ≤ maxSdp

namespace Side

section
variable {rtc : Webrtc} {offers : Bool} {pc : Nat → PcId} {s s' : Side} {cue : Cue} {said : List Signal}
  {p : PeerConn} {n : Nat}

theorem link_changed {f : PeerConn → PeerConn} (hf : ∀ p, (f p).link = p.link) : (s.changed f).link = s.link := by
  simp only [link, changed, Option.map_map]
  cases s.conn <;> simp [hf]

theorem vacated_eq_some (h : s.vacated.conn = some p) : s.conn = some p ∧ p.remoteSet = false := by
  obtain ⟨hp, hset⟩ := Option.filter_eq_some_iff.mp h
  exact ⟨hp, by simpa using hset⟩

theorem Reacts.negotiates (reacts : s.Reacts rtc offers pc cue s' said) : ∀ sig ∈ said, sig.negotiates = true := by
  cases reacts <;> simp [Signal.negotiates]

theorem Reacts.fits (fits : Fits rtc) (reacts : s.Reacts rtc offers pc cue s' said) : ∀ sig ∈ said, sig.fits = true := by
  cases reacts <;> simp [Signal.fits, PeerConn.nextSdp, fits _]

theorem Has.serial_le (has : s.Has pc p n) : s.serial ≤ n := by
  cases has with
  | held h => exact Nat.le_refl _
  | new h new => exact Nat.le_succ _

theorem Reacts.serial_le (reacts : s.Reacts rtc offers pc cue s' said) : s.serial ≤ s'.serial := by
  cases reacts with
  | offered smaller has => exact has.serial_le
  | waits larger has => exact has.serial_le
  | rotated smaller held has => exact has.serial_le
  | answered sdp has => exact has.serial_le
  | _ => exact Nat.le_refl _

theorem Has.link_cases (has : s.Has pc p n) : p.pc = pc s.serial ∧ p.link.Awaits ∨ s.conn = some p := by
  cases has with
  | held h => exact .inr h
  | new h new => exact .inl ⟨new.pc, new.awaits⟩

/-- The PeerConn held after a reaction is new, or was held before. -/
theorem Reacts.link_cases (reacts : s.Reacts rtc offers pc cue s' said) {x' : Link} (hx : s'.link = some x') :
    x'.pc = pc s.serial ∨ ∃ x, s.link = some x ∧ x'.pc = x.pc ∧ (x'.remoteSet = false → x.remoteSet = false) ∧
      (cue = .rekey → offers = false) ∧ ∀ sdp, cue = .signal (.offer sdp) → x.remoteSet = false := by
  have changed : ∀ {f : PeerConn → PeerConn}, (s.changed f).link = some x' → ∃ p, s.conn = some p ∧ (f p).link = x' := by
    intro f h
    obtain ⟨p', hp', rfl⟩ := Option.map_eq_some_iff.mp h
    obtain ⟨p, hp, rfl⟩ := Option.map_eq_some_iff.mp hp'
    exact ⟨p, hp, rfl⟩
  cases reacts with
  | @offered p n smaller has =>
    cases hx
    rcases has.link_cases with ⟨hpc, -⟩ | hp
    · exact .inl hpc
    · exact .inr ⟨p.link, by simp [link, hp], rfl, id, by simp, by simp⟩
  | @waits p n larger has =>
    cases hx
    rcases has.link_cases with ⟨hpc, -⟩ | hp
    · exact .inl hpc
    · exact .inr ⟨p.link, by simp [link, hp], rfl, id, by simp, by simp⟩
  | left => cases hx
  | @rotated p n smaller held has =>
    cases hx
    rcases has.link_cases with ⟨hpc, -⟩ | hp
    · exact .inl hpc
    · cases hp
  | unrotated h =>
    rcases h with h | h
    · simp [link, h] at hx
    · exact .inr ⟨x', hx, rfl, id, fun _ => h, by simp⟩
  | @answered sdp p n has =>
    cases hx
    rcases has.link_cases with ⟨hpc, -⟩ | hp
    · exact .inl ((p.concluded_pc rtc sdp).trans hpc)
    · obtain ⟨hp, unset⟩ := vacated_eq_some hp
      exact .inr ⟨p.link, by simp [link, hp], p.concluded_pc rtc sdp, fun _ => unset, by simp, fun _ _ => unset⟩
  | concluded sdp =>
    obtain ⟨p, hp, rfl⟩ := changed hx
    exact .inr ⟨p.link, by simp [link, hp], by simp, by simp, by simp, by simp⟩
  | ice cand =>
    obtain ⟨p, hp, rfl⟩ := changed hx
    rw [PeerConn.link_addOrQueueIce]
    exact .inr ⟨p.link, by simp [link, hp], rfl, id, by simp, by simp⟩
  | other => exact .inr ⟨x', hx, rfl, id, by simp, by simp⟩
  | chats =>
    obtain ⟨p, hp, rfl⟩ := changed hx
    exact .inr ⟨p.link, by simp [link, hp], rfl, id, by simp, by simp⟩

end

end Side

/-- One end of a pair: the PeerConn that it holds for the other, and all that it has said to it. -/
structure Half where
  side : Side
  said : List Signal

/-- `up` is what the end with the smaller id has said and the other has still to hear, and `down` goes the
    other way; `sees` and `rekeys` count the sightings of the other and the rotations that it has still to
    handle. -/
structure Pair where
  lo : Half
  hi : Half
  up : List Signal
  down : List Signal
  sees : Nat
  rekeys : Nat

/-- What the two ends have from outside: the library, and the names of the PeerConns that they make. -/
structure Ends where
  rtc : Webrtc
  lo : Nat → PcId
  hi : Nat → PcId

/-- An end takes a cue, which may be a signal on its way to it, and says `out`: its reaction, and candidates
    of PeerConns anywhere between. -/
structure Half.Hears (rtc : Webrtc) (offers : Bool) (pc : Nat → PcId) (h : Half) (inc : List Signal) (cue : Cue)
    (out : List Signal) (h' : Half) (inc' : List Signal) : Prop where
  reacts : h.side.Reacts rtc offers pc cue h'.side (out.filter Signal.negotiates)
  said : h'.said = h.said ++ out
  lane : inc = cue.signal?.toList ++ inc'
  stays : cue ≠ .left

namespace Pair

inductive Move
  | lo (cue : Cue) (out : List Signal)
  | hi (cue : Cue) (out : List Signal)
  /-- Key rotations are announced. -/
  | rotate (n : Nat)

inductive Step (ends : Ends) (P : Pair) : Move → Pair → Prop
  | lo {cue : Cue} {out down : List Signal} {h : Half} {sees rekeys : Nat}
      (hears : P.lo.Hears ends.rtc true ends.lo P.down cue out h down)
      (sight : P.sees = sees + if cue = .seen then 1 else 0) (turn : P.rekeys = rekeys + if cue = .rekey then 1 else 0) :
      Step ends P (.lo cue out) { P with lo := h, down, up := P.up ++ out.filter Signal.fits, sees, rekeys }
  | hi {cue : Cue} {out up : List Signal} {h : Half} (hears : P.hi.Hears ends.rtc false ends.hi P.up cue out h up) :
      Step ends P (.hi cue out) { P with hi := h, up, down := P.down ++ out.filter Signal.fits }
  | rotate (n : Nat) : Step ends P (.rotate n) { P with rekeys := P.rekeys + n }

/-- The offer and the answer of the negotiation that is under way, or has ended. -/
abbrev Deal := Option Sdp × Option Sdp

/-- A fresh offer begins a negotiation anew. -/
def Move.deal (d : Deal) : Move → Deal
  | .lo _ out =>
    match out.filter Signal.negotiates with
    | [.offer off] => (some off, none)
    | _ => d
  | .hi _ out =>
    match out.filter Signal.negotiates with
    | [.answer ans] => (d.1, some ans)
    | _ => d
  | .rotate _ => d

/-- No unanswered offer is discarded. -/
def Move.Calm (P : Pair) : Move → Prop
  | .lo .rekey _ => ∀ x ∈ P.lo.side.link, x.remoteSet = true
  | _ => True

/-- What of the negotiation is on its way, and has been said since `past`. -/
structure Talk (P : Pair) (past : List Signal × List Signal) (d : Deal) (up down : List Signal) : Prop where
  up : P.up.filter Signal.negotiates = up
  down : P.down.filter Signal.negotiates = down
  saidLo : P.lo.said.filter Signal.negotiates = past.1 ++ (d.1.map Signal.offer).toList
  saidHi : P.hi.said.filter Signal.negotiates = past.2 ++ (d.2.map Signal.answer).toList

/-- The stages of a negotiation. -/
inductive Stage (past : List Signal × List Signal) (P : Pair) : Deal → Prop
  | unseen (talk : P.Talk past (none, none) [] []) (due : P.sees = 1) (here : P.lo.side.link = none)
      (there : ∀ y, P.hi.side.link = some y → y.Awaits) : Stage past P (none, none)
  | offered {off : Sdp} {x : Link} (talk : P.Talk past (some off, none) [.offer off] []) (due : P.sees = 0)
      (here : P.lo.side.link = some x) (awaits : x.Awaits) (own : off.id.pc = x.pc)
      (there : ∀ y, P.hi.side.link = some y → y.remoteSet = false → y.Awaits) : Stage past P (some off, none)
  | answered {off ans : Sdp} {x y : Link} (talk : P.Talk past (some off, some ans) [] [.answer ans]) (due : P.sees = 0)
      (here : P.lo.side.link = some x) (awaits : x.Awaits) (own : off.id.pc = x.pc) (there : P.hi.side.link = some y)
      (took : y.Took off) (theirs : ans.id.pc = y.pc)
      (reply : ans.replyTo = some off.id) : Stage past P (some off, some ans)
  | settled {off ans : Sdp} {x y : Link} (talk : P.Talk past (some off, some ans) [] []) (due : P.sees = 0)
      (here : P.lo.side.link = some x) (took : x.Took ans) (own : off.id.pc = x.pc) (there : P.hi.side.link = some y)
      (took' : y.Took off) (theirs : ans.id.pc = y.pc)
      (reply : ans.replyTo = some off.id) : Stage past P (some off, some ans)

section
variable {ends : Ends} {P P' : Pair} {mv : Move} {past : List Signal × List Signal} {d : Deal} {up down : List Signal}

/-- What has no part in the negotiation changes no stage. -/
theorem Stage.congr (stage : Stage past P d) (lo : P'.lo.side.link = P.lo.side.link) (hi : P'.hi.side.link = P.hi.side.link)
    (sees : P'.sees = P.sees) (talk : ∀ up down, P.Talk past d up down → P'.Talk past d up down) : Stage past P' d := by
  cases stage with
  | unseen t due here there => exact .unseen (talk _ _ t) (sees.trans due) (lo.trans here) (by rw [hi]; exact there)
  | offered t due here awaits own there =>
    exact .offered (talk _ _ t) (sees.trans due) (lo.trans here) awaits own (by rw [hi]; exact there)
  | answered t due here awaits own there took theirs reply =>
    exact .answered (talk _ _ t) (sees.trans due) (lo.trans here) awaits own (hi.trans there) took theirs reply
  | settled t due here took own there took' theirs reply =>
    exact .settled (talk _ _ t) (sees.trans due) (lo.trans here) took own (hi.trans there) took' theirs reply

theorem filter_fits {rtc : Webrtc} {offers : Bool} {pc : Nat → PcId} {s s' : Side} {cue : Cue} {out : List Signal}
    (fits : Fits rtc) (reacts : s.Reacts rtc offers pc cue s' (out.filter Signal.negotiates)) :
    (out.filter Signal.fits).filter Signal.negotiates = out.filter Signal.negotiates := by
  rw [List.filter_filter]
  refine List.filter_congr fun sig hm => ?_
  cases hn : sig.negotiates with
  | false => rfl
  | true => simpa using reacts.fits fits sig (List.mem_filter.mpr ⟨hm, hn⟩)

/-- What the end with the smaller id does to the talk. -/
theorem Talk.lo (talk : P.Talk past d up down) (fits : Fits ends.rtc) {cue : Cue} {out rest said : List Signal} {h : Half}
    {sees rekeys : Nat} (hears : P.lo.Hears ends.rtc true ends.lo P.down cue out h rest)
    (hsaid : out.filter Signal.negotiates = said) {d' : Deal} {past' : List Signal × List Signal}
    (lo : past.1 ++ (d.1.map Signal.offer).toList ++ said = past'.1 ++ (d'.1.map Signal.offer).toList)
    (hi : past.2 ++ (d.2.map Signal.answer).toList = past'.2 ++ (d'.2.map Signal.answer).toList) {down' : List Signal}
    (lane : cue.signal?.toList.filter Signal.negotiates ++ down' = down) :
    Talk { P with lo := h, down := rest, up := P.up ++ out.filter Signal.fits, sees, rekeys } past' d'
      (up ++ said) down' where
  up := by rw [List.filter_append, talk.up, filter_fits fits hears.reacts, hsaid]
  down := by
    have := talk.down
    rw [hears.lane, List.filter_append, ← lane] at this
    exact List.append_cancel_left this
  saidLo := by rw [hears.said, List.filter_append, talk.saidLo, hsaid, lo]
  saidHi := talk.saidHi.trans hi

theorem Talk.hi (talk : P.Talk past d up down) (fits : Fits ends.rtc) {cue : Cue} {out rest said : List Signal} {h : Half}
    (hears : P.hi.Hears ends.rtc false ends.hi P.up cue out h rest)
    (hsaid : out.filter Signal.negotiates = said) {d' : Deal}
    (lo : (d.1.map Signal.offer).toList = (d'.1.map Signal.offer).toList)
    (hi : (d.2.map Signal.answer).toList ++ said = (d'.2.map Signal.answer).toList) {up' : List Signal}
    (lane : cue.signal?.toList.filter Signal.negotiates ++ up' = up) :
    Talk { P with hi := h, up := rest, down := P.down ++ out.filter Signal.fits } past d' up' (down ++ said) where
  down := by rw [List.filter_append, talk.down, filter_fits fits hears.reacts, hsaid]
  up := by
    have := talk.up
    rw [hears.lane, List.filter_append, ← lane] at this
    exact List.append_cancel_left this
  saidHi := by rw [hears.said, List.filter_append, talk.saidHi, hsaid, List.append_assoc, hi]
  saidLo := talk.saidLo.trans (by rw [lo])

/-- Where the end with the smaller id neither offers nor takes an answer, the stage stays what it is. -/
theorem Stage.lo_quiet (stage : Stage past P d) (fits : Fits ends.rtc) {cue : Cue} {out rest : List Signal}
    {h : Half} {rekeys : Nat}
    (hears : P.lo.Hears ends.rtc true ends.lo P.down cue out h rest) (quiet : out.filter Signal.negotiates = [])
    (link : h.side.link = P.lo.side.link) (lane : cue.signal?.toList.filter Signal.negotiates = []) :
    Stage past { P with lo := h, down := rest, up := P.up ++ out.filter Signal.fits, sees := P.sees, rekeys } d := by
  refine stage.congr link rfl rfl fun up down talk => ?_
  have talk' : Talk { P with lo := h, down := rest, up := P.up ++ out.filter Signal.fits, sees := P.sees, rekeys } past d
      (up ++ []) down := talk.lo fits hears quiet (List.append_nil _) rfl (by rw [lane]; rfl)
  rwa [List.append_nil] at talk'

theorem Stage.lo_step (stage : Stage past P d) (fits : Fits ends.rtc) {cue : Cue} {out rest : List Signal} {h : Half}
    {sees rekeys : Nat} (hears : P.lo.Hears ends.rtc true ends.lo P.down cue out h rest)
    (sight : P.sees = sees + if cue = .seen then 1 else 0) (calm : (Move.lo cue out).Calm P) :
    ∃ past', Stage past' { P with lo := h, down := rest, up := P.up ++ out.filter Signal.fits, sees, rekeys }
      ((Move.lo cue out).deal d) ∧ (cue ≠ .rekey → past' = past) := by
  obtain ⟨said, hsaid⟩ : ∃ said, out.filter Signal.negotiates = said := ⟨_, rfl⟩
  have reacts := hears.reacts
  rw [hsaid] at reacts
  simp only [Move.deal, hsaid]
  obtain ⟨s', said'⟩ := h
  cases reacts with
  | @offered p n smaller has =>
    simp only [if_true] at sight
    cases stage with
    | unseen talk due here there =>
      have handled : sees = 0 := by omega
      refine ⟨past, .offered (x := p.offered.link) ?_ handled rfl ?_ ?_ fun y hy _ => there y hy, fun _ => rfl⟩
      · refine talk.lo fits hears hsaid ?_ ?_ rfl
        · simp
        · rfl
      · cases has with
        | held hp => simp [Side.link, hp] at here
        | new hp new => exact new.awaits
      · rfl
    | offered talk due => omega
    | answered talk due => omega
    | settled talk due => omega
  | waits larger => cases larger
  | left => exact absurd rfl hears.stays
  | @rotated p n smaller held has =>
    simp only [reduceCtorEq, if_false, Nat.add_zero] at sight
    subst sight
    have fresh : p.link.Awaits := by
      cases has with
      | held hp => cases hp
      | new hp new => exact new.awaits
    cases stage with
    | unseen talk due here there =>
      rw [Option.map_eq_none_iff.mp here] at held
      cases held
    | offered talk due here awaits =>
      have := calm _ here
      rw [awaits.1] at this
      cases this
    | answered talk due here awaits =>
      have := calm _ here
      rw [awaits.1] at this
      cases this
    | @settled off ans x y talk due here took own there took' =>
      refine ⟨(past.1 ++ [.offer off], past.2 ++ [.answer ans]),
        .offered (x := p.offered.link) ?_ due rfl fresh rfl ?_, by simp⟩
      · exact talk.lo fits hears hsaid (by simp) (by simp) rfl
      · intro y' hy' unset
        cases there.symm.trans hy'
        rw [took'.1] at unset
        cases unset
  | unrotated hnone =>
    simp only [reduceCtorEq, if_false, Nat.add_zero] at sight
    subst sight
    exact ⟨past, stage.lo_quiet fits hears hsaid rfl rfl, fun _ => rfl⟩
  | answered sdp has =>
    -- An offer never goes to the end with the smaller id.
    have lane : .offer sdp ∈ P.down.filter Signal.negotiates := by simp [hears.lane, Cue.signal?, Signal.negotiates]
    cases stage with
    | answered talk => simp [talk.down] at lane
    | unseen talk => simp [talk.down] at lane
    | offered talk => simp [talk.down] at lane
    | settled talk => simp [talk.down] at lane
  | concluded sdp =>
    simp only [reduceCtorEq, if_false, Nat.add_zero] at sight
    subst sight
    have lane : P.down.filter Signal.negotiates = .answer sdp :: rest.filter Signal.negotiates := by
      rw [hears.lane]
      rfl
    cases stage with
    | unseen talk => simp [talk.down] at lane
    | offered talk => simp [talk.down] at lane
    | settled talk => simp [talk.down] at lane
    | @answered off ans x y talk due here awaits own there took theirs reply =>
      rw [talk.down, List.cons.injEq, Signal.answer.injEq] at lane
      obtain ⟨rfl, -⟩ := lane
      obtain ⟨p, hp, rfl⟩ := Option.map_eq_some_iff.mp here
      refine ⟨past, .settled (x := (p.concluded ends.rtc ans).link) ?_ due (by simp [Side.link, hp])
        (p.concluded_took ends.rtc awaits) ?_ there took theirs reply, fun _ => rfl⟩
      · exact talk.lo fits hears hsaid (by simp) rfl rfl
      · rw [PeerConn.link_concluded]
        exact own
  | ice cand =>
    simp only [reduceCtorEq, if_false, Nat.add_zero] at sight
    subst sight
    exact ⟨past,
      stage.lo_quiet fits hears hsaid (Side.link_changed fun p => p.link_addOrQueueIce ends.rtc cand) rfl, fun _ => rfl⟩
  | other =>
    simp only [reduceCtorEq, if_false, Nat.add_zero] at sight
    subst sight
    exact ⟨past, stage.lo_quiet fits hears hsaid rfl rfl, fun _ => rfl⟩
  | chats =>
    simp only [reduceCtorEq, if_false, Nat.add_zero] at sight
    subst sight
    exact ⟨past, stage.lo_quiet fits hears hsaid (Side.link_changed fun _ => rfl) rfl, fun _ => rfl⟩

theorem Stage.hi_quiet (stage : Stage past P d) (fits : Fits ends.rtc) {cue : Cue} {out rest : List Signal} {h : Half}
    (hears : P.hi.Hears ends.rtc false ends.hi P.up cue out h rest) (quiet : out.filter Signal.negotiates = [])
    (link : h.side.link = P.hi.side.link) (lane : cue.signal?.toList.filter Signal.negotiates = []) :
    Stage past { P with hi := h, up := rest, down := P.down ++ out.filter Signal.fits } d := by
  refine stage.congr rfl link rfl fun up down talk => ?_
  have talk' : Talk { P with hi := h, up := rest, down := P.down ++ out.filter Signal.fits } past d up (down ++ []) :=
    talk.hi fits hears quiet rfl (List.append_nil _) (by rw [lane]; rfl)
  rwa [List.append_nil] at talk'

theorem Stage.hi_step (stage : Stage past P d) (fits : Fits ends.rtc) {cue : Cue} {out rest : List Signal} {h : Half}
    (hears : P.hi.Hears ends.rtc false ends.hi P.up cue out h rest) :
    Stage past { P with hi := h, up := rest, down := P.down ++ out.filter Signal.fits } ((Move.hi cue out).deal d) := by
  obtain ⟨said, hsaid⟩ : ∃ said, out.filter Signal.negotiates = said := ⟨_, rfl⟩
  have reacts := hears.reacts
  rw [hsaid] at reacts
  simp only [Move.deal, hsaid]
  obtain ⟨s', said'⟩ := h
  cases reacts with
  | offered smaller => cases smaller
  | @waits p n larger has =>
    -- It keeps the PeerConn that it holds, or makes one that waits for the offer.
    cases has with
    | held hp => exact stage.hi_quiet fits hears hsaid (by simp [Side.link, hp]) rfl
    | new hnone new =>
      have absent : P.hi.side.link = none := by simp [Side.link, hnone]
      have talks : ∀ {up down}, P.Talk past d up down →
          Talk
            { P with hi := ⟨⟨some p, P.hi.side.serial + 1⟩, said'⟩, up := rest, down := P.down ++ out.filter Signal.fits }
            past d up (down ++ []) := fun talk => talk.hi fits hears hsaid rfl (List.append_nil _) rfl
      have fresh : ∀ y, Side.link ⟨some p, P.hi.side.serial + 1⟩ = some y → y.Awaits := fun y hy => by
        cases hy
        exact new.awaits
      cases stage with
      | unseen talk due here there => exact .unseen (talks talk) due here fresh
      | offered talk due here awaits own there => exact .offered (talks talk) due here awaits own fun y hy _ => fresh y hy
      | answered talk due here awaits own there => simp [absent] at there
      | settled talk due here took own there => simp [absent] at there
  | left => exact absurd rfl hears.stays
  | rotated smaller => cases smaller
  | unrotated h => exact stage.hi_quiet fits hears hsaid rfl rfl
  | @answered sdp p n has =>
    have lane : P.up.filter Signal.negotiates = .offer sdp :: rest.filter Signal.negotiates := by
      rw [hears.lane]
      rfl
    cases stage with
    | unseen talk => simp [talk.up] at lane
    | answered talk => simp [talk.up] at lane
    | settled talk => simp [talk.up] at lane
    | @offered off x talk due here awaits own there =>
      rw [talk.up, List.cons.injEq, Signal.offer.injEq] at lane
      obtain ⟨rfl, -⟩ := lane
      have waiting : p.link.Awaits := by
        cases has with
        | held hp =>
          obtain ⟨hp, unset⟩ := Side.vacated_eq_some hp
          exact there p.link (by simp [Side.link, hp]) unset
        | new hp new => exact new.awaits
      refine .answered (y := (p.concluded ends.rtc off).created.link) ?_ due here awaits own rfl
        (p.concluded_took ends.rtc waiting) rfl rfl
      refine talk.hi fits hears hsaid ?_ ?_ rfl
      · rfl
      · rfl
  | concluded sdp =>
    -- An answer never goes to the end with the larger id.
    have lane : .answer sdp ∈ P.up.filter Signal.negotiates := by simp [hears.lane, Cue.signal?, Signal.negotiates]
    cases stage with
    | answered talk => simp [talk.up] at lane
    | unseen talk => simp [talk.up] at lane
    | offered talk => simp [talk.up] at lane
    | settled talk => simp [talk.up] at lane
  | ice cand => exact stage.hi_quiet fits hears hsaid (Side.link_changed fun p => p.link_addOrQueueIce ends.rtc cand) rfl
  | other => exact stage.hi_quiet fits hears hsaid rfl rfl
  | chats => exact stage.hi_quiet fits hears hsaid (Side.link_changed fun _ => rfl) rfl

/-- The move is the offerer's handling of a key rotation. -/
def Move.rotates : Move → Bool
  | .lo .rekey _ => true
  | _ => false

/-- A step goes to the stage of the next deal, and only a key rotation makes the last one past. -/
theorem stage_step (fits : Fits ends.rtc) (stage : Stage past P d) (h : Step ends P mv P') (calm : mv.Calm P) :
    ∃ past', Stage past' P' (mv.deal d) ∧ (mv.rotates = false → past' = past) := by
  cases h with
  | lo hears sight turn =>
    obtain ⟨past', stage', kept⟩ := stage.lo_step fits hears sight calm
    refine ⟨past', stage', fun hr => kept ?_⟩
    rintro rfl
    cases hr
  | hi hears => exact ⟨past, stage.hi_step fits hears, fun _ => rfl⟩
  | rotate n =>
      exact ⟨past, stage.congr rfl rfl rfl fun _ _ talk => ⟨talk.up, talk.down, talk.saidLo, talk.saidHi⟩, fun _ => rfl⟩

/-! ### The age of the PeerConns -/

/-- Once everything has been handled, the PeerConns of the pair are none of the first `n` and `m` that the
    two ends have made: a rotation is still to come that replaces the older ones, or has done so. -/
structure Renewed (n m : Nat) (P : Pair) : Prop where
  lo : 0 < P.rekeys ∨ ∀ x, P.lo.side.link = some x → n ≤ x.pc.serial
  hi : 0 < P.rekeys ∨ (∃ off, .offer off ∈ P.up) ∨ ∀ y, P.hi.side.link = some y → m ≤ y.pc.serial
  waiting : ∀ y, P.hi.side.link = some y → y.remoteSet = false → m ≤ y.pc.serial
  counts : n ≤ P.lo.side.serial ∧ m ≤ P.hi.side.serial

theorem renewed_step {n m : Nat} (fits : Fits ends.rtc) (serials : ∀ k, (ends.lo k).serial = k ∧ (ends.hi k).serial = k)
    (stage : Stage past P d) (renewed : Renewed n m P) (h : Step ends P mv P') : Renewed n m P' := by
  cases h with
  | rotate k =>
    have later : 0 < P.rekeys → 0 < P.rekeys + k := fun h => Nat.lt_of_lt_of_le h (Nat.le_add_right _ _)
    exact ⟨renewed.lo.imp_left later, renewed.hi.imp_left later, renewed.waiting, renewed.counts⟩
  | @lo cue out down h sees rekeys hears sight turn =>
    have reacts := hears.reacts
    -- The PeerConn held afterwards is new unless the cue is no rotation.
    have age : ∀ {x'}, h.side.link = some x' → n ≤ x'.pc.serial ∨
        cue ≠ .rekey ∧ ∃ x, P.lo.side.link = some x ∧ x'.pc = x.pc := by
      intro x' hx'
      rcases reacts.link_cases hx' with hpc | ⟨x, hx, hpc, -, hrekey, -⟩
      · exact .inl (by rw [hpc, (serials _).1]; exact renewed.counts.1)
      · exact .inr ⟨fun hc => Bool.noConfusion (hrekey hc), x, hx, hpc⟩
    by_cases hcue : cue = .rekey
    · subst hcue
      refine ⟨.inr fun x' hx' => ?_, .inr ?_, renewed.waiting,
        renewed.counts.1.trans reacts.serial_le, renewed.counts.2⟩
      · exact (age hx').resolve_right fun hc => hc.1 rfl
      · cases hlink : P.lo.side.link with
        | none =>
          right
          intro y hy
          cases stage with
          | unseen talk due here there => exact renewed.waiting y hy (there y hy).1
          | offered talk due here => rw [hlink] at here; cases here
          | answered talk due here => rw [hlink] at here; cases here
          | settled talk due here => rw [hlink] at here; cases here
        | some x =>
          left
          obtain ⟨said, hsaid⟩ : ∃ said, out.filter Signal.negotiates = said := ⟨_, rfl⟩
          have fitting := filter_fits fits reacts
          rw [hsaid] at reacts fitting
          generalize h.side = s' at reacts
          cases reacts with
          | @rotated p k smaller held has =>
            refine ⟨p.nextSdp ends.rtc none, List.mem_append_right _ ?_⟩
            exact List.mem_of_mem_filter (by rw [fitting]; exact List.mem_singleton_self _)
          | unrotated h =>
            rcases h with h | h
            · simp [Side.link, h] at hlink
            · cases h
    · rw [if_neg hcue, Nat.add_zero] at turn
      refine ⟨?_, ?_, renewed.waiting, renewed.counts.1.trans reacts.serial_le, renewed.counts.2⟩
      · refine renewed.lo.imp (fun h => turn ▸ h) fun old x' hx' => ?_
        rcases age hx' with h | ⟨-, x, hx, hpc⟩
        · exact h
        · rw [hpc]
          exact old x hx
      · refine renewed.hi.imp (fun h => turn ▸ h) (Or.imp_left ?_)
        rintro ⟨off, hm⟩
        exact ⟨off, List.mem_append_left _ hm⟩
  | @hi cue out up h hears =>
    have reacts := hears.reacts
    have age : ∀ {y'}, h.side.link = some y' → m ≤ y'.pc.serial ∨ ∃ y, P.hi.side.link = some y ∧ y'.pc = y.pc ∧
        (y'.remoteSet = false → y.remoteSet = false) ∧ ∀ sdp, cue = .signal (.offer sdp) → y.remoteSet = false := by
      intro y' hy'
      rcases reacts.link_cases hy' with hpc | ⟨y, hy, hpc, hset, -, hoffer⟩
      · exact .inl (by rw [hpc, (serials _).2]; exact renewed.counts.2)
      · exact .inr ⟨y, hy, hpc, hset, hoffer⟩
    refine ⟨renewed.lo, renewed.hi.imp_right ?_, fun y' hy' unset => ?_, renewed.counts.1,
      renewed.counts.2.trans reacts.serial_le⟩
    · rintro (⟨off, hm⟩ | old)
      · rw [hears.lane, List.mem_append] at hm
        refine hm.symm.imp (fun hm => ⟨off, hm⟩) fun hm y' hy' => ?_
        -- The offer is what it takes now.
        have taken : cue = .signal (.offer off) := by
          cases cue <;> simp_all [Cue.signal?]
        rcases age hy' with h | ⟨y, hy, hpc, -, hoffer⟩
        · exact h
        · rw [hpc]
          exact renewed.waiting y hy (hoffer off taken)
      · refine .inr fun y' hy' => ?_
        rcases age hy' with h | ⟨y, hy, hpc, -⟩
        · exact h
        · rw [hpc]
          exact old y hy
    · rcases age hy' with h | ⟨y, hy, hpc, hset, -⟩
      · exact h
      · rw [hpc]
        exact renewed.waiting y hy (hset unset)

end

end Pair

end SquadLink

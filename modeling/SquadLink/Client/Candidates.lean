import SquadLink.Client.Pair
import SquadLink.Lib.Lts

/-! The candidates that the two clients of a pair tell each other. An end is an ear for the other's
    candidates, and the signals on their way to it are a run of that ear. As long as candidates come in
    time the run is possible, which means that none of them goes to a PeerConn that is not negotiated with
    its reporter, and it ends with all that the reporter has reported. -/

namespace SquadLink

def Signal.cand? : Signal → Option Candidate
  | ice cand => some cand
  | _ => none

/-- The candidates among the signals. -/
def cands (sigs : List Signal) : List Candidate := sigs.filterMap Signal.cand?

/-- What a PeerConn has of the other end: the PeerConnection that it is negotiated with, and the candidates
    that it has added, or queued as long as there is none. -/
structure Ear where
  peer : Option PcId
  got : List Candidate

namespace Ear

/-- The ear of an end without PeerConn, or with a new one. -/
def fresh : Ear := ⟨none, []⟩

/-- The queued candidates go to the PeerConn that the description is from. -/
def settle (ear : Ear) (sdp : Sdp) : Option Ear :=
  if ∀ c ∈ ear.got, c.pc = sdp.id.pc then some ⟨some sdp.id.pc, ear.got⟩ else none

/-- What a signal makes of the ear, unless it is out of time. -/
def hear (rtc : Webrtc) (ear : Ear) : Signal → Option Ear
  | .offer sdp => if ear.peer.isSome then some ⟨some sdp.id.pc, []⟩ else ear.settle sdp
  | .answer sdp => if ear.peer.isSome then none else ear.settle sdp
  | .ice cand =>
    if rtc.parsesIce cand.text = true ∧ ∀ pc ∈ ear.peer, cand.pc = pc then
      some { ear with got := ear.got ++ [cand] }
    else none

/-- Every candidate can be parsed, and is from the PeerConnection that the ear is negotiated with. -/
def Sound (rtc : Webrtc) (ear : Ear) : Prop := ∀ c ∈ ear.got, rtc.parsesIce c.text = true ∧ ∀ pc ∈ ear.peer, c.pc = pc

section
variable {rtc : Webrtc} {ear ear' : Ear} {sig : Signal} {sigs out : List Signal} {sdp : Sdp}

theorem sound_fresh : Sound rtc fresh := by simp [Sound, fresh]

theorem sound_settle (sound : ear.Sound rtc) (h : ear.settle sdp = some ear') : ear'.Sound rtc := by
  obtain ⟨own, h⟩ := Option.ite_none_right_eq_some.mp h
  cases h
  exact fun c hc => ⟨(sound c hc).1, fun pc hpc => Option.some.inj hpc ▸ own c hc⟩

theorem sound_hear (sound : ear.Sound rtc) (h : ear.hear rtc sig = some ear') : ear'.Sound rtc := by
  cases sig with
  | offer sdp =>
    simp only [hear] at h
    split at h
    · cases h
      simp [Sound]
    · exact sound_settle sound h
  | answer sdp =>
    simp only [hear] at h
    split at h
    · cases h
    · exact sound_settle sound h
  | ice cand =>
    obtain ⟨new, h⟩ := Option.ite_none_right_eq_some.mp h
    cases h
    intro c hc
    rcases List.mem_append.mp hc with hc | hc
    · exact sound c hc
    · rw [List.mem_singleton.mp hc]
      exact new

/-- Candidates of the PeerConnection that the ear is negotiated with, if it is negotiated. -/
theorem exec_cands (timely : ∀ sig ∈ out, ∃ c, sig = .ice c ∧ rtc.parsesIce c.text = true ∧ ∀ pc ∈ ear.peer, c.pc = pc) :
    Lts.exec (hear rtc) ear out = some { ear with got := ear.got ++ cands out } := by
  induction out generalizing ear with
  | nil => simp [Lts.exec, cands]
  | cons sig out ih =>
    obtain ⟨c, rfl, new⟩ := timely sig List.mem_cons_self
    have first : ear.hear rtc (.ice c) = some { ear with got := ear.got ++ [c] } := if_pos new
    have later := @ih { ear with got := ear.got ++ [c] } fun sig hm => timely sig (List.mem_cons_of_mem _ hm)
    rw [Lts.exec, first, Option.bind_some, later]
    simp [cands, Signal.cand?]

/-- A description with candidates of its PeerConnection before and after it, on a fresh ear. -/
theorem exec_opening (single : out.filter Signal.negotiates = [sig]) (desc : sig = .offer sdp ∨ sig = .answer sdp)
    (timely : ∀ c, .ice c ∈ out → rtc.parsesIce c.text = true ∧ c.pc = sdp.id.pc) :
    Lts.exec (hear rtc) fresh out = some ⟨some sdp.id.pc, cands out⟩ := by
  obtain ⟨before, after, rfl, hbefore, -, hafter⟩ := List.filter_eq_cons_iff.mp single
  have ice : ∀ {sigs : List Signal}, (∀ sig ∈ sigs, ¬ sig.negotiates = true) → ∀ sig ∈ sigs, ∃ c, sig = .ice c := by
    intro sigs h sig hm
    cases sig with
    | ice c => exact ⟨c, rfl⟩
    | offer sdp => exact absurd rfl (h _ hm)
    | answer sdp => exact absurd rfl (h _ hm)
  have first : Lts.exec (hear rtc) fresh before = some ⟨none, cands before⟩ := exec_cands fun sig hm => by
    obtain ⟨c, rfl⟩ := ice hbefore sig hm
    exact ⟨c, rfl, (timely c (List.mem_append_left _ hm)).1, by simp [fresh]⟩
  have own : ∀ c ∈ cands before, c.pc = sdp.id.pc := by
    intro c hc
    obtain ⟨sig', hm, hsig⟩ := List.mem_filterMap.mp hc
    obtain ⟨c', rfl⟩ := ice hbefore sig' hm
    cases hsig
    exact (timely _ (List.mem_append_left _ hm)).2
  have second : hear rtc ⟨none, cands before⟩ sig = some ⟨some sdp.id.pc, cands before⟩ := by
    rcases desc with rfl | rfl <;> exact if_pos own
  have third : Lts.exec (hear rtc) ⟨some sdp.id.pc, cands before⟩ after =
      some ⟨some sdp.id.pc, cands before ++ cands after⟩ := by
    refine exec_cands fun sig' hm => ?_
    obtain ⟨c, rfl⟩ := ice (List.filter_eq_nil_iff.mp hafter) sig' hm
    have := timely c (List.mem_append_right _ (List.mem_cons_of_mem _ hm))
    exact ⟨c, rfl, this.1, fun pc hpc => Option.some.inj hpc ▸ this.2⟩
  rw [Lts.exec_append, first, Option.bind_some, Lts.exec, second, Option.bind_some, third]
  have silent : sig.cand? = none := by rcases desc with rfl | rfl <;> rfl
  simp [cands, silent]

end

end Ear

/-! ### The ear of an end -/

namespace PeerConn

def ear (p : PeerConn) : Ear := if p.remoteSet then ⟨p.remotes.getLast?.map (·.id.pc), p.added⟩ else ⟨none, p.pendingIce⟩

/-- A negotiated PeerConn queues nothing, and another one has added nothing. -/
def Tidy (p : PeerConn) : Prop :=
  (p.remoteSet = true → p.remotes ≠ [] ∧ p.pendingIce = []) ∧ (p.remoteSet = false → p.added = [])

section
variable {rtc : Webrtc} {p : PeerConn} {r : Ear} {sdp : Sdp} {cand : Candidate}

theorem ear_unset (h : p.remoteSet = false) : p.ear = ⟨none, p.pendingIce⟩ := by simp [PeerConn.ear, h]

theorem ear_set (h : p.remoteSet = true) : p.ear = ⟨p.remotes.getLast?.map (·.id.pc), p.added⟩ := by simp [PeerConn.ear, h]

theorem Tidy.peer (tidy : p.Tidy) : p.ear.peer.isSome = p.remoteSet := by
  cases hset : p.remoteSet with
  | false => simp [ear_unset hset]
  | true => simp [ear_set hset, List.getLast?_isSome, (tidy.1 hset).1]

theorem IsNew.tidy {pc : PcId} (new : p.IsNew pc) : p.Tidy :=
  ⟨fun h => absurd (new.remoteSet.symm.trans h) (by simp), fun _ => new.added⟩

theorem IsNew.ear {pc : PcId} (new : p.IsNew pc) : p.ear = .fresh := by
  rw [ear_unset new.remoteSet, new.pendingIce]
  rfl

theorem ear_addOrQueueIce (tidy : p.Tidy) (h : p.ear.hear rtc (.ice cand) = some r) :
    (p.addOrQueueIce rtc cand).ear = r ∧ (p.addOrQueueIce rtc cand).Tidy := by
  obtain ⟨⟨parses, -⟩, h⟩ := Option.ite_none_right_eq_some.mp h
  cases h
  unfold addOrQueueIce
  cases hset : p.remoteSet with
  | false =>
    rw [if_neg (by simp)]
    exact ⟨by simp [PeerConn.ear, hset], by simp [Tidy, tidy.2 hset]⟩
  | true =>
    simp only [if_true, addIceCandidate, parses]
    exact ⟨by simp [PeerConn.ear, hset], by simp [Tidy, hset, tidy.1 hset]⟩

theorem foldl_addIceCandidate_of_parses {cands : List Candidate} (parse : ∀ c ∈ cands, rtc.parsesIce c.text = true)
    (p : PeerConn) :
    cands.foldl (addIceCandidate rtc) p = { p with added := p.added ++ cands } := by
  induction cands generalizing p with
  | nil => simp
  | cons c cands ih =>
    rw [List.foldl_cons, ih fun c hc => parse c (List.mem_cons_of_mem _ hc)]
    simp [addIceCandidate, parse c List.mem_cons_self]

/-- Taking a description settles the queued candidates. -/
theorem ear_concluded (tidy : p.Tidy) (sound : p.ear.Sound rtc) (unset : p.remoteSet = false)
    (h : p.ear.settle sdp = some r) :
    (p.concluded rtc sdp).ear = r ∧ (p.concluded rtc sdp).Tidy := by
  rw [ear_unset unset] at h sound
  obtain ⟨-, h⟩ := Option.ite_none_right_eq_some.mp h
  cases h
  have flushed : p.concluded rtc sdp =
      { p.setRemote sdp with remoteSet := true, pendingIce := [], added := p.pendingIce } := by
    simp only [concluded, flushIce, setRemote]
    rw [foldl_addIceCandidate_of_parses fun c hc => (sound c hc).1]
    simp [tidy.2 unset]
  rw [flushed]
  exact ⟨by simp [PeerConn.ear, setRemote], by simp [Tidy, setRemote]⟩

end

end PeerConn

namespace Side

def ear (s : Side) : Ear := (s.conn.map PeerConn.ear).getD .fresh

def Tidy (s : Side) : Prop := ∀ p, s.conn = some p → p.Tidy

section
variable {rtc : Webrtc} {offers : Bool} {pc : Nat → PcId} {s s' : Side} {cue : Cue} {said : List Signal} {r : Ear}

theorem ear_some {p : PeerConn} (h : s.conn = some p) : s.ear = p.ear := by simp [Side.ear, h]

theorem ear_none (h : s.conn = none) : s.ear = .fresh := by simp [Side.ear, h]

/-- A reaction makes of the ear what the signal makes of it. A candidate or an answer needs a PeerConn, and
    no rotation may replace the PeerConn. -/
theorem Reacts.ear (reacts : s.Reacts rtc offers pc cue s' said) (stays : cue ≠ .left) (still : cue = .rekey → said = [])
    (known : ∀ sig, cue = .signal sig → (∀ off, sig ≠ .offer off) → s.conn.isSome) (tidy : s.Tidy) (sound : s.ear.Sound rtc)
    (h : Lts.exec (Ear.hear rtc) s.ear cue.signal?.toList = some r) : s'.ear = r ∧ s'.Tidy := by
  -- The PeerConn that a sighting finds or makes.
  have seen : ∀ {p n} {f : PeerConn → PeerConn}, s.Has pc p n → (∀ p : PeerConn, (f p).ear = p.ear) →
      (∀ p : PeerConn, p.Tidy → (f p).Tidy) →
      s.ear = r → Side.ear ⟨some (f p), n⟩ = r ∧ Side.Tidy ⟨some (f p), n⟩ := by
    intro p n f has hear htidy hs
    cases has with
    | held hp =>
      refine ⟨?_, fun p' hp' => ?_⟩
      · rw [← hs, ear_some hp]
        exact hear p
      · cases hp'
        exact htidy p (tidy p hp)
    | new hnone new =>
      refine ⟨?_, fun p' hp' => ?_⟩
      · rw [← hs, ear_none hnone, ← new.ear]
        exact hear p
      · cases hp'
        exact htidy p new.tidy
  cases reacts with
  | @offered p n smaller has => exact seen has (fun _ => rfl) (fun _ h => h) (Option.some.inj h)
  | @waits p n larger has => exact seen (f := id) has (fun _ => rfl) (fun _ h => h) (Option.some.inj h)
  | left => exact absurd rfl stays
  | rotated => exact absurd (still rfl) (by simp)
  | unrotated => exact ⟨Option.some.inj h, tidy⟩
  | @answered sdp p n has =>
    obtain ⟨ear', hear, h⟩ := Option.bind_eq_some_iff.mp h
    cases h
    simp only [Ear.hear] at hear
    have created : ∀ {p : PeerConn}, p.ear = r → p.Tidy → Side.ear ⟨some p.created, n⟩ = r ∧
        Side.Tidy ⟨some p.created, n⟩ :=
      fun hear htidy => ⟨hear, fun p' hp' => by cases hp'; exact htidy⟩
    cases has with
    | held hp =>
      obtain ⟨hp, unset⟩ := vacated_eq_some hp
      rw [ear_some hp] at hear sound
      rw [(tidy p hp).peer, unset] at hear
      obtain ⟨hear, htidy⟩ := PeerConn.ear_concluded (tidy p hp) sound unset hear
      exact created hear htidy
    | new hnone new =>
      have settled : Ear.settle p.ear sdp = some ⟨some sdp.id.pc, []⟩ := by simp [new.ear, Ear.settle, Ear.fresh]
      have hear' : r = ⟨some sdp.id.pc, []⟩ := by
        cases hc : s.conn with
        | none =>
          rw [ear_none hc, ← new.ear, settled, new.ear] at hear
          simpa [Ear.fresh] using hear.symm
        | some q =>
          have hset : q.remoteSet = true := by
            have := Option.filter_eq_none_iff.mp hnone q hc
            simpa using this
          rw [ear_some hc, (tidy q hc).peer, hset] at hear
          simpa using hear.symm
      have quiet : p.ear.Sound rtc := new.ear ▸ Ear.sound_fresh
      obtain ⟨hear, htidy⟩ := PeerConn.ear_concluded new.tidy quiet new.remoteSet settled
      rw [← hear'] at hear
      exact created hear htidy
  | concluded sdp =>
    obtain ⟨ear', hear, h⟩ := Option.bind_eq_some_iff.mp h
    cases h
    obtain ⟨p, hp⟩ := Option.isSome_iff_exists.mp (known _ rfl (by simp))
    rw [ear_some hp] at hear sound
    simp only [Ear.hear, (tidy p hp).peer] at hear
    cases hset : p.remoteSet with
    | true => simp [hset] at hear
    | false =>
      rw [hset] at hear
      obtain ⟨hear, htidy⟩ := PeerConn.ear_concluded (tidy p hp) sound hset hear
      have hc : (s.changed (·.concluded rtc sdp)).conn = some (p.concluded rtc sdp) := by simp [changed, hp]
      refine ⟨(ear_some hc).trans hear, fun p' hp' => ?_⟩
      cases hc.symm.trans hp'
      exact htidy
  | ice cand =>
    obtain ⟨ear', hear, h⟩ := Option.bind_eq_some_iff.mp h
    cases h
    obtain ⟨p, hp⟩ := Option.isSome_iff_exists.mp (known _ rfl (by simp))
    rw [ear_some hp] at hear
    obtain ⟨hear, htidy⟩ := PeerConn.ear_addOrQueueIce (tidy p hp) hear
    have hc : (s.changed (·.addOrQueueIce rtc cand)).conn = some (p.addOrQueueIce rtc cand) := by simp [changed, hp]
    refine ⟨(ear_some hc).trans hear, fun p' hp' => ?_⟩
    cases hc.symm.trans hp'
    exact htidy
  | other => exact ⟨Option.some.inj h, tidy⟩
  | chats =>
    refine ⟨?_, fun p' hp' => ?_⟩
    · refine Eq.trans ?_ (Option.some.inj h)
      simp only [Side.ear, changed, Option.map_map]
      rfl
    · obtain ⟨p, hp, rfl⟩ := Option.map_eq_some_iff.mp hp'
      exact tidy p hp

end

end Side

/-! ### What the ends have told each other -/

namespace Half

/-- The candidates of one PeerConnection that the end has told. -/
def reported (h : Half) (pc : PcId) : List Candidate := (cands h.said).filter fun c => decide (c.pc = pc)

/-- What the other end has heard of the PeerConnection of a description once nothing is on its way. -/
def told (h : Half) : Option Sdp → Ear
  | some sdp => ⟨some sdp.id.pc, h.reported sdp.id.pc⟩
  | none => .fresh

/-- The PeerConn held and the candidates told are of PeerConnections that the end has made. -/
structure Own (pc : Nat → PcId) (h : Half) : Prop where
  held : ∀ p, h.side.conn = some p → ∃ n < h.side.serial, p.pc = pc n
  told : ∀ c ∈ cands h.said, ∃ n < h.side.serial, c.pc = pc n

/-- The candidates told are of the PeerConn held, which has a local description, and can be relayed and
    parsed; and a candidate is only taken with a PeerConn. -/
structure Timely (rtc : Webrtc) (cue : Cue) (out : List Signal) (h h' : Half) : Prop where
  current : ∀ c ∈ cands out, ∃ p, h'.side.conn = some p ∧ c.pc = p.pc ∧ 0 < p.descs
  sound : ∀ c ∈ cands out, (Signal.ice c).fits = true ∧ rtc.parsesIce c.text = true
  known : ∀ c, cue = .signal (.ice c) → h.side.conn.isSome

end Half

@[simp] theorem mem_cands {c : Candidate} {sigs : List Signal} : c ∈ cands sigs ↔ .ice c ∈ sigs := by
  simp only [cands, List.mem_filterMap]
  constructor
  · rintro ⟨sig, hm, hc⟩
    cases sig <;> cases hc
    exact hm
  · exact fun h => ⟨.ice c, h, rfl⟩

@[simp] theorem cands_append (sigs sigs' : List Signal) : cands (sigs ++ sigs') = cands sigs ++ cands sigs' :=
  List.filterMap_append

/-- Signals without negotiation are candidates. -/
theorem ice_of_quiet {sigs : List Signal} (quiet : sigs.filter Signal.negotiates = []) {sig : Signal} (hm : sig ∈ sigs) :
    ∃ c, sig = .ice c := by
  have := List.filter_eq_nil_iff.mp quiet sig hm
  cases sig with
  | ice c => exact ⟨c, rfl⟩
  | _ => exact absurd rfl this

theorem eq_nil_of_quiet {sigs : List Signal} (quiet : sigs.filter Signal.negotiates = []) (none : cands sigs = []) :
    sigs = [] := by
  refine List.eq_nil_iff_forall_not_mem.mpr fun sig hm => ?_
  obtain ⟨c, rfl⟩ := ice_of_quiet quiet hm
  have := mem_cands.mpr hm
  rw [none] at this
  cases this

namespace Half

section
variable {rtc : Webrtc} {offers : Bool} {pc : Nat → PcId} {h h' : Half} {inc inc' out : List Signal} {cue : Cue} {sdp : Sdp}

theorem reported_append (hsaid : h'.said = h.said ++ out) (pc : PcId) :
    h'.reported pc = h.reported pc ++ (cands out).filter fun c => decide (c.pc = pc) := by
  simp only [reported, hsaid, cands_append, List.filter_append]

/-- Candidates of the PeerConnection of the description. -/
theorem told_of_own (hsaid : h'.said = h.said ++ out) (own : ∀ c ∈ cands out, c.pc = sdp.id.pc) :
    h'.told (some sdp) = ⟨some sdp.id.pc, h.reported sdp.id.pc ++ cands out⟩ := by
  rw [told, reported_append hsaid, List.filter_eq_self.mpr fun c hc => decide_eq_true (own c hc)]

theorem told_silent (hsaid : h'.said = h.said ++ out) (silent : cands out = []) (d : Option Sdp) :
    h'.told d = h.told d := by
  cases d with
  | none => rfl
  | some sdp => rw [told, told, reported_append hsaid, silent, List.filter_nil, List.append_nil]

/-- Nothing has been told of a PeerConnection that is still to be made. -/
theorem Own.unreported (own : h.Own pc) (distinct : Function.Injective pc) : h.reported (pc h.side.serial) = [] := by
  refine List.filter_eq_nil_iff.mpr fun c hc => ?_
  obtain ⟨n, hn, hpc⟩ := own.told c hc
  rw [decide_eq_true_eq, hpc]
  exact fun he => Nat.ne_of_lt hn (distinct he)

/-- A PeerConn that is held or new is one of those made. -/
theorem Own.has {s : Side} {p : PeerConn} {n : Nat} (own : ∀ p, s.conn = some p → ∃ n < s.serial, p.pc = pc n)
    (has : s.Has pc p n) : ∃ k < n, p.pc = pc k := by
  cases has with
  | held hp => exact own p hp
  | new hnone new => exact ⟨s.serial, Nat.lt_succ_self _, new.pc⟩

theorem Own.changed {s : Side} {f : PeerConn → PeerConn} (own : ∀ p, s.conn = some p → ∃ n < s.serial, p.pc = pc n)
    (hf : ∀ p, (f p).pc = p.pc) : ∀ p, (s.changed f).conn = some p → ∃ n < s.serial, p.pc = pc n := by
  intro p' hp'
  obtain ⟨p, hp, rfl⟩ := Option.map_eq_some_iff.mp hp'
  rw [hf]
  exact own p hp

theorem Own.reacts {s s' : Side} {said : List Signal} (own : ∀ p, s.conn = some p → ∃ n < s.serial, p.pc = pc n)
    (reacts : s.Reacts rtc offers pc cue s' said) : ∀ p, s'.conn = some p → ∃ n < s'.serial, p.pc = pc n := by
  have one : ∀ {q : PeerConn} {k : PcId} {n}, (∃ m < n, k = pc m) → q.pc = k →
      ∀ p, some q = some p → ∃ m < n, p.pc = pc m := by
    rintro q k n h rfl p hp
    cases hp
    exact h
  cases reacts with
  | offered smaller has => exact one (Own.has own has) rfl
  | waits larger has => exact one (Own.has own has) rfl
  | left => exact fun p hp => nomatch hp
  | rotated smaller held has => exact one (Own.has (s := s.without) (fun p hp => nomatch hp) has) rfl
  | unrotated h => exact own
  | answered sdp has =>
    exact one (Own.has (s := s.vacated) (fun p hp => own p (Side.vacated_eq_some hp).1) has) (PeerConn.concluded_pc ..)
  | concluded sdp => exact Own.changed own fun p => p.concluded_pc rtc sdp
  | ice cand =>
    refine Own.changed own fun p => ?_
    obtain ⟨added, pendingIce, h⟩ := p.addOrQueueIce_eq rtc cand
    rw [h]
  | other => exact own
  | chats => exact Own.changed own fun _ => rfl

theorem Own.hears (own : h.Own pc) (hears : h.Hears rtc offers pc inc cue out h' inc') (timely : h.Timely rtc cue out h') :
    h'.Own pc := by
  have held := Own.reacts own.held hears.reacts
  refine ⟨held, fun c hc => ?_⟩
  rw [hears.said, cands_append, List.mem_append] at hc
  rcases hc with hc | hc
  · obtain ⟨n, hn, hpc⟩ := own.told c hc
    exact ⟨n, hn.trans_le hears.reacts.serial_le, hpc⟩
  · obtain ⟨p, hp, hpc, -⟩ := timely.current c hc
    rw [hpc]
    exact held p hp

end

end Half

end SquadLink

import SquadLink.Server.Queues

/-! The invariants of every run of the server. A listed handle belongs to a socket that is open and joined
    under that room and user id; a socket's identity is that of its one accepted Join, which had a valid
    token; and what is meant for a room is caused and received by sockets whose accepted Joins named it. -/

namespace SquadLink

namespace Event

/-- The socket whose Join the event records. -/
def joiner : Event → Option SocketId
  | accepted s _ _ _ => some s
  | placed _ _ _ => none

end Event

namespace Server

section
variable {cfg : ServerConfig} {st st' : Server} {a : SAct}

/-- Sockets that were never opened have no record. -/
def Fresh (st : Server) : Prop := ∀ s, st.nextSocket ≤ s → st.conns s = none

theorem Fresh.ne (fresh : st.Fresh) {t : SocketId} (h : (st.conns t).isSome) : t ≠ st.nextSocket := by
  rintro rfl
  rw [fresh _ (Nat.le_refl _)] at h
  cases h

/-- What a step keeps of the sockets that exist: none disappears, and none opens again. -/
structure ConnsKept (st st' : Server) : Prop where
  kept : ∀ t, (st.conns t).isSome → (st'.conns t).isSome
  opened : ∀ t, t ≠ st.nextSocket → st'.IsOpen t → st.IsOpen t
  fresh : st'.Fresh

theorem ConnsKept.of_map (fresh : st.Fresh) (hn : st'.nextSocket = st.nextSocket) {f : SocketId → Conn → Conn}
    (hf : ∀ t, st'.conns t = (st.conns t).map (f t))
    (hp : ∀ t c, st.conns t = some c → (f t c).phase = c.phase ∨ c.phase ≠ .ended) : ConnsKept st st' where
  kept t h := by rw [hf, Option.isSome_map]; exact h
  opened t h := by
    rintro ⟨c', hc', hp'⟩
    rw [hf, Option.map_eq_some_iff] at hc'
    obtain ⟨c, hc, rfl⟩ := hc'
    exact ⟨c, hc, (hp t c hc).elim (fun h => h ▸ hp') id⟩
  fresh s hs := by rw [hf, fresh s (hn ▸ hs)]; rfl

/-- A record of socket `s` changes; every record keeps its phase, or that of `s` was not `ended`. -/
theorem ConnsKept.of_modify (fresh : st.Fresh) {s : SocketId} {f : Conn → Conn}
    (hf : ∀ c, st.conns s = some c → (f c).phase = c.phase ∨ c.phase ≠ .ended) : ConnsKept st (st.modifyConn s f) := by
  refine .of_map fresh rfl (f := fun t c => if t = s then f c else c) (fun t => ?_) (fun t c hc => ?_)
  · rw [modifyConn_conns]
    by_cases h : t = s
    · subst h; simp
    · simp [h]
  · by_cases h : t = s
    · subst h; simpa using hf c hc
    · simp [h]

theorem cleanup_nextSocket (s : SocketId) (me : Option (String × String)) :
    (st.cleanup s me).nextSocket = st.nextSocket := by
  unfold cleanup
  split
  · rfl
  · split
    · rfl
    · simp [finish]

theorem handleFrame_nextSocket (s : SocketId) (me : Option (String × String)) (f : Frame) :
    (st.handleFrame cfg s me f).nextSocket = st.nextSocket := by
  cases f with
  | close => exact cleanup_nextSocket s me
  | other => rfl
  | badText err => simp [handleFrame]
  | text msg =>
    cases msg with
    | join room userId name token =>
      simp only [handleFrame, handleMsg, join]
      split
      · simp
      · split
        · simp [finish]
        · split
          · simp [finish]
          · split
            · simp [finish]
            · simp [enroll]
    | offer dest sdp => simp only [handleFrame, handleMsg]; split <;> simp [relayTo_eq]
    | answer dest sdp => simp only [handleFrame, handleMsg]; split <;> simp [relayTo_eq]
    | ice dest candidate => simp only [handleFrame, handleMsg]; split <;> simp [relayTo_eq]
    | ptt active => rcases me with _ | ⟨room, sender⟩ <;> simp [handleFrame, handleMsg, ptt, toRoom_eq]
    | rekey => rcases me with _ | ⟨room, sender⟩ <;> simp [handleFrame, handleMsg, rekey, toRoom_eq]
    | leave => exact cleanup_nextSocket s me

theorem step_connsKept (fresh : st.Fresh) (hs : step cfg st a = some st') : ConnsKept st st' := by
  cases a with
  | accept =>
    cases Option.some.inj hs
    refine ⟨fun t ht => ?_, fun t ht => ?_, fun s hs => ?_⟩
    · simp only [Function.update_of_ne (fresh.ne ht)]
      exact ht
    · rintro ⟨c, hc, hp⟩
      simp only [Function.update_of_ne ht] at hc
      exact ⟨c, hc, hp⟩
    · have hs' : st.nextSocket < s := hs
      simp only [Function.update_of_ne (Nat.ne_of_gt hs')]
      exact fresh s (Nat.le_of_lt hs')
  | frame s f =>
    obtain ⟨c, hc, hr, rfl⟩ := step_frame_inv hs
    refine .of_map fresh (handleFrame_nextSocket s c.me f) (handleFrame_conns hc hr f) fun t c' hc' => ?_
    by_cases ht : t = s
    · subst ht
      cases hc.symm.trans hc'
      exact Or.inr (by rw [hr]; exact Phase.noConfusion)
    · simp [ht]
  | finishJoin s now =>
    obtain ⟨c, room, userId, roster, hc, hp, rfl⟩ := step_finishJoin_inv hs
    refine .of_map fresh (by simp [finishJoin]) (finishJoin_conns now room userId roster) fun t c' hc' => ?_
    by_cases ht : t = s
    · subst ht
      cases hc.symm.trans hc'
      exact Or.inr (by rw [hp]; exact Phase.noConfusion)
    · simp [ht]
  | close s =>
    obtain ⟨c, hc, hr, rfl⟩ := step_close_inv hs
    refine .of_map fresh (cleanup_nextSocket s c.me) (cleanup_conns c.me) fun t c' hc' => ?_
    by_cases ht : t = s
    · subst ht
      cases hc.symm.trans hc'
      exact Or.inr (by rw [hr]; exact Phase.noConfusion)
    · simp [ht]
  | write s =>
    obtain ⟨c, -, -, rfl⟩ := step_write_inv hs
    exact .of_modify fresh fun _ _ => Or.inl rfl
  | writeFail s =>
    obtain ⟨c, -, -, rfl⟩ := step_writeFail_inv hs
    exact .of_modify fresh fun _ _ => Or.inl rfl
  | abort s =>
    obtain ⟨c, -, -, rfl⟩ := step_abort_inv hs
    exact .of_modify fresh fun _ _ => Or.inl rfl
  | rehash room r =>
    obtain ⟨r₀, -, -, rfl⟩ := step_rehash_inv hs
    exact .of_map fresh rfl (f := fun _ c => c) (fun t => by simp) fun _ _ _ => Or.inl rfl
  | restart =>
    cases Option.some.inj hs
    refine ⟨fun t ht => by simpa using ht, fun t ht => ?_, fun s hs => by simp [fresh s hs]⟩
    rintro ⟨c, hc, hp⟩
    simp only [Option.map_eq_some_iff] at hc
    obtain ⟨c₀, -, rfl⟩ := hc
    exact absurd rfl hp

theorem step_nextSocket (hs : step cfg st a = some st') (ha : a ≠ .accept) : st'.nextSocket = st.nextSocket := by
  cases a with
  | accept => exact absurd rfl ha
  | frame s f =>
    obtain ⟨c, -, -, rfl⟩ := step_frame_inv hs
    exact handleFrame_nextSocket s c.me f
  | finishJoin s now =>
    obtain ⟨c, room, userId, roster, -, -, rfl⟩ := step_finishJoin_inv hs
    simp [finishJoin]
  | close s =>
    obtain ⟨c, -, -, rfl⟩ := step_close_inv hs
    exact cleanup_nextSocket s c.me
  | write s => obtain ⟨c, -, -, rfl⟩ := step_write_inv hs; rfl
  | writeFail s => obtain ⟨c, -, -, rfl⟩ := step_writeFail_inv hs; rfl
  | abort s => obtain ⟨c, -, -, rfl⟩ := step_abort_inv hs; rfl
  | rehash room r => obtain ⟨r₀, -, -, rfl⟩ := step_rehash_inv hs; rfl
  | restart => cases Option.some.inj hs; rfl

/-- No other step opens a socket. -/
theorem isOpen_of_step (fresh : st.Fresh) (hs : step cfg st a = some st') (ha : a ≠ .accept) (t : SocketId)
    (h : st'.IsOpen t) : st.IsOpen t := by
  have kept := step_connsKept fresh hs
  refine kept.opened t ?_ h
  rintro rfl
  obtain ⟨c, hc, -⟩ := h
  rw [kept.fresh _ (Nat.le_of_eq (step_nextSocket hs ha))] at hc
  cases hc

theorem isOpen_of_ident {s : SocketId} {p : String × String} (h : st.ident s = some p) : st.IsOpen s := by
  obtain ⟨c, hc, hi⟩ := Option.bind_eq_some_iff.mp h
  refine ⟨c, hc, fun hp => ?_⟩
  simp [Conn.ident, hp] at hi

/-! ### Registration -/

/-- What every state of a run says of identities, handles and accepted Joins. -/
structure Inv (cfg : ServerConfig) (st : Server) : Prop where
  fresh : st.Fresh
  listed : ∀ room u h, st.handle? room u = some h → st.ident h.tx = some (room, u)
  joined : ∀ s room u, st.ident s = some (room, u) → ∃ token, .accepted s room u token ∈ st.history
  accepted : ∀ s room u token, .accepted s room u token ∈ st.history →
    (st.conns s).isSome ∧ cfg.auth.check cfg.prim room token = true ∧ (∃ name, joinOutOfBounds room u name token = false) ∧
      (st.IsOpen s → st.ident s = some (room, u))
  joiners : st.history.Pairwise fun e e' => ∀ s, e.joiner = some s → e'.joiner ≠ some s
  roomBound : ∀ pre post cause dest msg, st.history = pre ++ .placed cause dest msg :: post → msg.roomBound = true →
    ∃ room u token u' token', .accepted cause room u token ∈ pre ∧ .accepted dest room u' token' ∈ pre ∧
      ∀ x, msg.stamp = some x → x = u

theorem Inv.unique (inv : Inv cfg st) {s : SocketId} {room u room' u' : String} {token token' : Option String}
    (h : .accepted s room u token ∈ st.history) (h' : .accepted s room' u' token' ∈ st.history) :
    room = room' ∧ u = u' := by
  by_contra hne
  have hev : Event.accepted s room u token ≠ .accepted s room' u' token' := fun he => by
    injection he with _ h₁ h₂
    exact hne ⟨h₁, h₂⟩
  have : Std.Symm fun e e' : Event => ∀ s, e.joiner = some s → e'.joiner ≠ some s :=
    ⟨fun e e' hee s he' he => hee s he he'⟩
  exact inv.joiners.forall h h' hev s rfl rfl

/-- The sockets that a Join's messages which are for the room go to: the joiner and the listed members. -/
theorem mem_joinSends {s dest : SocketId} {room userId name : String} {msg : ServerMsg}
    (hm : (dest, msg) ∈ joinSends (st.roomOf room) s userId name) (hb : msg.roomBound = true) :
    (dest = s ∨ ∃ id h, st.handle? room id = some h ∧ h.tx = dest) ∧ (∀ x, msg.stamp = some x → x = userId) ∧
      msg.onBehalf = false ∧ ∀ x, msg ≠ .peerLeft x := by
  -- An entry of the new room is the joiner's or one that was listed before.
  have listed : ∀ id h, (((st.roomOf room).erase userId).insert userId { name, tx := s }).lookup id = some h →
      h.tx = s ∨ st.handle? room id = some h := by
    intro id h hlook
    by_cases hid : id = userId
    · subst hid
      rw [AList.lookup_insert, Option.some.injEq] at hlook
      exact Or.inl (hlook ▸ rfl)
    · rw [AList.lookup_insert_ne hid, AList.lookup_erase_ne hid, roomOf_lookup] at hlook
      exact Or.inr hlook
  simp only [joinSends, List.mem_append] at hm
  rcases hm with (hm | hm) | hm
  · simp only [Option.mem_toList, Option.map_eq_some_iff, Prod.mk.injEq] at hm
    obtain ⟨_, -, -, rfl⟩ := hm
    cases hb
  · obtain ⟨id, h, hlook, rfl, hg⟩ := Fifo.mem_broadcast.mp hm
    simp only [ne_eq, ite_not, Option.ite_none_left_eq_some, Option.some.injEq] at hg
    obtain ⟨-, rfl⟩ := hg
    exact ⟨(listed id h hlook).imp_right fun hh => ⟨id, h, hh, rfl⟩, fun x hx => (Option.some.inj hx).symm, rfl,
      fun _ => ServerMsg.noConfusion⟩
  · split at hm
    · obtain ⟨id, h, hlook, rfl, hg⟩ := Fifo.mem_broadcast.mp hm
      cases Option.some.inj hg
      refine ⟨(listed id h hlook).imp_right fun hh => ⟨id, h, hh, rfl⟩, fun x hx => ?_, rfl,
        fun _ => ServerMsg.noConfusion⟩
      cases hx
    · cases hm

/-- Events that record no Join keep the joiners distinct. -/
theorem Inv.joiners_append (inv : Inv cfg st) {evs : List Event} (hevs : ∀ ev ∈ evs, ev.joiner = none) :
    (st.history ++ evs).Pairwise fun e e' => ∀ s, e.joiner = some s → e'.joiner ≠ some s := by
  refine List.pairwise_append.mpr ⟨inv.joiners, ?_, fun e _ e' he' s _ h => ?_⟩
  · exact List.pairwise_of_forall_mem_list fun e _ e' he' s _ h => by rw [hevs e' he'] at h; cases h
  · rw [hevs e' he'] at h; cases h

theorem inv_step (inv : Inv cfg st) (hs : step cfg st a = some st') : Inv cfg st' := by
  have kept := step_connsKept inv.fresh hs
  obtain ⟨evs, hist, change⟩ := step_change (inv.fresh _ (Nat.le_refl _)) hs
  -- The sockets a message of an existing member goes to have accepted Joins in that room.
  have receiver : ∀ {room id h}, st.handle? room id = some h → ∃ token, .accepted h.tx room id token ∈ st.history :=
    fun hh => inv.joined _ _ _ (inv.listed _ _ _ hh)
  cases change with
  | same handles idents placed =>
    have none_joins : ∀ ev ∈ evs, ev.joiner = none := fun ev hev => by
      obtain ⟨_, _, _, rfl, -⟩ := placed ev hev
      rfl
    have old : ∀ {s room u token}, .accepted s room u token ∈ st'.history → .accepted s room u token ∈ st.history := by
      intro s room u token h
      rw [hist, List.mem_append] at h
      rcases h with h | h
      · exact h
      · have := none_joins _ h
        cases this
    refine ⟨kept.fresh, fun room u h hh => ?_, fun s room u hi => ?_, fun s room u token h => ?_, ?_, ?_⟩
    · rw [idents]
      exact inv.listed room u h (handles room u ▸ hh)
    · obtain ⟨token, h⟩ := inv.joined s room u (idents s ▸ hi)
      exact ⟨token, by rw [hist]; exact List.mem_append_left _ h⟩
    · obtain ⟨h₁, h₂, h₃, h₄⟩ := inv.accepted s room u token (old h)
      exact ⟨kept.kept s h₁, h₂, h₃, fun ho => by rw [idents]; exact h₄ (kept.opened s (inv.fresh.ne h₁) ho)⟩
    · rw [hist]
      exact inv.joiners_append none_joins
    · intro pre post cause dest msg h hb
      rcases Lts.split_grown (hist ▸ h) with ⟨mid, hold, -⟩ | ⟨mid, rfl, hnew⟩
      · exact inv.roomBound pre mid cause dest msg hold hb
      · obtain ⟨s, d, m, he, hj⟩ := placed (.placed cause dest msg) (by rw [hnew]; simp)
        cases he
        obtain ⟨-, -, room, u, id, hd, hi, hh, rfl, hstamp⟩ := hj hb
        obtain ⟨token, hacc⟩ := inv.joined _ _ _ hi
        obtain ⟨token', hacc'⟩ := receiver hh
        exact ⟨room, u, token, id, token', List.mem_append_left _ hacc, List.mem_append_left _ hacc', hstamp⟩
  | admitted s room userId name token rest act admits events handles idents placed =>
    subst events
    obtain ⟨⟨c, hc, hr, hme⟩, hbounds, hauth, -⟩ := admits
    have hopen : st.IsOpen s := ⟨c, hc, by rw [hr]; exact Phase.noConfusion⟩
    have hnone : st.ident s = none := (ident_of_reading hc hr).trans hme
    have never : ∀ {room u token}, .accepted s room u token ∉ st.history := fun h => by
      have := (inv.accepted _ _ _ _ h).2.2.2 hopen
      rw [hnone] at this
      cases this
    have rest_joins : ∀ ev ∈ rest, ev.joiner = none := fun ev hev => by
      obtain ⟨_, _, rfl, -⟩ := placed ev hev
      rfl
    have old : ∀ {t room' u token'}, .accepted t room' u token' ∈ st'.history →
        (t = s ∧ room' = room ∧ u = userId ∧ token' = token) ∨ .accepted t room' u token' ∈ st.history := by
      intro t room' u token' h
      rw [hist, List.mem_append, List.mem_cons] at h
      rcases h with h | h | h
      · exact Or.inr h
      · injection h with h₁ h₂ h₃ h₄
        exact Or.inl ⟨h₁, h₂, h₃, h₄⟩
      · have := rest_joins _ h
        cases this
    have new : .accepted s room userId token ∈ st'.history := by rw [hist]; simp
    have grown : ∀ {ev}, ev ∈ st.history → ev ∈ st'.history := fun h => by rw [hist]; exact List.mem_append_left _ h
    refine ⟨kept.fresh, fun room' u h hh => ?_, fun t room' u hi => ?_, fun t room' u token' h => ?_, ?_, ?_⟩
    · rw [handles] at hh
      rw [idents]
      split at hh
      · rename_i heq
        cases Option.some.inj hh
        simp [heq]
      · have hi := inv.listed room' u h hh
        have hne : h.tx ≠ s := fun he => by rw [he, hnone] at hi; cases hi
        rw [if_neg hne]
        exact hi
    · rw [idents] at hi
      split at hi
      · rename_i ht
        cases Option.some.inj hi
        exact ⟨token, ht ▸ new⟩
      · obtain ⟨token', h⟩ := inv.joined t room' u hi
        exact ⟨token', grown h⟩
    · rcases old h with ⟨rfl, rfl, rfl, rfl⟩ | h
      · exact ⟨kept.kept t (by rw [hc]; rfl), hauth, ⟨name, hbounds⟩, fun _ => by rw [idents, if_pos rfl]⟩
      · obtain ⟨h₁, h₂, h₃, h₄⟩ := inv.accepted t room' u token' h
        have hne : t ≠ s := fun he => never (he ▸ h)
        exact ⟨kept.kept t h₁, h₂, h₃, fun ho => by rw [idents, if_neg hne]; exact h₄ (kept.opened t (inv.fresh.ne h₁) ho)⟩
    · rw [hist]
      refine List.pairwise_append.mpr ⟨inv.joiners, List.pairwise_cons.mpr ⟨?_, ?_⟩, ?_⟩
      · intro e he t _ h
        rw [rest_joins e he] at h; cases h
      · exact List.pairwise_of_forall_mem_list fun e _ e' he' t _ h => by rw [rest_joins e' he'] at h; cases h
      · intro e he e' he' t h h'
        rcases List.mem_cons.mp he' with rfl | he'
        · cases Option.some.inj h'
          cases e with
          | accepted t' room' u token' =>
            cases Option.some.inj h
            exact never he
          | placed => cases h
        · rw [rest_joins e' he'] at h'; cases h'
    · intro pre post cause dest msg h hb
      rcases Lts.split_grown (hist ▸ h) with ⟨mid, hold, -⟩ | ⟨mid, rfl, hnew⟩
      · exact inv.roomBound pre mid cause dest msg hold hb
      · rcases List.cons_eq_append_iff.mp hnew with ⟨rfl, hrest⟩ | ⟨mid, rfl, hrest⟩
        · cases hrest
        obtain ⟨d, m, he, hm⟩ := placed (.placed cause dest msg) (by rw [hrest]; simp)
        cases he
        have here : ∀ {mid}, .accepted s room userId token ∈ st.history ++ .accepted s room userId token :: mid := by simp
        obtain ⟨hd, hstamp, -, -⟩ := mem_joinSends hm hb
        rcases hd with rfl | ⟨id, hd, hh, rfl⟩
        · exact ⟨room, userId, token, userId, token, here, here, hstamp⟩
        · obtain ⟨token', hacc'⟩ := receiver hh
          exact ⟨room, userId, token, id, token', here, List.mem_append_left _ hacc', hstamp⟩
  | left s room userId identity act handles idents ended placed =>
    have none_joins : ∀ ev ∈ evs, ev.joiner = none := fun ev hev => by
      obtain ⟨_, _, -, -, rfl⟩ := placed ev hev
      rfl
    have old : ∀ {s room u token}, .accepted s room u token ∈ st'.history → .accepted s room u token ∈ st.history := by
      intro s room u token h
      rw [hist, List.mem_append] at h
      rcases h with h | h
      · exact h
      · have := none_joins _ h
        cases this
    refine ⟨kept.fresh, fun room' u h hh => ?_, fun t room' u hi => ?_, fun t room' u token h => ?_, ?_, ?_⟩
    · rw [handles] at hh
      split at hh
      · cases hh
      · rename_i hne
        have hi := inv.listed room' u h hh
        rw [idents, if_neg]
        · exact hi
        · intro he
          rw [he, identity, Option.some.injEq, Prod.mk.injEq] at hi
          exact hne ⟨hi.1.symm, hi.2.symm⟩
    · rw [idents] at hi
      split at hi
      · cases hi
      · obtain ⟨token, h⟩ := inv.joined t room' u hi
        exact ⟨token, by rw [hist]; exact List.mem_append_left _ h⟩
    · obtain ⟨h₁, h₂, h₃, h₄⟩ := inv.accepted t room' u token (old h)
      refine ⟨kept.kept t h₁, h₂, h₃, fun ho => ?_⟩
      have hne : t ≠ s := fun he => ended (he ▸ ho)
      rw [idents, if_neg hne]
      exact h₄ (kept.opened t (inv.fresh.ne h₁) ho)
    · rw [hist]
      exact inv.joiners_append none_joins
    · intro pre post cause dest msg h hb
      rcases Lts.split_grown (hist ▸ h) with ⟨mid, hold, -⟩ | ⟨mid, rfl, hnew⟩
      · exact inv.roomBound pre mid cause dest msg hold hb
      · obtain ⟨id, hd, hh, -, he⟩ := placed (.placed cause dest msg) (by rw [hnew]; simp)
        cases he
        obtain ⟨token, hacc⟩ := inv.joined _ _ _ identity
        obtain ⟨token', hacc'⟩ := receiver hh
        exact ⟨room, userId, token, id, token', List.mem_append_left _ hacc, List.mem_append_left _ hacc',
          fun x hx => (Option.some.inj hx).symm⟩
  | restarted act handles ended events =>
    subst events
    rw [List.append_nil] at hist
    refine ⟨kept.fresh, fun room u h hh => ?_, fun s room u hi => absurd (isOpen_of_ident hi) (ended s),
      fun s room u token h => ?_, by rw [hist]; exact inv.joiners, by rw [hist]; exact inv.roomBound⟩
    · rw [handles] at hh; cases hh
    · rw [hist] at h
      obtain ⟨h₁, h₂, h₃, -⟩ := inv.accepted s room u token h
      exact ⟨kept.kept s h₁, h₂, h₃, fun ho => absurd ho (ended s)⟩

theorem inv_empty : Inv cfg empty where
  fresh _ _ := rfl
  listed _ _ _ h := by cases h
  joined _ _ _ h := by cases h
  accepted _ _ _ _ h := by cases h
  joiners := List.Pairwise.nil
  roomBound _ _ _ _ _ h := by simp [empty] at h

theorem inv_reach {ok : Server → SAct → Server → Prop} (h : Lts.Reach (step cfg) ok empty st) : Inv cfg st :=
  h.invariant inv_empty fun _ _ _ inv _ hs => inv_step inv hs

end

end Server

end SquadLink

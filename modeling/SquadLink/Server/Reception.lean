import SquadLink.Server.Deliveries

/-! What a step of the server does to one socket with a running writer task, as long as no queue is full:
    the messages appended to its queue, and its phase. -/

namespace SquadLink

namespace Server

/-- No queue is full. -/
def NeverFull (st : Server) : Prop := ∀ s, s < st.nextSocket → ∀ k ∈ st.conns s, k.queue.length < peerChan

instance (st : Server) : Decidable st.NeverFull := by
  unfold NeverFull
  infer_instance

section
variable {cfg : ServerConfig} {st st' : Server} {s t : SocketId} {k k' : Conn}

theorem NeverFull.queue (room : st.NeverFull) (fresh : st.Fresh) (hk : st.conns t = some k) :
    k.queue.length < peerChan := by
  refine room t ?_ k hk
  by_contra hn
  rw [fresh t (Nat.le_of_not_lt hn)] at hk
  cases hk

/-- A record that got messages while no queue is full. -/
theorem pushAll_of_neverFull (f : Conn → Conn) (msgs : List ServerMsg) (room : st'.NeverFull) (fresh : st'.Fresh)
    (hf : ∀ c, (f c).queue = c.queue) (hr : ∀ c, (f c).rxOpen = c.rxOpen) (hk : st.conns t = some k)
    (hk' : st'.conns t = (st.conns t).map fun c => f (c.pushAll msgs)) :
    ∃ k', st'.conns t = some k' ∧ k' = f (k.pushAll msgs) ∧ k'.rxOpen = k.rxOpen ∧
      (k.rxOpen = true → k'.queue = k.queue ++ msgs) := by
  rw [hk, Option.map_some] at hk'
  refine ⟨_, hk', rfl, by rw [hr, Conn.pushAll_rxOpen], fun open' => ?_⟩
  have short := room.queue fresh hk'
  rw [hf] at short ⊢
  exact k.pushAll_queue_of_lt msgs open' short

/-- What a frame of socket `s` does to socket `t`. -/
theorem frame_reception {f : Frame} (inv : Inv cfg st) (h : step cfg st (.frame s f) = some st') (room : st'.NeverFull)
    (hk : st.conns t = some k) :
    ∃ c k', st.conns s = some c ∧ c.phase = .reading ∧ st' = st.handleFrame cfg s c.me f ∧ st'.conns t = some k' ∧
      k'.me = k.me ∧ k'.rxOpen = k.rxOpen ∧ k'.phase = (if t = s then framePhase cfg st c.me f else k.phase) ∧
      (k.rxOpen = true → k'.queue = k.queue ++ Fifo.sentTo t (frameSends cfg st s c.me f)) := by
  have fresh' := (inv_step inv h).fresh
  obtain ⟨c, hc, hr, rfl⟩ := step_frame_inv h
  refine ⟨c, ?_⟩
  by_cases ht : t = s
  · obtain ⟨k', hk', rfl, hrx, hq⟩ := pushAll_of_neverFull (fun c' => { c' with phase := framePhase cfg st c.me f })
      (Fifo.sentTo t (frameSends cfg st s c.me f)) room fresh' (fun _ => rfl) (fun _ => rfl) hk
      (by rw [handleFrame_conns hc hr]; simp [ht])
    exact ⟨_, hc, hr, rfl, hk', by simp, hrx, by simp [ht], hq⟩
  · obtain ⟨k', hk', rfl, hrx, hq⟩ := pushAll_of_neverFull id (Fifo.sentTo t (frameSends cfg st s c.me f)) room fresh'
      (fun _ => rfl) (fun _ => rfl) hk (by rw [handleFrame_conns hc hr]; simp [ht])
    exact ⟨_, hc, hr, rfl, hk', by simp, hrx, by simp [ht], hq⟩

theorem finishJoin_reception {now : Nat} (inv : Inv cfg st) (h : step cfg st (.finishJoin s now) = some st')
    (room : st'.NeverFull) (hk : st.conns t = some k) :
    ∃ c r userId roster k', st.conns s = some c ∧ c.phase = .joining r userId roster ∧ st'.conns t = some k' ∧
      k'.rxOpen = k.rxOpen ∧
      (k.rxOpen = true → k'.queue = k.queue ++ Fifo.sentTo t (finishSends cfg s now userId roster)) ∧
      k'.phase = (if t = s then .reading else k.phase) := by
  have fresh' := (inv_step inv h).fresh
  obtain ⟨c, r, userId, roster, hc, hp, rfl⟩ := step_finishJoin_inv h
  refine ⟨c, r, userId, roster, ?_⟩
  by_cases ht : t = s
  · obtain ⟨k', hk', rfl, hrx, hq⟩ := pushAll_of_neverFull (fun c => { c with phase := .reading, me := some (r, userId) })
      (Fifo.sentTo t (finishSends cfg s now userId roster)) room fresh' (fun _ => rfl) (fun _ => rfl) hk
      (by rw [finishJoin_conns]; simp [ht])
    exact ⟨_, hc, hp, hk', hrx, hq, by simp [ht]⟩
  · obtain ⟨k', hk', rfl, hrx, hq⟩ := pushAll_of_neverFull id (Fifo.sentTo t (finishSends cfg s now userId roster)) room
      fresh' (fun _ => rfl) (fun _ => rfl) hk (by rw [finishJoin_conns]; simp [ht])
    exact ⟨_, hc, hp, hk', hrx, hq, by simp [ht]⟩

theorem close_reception (inv : Inv cfg st) (h : step cfg st (.close s) = some st') (room : st'.NeverFull)
    (hk : st.conns t = some k) :
    ∃ c k', st.conns s = some c ∧ c.phase = .reading ∧ st' = st.cleanup s c.me ∧ st'.conns t = some k' ∧
      k'.rxOpen = k.rxOpen ∧ (k.rxOpen = true → k'.queue = k.queue ++ Fifo.sentTo t (cleanupSends st c.me)) ∧
      k'.phase = (if t = s then .ended else k.phase) := by
  have fresh' := (inv_step inv h).fresh
  obtain ⟨c, hc, hr, rfl⟩ := step_close_inv h
  refine ⟨c, ?_⟩
  by_cases ht : t = s
  · obtain ⟨k', hk', rfl, hrx, hq⟩ := pushAll_of_neverFull (fun c => { c with phase := .ended })
      (Fifo.sentTo t (cleanupSends st c.me)) room fresh' (fun _ => rfl) (fun _ => rfl) hk (by rw [cleanup_conns]; simp [ht])
    exact ⟨_, hc, hr, rfl, hk', hrx, hq, by simp [ht]⟩
  · obtain ⟨k', hk', rfl, hrx, hq⟩ := pushAll_of_neverFull id (Fifo.sentTo t (cleanupSends st c.me)) room fresh'
      (fun _ => rfl) (fun _ => rfl) hk (by rw [cleanup_conns]; simp [ht])
    exact ⟨_, hc, hr, rfl, hk', hrx, hq, by simp [ht]⟩

/-- What every other step does to a socket that keeps its writer task: nothing, but that `write` takes the
    head of its own queue. -/
theorem idle_reception {a : SAct} (h : step cfg st a = some st') (ha : ∀ s f, a ≠ .frame s f)
    (hc : ∀ s, a ≠ .close s) (hj : ∀ s now, a ≠ .finishJoin s now) (hk' : st'.conns t = some k') (rx : k'.rxOpen = true)
    (old : t < st.nextSocket) :
    ∃ k, st.conns t = some k ∧ k'.phase = k.phase ∧ k'.me = k.me ∧ k.rxOpen = true ∧
      (a = .write t ∧ k'.queue = k.queue.tail ∨ a ≠ .write t ∧ k'.queue = k.queue) := by
  cases a with
  | accept =>
    cases Option.some.inj h
    simp only [Function.update_of_ne (Nat.ne_of_lt old)] at hk'
    exact ⟨k', hk', rfl, rfl, rx, Or.inr ⟨by simp, rfl⟩⟩
  | frame s f => exact absurd rfl (ha s f)
  | finishJoin s now => exact absurd rfl (hj s now)
  | close s => exact absurd rfl (hc s)
  | write s =>
    obtain ⟨c, hc, -, rfl⟩ := step_write_inv h
    rw [modifyConn_conns] at hk'
    split at hk'
    · rename_i ht
      subst ht
      rw [hc, Option.map_some, Option.some.injEq] at hk'
      subst hk'
      exact ⟨c, hc, rfl, rfl, rx, Or.inl ⟨rfl, rfl⟩⟩
    · rename_i ht
      exact ⟨k', hk', rfl, rfl, rx, Or.inr ⟨fun he => ht (SAct.write.inj he).symm, rfl⟩⟩
  | writeFail s =>
    obtain ⟨c, hc, -, rfl⟩ := step_writeFail_inv h
    rw [modifyConn_conns] at hk'
    split at hk'
    · rw [hc, Option.map_some, Option.some.injEq] at hk'
      subst hk'
      cases rx
    · exact ⟨k', hk', rfl, rfl, rx, Or.inr ⟨by simp, rfl⟩⟩
  | abort s =>
    obtain ⟨c, hc, -, rfl⟩ := step_abort_inv h
    rw [modifyConn_conns] at hk'
    split at hk'
    · rw [hc, Option.map_some, Option.some.injEq] at hk'
      subst hk'
      cases rx
    · exact ⟨k', hk', rfl, rfl, rx, Or.inr ⟨by simp, rfl⟩⟩
  | rehash room r =>
    obtain ⟨r₀, -, -, rfl⟩ := step_rehash_inv h
    exact ⟨k', hk', rfl, rfl, rx, Or.inr ⟨by simp, rfl⟩⟩
  | restart =>
    cases Option.some.inj h
    simp only [Option.map_eq_some_iff] at hk'
    obtain ⟨c, -, rfl⟩ := hk'
    cases rx

/-! ### The kinds of frames -/

/-- An accepted Join goes all the way to the rooms map. -/
theorem Admits.frame {room userId name : String} {token : Option String} (admits : Admits cfg st s room userId name token)
    (hc : st.conns s = some k) :
    frameSends cfg st s k.me (.text (.join room userId name token)) = joinSends (st.roomOf room) s userId name ∧
      framePhase cfg st k.me (.text (.join room userId name token)) =
        .joining room userId (rosterOf (st.roomOf room) userId) ∧
      st.handleFrame cfg s k.me (.text (.join room userId name token)) = st.enroll s room userId name token := by
  obtain ⟨⟨c, hc', -, hnone⟩, hbounds, hauth, hfull⟩ := admits
  cases hc.symm.trans hc'
  refine ⟨?_, ?_, ?_⟩
  · simp [frameSends, joinReply, hnone, hbounds, hauth, hfull]
  · simp [framePhase, joinPhase, hnone, hbounds, hauth, hfull]
  · simp [handleFrame, handleMsg, join, hnone, hbounds, hauth, hfull]

/-- A message of a client is a Join that is accepted, the end of its loop, or changes no room. -/
theorem frame_cases (cfg : ServerConfig) (msg : ClientMsg) (hc : st.conns s = some k) (hr : k.phase = .reading) :
    (∃ room userId name token, msg = .join room userId name token ∧ Admits cfg st s room userId name token ∧
      frameSends cfg st s k.me (.text msg) = joinSends (st.roomOf room) s userId name ∧
      framePhase cfg st k.me (.text msg) = .joining room userId (rosterOf (st.roomOf room) userId) ∧
      st.handleFrame cfg s k.me (.text msg) = st.enroll s room userId name token) ∨
    msg = .leave ∨
    ((∀ room userId, (st.handleFrame cfg s k.me (.text msg)).handle? room userId = st.handle? room userId) ∧
      (framePhase cfg st k.me (.text msg) = .reading ∨ framePhase cfg st k.me (.text msg) = .ended ∧ k.me = none) ∧
      ∀ p ∈ frameSends cfg st s k.me (.text msg), p.2.membership = false) := by
  have relayed : ∀ dest (build : String → ServerMsg), (∀ x, (build x).membership = false) →
      ∀ p ∈ relaySends st k.me dest build, p.2.membership = false := by
    intro dest build hb p hp
    unfold relaySends at hp
    split at hp
    · cases hp
    · obtain ⟨b, -, rfl⟩ := Option.map_eq_some_iff.mp (Option.mem_toList.mp hp)
      exact hb _
  have toRoom : ∀ room g, (∀ id x, g id = some x → ServerMsg.membership x = false) →
      ∀ p ∈ toRoomSends st room g, p.2.membership = false := by
    intro room g hg p hp
    obtain ⟨id, b, -, -, hx⟩ := Fifo.mem_broadcast.mp hp
    exact hg id _ hx
  cases msg with
  | join room userId name token =>
    by_cases hme : k.me.isSome
    · refine Or.inr (Or.inr ⟨fun _ _ => ?_, Or.inl ?_, ?_⟩)
      · simp [handleFrame, handleMsg, join, hme, trySend_eq_sendAll]
      · simp [framePhase, joinPhase, hme]
      · simp [frameSends, joinReply, hme, ServerMsg.membership]
    · have hnone : k.me = none := by simpa using hme
      by_cases hb : joinOutOfBounds room userId name token
      · refine Or.inr (Or.inr ⟨fun _ _ => ?_, Or.inr ⟨?_, hnone⟩, ?_⟩)
        · simp [handleFrame, handleMsg, join, hnone, hb, finish, trySend_eq_sendAll]
        · simp [framePhase, joinPhase, hnone, hb]
        · simp [frameSends, joinReply, hnone, hb, ServerMsg.membership]
      · by_cases ha : cfg.auth.check cfg.prim room token
        · by_cases hf : st.isFull room userId
          · refine Or.inr (Or.inr ⟨fun _ _ => ?_, Or.inr ⟨?_, hnone⟩, ?_⟩)
            · simp [handleFrame, handleMsg, join, hnone, hb, ha, hf, finish, trySend_eq_sendAll]
            · simp [framePhase, joinPhase, hnone, hb, ha, hf]
            · simp [frameSends, joinReply, hnone, hb, ha, hf, ServerMsg.membership]
          · have admits : Admits cfg st s room userId name token :=
              ⟨⟨k, hc, hr, hnone⟩, by simpa using hb, ha, by simpa using hf⟩
            exact Or.inl ⟨room, userId, name, token, rfl, admits, admits.frame hc⟩
        · refine Or.inr (Or.inr ⟨fun _ _ => ?_, Or.inr ⟨?_, hnone⟩, ?_⟩)
          · simp [handleFrame, handleMsg, join, hnone, hb, ha, finish, trySend_eq_sendAll]
          · simp [framePhase, joinPhase, hnone, hb, ha]
          · simp [frameSends, joinReply, hnone, hb, ha, ServerMsg.membership]
  | offer dest sdp =>
    refine Or.inr (Or.inr ⟨fun _ _ => ?_, Or.inl rfl, ?_⟩)
    · simp only [handleFrame, handleMsg]
      split <;> simp [relayTo_eq]
    · simp only [frameSends]
      split
      · simp
      · exact relayed dest _ fun _ => rfl
  | answer dest sdp =>
    refine Or.inr (Or.inr ⟨fun _ _ => ?_, Or.inl rfl, ?_⟩)
    · simp only [handleFrame, handleMsg]
      split <;> simp [relayTo_eq]
    · simp only [frameSends]
      split
      · simp
      · exact relayed dest _ fun _ => rfl
  | ice dest candidate =>
    refine Or.inr (Or.inr ⟨fun _ _ => ?_, Or.inl rfl, ?_⟩)
    · simp only [handleFrame, handleMsg]
      split <;> simp [relayTo_eq]
    · simp only [frameSends]
      split
      · simp
      · exact relayed dest _ fun _ => rfl
  | ptt active =>
    refine Or.inr (Or.inr ⟨fun _ _ => ?_, Or.inl rfl, ?_⟩)
    · rcases k.me with _ | ⟨room, sender⟩ <;> simp [handleFrame, handleMsg, ptt, toRoom_eq]
    · simp only [frameSends]
      split
      · simp
      · refine toRoom _ _ fun id x hx => ?_
        simp only [ne_eq, ite_not, Option.ite_none_left_eq_some, Option.some.injEq] at hx
        rw [← hx.2]
        rfl
  | rekey =>
    refine Or.inr (Or.inr ⟨fun _ _ => ?_, Or.inl rfl, ?_⟩)
    · rcases k.me with _ | ⟨room, sender⟩ <;> simp [handleFrame, handleMsg, rekey, toRoom_eq]
    · simp only [frameSends]
      split
      · simp
      · exact toRoom _ _ fun id x hx => by cases hx; rfl
  | leave => exact Or.inr (Or.inl rfl)

end

/-- The socket, room, user id and name of the Join that the action gets accepted. -/
def admitted (cfg : ServerConfig) (st : Server) : SAct → Option (SocketId × String × String × String)
  | .frame s (.text (.join room userId name token)) =>
    if (st.ident s).isNone && !joinOutOfBounds room userId name token && cfg.auth.check cfg.prim room token &&
      !st.isFull room userId then some (s, room, userId, name) else none
  | _ => none

section
variable {cfg : ServerConfig} {st st' : Server} {s : SocketId} {a : SAct}

theorem Admits.admitted {room userId name : String} {token : Option String}
    (admits : Admits cfg st s room userId name token) :
    st.admitted cfg (.frame s (.text (.join room userId name token))) = some (s, room, userId, name) := by
  obtain ⟨⟨c, hc, hr, hnone⟩, hbounds, hauth, hfull⟩ := admits
  simp [Server.admitted, (ident_of_reading hc hr).trans hnone, hbounds, hauth, hfull]

theorem admitted_cases {room userId name : String} (hs : step cfg st a = some st')
    (h : st.admitted cfg a = some (s, room, userId, name)) :
    ∃ token, a = .frame s (.text (.join room userId name token)) ∧ Admits cfg st s room userId name token := by
  unfold Server.admitted at h
  split at h
  · rw [Option.ite_none_right_eq_some] at h
    obtain ⟨hg, h⟩ := h
    cases h
    obtain ⟨c, hc, hr, -⟩ := step_frame_inv hs
    simp only [Bool.and_eq_true, Option.isNone_iff_eq_none, Bool.not_eq_true', ident_of_reading hc hr] at hg
    obtain ⟨⟨⟨hnone, hbounds⟩, hauth⟩, hfull⟩ := hg
    exact ⟨_, rfl, ⟨c, hc, hr, hnone⟩, hbounds, hauth, hfull⟩
  · cases h

theorem cleanupSends_negotiates (me : Option (String × String)) : ∀ p ∈ cleanupSends st me, p.2.negotiates = false := by
  intro p hp
  unfold cleanupSends at hp
  split at hp
  · cases hp
  · obtain ⟨id, b, -, -, hx⟩ := Fifo.mem_broadcast.mp hp
    rw [← Option.some.inj hx]
    rfl

theorem joinSends_negotiates (r : Room) (userId name : String) :
    ∀ p ∈ joinSends r s userId name, p.2.negotiates = false := by
  intro p hp
  simp only [joinSends, List.mem_append, Option.mem_toList, Option.map_eq_some_iff] at hp
  rcases hp with (⟨old, -, rfl⟩ | hp) | hp
  · rfl
  · obtain ⟨id, b, -, -, hx⟩ := Fifo.mem_broadcast.mp hp
    simp only [ne_eq, ite_not, Option.ite_none_left_eq_some, Option.some.injEq] at hx
    rw [← hx.2]
    rfl
  · split at hp
    · obtain ⟨id, b, -, -, hx⟩ := Fifo.mem_broadcast.mp hp
      rw [← Option.some.inj hx]
      rfl
    · cases hp

/-- A message makes the server send at most one thing that negotiates: the offer or answer it relays. -/
theorem frame_negotiates (k : Conn) (msg : ClientMsg) :
    (∀ p ∈ frameSends cfg st s k.me (.text msg), p.2.negotiates = false) ∨
    ∃ room sender dest sdp h, k.me = some (room, sender) ∧ st.handle? room dest = some h ∧
      (msg = .offer dest sdp ∧ frameSends cfg st s k.me (.text msg) = [(h.tx, .offer sender sdp)] ∨
        msg = .answer dest sdp ∧ frameSends cfg st s k.me (.text msg) = [(h.tx, .answer sender sdp)]) := by
  have relayed : ∀ dest (build : String → ServerMsg), relaySends st k.me dest build = [] ∨
      ∃ room sender h, k.me = some (room, sender) ∧ st.handle? room dest = some h ∧
        relaySends st k.me dest build = [(h.tx, build sender)] := by
    intro dest build
    unfold relaySends
    cases hme : k.me with
    | none => exact Or.inl rfl
    | some p =>
      cases hh : st.handle? p.1 dest with
      | none => exact Or.inl (by simp [hh])
      | some h => exact Or.inr ⟨p.1, p.2, h, rfl, hh, by simp [hh]⟩
  have toRoom : ∀ room g, (∀ id x, g id = some x → ServerMsg.negotiates x = false) →
      ∀ p ∈ toRoomSends st room g, p.2.negotiates = false := by
    intro room g hg p hp
    obtain ⟨id, b, -, -, hx⟩ := Fifo.mem_broadcast.mp hp
    exact hg id _ hx
  cases msg with
  | join room userId name token =>
    left
    intro p hp
    simp only [frameSends, joinReply] at hp
    split at hp
    · rw [List.mem_singleton.mp hp]; rfl
    · split at hp
      · rw [List.mem_singleton.mp hp]; rfl
      · split at hp
        · rw [List.mem_singleton.mp hp]; rfl
        · split at hp
          · rw [List.mem_singleton.mp hp]; rfl
          · exact joinSends_negotiates _ userId name p hp
  | offer dest sdp =>
    simp only [frameSends]
    split
    · exact Or.inl (by simp)
    · rcases relayed dest fun sender => .offer sender sdp with h | ⟨room, sender, h, hme, hh, hs⟩
      · exact Or.inl (by rw [h]; simp)
      · exact Or.inr ⟨room, sender, dest, sdp, h, hme, hh, Or.inl ⟨rfl, hs⟩⟩
  | answer dest sdp =>
    simp only [frameSends]
    split
    · exact Or.inl (by simp)
    · rcases relayed dest fun sender => .answer sender sdp with h | ⟨room, sender, h, hme, hh, hs⟩
      · exact Or.inl (by rw [h]; simp)
      · exact Or.inr ⟨room, sender, dest, sdp, h, hme, hh, Or.inr ⟨rfl, hs⟩⟩
  | ice dest candidate =>
    left
    simp only [frameSends]
    split
    · simp
    · rcases relayed dest fun sender => .ice sender candidate with h | ⟨_, _, h, -, -, hs⟩
      · rw [h]; simp
      · rw [hs]; simp [ServerMsg.negotiates]
  | ptt active =>
    left
    simp only [frameSends]
    split
    · simp
    · refine toRoom _ _ fun id x hx => ?_
      simp only [ne_eq, ite_not, Option.ite_none_left_eq_some, Option.some.injEq] at hx
      rw [← hx.2]
      rfl
  | rekey =>
    left
    simp only [frameSends]
    split
    · simp
    · exact toRoom _ _ fun id x hx => by cases hx; rfl
  | leave => exact Or.inl (cleanupSends_negotiates k.me)

end

end Server

end SquadLink

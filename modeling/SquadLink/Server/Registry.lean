import SquadLink.Lib.Lts
import SquadLink.Server.Step

/-! What one step of the server can do to the rooms map, to the identities of the sockets and to the
    history, and the invariants that follow for every run: a listed handle belongs to an open socket that
    joined under that very room and user id, and a socket joins at most once. -/

namespace SquadLink

namespace Server

/-- The room and user a socket acts as. -/
def ident (st : Server) (s : SocketId) : Option (String × String) := (st.conns s).bind Conn.ident

/-! ### The operations -/

section
variable (cfg : ServerConfig) (st : Server) (s : SocketId)

theorem ident_modifyConn {f : Conn → Conn} (hf : ∀ c, st.conns s = some c → (f c).ident = c.ident) (t : SocketId) :
    (st.modifyConn s f).ident t = st.ident t := by
  unfold ident
  rw [modifyConn_conns]
  split
  · subst t
    cases hc : st.conns s with
    | none => rfl
    | some c => exact hf c hc
  · rfl

@[simp] theorem ident_sendAll (cause : SocketId) (out : List (SocketId × ServerMsg)) (t : SocketId) :
    (st.sendAll cause out).ident t = st.ident t := by
  unfold ident
  rw [sendAll_conns]
  cases st.conns t <;> simp

theorem ident_finish (t : SocketId) : (st.finish s).ident t = if t = s then none else st.ident t := by
  unfold ident finish
  rw [modifyConn_conns]
  by_cases h : t = s
  · subst h
    cases hc : st.conns t <;> simp [Conn.ident]
  · simp [h]

@[simp] theorem handle?_finish (room userId : String) : (st.finish s).handle? room userId = st.handle? room userId := rfl

theorem trySend_eq_sendAll (cause dest : SocketId) (msg : ServerMsg) :
    st.trySend cause dest msg = st.sendAll cause [(dest, msg)] := rfl

theorem roomOf_lookup (room userId : String) : (st.roomOf room).lookup userId = st.handle? room userId := by
  unfold roomOf handle?
  cases st.rooms room <;> simp

theorem enroll_handle? (room userId name : String) (token : Option String) (room' userId' : String) :
    (st.enroll s room userId name token).handle? room' userId' =
      if room' = room ∧ userId' = userId then some { name, tx := s } else st.handle? room' userId' := by
  simp only [enroll, modifyConn_handle?, sendAll_handle?, record_handle?, setRoom_handle?]
  by_cases hr : room' = room
  · subst hr
    by_cases hu : userId' = userId
    · subst hu; simp
    · simp [hu, AList.lookup_insert_ne, AList.lookup_erase_ne, roomOf_lookup]
  · simp [hr]

theorem enroll_ident (room userId name : String) (token : Option String) (t : SocketId) :
    (st.enroll s room userId name token).ident t =
      if t = s then (st.conns s).map fun _ => (room, userId) else st.ident t := by
  unfold ident enroll
  simp only [modifyConn_conns, sendAll_conns, record_conns, setRoom_conns]
  by_cases ht : t = s
  · subst ht
    cases st.conns t <;> simp [Conn.ident]
  · simp only [ht, ↓reduceIte]
    cases st.conns t <;> simp

theorem enroll_history (room userId name : String) (token : Option String) :
    ∃ evs, (st.enroll s room userId name token).history = st.history ++ .accepted s room userId token :: evs ∧
      ∀ ev ∈ evs, ∃ dest msg, ev = .placed s dest msg ∧ (dest, msg) ∈ joinSends (st.roomOf room) s userId name := by
  simp only [enroll, modifyConn_history]
  obtain ⟨evs, hevs, hall⟩ := sendAll_history
    ((st.setRoom room (some (((st.roomOf room).erase userId).insert userId { name, tx := s }))).record
      (.accepted s room userId token)) s (joinSends (st.roomOf room) s userId name)
  exact ⟨evs, by rw [hevs]; simp [record], hall⟩

theorem cleanup_handle? (me : Option (String × String)) (room' userId' : String) :
    (st.cleanup s me).handle? room' userId' = if me = some (room', userId') then none else st.handle? room' userId' := by
  unfold cleanup
  cases me with
  | none => simp
  | some p =>
    obtain ⟨room, userId⟩ := p
    cases hr : st.rooms room with
    | none =>
      simp only [hr, Option.some.injEq, Prod.mk.injEq, handle?_finish]
      by_cases h : room = room' ∧ userId = userId'
      · rw [if_pos h]
        simp [handle?, ← h.1, hr]
      · rw [if_neg h]
    | some r =>
      simp only [hr, handle?_finish, setRoom_handle?, sendAll_handle?, Option.some.injEq, Prod.mk.injEq]
      by_cases hroom : room' = room
      · subst hroom
        have hlook : st.handle? room' userId' = r.lookup userId' := by simp [handle?, hr]
        -- An emptied room is removed, so its lookups fail as those of the emptied map do.
        have hif : ((if (r.erase userId).keys.isEmpty then none else some (r.erase userId)).bind
            fun r : Room => r.lookup userId') = (r.erase userId).lookup userId' := by
          split
          · rename_i hempty
            have : userId' ∉ r.erase userId := by
              rw [AList.mem_keys, List.isEmpty_iff.mp hempty]
              exact List.not_mem_nil
            simp [AList.lookup_eq_none.mpr this]
          · rfl
        simp only [↓reduceIte, true_and, hlook]
        rw [hif]
        by_cases hu : userId' = userId
        · subst hu; simp
        · have hu' : ¬ userId = userId' := fun h => hu h.symm
          simp [hu', AList.lookup_erase_ne hu]
      · have hroom' : ¬ room = room' := fun h => hroom h.symm
        simp [hroom, hroom']

theorem cleanup_ident (me : Option (String × String)) (t : SocketId) :
    (st.cleanup s me).ident t = if t = s then none else st.ident t := by
  unfold cleanup
  split
  · exact st.ident_finish s t
  · split
    · exact st.ident_finish s t
    · rw [ident_finish]
      split
      · rfl
      · simp only [ident, setRoom_conns, sendAll_conns]
        cases st.conns t <;> simp

theorem cleanup_history (me : Option (String × String)) :
    ∃ evs, (st.cleanup s me).history = st.history ++ evs ∧
      ∀ ev ∈ evs, ∃ room userId id h, me = some (room, userId) ∧ st.handle? room id = some h ∧ id ≠ userId ∧
        ev = .placed s h.tx (.peerLeft userId) := by
  unfold cleanup
  split
  · exact ⟨[], by simp [finish], by simp⟩
  · rename_i room userId
    split
    · exact ⟨[], by simp [finish], by simp⟩
    · rename_i r hr
      obtain ⟨evs, hevs, hall⟩ := st.sendAll_history s
        (Fifo.broadcast PeerHandle.tx (fun _ => some (.peerLeft userId)) (r.erase userId))
      refine ⟨evs, by simp [finish, hevs], fun ev hev => ?_⟩
      obtain ⟨dest, msg, rfl, hm⟩ := hall ev hev
      obtain ⟨id, h, hlook, rfl, hmsg⟩ := Fifo.mem_broadcast.mp hm
      have hid : id ≠ userId := by
        rintro rfl
        rw [AList.lookup_erase] at hlook
        cases hlook
      rw [AList.lookup_erase_ne hid] at hlook
      exact ⟨room, userId, id, h, rfl, by simp [handle?, hr, hlook], hid, by rw [Option.some.inj hmsg]⟩

end

/-! ### What a step can do -/

/-- The socket exists and its reader loop has not ended. -/
def IsOpen (st : Server) (s : SocketId) : Prop := ∃ c, st.conns s = some c ∧ c.phase ≠ .ended

/-- The Join gets through every guard. -/
def Admits (cfg : ServerConfig) (st : Server) (s : SocketId) (room userId name : String) (token : Option String) : Prop :=
  (∃ c, st.conns s = some c ∧ c.phase = .reading ∧ c.me = none) ∧ joinOutOfBounds room userId name token = false ∧
    cfg.auth.check cfg.prim room token = true ∧ st.isFull room userId = false

/-- The message is for members of the room of the socket that causes it, and carries that socket's user id. -/
def Justified (st : Server) (s dest : SocketId) (msg : ServerMsg) : Prop :=
  ∃ room userId id h, st.ident s = some (room, userId) ∧ st.handle? room id = some h ∧ h.tx = dest ∧
    ∀ x, msg.stamp = some x → x = userId

/-- What one step does to the handles, to the identities and to the history. -/
inductive Change (cfg : ServerConfig) (st st' : Server) (a : SAct) (evs : List Event) : Prop
  /-- Nobody joins or leaves. -/
  | same (handles : ∀ room userId, st'.handle? room userId = st.handle? room userId)
      (idents : ∀ t, st'.ident t = st.ident t)
      (placed : ∀ ev ∈ evs, ∃ s dest msg, ev = .placed s dest msg ∧
        (msg.roomBound = true → (∃ f, a = .frame s f) ∧ msg.onBehalf = true ∧ Justified st s dest msg))
  /-- A Join is accepted. -/
  | admitted (s : SocketId) (room userId name : String) (token : Option String) (rest : List Event)
      (act : a = .frame s (.text (.join room userId name token)))
      (admits : Admits cfg st s room userId name token) (events : evs = .accepted s room userId token :: rest)
      (handles : ∀ room' userId', st'.handle? room' userId' =
        if room' = room ∧ userId' = userId then some { name, tx := s } else st.handle? room' userId')
      (idents : ∀ t, st'.ident t = if t = s then some (room, userId) else st.ident t)
      (placed : ∀ ev ∈ rest, ∃ dest msg, ev = .placed s dest msg ∧
        (dest, msg) ∈ joinSends (st.roomOf room) s userId name)
  /-- A joined socket's reader loop ends. -/
  | left (s : SocketId) (room userId : String) (identity : st.ident s = some (room, userId))
      (act : a = .close s ∨ a = .frame s .close ∨ a = .frame s (.text .leave))
      (handles : ∀ room' userId', st'.handle? room' userId' =
        if room' = room ∧ userId' = userId then none else st.handle? room' userId')
      (idents : ∀ t, st'.ident t = if t = s then none else st.ident t)
      (ended : ¬ st'.IsOpen s)
      (placed : ∀ ev ∈ evs, ∃ id h, st.handle? room id = some h ∧ id ≠ userId ∧
        ev = .placed s h.tx (.peerLeft userId))
  | restarted (act : a = .restart) (handles : ∀ room userId, st'.handle? room userId = none)
      (ended : ∀ t, ¬ st'.IsOpen t) (events : evs = [])

section
variable {cfg : ServerConfig} {st st' : Server} {s : SocketId} {c : Conn}

theorem ident_of_reading (hc : st.conns s = some c) (hr : c.phase = .reading) : st.ident s = c.me := by
  simp [ident, hc, Conn.ident, hr]

theorem not_isOpen_finish : ¬ (st.finish s).IsOpen s := by
  rintro ⟨c, hc, hp⟩
  simp only [finish, modifyConn_conns_self, Option.map_eq_some_iff] at hc
  obtain ⟨c₀, -, rfl⟩ := hc
  exact hp rfl

theorem not_isOpen_cleanup (me : Option (String × String)) : ¬ (st.cleanup s me).IsOpen s := by
  unfold cleanup
  split
  · exact not_isOpen_finish
  · split <;> exact not_isOpen_finish

/-- A step that only sends messages which are not for a room. -/
theorem Change.of_own {a : SAct} (s : SocketId) (out : List (SocketId × ServerMsg))
    (hout : ∀ p ∈ out, p.2.roomBound = false)
    (handles : ∀ room userId, st'.handle? room userId = st.handle? room userId)
    (idents : ∀ t, st'.ident t = st.ident t) (hist : st'.history = (st.sendAll s out).history) :
    ∃ evs, st'.history = st.history ++ evs ∧ Change cfg st st' a evs := by
  obtain ⟨evs, hevs, hall⟩ := st.sendAll_history s out
  refine ⟨evs, hist.trans hevs, .same handles idents fun ev hev => ?_⟩
  obtain ⟨dest, msg, rfl, hm⟩ := hall ev hev
  exact ⟨s, dest, msg, rfl, fun hb => absurd (hout _ hm) (by simp [hb])⟩

/-- A refused Join, or the end of a loop that never joined, leaves the identities as they are. -/
theorem ident_finish_of_none (hn : st.ident s = none) (t : SocketId) : (st.finish s).ident t = st.ident t := by
  rw [ident_finish]
  split
  · subst t; exact hn.symm
  · rfl

theorem cleanup_change {a : SAct} (hi : st.ident s = c.me)
    (act : a = .close s ∨ a = .frame s .close ∨ a = .frame s (.text .leave)) :
    ∃ evs, (st.cleanup s c.me).history = st.history ++ evs ∧ Change cfg st (st.cleanup s c.me) a evs := by
  obtain ⟨evs, hevs, hall⟩ := st.cleanup_history s c.me
  cases hme : c.me with
  | none =>
    rw [hme] at hi hevs hall
    refine ⟨evs, hevs, .same (fun room userId => ?_) (fun t => ?_) fun ev hev => ?_⟩
    · rw [cleanup_handle?]; simp
    · exact ident_finish_of_none hi t
    · obtain ⟨_, _, _, _, h, -⟩ := hall ev hev
      cases h
  | some p =>
    obtain ⟨room, userId⟩ := p
    rw [hme] at hi hevs hall
    refine ⟨evs, hevs, .left s room userId hi act (fun room' userId' => ?_) (fun t => ?_) ?_ fun ev hev => ?_⟩
    · rw [cleanup_handle?]
      simp only [Option.some.injEq, Prod.mk.injEq]
      congr 1
      simp [eq_comm]
    · exact st.cleanup_ident s _ t
    · exact not_isOpen_cleanup _
    · obtain ⟨room', userId', id, h, he, hh, hne, rfl⟩ := hall ev hev
      cases he
      exact ⟨id, h, hh, hne, rfl⟩

theorem relayTo_change {f : Frame} (hi : st.ident s = c.me) (dest : String) (build : String → ServerMsg)
    (hb : ∀ x, (build x).onBehalf = true) (hs : ∀ x y, (build x).stamp = some y → y = x) :
    ∃ evs, (st.relayTo s c.me dest build).history = st.history ++ evs ∧
      Change cfg st (st.relayTo s c.me dest build) (.frame s f) evs := by
  have nothing : ∃ evs, st.history = st.history ++ evs ∧ Change cfg st st (.frame s f) evs :=
    ⟨[], by simp, .same (fun _ _ => rfl) (fun _ => rfl) (by simp)⟩
  unfold relayTo
  split
  · exact nothing
  · rename_i room sender hme
    split
    · exact nothing
    · rename_i h hh
      obtain ⟨evs, hevs, hall⟩ := st.sendAll_history s [(h.tx, build sender)]
      refine ⟨evs, hevs, .same (fun _ _ => by rw [trySend_eq_sendAll, sendAll_handle?])
        (fun t => by rw [trySend_eq_sendAll, ident_sendAll]) fun ev hev => ?_⟩
      obtain ⟨dest', msg, rfl, hm⟩ := hall ev hev
      cases List.mem_singleton.mp hm
      exact ⟨s, h.tx, _, rfl, fun _ => ⟨⟨f, rfl⟩, hb _, room, sender, dest, h, hi.trans hme, hh, rfl, hs _⟩⟩

theorem toRoom_change {f : Frame} {room sender : String} (hi : st.ident s = some (room, sender))
    (g : String → Option ServerMsg) (hb : ∀ id msg, g id = some msg → msg.onBehalf = true)
    (hs : ∀ id msg, g id = some msg → ∀ y, msg.stamp = some y → y = sender) :
    ∃ evs, (st.toRoom s room g).history = st.history ++ evs ∧
      Change cfg st (st.toRoom s room g) (.frame s f) evs := by
  unfold toRoom
  split
  · exact ⟨[], by simp, .same (fun _ _ => rfl) (fun _ => rfl) (by simp)⟩
  · rename_i r hr
    obtain ⟨evs, hevs, hall⟩ := st.sendAll_history s (Fifo.broadcast PeerHandle.tx g r)
    refine ⟨evs, hevs, .same (fun _ _ => sendAll_handle? ..) (fun t => ident_sendAll ..) fun ev hev => ?_⟩
    obtain ⟨dest, msg, rfl, hm⟩ := hall ev hev
    obtain ⟨id, h, hlook, rfl, hg⟩ := Fifo.mem_broadcast.mp hm
    exact ⟨s, h.tx, msg, rfl, fun _ => ⟨⟨f, rfl⟩, hb id msg hg, room, sender, id, h, hi, by simp [handle?, hr, hlook], rfl,
      hs id msg hg⟩⟩

theorem join_change (hc : st.conns s = some c) (hr : c.phase = .reading) (room userId name : String)
    (token : Option String) :
    ∃ evs, (st.join cfg s c.me room userId name token).history = st.history ++ evs ∧
      Change cfg st (st.join cfg s c.me room userId name token) (.frame s (.text (.join room userId name token))) evs := by
  have hi := ident_of_reading hc hr
  have refused : ∀ msg : ServerMsg, msg.roomBound = false → st.ident s = none →
      ∃ evs, ((st.trySend s s msg).finish s).history = st.history ++ evs ∧
        Change cfg st ((st.trySend s s msg).finish s) (.frame s (.text (.join room userId name token))) evs := by
    intro msg hmsg hn
    refine Change.of_own s [(s, msg)] (by simpa using hmsg)
      (fun _ _ => by rw [handle?_finish, trySend_eq_sendAll, sendAll_handle?]) (fun t => ?_) rfl
    rw [trySend_eq_sendAll, ident_finish_of_none (by rw [ident_sendAll]; exact hn), ident_sendAll]
  unfold join
  split
  · exact Change.of_own s [(s, _)] (by simp [ServerMsg.roomBound])
      (fun _ _ => by rw [trySend_eq_sendAll, sendAll_handle?]) (fun t => by rw [trySend_eq_sendAll, ident_sendAll]) rfl
  · rename_i hme
    have hn : st.ident s = none := by
      rw [hi]
      simpa using hme
    split
    · exact refused _ rfl hn
    · rename_i hbounds
      split
      · exact refused _ rfl hn
      · rename_i hauth
        split
        · exact refused _ rfl hn
        · rename_i hfull
          obtain ⟨evs, hevs, hall⟩ := st.enroll_history s room userId name token
          refine ⟨_, hevs, .admitted s room userId name token evs rfl ?_ rfl
            (fun room' userId' => st.enroll_handle? s room userId name token room' userId') (fun t => ?_) hall⟩
          · exact ⟨⟨c, hc, hr, by simpa using hme⟩, by simpa using hbounds, by simpa using hauth, by simpa using hfull⟩
          · rw [enroll_ident, hc, Option.map_some]

theorem handleFrame_change (hc : st.conns s = some c) (hr : c.phase = .reading) (f : Frame) :
    ∃ evs, (st.handleFrame cfg s c.me f).history = st.history ++ evs ∧
      Change cfg st (st.handleFrame cfg s c.me f) (.frame s f) evs := by
  have hi := ident_of_reading hc hr
  have nothing : ∀ f, ∃ evs, st.history = st.history ++ evs ∧ Change cfg st st (.frame s f) evs :=
    fun f => ⟨[], by simp, .same (fun _ _ => rfl) (fun _ => rfl) (by simp)⟩
  cases f with
  | close => exact cleanup_change hi (.inr (.inl rfl))
  | other => exact nothing _
  | badText err =>
    exact Change.of_own s [(s, .error "bad_json" err)] (by simp [ServerMsg.roomBound])
      (fun _ _ => by rw [handleFrame, trySend_eq_sendAll, sendAll_handle?])
      (fun t => by rw [handleFrame, trySend_eq_sendAll, ident_sendAll]) rfl
  | text msg =>
    cases msg with
    | join room userId name token => exact join_change hc hr room userId name token
    | offer dest sdp =>
      simp only [handleFrame, handleMsg]
      split
      · exact nothing _
      · exact relayTo_change hi dest _ (fun _ => rfl) (fun x y h => (Option.some.inj h).symm)
    | answer dest sdp =>
      simp only [handleFrame, handleMsg]
      split
      · exact nothing _
      · exact relayTo_change hi dest _ (fun _ => rfl) (fun x y h => (Option.some.inj h).symm)
    | ice dest candidate =>
      simp only [handleFrame, handleMsg]
      split
      · exact nothing _
      · exact relayTo_change hi dest _ (fun _ => rfl) (fun x y h => (Option.some.inj h).symm)
    | ptt active =>
      simp only [handleFrame, handleMsg, ptt]
      split
      · exact nothing _
      · rename_i room sender hme
        refine toRoom_change (hi.trans hme) _ (fun id msg hg => ?_) (fun id msg hg y hy => ?_)
        · simp only [ne_eq, ite_not, Option.ite_none_left_eq_some, Option.some.injEq] at hg
          rw [← hg.2]; rfl
        · simp only [ne_eq, ite_not, Option.ite_none_left_eq_some, Option.some.injEq] at hg
          rw [← hg.2] at hy
          exact (Option.some.inj hy).symm
    | rekey =>
      simp only [handleFrame, handleMsg, rekey]
      split
      · exact nothing _
      · rename_i room sender hme
        refine toRoom_change (hi.trans hme) _ (fun id msg hg => ?_) (fun id msg hg y hy => ?_)
        · rw [← Option.some.inj hg]; rfl
        · rw [← Option.some.inj hg] at hy
          cases hy
    | leave => exact cleanup_change hi (.inr (.inr rfl))

/-- Says once what a step of the server can do. -/
theorem step_change {a : SAct} (fresh : st.conns st.nextSocket = none) (hs : step cfg st a = some st') :
    ∃ evs, st'.history = st.history ++ evs ∧ Change cfg st st' a evs := by
  have quiet : (∀ room userId, st'.handle? room userId = st.handle? room userId) → (∀ t, st'.ident t = st.ident t) →
      st'.history = st.history → ∃ evs, st'.history = st.history ++ evs ∧ Change cfg st st' a evs :=
    fun h₁ h₂ h₃ => ⟨[], by simp [h₃], .same h₁ h₂ (by simp)⟩
  cases a with
  | accept =>
    cases Option.some.inj hs
    refine quiet (fun _ _ => rfl) (fun t => ?_) rfl
    by_cases ht : t = st.nextSocket
    · subst ht; simp [ident, fresh, Conn.ident]
    · simp [ident, ht]
  | frame s f =>
    obtain ⟨c, hc, hr, rfl⟩ := step_frame_inv hs
    exact handleFrame_change hc hr f
  | finishJoin s now =>
    obtain ⟨c, room, userId, roster, hc, hp, rfl⟩ := step_finishJoin_inv hs
    refine Change.of_own s ((s, .roster roster) :: (cfg.turn.map fun t =>
      (s, .turn (t.mint cfg.prim now userId))).toList) ?_ (fun _ _ => ?_) (fun t => ?_) rfl
    · intro p hp
      rcases List.mem_cons.mp hp with rfl | hp
      · rfl
      · simp only [Option.mem_toList, Option.map_eq_some_iff] at hp
        obtain ⟨_, -, rfl⟩ := hp
        rfl
    · simp [finishJoin]
    · rw [finishJoin, ident_modifyConn, ident_sendAll]
      intro c' hc'
      rw [sendAll_conns, hc, Option.map_some, Option.some.injEq] at hc'
      subst hc'
      simp [Conn.ident, hp]
  | close s =>
    obtain ⟨c, hc, hr, rfl⟩ := step_close_inv hs
    exact cleanup_change (ident_of_reading hc hr) (.inl rfl)
  | write s =>
    obtain ⟨c, -, -, rfl⟩ := step_write_inv hs
    exact quiet (fun _ _ => rfl) (fun t => by rw [ident_modifyConn]; intro _ _; rfl) rfl
  | writeFail s =>
    obtain ⟨c, -, -, rfl⟩ := step_writeFail_inv hs
    exact quiet (fun _ _ => rfl) (fun t => by rw [ident_modifyConn]; intro _ _; rfl) rfl
  | abort s =>
    obtain ⟨c, -, -, rfl⟩ := step_abort_inv hs
    exact quiet (fun _ _ => rfl) (fun t => by rw [ident_modifyConn]; intro _ _; rfl) rfl
  | rehash room r =>
    obtain ⟨r₀, hr₀, hperm, rfl⟩ := step_rehash_inv hs
    refine quiet (fun room' userId => ?_) (fun _ => rfl) rfl
    rw [setRoom_handle?]
    split
    · subst room'
      simp [handle?, hr₀, AList.perm_lookup hperm]
    · rfl
  | restart =>
    cases Option.some.inj hs
    refine ⟨[], by simp, .restarted rfl (fun _ _ => rfl) (fun t => ?_) rfl⟩
    rintro ⟨c, hc, hp⟩
    simp only [Option.map_eq_some_iff] at hc
    obtain ⟨c₀, -, rfl⟩ := hc
    exact hp rfl

end

end Server

end SquadLink

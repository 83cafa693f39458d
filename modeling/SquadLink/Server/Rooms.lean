import SquadLink.Server.Isolation
import SquadLink.Server.Reception

/-! The rooms map of a reachable state: a listed room is neither empty nor above the hard cap, and a handle
    belongs to an open socket that joined under it. A refused Join touches nothing but its own socket's queue. -/

namespace SquadLink

namespace Server

/-- Every listed room has a member and is within the hard cap. -/
def RoomsBounded (st : Server) : Prop :=
  ∀ room r, st.rooms room = some r → 1 ≤ r.keys.length ∧ r.keys.length ≤ hardCap

/-- Every handle belongs to an open socket whose accepted Join was for the room and user it is listed under. -/
def HandlesOpen (st : Server) : Prop :=
  ∀ room userId h, st.handle? room userId = some h →
    st.IsOpen h.tx ∧ ∃ token, .accepted h.tx room userId token ∈ st.history

/-- A Join that is not accepted leaves the rooms as they are and every other socket alone. -/
def RefusalsInert (cfg : ServerConfig) (st : Server) : Prop :=
  ∀ s room userId name token st', step cfg st (.frame s (.text (.join room userId name token))) = some st' →
    ¬ Admits cfg st s room userId name token → st'.rooms = st.rooms ∧ ∀ t, t ≠ s → st'.conns t = st.conns t

section
variable {cfg : ServerConfig} {st st' : Server} {s : SocketId} {c : Conn} {a : SAct}

@[simp] theorem finish_rooms (st : Server) (s : SocketId) : (st.finish s).rooms = st.rooms := rfl

/-- A message is an accepted Join, ends the loop, or leaves every room as it is. -/
theorem handleMsg_rooms (hc : st.conns s = some c) (hr : c.phase = .reading) (msg : ClientMsg) :
    (∃ room userId name token, Admits cfg st s room userId name token ∧
      st.handleMsg cfg s c.me msg = st.enroll s room userId name token) ∨
    st.handleMsg cfg s c.me msg = st.cleanup s c.me ∨ (st.handleMsg cfg s c.me msg).rooms = st.rooms := by
  cases msg with
  | join room userId name token =>
    simp only [handleMsg, join]
    split
    · exact Or.inr (Or.inr (trySend_rooms ..))
    · split
      · exact Or.inr (Or.inr (by simp))
      · split
        · exact Or.inr (Or.inr (by simp))
        · split
          · exact Or.inr (Or.inr (by simp))
          · rename_i hme hb ha hf
            exact Or.inl ⟨room, userId, name, token,
              ⟨⟨c, hc, hr, by simpa using hme⟩, by simpa using hb, by simpa using ha, by simpa using hf⟩, rfl⟩
  | offer dest sdp => simp only [handleMsg]; split <;> simp [relayTo_eq]
  | answer dest sdp => simp only [handleMsg]; split <;> simp [relayTo_eq]
  | ice dest candidate => simp only [handleMsg]; split <;> simp [relayTo_eq]
  | ptt active =>
    right; right
    cases hme : c.me with
    | none => simp [handleMsg, ptt]
    | some p => simp [handleMsg, ptt, toRoom_eq]
  | rekey =>
    right; right
    cases hme : c.me with
    | none => simp [handleMsg, rekey]
    | some p => simp [handleMsg, rekey, toRoom_eq]
  | leave => exact Or.inr (Or.inl rfl)

theorem handleFrame_rooms (hc : st.conns s = some c) (hr : c.phase = .reading) (f : Frame) :
    (∃ room userId name token, Admits cfg st s room userId name token ∧
      st.handleFrame cfg s c.me f = st.enroll s room userId name token) ∨
    st.handleFrame cfg s c.me f = st.cleanup s c.me ∨ (st.handleFrame cfg s c.me f).rooms = st.rooms := by
  cases f with
  | text msg => exact handleMsg_rooms hc hr msg
  | badText err => exact Or.inr (Or.inr (trySend_rooms ..))
  | close => exact Or.inr (Or.inl rfl)
  | other => exact Or.inr (Or.inr rfl)

theorem roomOf_length_le (bounded : st.RoomsBounded) (room : String) : (st.roomOf room).keys.length ≤ hardCap := by
  cases hr : st.rooms room with
  | none => simp [roomOf_none hr]
  | some r =>
    rw [roomOf_some hr]
    exact (bounded room r hr).2

theorem RoomsBounded.of_rooms (bounded : st.RoomsBounded) (h : st'.rooms = st.rooms) : st'.RoomsBounded := by
  intro room r hr
  rw [h] at hr
  exact bounded room r hr

/-- A member that comes back does not make its room grow, and another one fits below the cap. -/
theorem roomsBounded_enroll (bounded : st.RoomsBounded) {room userId name : String} {token : Option String}
    (free : st.isFull room userId = false) : (st.enroll s room userId name token).RoomsBounded := by
  intro room' r' hr'
  simp only [enroll, modifyConn_rooms, sendAll_rooms, record_rooms, setRoom] at hr'
  by_cases hroom : room' = room
  · subst hroom
    rw [Function.update_self, Option.some.injEq] at hr'
    subst hr'
    have size : (((st.roomOf room').erase userId).insert userId { name, tx := s }).keys.length =
        ((st.roomOf room').keys.erase userId).length + 1 := by
      rw [AList.keys_insert, AList.keys_erase, List.length_cons]
      rw [List.erase_of_not_mem (st.roomOf room').keys_nodup.not_mem_erase]
    rw [size]
    refine ⟨Nat.le_add_left 1 _, ?_⟩
    have within : (st.roomOf room').keys.length ≤ hardCap := by
      cases hs : st.rooms room' with
      | none => rw [roomOf_none hs]; exact Nat.zero_le _
      | some r => rw [roomOf_some hs]; exact (bounded room' r hs).2
    by_cases hm : userId ∈ (st.roomOf room').keys
    · have pos := List.length_pos_of_mem hm
      rw [List.length_erase_of_mem hm]
      omega
    · rw [List.erase_of_not_mem hm]
      simp only [isFull, Bool.and_eq_false_iff, decide_eq_false_iff_not, Bool.not_eq_false'] at free
      rcases free with free | free
      · omega
      · exact absurd (AList.mem_keys.mp (of_decide_eq_true free)) hm
  · rw [Function.update_of_ne hroom] at hr'
    exact bounded room' r' hr'

/-- The last member takes the room with it. -/
theorem roomsBounded_cleanup (bounded : st.RoomsBounded) (me : Option (String × String)) :
    (st.cleanup s me).RoomsBounded := by
  unfold cleanup
  rcases me with _ | ⟨room, userId⟩
  · exact bounded.of_rooms rfl
  · cases hr : st.rooms room with
    | none => simp only [hr]; exact bounded.of_rooms rfl
    | some r =>
      simp only [hr]
      intro room' r' hr'
      simp only [finish_rooms, setRoom, sendAll_rooms] at hr'
      by_cases hroom : room' = room
      · subst hroom
        rw [Function.update_self] at hr'
        split at hr'
        · cases hr'
        · rename_i hne
          cases Option.some.inj hr'
          have pos : 0 < (r.erase userId).keys.length := by
            refine List.length_pos_of_ne_nil fun hnil => hne ?_
            rw [hnil]; rfl
          refine ⟨pos, le_trans ?_ (bounded room' r hr).2⟩
          rw [AList.keys_erase]
          exact List.length_erase_le
      · rw [Function.update_of_ne hroom] at hr'
        exact bounded room' r' hr'

theorem roomsBounded_step (bounded : st.RoomsBounded) (hs : step cfg st a = some st') : st'.RoomsBounded := by
  cases a with
  | accept =>
    cases Option.some.inj hs
    exact bounded.of_rooms rfl
  | frame s f =>
    obtain ⟨c, hc, hr, rfl⟩ := step_frame_inv hs
    rcases handleFrame_rooms hc hr f with ⟨room, userId, name, token, admits, h⟩ | h | h
    · rw [h]; exact roomsBounded_enroll bounded admits.2.2.2
    · rw [h]; exact roomsBounded_cleanup bounded c.me
    · exact bounded.of_rooms h
  | finishJoin s now =>
    obtain ⟨c, room, userId, roster, -, -, rfl⟩ := step_finishJoin_inv hs
    exact bounded.of_rooms (by simp [finishJoin])
  | close s =>
    obtain ⟨c, -, -, rfl⟩ := step_close_inv hs
    exact roomsBounded_cleanup bounded c.me
  | write s => obtain ⟨c, -, -, rfl⟩ := step_write_inv hs; exact bounded.of_rooms rfl
  | writeFail s => obtain ⟨c, -, -, rfl⟩ := step_writeFail_inv hs; exact bounded.of_rooms rfl
  | abort s => obtain ⟨c, -, -, rfl⟩ := step_abort_inv hs; exact bounded.of_rooms rfl
  | rehash room r =>
    obtain ⟨r₀, hr₀, hp, rfl⟩ := step_rehash_inv hs
    intro room' r' hr'
    by_cases hroom : room' = room
    · subst hroom
      simp only [setRoom, Function.update_self, Option.some.injEq] at hr'
      subst hr'
      have same : r.keys.length = r₀.keys.length := by
        simp only [AList.keys, List.keys, List.length_map]
        exact hp.length_eq
      rw [same]
      exact bounded room' r₀ hr₀
    · simp only [setRoom, Function.update_of_ne hroom] at hr'
      exact bounded room' r' hr'
  | restart =>
    cases Option.some.inj hs
    intro room r hr
    cases hr

theorem refusalsInert (cfg : ServerConfig) (st : Server) : RefusalsInert cfg st := by
  intro s room userId name token st' hs refused
  obtain ⟨c, hc, hr, rfl⟩ := step_frame_inv hs
  -- What every refusal does: it sends to its own socket, and may end its loop.
  have others : ∀ t, t ≠ s → ∀ msg, (st.trySend s s msg).conns t = st.conns t ∧
      ((st.trySend s s msg).finish s).conns t = st.conns t := by
    intro t ht msg
    have sent : (st.trySend s s msg).conns t = st.conns t := by
      rw [trySend_conns]
      simp [Ne.symm ht]
    exact ⟨sent, by rw [finish, modifyConn_conns_ne _ _ _ ht, sent]⟩
  simp only [handleFrame, handleMsg, join]
  split
  · exact ⟨trySend_rooms .., fun t ht => (others t ht _).1⟩
  · split
    · exact ⟨by simp, fun t ht => (others t ht _).2⟩
    · split
      · exact ⟨by simp, fun t ht => (others t ht _).2⟩
      · split
        · exact ⟨by simp, fun t ht => (others t ht _).2⟩
        · rename_i hme hb ha hf
          exact absurd ⟨⟨c, hc, hr, by simpa using hme⟩, by simpa using hb, by simpa using ha, by simpa using hf⟩ refused

/-- In every reachable state the rooms are bounded and list open, joined sockets only, and refusals are inert. -/
theorem rooms_sound {ok : Server → SAct → Server → Prop} (h : Lts.Reach (step cfg) ok empty st) :
    st.RoomsBounded ∧ st.HandlesOpen ∧ RefusalsInert cfg st := by
  have inv : Inv cfg st := inv_reach h
  have bounded : st.RoomsBounded := h.invariant (fun _ _ hr => by cases hr) fun _ _ _ ih _ hs => roomsBounded_step ih hs
  refine ⟨bounded, fun room userId hd hh => ?_, refusalsInert cfg st⟩
  have hi := inv.listed room userId hd hh
  exact ⟨isOpen_of_ident hi, inv.joined _ _ _ hi⟩

end

theorem rooms_sound_offer :
    (∃ r, afterOffer.rooms "r" = some r ∧ r.keys.length = 2) ∧ afterOffer.RoomsBounded ∧ afterOffer.HandlesOpen ∧
      RefusalsInert openConfig afterOffer :=
  ⟨⟨_, rfl, rfl⟩, rooms_sound (Lts.Reach.of_exec (fun _ _ _ _ => trivial) exec_offerActs : Lts.Reach _ Lts.anyStep _ _)⟩

end Server

end SquadLink

import SquadLink.Server.Invariants

/-! What a listed socket is sent. The rooms list a socket under one room and user id only, so each
    broadcast holds exactly one message for it, and a relay one if it is for its user. -/

namespace SquadLink

namespace Server

/-- The soft-cap warning of a room of that size, if it has reached the cap. -/
def warning (size : Nat) : List ServerMsg := if warnCap ≤ size then [.warn size warnCap] else []

section
variable {cfg : ServerConfig} {st : Server} {room userId : String} {h : PeerHandle}

/-- An entry of some room with the same socket is the same entry. -/
theorem Inv.entry_unique (inv : Inv cfg st) (listed : st.handle? room userId = some h) {room' k : String} {b : PeerHandle}
    (hb : (st.roomOf room').lookup k = some b) (htx : b.tx = h.tx) : room' = room ∧ k = userId := by
  rw [roomOf_lookup] at hb
  have hi := inv.listed _ _ _ hb
  rw [htx, inv.listed _ _ _ listed, Option.some.injEq, Prod.mk.injEq] at hi
  exact ⟨hi.1.symm, hi.2.symm⟩

theorem sentTo_toRoomSends (inv : Inv cfg st) (listed : st.handle? room userId = some h) (room' : String)
    (g : String → Option ServerMsg) :
    Fifo.sentTo h.tx (toRoomSends st room' g) = if room' = room then (g userId).toList else [] := by
  unfold toRoomSends
  split
  · subst room'
    exact Fifo.sentTo_broadcast_of_lookup ((roomOf_lookup ..).trans listed) rfl
      fun k b hb htx => (inv.entry_unique listed hb htx).2
  · rename_i hne
    exact Fifo.sentTo_broadcast_of_absent fun k b hb htx => hne (inv.entry_unique listed hb htx).1

theorem sentTo_relaySends (inv : Inv cfg st) (listed : st.handle? room userId = some h) (room' sender dest : String)
    (build : String → ServerMsg) :
    Fifo.sentTo h.tx (relaySends st (some (room', sender)) dest build) =
      if room' = room ∧ dest = userId then [build sender] else [] := by
  unfold relaySends
  cases hd : st.handle? room' dest with
  | none =>
    rw [if_neg]
    · simp [hd]
    · rintro ⟨rfl, rfl⟩
      rw [hd] at listed
      cases listed
  | some b =>
    simp only [hd, Option.map_some, Option.toList_some, Fifo.sentTo_cons, Fifo.sentTo_nil]
    by_cases htx : b.tx = h.tx
    · obtain ⟨rfl, rfl⟩ := inv.entry_unique listed ((roomOf_lookup ..).trans hd) htx
      simp [htx]
    · rw [if_neg htx, if_neg]
      rintro ⟨rfl, rfl⟩
      rw [hd] at listed
      cases listed
      exact htx rfl

theorem sentTo_cleanupSends (inv : Inv cfg st) (listed : st.handle? room userId = some h) (room' gone : String) :
    Fifo.sentTo h.tx (cleanupSends st (some (room', gone))) =
      if room' = room ∧ userId ≠ gone then [.peerLeft gone] else [] := by
  simp only [cleanupSends]
  have kept : ∀ {k b}, ((st.roomOf room').erase gone).lookup k = some b → k ≠ gone ∧
      (st.roomOf room').lookup k = some b := by
    intro k b hb
    have hne : k ≠ gone := fun hk => by
      rw [hk, AList.lookup_erase] at hb
      cases hb
    exact ⟨hne, by rw [← AList.lookup_erase_ne hne]; exact hb⟩
  split
  · rename_i hc
    obtain ⟨rfl, hne⟩ := hc
    refine Fifo.sentTo_broadcast_of_lookup ?_ rfl fun k b hb htx => (inv.entry_unique listed (kept hb).2 htx).2
    rw [AList.lookup_erase_ne hne, roomOf_lookup]
    exact listed
  · rename_i hc
    refine Fifo.sentTo_broadcast_of_absent fun k b hb htx => hc ?_
    obtain ⟨hne, hb⟩ := kept hb
    obtain ⟨rfl, rfl⟩ := inv.entry_unique listed hb htx
    exact ⟨rfl, hne⟩

/-- What the members of a room get when a socket that is not yet listed joins it. -/
theorem sentTo_joinSends (inv : Inv cfg st) (listed : st.handle? room userId = some h) {s : SocketId} (hs : s ≠ h.tx)
    (room' joiner name : String) :
    Fifo.sentTo h.tx (joinSends (st.roomOf room') s joiner name) =
      if room' = room then
        if userId = joiner then [.error "superseded" "joined from another connection"]
        else .peerJoined joiner name :: warning
          (((st.roomOf room').erase joiner).insert joiner { name, tx := s }).keys.length
      else [] := by
  -- The entries of the room with the joiner in it.
  have entry : ∀ {k b}, (((st.roomOf room').erase joiner).insert joiner { name, tx := s }).lookup k = some b → b.tx = h.tx →
      k ≠ joiner ∧ room' = room ∧ k = userId := by
    intro k b hb htx
    by_cases hk : k = joiner
    · rw [hk, AList.lookup_insert, Option.some.injEq] at hb
      rw [← hb] at htx
      exact absurd htx hs
    · rw [AList.lookup_insert_ne hk, AList.lookup_erase_ne hk] at hb
      exact ⟨hk, inv.entry_unique listed hb htx⟩
  have none_of : (¬ room' = room ∨ userId = joiner) → ∀ g : String → Option ServerMsg,
      Fifo.sentTo h.tx (Fifo.broadcast PeerHandle.tx g
        (((st.roomOf room').erase joiner).insert joiner { name, tx := s })) = [] := by
    intro hc g
    refine Fifo.sentTo_broadcast_of_absent fun k b hb htx => ?_
    obtain ⟨hne, hr, rfl⟩ := entry hb htx
    exact hc.elim (fun hn => hn hr) hne
  simp only [joinSends, Fifo.sentTo_append]
  by_cases hroom : room' = room
  · subst hroom
    rw [if_pos rfl]
    by_cases hj : userId = joiner
    · subst hj
      have warn : Fifo.sentTo h.tx
          (if warnCap ≤ (((st.roomOf room').erase userId).insert userId { name, tx := s }).keys.length then
          Fifo.broadcast PeerHandle.tx (fun _ => some (ServerMsg.warn
            (((st.roomOf room').erase userId).insert userId { name, tx := s }).keys.length warnCap))
            (((st.roomOf room').erase userId).insert userId { name, tx := s }) else []) = [] := by
        split
        · exact none_of (.inr rfl) _
        · rfl
      rw [if_pos rfl, none_of (.inr rfl), warn, roomOf_lookup, listed]
      simp [Fifo.sentTo_cons]
    · have entry' : (((st.roomOf room').erase joiner).insert joiner { name, tx := s }).lookup userId = some h := by
        rw [AList.lookup_insert_ne hj, AList.lookup_erase_ne hj, roomOf_lookup]
        exact listed
      have told : ∀ g : String → Option ServerMsg, Fifo.sentTo h.tx (Fifo.broadcast PeerHandle.tx g
          (((st.roomOf room').erase joiner).insert joiner { name, tx := s })) = (g userId).toList := fun g =>
        Fifo.sentTo_broadcast_of_lookup entry' rfl fun k b hb htx => (entry hb htx).2.2
      have old : Fifo.sentTo h.tx (((st.roomOf room').lookup joiner).map fun old =>
          (old.tx, ServerMsg.error "superseded" "joined from another connection")).toList = [] := by
        cases hl : (st.roomOf room').lookup joiner with
        | none => rfl
        | some b =>
          have hne : b.tx ≠ h.tx := fun htx => hj (inv.entry_unique listed hl htx).2.symm
          simp [Fifo.sentTo_cons, hne]
      have warn : Fifo.sentTo h.tx
          (if warnCap ≤ (((st.roomOf room').erase joiner).insert joiner { name, tx := s }).keys.length then
          Fifo.broadcast PeerHandle.tx (fun _ => some (ServerMsg.warn
            (((st.roomOf room').erase joiner).insert joiner { name, tx := s }).keys.length warnCap))
            (((st.roomOf room').erase joiner).insert joiner { name, tx := s }) else []) =
          warning (((st.roomOf room').erase joiner).insert joiner { name, tx := s }).keys.length := by
        unfold warning
        split
        · exact told _
        · rfl
      rw [if_neg hj, old, warn, told]
      simp [hj]
  · rw [if_neg hroom]
    have old : Fifo.sentTo h.tx (((st.roomOf room').lookup joiner).map fun old =>
        (old.tx, ServerMsg.error "superseded" "joined from another connection")).toList = [] := by
      cases hl : (st.roomOf room').lookup joiner with
      | none => rfl
      | some b =>
        have hne : b.tx ≠ h.tx := fun htx => hroom (inv.entry_unique listed hl htx).1
        simp [Fifo.sentTo_cons, hne]
    rw [old, none_of (.inl hroom)]
    split
    · rw [none_of (.inl hroom)]
      rfl
    · rfl

end

end Server

end SquadLink

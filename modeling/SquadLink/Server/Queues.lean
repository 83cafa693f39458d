import SquadLink.Server.Registry

/-! What handling a frame does to the socket records: the messages it sends, as one list, and the end of
    the reader loop. Every other socket only gets what is addressed to it. -/

namespace SquadLink

namespace Server

section
variable (cfg : ServerConfig) (st : Server) (s : SocketId) (me : Option (String × String))

def cleanupSends : List (SocketId × ServerMsg) :=
  match me with
  | none => []
  | some (room, userId) =>
    Fifo.broadcast PeerHandle.tx (fun _ => some (.peerLeft userId)) ((st.roomOf room).erase userId)

def relaySends (dest : String) (build : String → ServerMsg) : List (SocketId × ServerMsg) :=
  match me with
  | none => []
  | some (room, sender) => ((st.handle? room dest).map fun h => (h.tx, build sender)).toList

def toRoomSends (room : String) (g : String → Option ServerMsg) : List (SocketId × ServerMsg) :=
  Fifo.broadcast PeerHandle.tx g (st.roomOf room)

/-- What a Join sends before its reader loop goes on or ends. -/
def joinReply (room userId name : String) (token : Option String) : List (SocketId × ServerMsg) :=
  if me.isSome then [(s, .error "already_joined" "this socket already joined a room")]
  else if joinOutOfBounds room userId name token then [(s, .error "bad_input" "field empty or too long")]
  else if !cfg.auth.check cfg.prim room token then [(s, .error "bad_token" "invalid room token")]
  else if st.isFull room userId then [(s, .roomFull hardCap)]
  else joinSends (st.roomOf room) s userId name

/-- All messages that handling a frame sends. -/
def frameSends : Frame → List (SocketId × ServerMsg)
  | .text (.join room userId name token) => joinReply cfg st s me room userId name token
  | .text (.offer dest sdp) =>
    if !lenOk dest maxId || decide (maxSdp < sdp.text.utf8ByteSize) then []
    else relaySends st me dest fun sender => .offer sender sdp
  | .text (.answer dest sdp) =>
    if !lenOk dest maxId || decide (maxSdp < sdp.text.utf8ByteSize) then []
    else relaySends st me dest fun sender => .answer sender sdp
  | .text (.ice dest candidate) =>
    if !lenOk dest maxId || decide (maxIce < candidate.text.utf8ByteSize) then []
    else relaySends st me dest fun sender => .ice sender candidate
  | .text (.ptt active) =>
    match me with
    | none => []
    | some (room, sender) => toRoomSends st room fun id => if id ≠ sender then some (.ptt sender active) else none
  | .text .rekey =>
    match me with
    | none => []
    | some (room, sender) =>
      toRoomSends st room fun _ => some (.rekey (((st.handle? room sender).map (·.name)).getD ""))
  | .text .leave => cleanupSends st me
  | .badText err => [(s, .error "bad_json" err)]
  | .close => cleanupSends st me
  | .other => []

/-- The phase of a Join's socket afterwards. -/
def joinPhase (room userId name : String) (token : Option String) : Phase :=
  if me.isSome then .reading
  else if joinOutOfBounds room userId name token then .ended
  else if !cfg.auth.check cfg.prim room token then .ended
  else if st.isFull room userId then .ended
  else .joining room userId (rosterOf (st.roomOf room) userId)

/-- The phase of the socket after its reader loop has handled a frame. -/
def framePhase : Frame → Phase
  | .text (.join room userId name token) => joinPhase cfg st me room userId name token
  | .text .leave => .ended
  | .close => .ended
  | _ => .reading

end

section
variable {cfg : ServerConfig} {st : Server} {s : SocketId} {c : Conn}

theorem roomOf_none {room : String} (h : st.rooms room = none) : st.roomOf room = ∅ := by simp [roomOf, h]

theorem roomOf_some {room : String} {r : Room} (h : st.rooms room = some r) : st.roomOf room = r := by simp [roomOf, h]

theorem broadcast_empty (g : String → Option ServerMsg) : Fifo.broadcast PeerHandle.tx g (∅ : Room) = [] := rfl

theorem cleanup_conns (me : Option (String × String)) (t : SocketId) :
    (st.cleanup s me).conns t = (st.conns t).map fun c =>
      let c := c.pushAll (Fifo.sentTo t (cleanupSends st me))
      if t = s then { c with phase := .ended } else c := by
  have ended : ∀ (st : Server) (t : SocketId),
      (st.finish s).conns t = (st.conns t).map fun c => if t = s then { c with phase := .ended } else c := by
    intro st t
    rw [finish, modifyConn_conns]
    by_cases h : t = s
    · subst h; simp
    · simp [h]
  unfold cleanup cleanupSends
  cases me with
  | none => simp [ended]
  | some p =>
    obtain ⟨room, userId⟩ := p
    cases hr : st.rooms room with
    | none =>
      have hnil : ((st.roomOf room).erase userId).entries = [] := by
        rw [roomOf_none hr]
        rfl
      simp [hr, ended, Fifo.broadcast, hnil]
    | some r =>
      simp only [hr, ended, setRoom_conns, sendAll_conns, Option.map_map, roomOf_some hr]
      rfl

theorem relayTo_eq (me : Option (String × String)) (dest : String) (build : String → ServerMsg) :
    st.relayTo s me dest build = st.sendAll s (relaySends st me dest build) := by
  unfold relayTo relaySends
  cases me with
  | none => rfl
  | some p =>
    cases hh : st.handle? p.1 dest <;> simp [hh, trySend_eq_sendAll]

theorem toRoom_eq (room : String) (g : String → Option ServerMsg) :
    st.toRoom s room g = st.sendAll s (toRoomSends st room g) := by
  unfold toRoom toRoomSends
  cases hr : st.rooms room with
  | none => simp [roomOf_none hr, broadcast_empty]
  | some r => simp [roomOf_some hr]

theorem join_conns (hc : st.conns s = some c) (hr : c.phase = .reading) (room userId name : String)
    (token : Option String) (t : SocketId) :
    (st.join cfg s c.me room userId name token).conns t = (st.conns t).map fun c' =>
      let c' := c'.pushAll (Fifo.sentTo t (joinReply cfg st s c.me room userId name token))
      if t = s then { c' with phase := joinPhase cfg st c.me room userId name token } else c' := by
  unfold join joinReply joinPhase
  by_cases ht : t = s
  · subst ht
    simp only [hc, Option.map_some, ↓reduceIte]
    split
    · rw [trySend_eq_sendAll, sendAll_conns, hc, Option.map_some, Conn.with_phase_eq]
      rw [Conn.pushAll_phase, hr]
    · split
      · simp [finish, trySend_eq_sendAll, sendAll_conns, hc]
      · split
        · simp [finish, trySend_eq_sendAll, sendAll_conns, hc]
        · split
          · simp [finish, trySend_eq_sendAll, sendAll_conns, hc]
          · simp [enroll, sendAll_conns, hc]
  · simp only [ht, ↓reduceIte]
    split
    · rw [trySend_eq_sendAll, sendAll_conns]
    · split
      · rw [finish, modifyConn_conns_ne _ _ _ ht, trySend_eq_sendAll, sendAll_conns]
      · split
        · rw [finish, modifyConn_conns_ne _ _ _ ht, trySend_eq_sendAll, sendAll_conns]
        · split
          · rw [finish, modifyConn_conns_ne _ _ _ ht, trySend_eq_sendAll, sendAll_conns]
          · rw [enroll, modifyConn_conns_ne _ _ _ ht, sendAll_conns, record_conns, setRoom_conns]

/-- Handling a frame: every socket gets what is addressed to it, and the phase of the frame's own socket
    is as `framePhase` says. -/
theorem handleFrame_conns (hc : st.conns s = some c) (hr : c.phase = .reading) (f : Frame) (t : SocketId) :
    (st.handleFrame cfg s c.me f).conns t = (st.conns t).map fun c' =>
      let c' := c'.pushAll (Fifo.sentTo t (frameSends cfg st s c.me f))
      if t = s then { c' with phase := framePhase cfg st c.me f } else c' := by
  -- A frame that only sends leaves the phase of its socket at `reading`.
  have sends : ∀ out, (st.sendAll s out).conns t = (st.conns t).map fun c' =>
      let c' := c'.pushAll (Fifo.sentTo t out)
      if t = s then { c' with phase := .reading } else c' := by
    intro out
    rw [sendAll_conns]
    by_cases ht : t = s
    · subst ht
      simp only [hc, Option.map_some, ↓reduceIte]
      rw [Conn.with_phase_eq]
      rw [Conn.pushAll_phase, hr]
    · simp [ht]
  have nothing := sends []
  rw [sendAll_nil] at nothing
  cases f with
  | close => exact cleanup_conns _ t
  | other => exact nothing
  | badText err => exact sends [(s, .error "bad_json" err)]
  | text msg =>
    cases msg with
    | join room userId name token => exact join_conns hc hr room userId name token t
    | offer dest sdp =>
      simp only [handleFrame, handleMsg, frameSends, framePhase]
      split
      · exact nothing
      · rw [relayTo_eq]; exact sends _
    | answer dest sdp =>
      simp only [handleFrame, handleMsg, frameSends, framePhase]
      split
      · exact nothing
      · rw [relayTo_eq]; exact sends _
    | ice dest candidate =>
      simp only [handleFrame, handleMsg, frameSends, framePhase]
      split
      · exact nothing
      · rw [relayTo_eq]; exact sends _
    | ptt active =>
      simp only [handleFrame, handleMsg, frameSends, framePhase, ptt]
      rcases c.me with _ | ⟨room, sender⟩
      · exact nothing
      · simp only [toRoom_eq]
        exact sends _
    | rekey =>
      simp only [handleFrame, handleMsg, frameSends, framePhase, rekey]
      rcases c.me with _ | ⟨room, sender⟩
      · exact nothing
      · simp only [toRoom_eq]
        exact sends _
    | leave => exact cleanup_conns _ t

/-- The messages of the second part of a Join. -/
def finishSends (cfg : ServerConfig) (s : SocketId) (now : Nat) (userId : String) (roster : List PeerInfo) :
    List (SocketId × ServerMsg) :=
  (s, .roster roster) :: (cfg.turn.map fun t => (s, .turn (t.mint cfg.prim now userId))).toList

theorem finishJoin_conns (now : Nat) (room userId : String) (roster : List PeerInfo) (t : SocketId) :
    (st.finishJoin cfg s now room userId roster).conns t = (st.conns t).map fun c =>
      let c := c.pushAll (Fifo.sentTo t (finishSends cfg s now userId roster))
      if t = s then { c with phase := .reading, me := some (room, userId) } else c := by
  rw [finishJoin, modifyConn_conns]
  by_cases ht : t = s
  · subst ht; simp [sendAll_conns, Function.comp_def, finishSends]
  · simp [ht, sendAll_conns, finishSends]

end

end Server

end SquadLink

import SquadLink.Server.State

/-! What the server does (`handle_socket`, `relay_to`): one reader loop for each socket, whose accesses to
    the rooms map are atomic, and one writer task for each socket. Every interleaving of the sockets is a
    run of `Server.step`. -/

namespace SquadLink

structure ServerConfig where
  prim : Crypto
  auth : AuthConfig
  turn : Option TurnConfig

namespace Server

/-- Leaves the reader loop without having joined, and for the last part of the cleanup. -/
def finish (st : Server) (s : SocketId) : Server := st.modifyConn s fun c => { c with phase := .ended }

/-- The end of the reader loop: drop the user from the room and tell the others. -/
def cleanup (st : Server) (s : SocketId) (me : Option (String × String)) : Server :=
  match me with
  | none => st.finish s
  | some (room, userId) =>
    match st.rooms room with
    | none => st.finish s
    | some r =>
      let r := r.erase userId
      ((st.sendAll s (Fifo.broadcast PeerHandle.tx (fun _ => some (.peerLeft userId)) r)).setRoom room
        (if r.keys.isEmpty then none else some r)).finish s

def relayTo (st : Server) (s : SocketId) (me : Option (String × String)) (dest : String)
    (build : String → ServerMsg) : Server :=
  match me with
  | none => st
  | some (room, sender) =>
    match st.handle? room dest with
    | none => st
    | some h => st.trySend s h.tx (build sender)

/-- The `ptt` and `rekey` arms: one message for every entry of the room that `g` chooses. -/
def toRoom (st : Server) (s : SocketId) (room : String) (g : String → Option ServerMsg) : Server :=
  match st.rooms room with
  | none => st
  | some r => st.sendAll s (Fifo.broadcast PeerHandle.tx g r)

def ptt (st : Server) (s : SocketId) (me : Option (String × String)) (active : Bool) : Server :=
  match me with
  | none => st
  | some (room, sender) => st.toRoom s room fun id => if id ≠ sender then some (.ptt sender active) else none

/-- A key rotation is broadcast to the whole room, the initiator included. -/
def rekey (st : Server) (s : SocketId) (me : Option (String × String)) : Server :=
  match me with
  | none => st
  | some (room, sender) =>
    st.toRoom s room fun _ => some (.rekey (((st.handle? room sender).map (·.name)).getD ""))

/-- Some field of a Join is empty or too long. -/
def joinOutOfBounds (room userId name : String) (token : Option String) : Bool :=
  !lenOk room maxId || !lenOk userId maxId || !lenOk name maxName ||
    (token.map fun t => decide (maxToken < t.utf8ByteSize)).getD false

/-- The room a Join finds (`entry(room).or_default()`). -/
def roomOf (st : Server) (room : String) : Room := (st.rooms room).getD ∅

/-- The roster a joiner gets: the other members. -/
def rosterOf (r : Room) (userId : String) : List PeerInfo :=
  (r.erase userId).entries.map fun e => { userId := e.1, name := e.2.name }

/-- The messages of a Join's critical section, in order: the superseded connection is told, then the
    members about the newcomer, then everybody about the soft cap. -/
def joinSends (r : Room) (s : SocketId) (userId name : String) : List (SocketId × ServerMsg) :=
  let r' := (r.erase userId).insert userId { name, tx := s }
  ((r.lookup userId).map fun old => (old.tx, ServerMsg.error "superseded" "joined from another connection")).toList ++
  Fifo.broadcast PeerHandle.tx (fun id => if id ≠ userId then some (.peerJoined userId name) else none) r' ++
  if warnCap ≤ r'.keys.length then
    Fifo.broadcast PeerHandle.tx (fun _ => some (.warn r'.keys.length warnCap)) r' else []

/-- The critical section of a Join that is within the cap. -/
def enroll (st : Server) (s : SocketId) (room userId name : String) (token : Option String) : Server :=
  let r := st.roomOf room
  let r' := (r.erase userId).insert userId { name, tx := s }
  (((st.setRoom room (some r')).record (.accepted s room userId token)).sendAll s (joinSends r s userId name)).modifyConn s
    fun c => { c with phase := .joining room userId (rosterOf r userId) }

/-- The room is at the hard cap and the user is not a member. -/
def isFull (st : Server) (room userId : String) : Bool :=
  decide (hardCap ≤ (st.roomOf room).keys.length) && !decide (userId ∈ st.roomOf room)

def join (cfg : ServerConfig) (st : Server) (s : SocketId) (me : Option (String × String))
    (room userId name : String) (token : Option String) : Server :=
  if me.isSome then
    st.trySend s s (.error "already_joined" "this socket already joined a room")
  else if joinOutOfBounds room userId name token then
    (st.trySend s s (.error "bad_input" "field empty or too long")).finish s
  else if !cfg.auth.check cfg.prim room token then
    (st.trySend s s (.error "bad_token" "invalid room token")).finish s
  else if st.isFull room userId then
    (st.trySend s s (.roomFull hardCap)).finish s
  else st.enroll s room userId name token

/-- One round of the reader loop on a parsed message. -/
def handleMsg (cfg : ServerConfig) (st : Server) (s : SocketId) (me : Option (String × String)) :
    ClientMsg → Server
  | .join room userId name token => st.join cfg s me room userId name token
  | .offer dest sdp =>
    if !lenOk dest maxId || decide (maxSdp < sdp.text.utf8ByteSize) then st
    else st.relayTo s me dest fun sender => .offer sender sdp
  | .answer dest sdp =>
    if !lenOk dest maxId || decide (maxSdp < sdp.text.utf8ByteSize) then st
    else st.relayTo s me dest fun sender => .answer sender sdp
  | .ice dest candidate =>
    if !lenOk dest maxId || decide (maxIce < candidate.text.utf8ByteSize) then st
    else st.relayTo s me dest fun sender => .ice sender candidate
  | .ptt active => st.ptt s me active
  | .rekey => st.rekey s me
  | .leave => st.cleanup s me

def handleFrame (cfg : ServerConfig) (st : Server) (s : SocketId) (me : Option (String × String)) : Frame → Server
  | .text msg => st.handleMsg cfg s me msg
  | .badText err => st.trySend s s (.error "bad_json" err)
  | .close => st.cleanup s me
  | .other => st

/-- After the critical section: Roster, TURN credentials, and the socket's identity. -/
def finishJoin (cfg : ServerConfig) (st : Server) (s : SocketId) (now : Nat) (room userId : String)
    (roster : List PeerInfo) : Server :=
  (st.sendAll s
    ((s, .roster roster) :: (cfg.turn.map fun t => (s, .turn (t.mint cfg.prim now userId))).toList)).modifyConn s
    fun c => { c with phase := .reading, me := some (room, userId) }

end Server

/-- The steps of the server and of its surroundings. -/
inductive SAct
  /-- A WebSocket is opened. -/
  | accept
  /-- The reader loop of `s` gets a frame. -/
  | frame (s : SocketId) (f : Frame)
  /-- The second part of a Join. -/
  | finishJoin (s : SocketId) (now : Nat)
  /-- The stream of `s` ends or fails. -/
  | close (s : SocketId)
  /-- The writer task sends the oldest queued message. -/
  | write (s : SocketId)
  /-- The writer task's send fails and it stops. -/
  | writeFail (s : SocketId)
  /-- The writer task is aborted once the reader loop has ended. -/
  | abort (s : SocketId)
  /-- The iteration order of a room changes. -/
  | rehash (room : String) (r : Room)
  /-- The server process restarts. -/
  | restart

namespace Server

def step (cfg : ServerConfig) (st : Server) : SAct → Option Server
  | .accept =>
    some { st with conns := Function.update st.conns st.nextSocket (some {}), nextSocket := st.nextSocket + 1 }
  | .frame s f =>
    match st.conns s with
    | some c => if c.phase = .reading then some (st.handleFrame cfg s c.me f) else none
    | none => none
  | .finishJoin s now =>
    match st.conns s with
    | some c =>
      match c.phase with
      | .joining room userId roster => some (st.finishJoin cfg s now room userId roster)
      | _ => none
    | none => none
  | .close s =>
    match st.conns s with
    | some c => if c.phase = .reading then some (st.cleanup s c.me) else none
    | none => none
  | .write s =>
    match st.conns s with
    | some c => if c.queue ≠ [] then some (st.modifyConn s fun c => { c with queue := c.queue.tail }) else none
    | none => none
  | .writeFail s =>
    match st.conns s with
    | some c => if c.queue ≠ [] then some (st.modifyConn s Conn.dropRx) else none
    | none => none
  | .abort s =>
    match st.conns s with
    | some c => if c.phase = .ended then some (st.modifyConn s Conn.dropRx) else none
    | none => none
  | .rehash room r =>
    match st.rooms room with
    | some r₀ =>
      if r.entries.Perm r₀.entries then some (st.setRoom room (some r)) else none
    | none => none
  | .restart =>
    some { st with
      rooms := fun _ => none
      conns := fun s => (st.conns s).map fun c => { c.dropRx with phase := .ended } }

/-! ### What an enabled step says -/

section
variable {cfg : ServerConfig} {st st' : Server} {s : SocketId}

theorem step_frame_inv {f : Frame} (h : step cfg st (.frame s f) = some st') :
    ∃ c, st.conns s = some c ∧ c.phase = .reading ∧ st' = st.handleFrame cfg s c.me f := by
  simp only [step] at h
  split at h
  · rename_i c hc
    split at h
    · exact ⟨c, hc, ‹_›, (Option.some.inj h).symm⟩
    · cases h
  · cases h

theorem step_finishJoin_inv {now : Nat} (h : step cfg st (.finishJoin s now) = some st') :
    ∃ c room userId roster, st.conns s = some c ∧ c.phase = .joining room userId roster ∧
      st' = st.finishJoin cfg s now room userId roster := by
  simp only [step] at h
  split at h
  · rename_i c hc
    split at h
    · exact ⟨c, _, _, _, hc, ‹_›, (Option.some.inj h).symm⟩
    · cases h
  · cases h

theorem step_close_inv (h : step cfg st (.close s) = some st') :
    ∃ c, st.conns s = some c ∧ c.phase = .reading ∧ st' = st.cleanup s c.me := by
  simp only [step] at h
  split at h
  · rename_i c hc
    split at h
    · exact ⟨c, hc, ‹_›, (Option.some.inj h).symm⟩
    · cases h
  · cases h

theorem step_write_inv (h : step cfg st (.write s) = some st') :
    ∃ c, st.conns s = some c ∧ c.queue ≠ [] ∧
      st' = st.modifyConn s fun c => { c with queue := c.queue.tail } := by
  simp only [step] at h
  split at h
  · rename_i c hc
    split at h
    · exact ⟨c, hc, ‹_›, (Option.some.inj h).symm⟩
    · cases h
  · cases h

theorem step_writeFail_inv (h : step cfg st (.writeFail s) = some st') :
    ∃ c, st.conns s = some c ∧ c.queue ≠ [] ∧ st' = st.modifyConn s Conn.dropRx := by
  simp only [step] at h
  split at h
  · rename_i c hc
    split at h
    · exact ⟨c, hc, ‹_›, (Option.some.inj h).symm⟩
    · cases h
  · cases h

theorem step_abort_inv (h : step cfg st (.abort s) = some st') :
    ∃ c, st.conns s = some c ∧ c.phase = .ended ∧ st' = st.modifyConn s Conn.dropRx := by
  simp only [step] at h
  split at h
  · rename_i c hc
    split at h
    · exact ⟨c, hc, ‹_›, (Option.some.inj h).symm⟩
    · cases h
  · cases h

theorem step_rehash_inv {room : String} {r : Room} (h : step cfg st (.rehash room r) = some st') :
    ∃ r₀, st.rooms room = some r₀ ∧ r.entries.Perm r₀.entries ∧ st' = st.setRoom room (some r) := by
  simp only [step] at h
  split at h
  · rename_i r₀ hr₀
    split at h
    · exact ⟨r₀, hr₀, ‹_›, (Option.some.inj h).symm⟩
    · cases h
  · cases h

end

end Server

end SquadLink

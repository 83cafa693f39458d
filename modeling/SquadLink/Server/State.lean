import Mathlib.Logic.Function.Basic
import SquadLink.Lib.Fifo
import SquadLink.Server.Auth

/-! The state of the InitConnection server (`server/init/src/main.rs`): the shared rooms map and one
    record for each WebSocket task. -/

namespace SquadLink

/-- Soft cap: quality warning. -/
def warnCap : Nat := 12
/-- Hard cap: join refused. -/
def hardCap : Nat := 16
def maxId : Nat := 64
def maxName : Nat := 64
def maxToken : Nat := 128
def maxSdp : Nat := 16 * 1024
def maxIce : Nat := 4 * 1024
/-- Outbound queue depth of a peer before backpressure drops signaling messages. -/
def peerChan : Nat := 256

/-- String lengths are counted in bytes. -/
def lenOk (s : String) (max : Nat) : Bool := !s.isEmpty && s.utf8ByteSize ≤ max

structure PeerHandle where
  name : String
  tx : SocketId
deriving DecidableEq, Repr

/-- user id ↦ handle -/
abbrev Room := HashMap PeerHandle

/-- Where the task of a socket is. `joining` lies between a Join's critical section on the rooms map and
    the sending of its Roster. -/
inductive Phase
  | reading
  | joining (room userId : String) (roster : List PeerInfo)
  | ended
deriving DecidableEq, Repr

/-- One `handle_socket` task. `rxOpen` says that the writer task still holds the queue's receiver. -/
structure Conn where
  me : Option (String × String) := none
  phase : Phase := .reading
  queue : List ServerMsg := []
  rxOpen : Bool := true
deriving DecidableEq, Repr

namespace Conn

/-- The room and user a socket that has not ended acts as. -/
def ident (c : Conn) : Option (String × String) :=
  match c.phase with
  | .reading => c.me
  | .joining room userId _ => some (room, userId)
  | .ended => none

/-- `try_send` would succeed. -/
def accepts (c : Conn) : Bool := c.rxOpen && decide (c.queue.length < peerChan)

def pushAll (c : Conn) (msgs : List ServerMsg) : Conn :=
  if c.rxOpen then { c with queue := Fifo.pushAll peerChan c.queue msgs } else c

/-- The receiver is dropped, with what is still in the queue. -/
def dropRx (c : Conn) : Conn := { c with queue := [], rxOpen := false }

section
variable (c : Conn) (msgs : List ServerMsg)

@[simp] theorem pushAll_me : (c.pushAll msgs).me = c.me := by unfold pushAll; split <;> rfl
@[simp] theorem pushAll_phase : (c.pushAll msgs).phase = c.phase := by unfold pushAll; split <;> rfl
@[simp] theorem pushAll_rxOpen : (c.pushAll msgs).rxOpen = c.rxOpen := by unfold pushAll; split <;> rfl
@[simp] theorem pushAll_ident : (c.pushAll msgs).ident = c.ident := by simp [ident]
@[simp] theorem pushAll_nil : c.pushAll [] = c := by unfold pushAll; split <;> rfl

theorem pushAll_append (more : List ServerMsg) : c.pushAll (msgs ++ more) = (c.pushAll msgs).pushAll more := by
  unfold pushAll
  split <;> simp [Fifo.pushAll_append, *]

theorem pushAll_queue_of_lt (open' : c.rxOpen = true) (h : (c.pushAll msgs).queue.length < peerChan) :
    (c.pushAll msgs).queue = c.queue ++ msgs := by
  simp only [pushAll, open', ↓reduceIte] at h ⊢
  exact Fifo.pushAll_of_lt h

theorem with_phase_eq {p : Phase} (h : c.phase = p) : { c with phase := p } = c := by
  subst h
  rfl

theorem mem_pushAll_queue {m : ServerMsg} (h : m ∈ (c.pushAll msgs).queue) : m ∈ c.queue ∨ m ∈ msgs := by
  unfold pushAll at h
  split at h
  · exact Fifo.mem_pushAll h
  · exact Or.inl h

end

end Conn

/-- What the history records: an accepted Join, and a message placed in the queue of `dest` because of
    what the socket `cause` did. -/
inductive Event
  | accepted (s : SocketId) (room userId : String) (token : Option String)
  | placed (cause dest : SocketId) (msg : ServerMsg)
deriving DecidableEq, Repr

/-- `nextSocket` counts the sockets opened so far; the history is read by no step. -/
structure Server where
  rooms : String → Option Room
  conns : SocketId → Option Conn
  nextSocket : Nat
  history : List Event

namespace Server

def empty : Server := { rooms := fun _ => none, conns := fun _ => none, nextSocket := 0, history := [] }

/-- The handle under which the room lists the user. -/
def handle? (st : Server) (room userId : String) : Option PeerHandle :=
  (st.rooms room).bind fun r => r.lookup userId

def modifyConn (st : Server) (s : SocketId) (f : Conn → Conn) : Server :=
  { st with conns := Function.update st.conns s ((st.conns s).map f) }

def setRoom (st : Server) (room : String) (r : Option Room) : Server :=
  { st with rooms := Function.update st.rooms room r }

def record (st : Server) (ev : Event) : Server := { st with history := st.history ++ [ev] }

/-- Sends without waiting: a full or closed queue drops the message. -/
def trySend (st : Server) (cause dest : SocketId) (msg : ServerMsg) : Server :=
  match st.conns dest with
  | some c =>
    if c.accepts then
      { st with
        conns := Function.update st.conns dest (some { c with queue := c.queue ++ [msg] })
        history := st.history ++ [.placed cause dest msg] }
    else st
  | none => st

def sendAll (st : Server) (cause : SocketId) (out : List (SocketId × ServerMsg)) : Server :=
  out.foldl (fun st p => st.trySend cause p.1 p.2) st

section
variable (st : Server) (s cause : SocketId) (f : Conn → Conn)

@[simp] theorem modifyConn_rooms : (st.modifyConn s f).rooms = st.rooms := rfl
@[simp] theorem modifyConn_history : (st.modifyConn s f).history = st.history := rfl
@[simp] theorem modifyConn_nextSocket : (st.modifyConn s f).nextSocket = st.nextSocket := rfl
@[simp] theorem modifyConn_conns_self : (st.modifyConn s f).conns s = (st.conns s).map f := by simp [modifyConn]

theorem modifyConn_conns_ne {t : SocketId} (h : t ≠ s) : (st.modifyConn s f).conns t = st.conns t := by
  simp [modifyConn, h]

theorem modifyConn_conns (t : SocketId) :
    (st.modifyConn s f).conns t = if t = s then (st.conns s).map f else st.conns t := by
  by_cases h : t = s
  · subst h; simp
  · simp [modifyConn_conns_ne, h]

@[simp] theorem modifyConn_handle? (room userId : String) :
    (st.modifyConn s f).handle? room userId = st.handle? room userId := rfl

@[simp] theorem setRoom_conns (room : String) (r : Option Room) : (st.setRoom room r).conns = st.conns := rfl
@[simp] theorem setRoom_history (room : String) (r : Option Room) : (st.setRoom room r).history = st.history := rfl
@[simp] theorem setRoom_nextSocket (room : String) (r : Option Room) :
    (st.setRoom room r).nextSocket = st.nextSocket := rfl

theorem setRoom_handle? (room : String) (r : Option Room) (room' userId : String) :
    (st.setRoom room r).handle? room' userId =
      if room' = room then r.bind fun r => r.lookup userId else st.handle? room' userId := by
  unfold handle? setRoom
  by_cases h : room' = room
  · subst h; simp
  · simp [h]

@[simp] theorem record_rooms (ev : Event) : (st.record ev).rooms = st.rooms := rfl
@[simp] theorem record_conns (ev : Event) : (st.record ev).conns = st.conns := rfl
@[simp] theorem record_nextSocket (ev : Event) : (st.record ev).nextSocket = st.nextSocket := rfl
@[simp] theorem record_handle? (ev : Event) (room userId : String) :
    (st.record ev).handle? room userId = st.handle? room userId := rfl

/-! ### Sending -/

@[simp] theorem trySend_rooms (dest : SocketId) (msg : ServerMsg) : (st.trySend cause dest msg).rooms = st.rooms := by
  unfold trySend
  split
  · split <;> rfl
  · rfl

@[simp] theorem trySend_nextSocket (dest : SocketId) (msg : ServerMsg) :
    (st.trySend cause dest msg).nextSocket = st.nextSocket := by
  unfold trySend
  split
  · split <;> rfl
  · rfl

theorem trySend_conns (dest t : SocketId) (msg : ServerMsg) :
    (st.trySend cause dest msg).conns t = (st.conns t).map fun c => if dest = t then c.pushAll [msg] else c := by
  unfold trySend
  by_cases ht : dest = t
  · subst ht
    cases hc : st.conns dest with
    | none => simp [hc]
    | some c =>
      by_cases hacc : c.accepts = true
      · simp only [Conn.accepts, Bool.and_eq_true, decide_eq_true_eq] at hacc
        simp [Conn.accepts, Conn.pushAll, Fifo.push, hacc]
      · simp only [hacc, Bool.false_eq_true, ↓reduceIte, hc, Option.map_some, Option.some.injEq]
        simp only [Conn.accepts, Bool.and_eq_true, decide_eq_true_eq, not_and] at hacc
        unfold Conn.pushAll
        split
        · simp [Fifo.push, hacc ‹_›]
        · rfl
  · cases hc : st.conns dest with
    | none => simp [ht]
    | some c =>
      have hne : t ≠ dest := fun h => ht h.symm
      by_cases hacc : c.accepts = true <;> simp [hacc, ht, hne]

theorem trySend_history (dest : SocketId) (msg : ServerMsg) :
    (st.trySend cause dest msg).history = st.history ∨
      (st.trySend cause dest msg).history = st.history ++ [.placed cause dest msg] := by
  unfold trySend
  split
  · split
    · exact Or.inr rfl
    · exact Or.inl rfl
  · exact Or.inl rfl

variable (out : List (SocketId × ServerMsg))

@[simp] theorem sendAll_nil : st.sendAll cause [] = st := rfl

theorem sendAll_cons (p : SocketId × ServerMsg) :
    st.sendAll cause (p :: out) = (st.trySend cause p.1 p.2).sendAll cause out := rfl

@[simp] theorem sendAll_rooms : (st.sendAll cause out).rooms = st.rooms := by
  induction out generalizing st with
  | nil => rfl
  | cons p out ih => rw [sendAll_cons, ih, trySend_rooms]

@[simp] theorem sendAll_nextSocket : (st.sendAll cause out).nextSocket = st.nextSocket := by
  induction out generalizing st with
  | nil => rfl
  | cons p out ih => rw [sendAll_cons, ih, trySend_nextSocket]

@[simp] theorem sendAll_handle? (room userId : String) :
    (st.sendAll cause out).handle? room userId = st.handle? room userId := by
  simp [handle?]

/-- Sending only appends to queues, and each queue gets what is addressed to it, in order. -/
theorem sendAll_conns (t : SocketId) :
    (st.sendAll cause out).conns t = (st.conns t).map fun c => c.pushAll (Fifo.sentTo t out) := by
  induction out generalizing st with
  | nil => simp
  | cons p out ih =>
    obtain ⟨dest, msg⟩ := p
    rw [sendAll_cons, ih, trySend_conns, Option.map_map, Fifo.sentTo_cons]
    congr 1
    funext c
    by_cases ht : dest = t
    · simp only [ht, ↓reduceIte, Function.comp_apply]
      rw [← Conn.pushAll_append, List.singleton_append]
    · simp [ht]

/-- What sending adds to the history: messages among those sent. -/
theorem sendAll_history : ∃ evs, (st.sendAll cause out).history = st.history ++ evs ∧
    ∀ ev ∈ evs, ∃ dest msg, ev = .placed cause dest msg ∧ (dest, msg) ∈ out := by
  induction out generalizing st with
  | nil => exact ⟨[], by simp, by simp⟩
  | cons p out ih =>
    obtain ⟨evs, hevs, hall⟩ := ih (st.trySend cause p.1 p.2)
    have later : ∀ ev ∈ evs, ∃ dest msg, ev = .placed cause dest msg ∧ (dest, msg) ∈ p :: out := fun ev hev => by
      obtain ⟨dest, msg, rfl, hm⟩ := hall ev hev
      exact ⟨dest, msg, rfl, List.mem_cons_of_mem _ hm⟩
    rcases st.trySend_history cause p.1 p.2 with h | h
    · exact ⟨evs, by rw [sendAll_cons, hevs, h], later⟩
    · refine ⟨.placed cause p.1 p.2 :: evs, by rw [sendAll_cons, hevs, h]; simp, ?_⟩
      intro ev hev
      rcases List.mem_cons.mp hev with rfl | hev
      · exact ⟨p.1, p.2, rfl, List.mem_cons_self⟩
      · exact later ev hev

end

end Server

end SquadLink

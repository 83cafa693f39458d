import Mathlib.Data.List.AList

/-! The signaling wire format (`crates/protocol/src/lib.rs`). A session description is the text that
    webrtc produced; it carries, as history, the PeerConnection whose call produced it and, for an answer,
    the offer it replies to. Nothing in the program reads that history. -/

namespace SquadLink

abbrev SocketId := Nat
abbrev ClientId := Nat

/-- A HashMap keyed by strings. The entry list is its iteration order, which Rust leaves open. -/
abbrev HashMap (β : Type) := AList fun _ : String => β

/-- A PeerConnection: the `serial`-th that the client process `owner` created for the user `peer`. -/
structure PcId where
  owner : ClientId
  peer : String
  serial : Nat
deriving DecidableEq, Repr

/-- The `n`-th local description of a PeerConnection. -/
structure DescId where
  pc : PcId
  n : Nat
deriving DecidableEq, Repr

structure Sdp where
  text : String
  id : DescId
  replyTo : Option DescId
deriving DecidableEq, Repr

structure Candidate where
  text : String
  pc : PcId
deriving DecidableEq, Repr

structure PeerInfo where
  userId : String
  name : String
deriving DecidableEq, Repr

structure TurnCreds where
  urls : List String
  username : String
  credential : String
  ttl : Nat
deriving DecidableEq, Repr

/-- Client → Server. -/
inductive ClientMsg
  | join (room userId name : String) (token : Option String)
  | offer (dest : String) (sdp : Sdp)
  | answer (dest : String) (sdp : Sdp)
  | ice (dest : String) (candidate : Candidate)
  | ptt (active : Bool)
  | rekey
  | leave
deriving DecidableEq, Repr

/-- The user that a message is relayed to. -/
def ClientMsg.dest : ClientMsg → Option String
  | offer dest _ | answer dest _ | ice dest _ => some dest
  | _ => none

/-- The messages that negotiate a PeerConnection. -/
def ClientMsg.negotiates : ClientMsg → Bool
  | offer _ _ | answer _ _ => true
  | _ => false

/-- Server → Client. The `from` of the source is `sender` here, its `to` is `dest`. -/
inductive ServerMsg
  | roster (peers : List PeerInfo)
  | turn (creds : TurnCreds)
  | peerJoined (userId name : String)
  | peerLeft (userId : String)
  | offer (sender : String) (sdp : Sdp)
  | answer (sender : String) (sdp : Sdp)
  | ice (sender : String) (candidate : Candidate)
  | ptt (userId : String) (active : Bool)
  | rekey (by' : String)
  | roomFull (cap : Nat)
  | warn (size cap : Nat)
  | error (code message : String)
deriving DecidableEq, Repr

namespace ServerMsg

/-- What members of a room get because of another member, or of their own Join. -/
def roomBound : ServerMsg → Bool
  | peerJoined _ _ | peerLeft _ | offer _ _ | answer _ _ | ice _ _ | ptt _ _ | rekey _ | warn _ _ => true
  | _ => false

/-- What the server delivers on behalf of a user: the relayed messages and the two broadcasts. -/
def onBehalf : ServerMsg → Bool
  | offer _ _ | answer _ _ | ice _ _ | ptt _ _ | rekey _ => true
  | _ => false

/-- What a client's list of members is built from. -/
def membership : ServerMsg → Bool
  | roster _ | peerJoined _ _ | peerLeft _ => true
  | _ => false

/-- The messages that negotiate a PeerConnection. -/
def negotiates : ServerMsg → Bool
  | offer _ _ | answer _ _ => true
  | _ => false

/-- The user id stamped on a message. -/
def stamp : ServerMsg → Option String
  | peerJoined id _ | peerLeft id | offer id _ | answer id _ | ice id _ | ptt id _ => some id
  | _ => none

end ServerMsg

/-- What the WebSocket stream yields to the server's reader loop. -/
inductive Frame
  | text (msg : ClientMsg)
  /-- A text frame that is no `ClientMsg`, with the parser's error. -/
  | badText (err : String)
  | close
  /-- Ping, pong or binary. -/
  | other
deriving DecidableEq, Repr

end SquadLink

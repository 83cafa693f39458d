import SquadLink.Client.Connect
import SquadLink.Server.Lifetime
import SquadLink.Server.Queues

/-! The way into a room, across the programs: whether the Join of a client whose arguments passed the
    app's checks is within the server's bounds, and whether the credentials that the session broker hands
    out pass both. -/

namespace SquadLink

/-! ### What the app's checks promise the server -/

/-- The Join that the engine opens a connection with meets the server's bounds, and no server answers it
    with `bad_input`. -/
structure StartConfig.Admissible (start : StartConfig) : Prop where
  bounds : Server.joinOutOfBounds start.engine.room start.engine.userId start.engine.name start.engine.token = false
  answer : ∀ cfg st s text, (s, .error "bad_input" text) ∉ Server.frameSends cfg st s none
    (.text (Engine.joinMsg start.engine))

section
variable {s : String} {max : Nat} {args : ConnectArgs} {start : StartConfig} {room userId name : String}
  {token : Option String}

theorem lenOk_of_validId (h : validId s max = true) : lenOk s max = true := by
  obtain ⟨hne, hlen, -⟩ := validId_iff.mp h
  simp [lenOk, hne, hlen]

theorem joinOutOfBounds_eq_false : Server.joinOutOfBounds room userId name token = false ↔
    lenOk room maxId = true ∧ lenOk userId maxId = true ∧ lenOk name maxName = true ∧
      ∀ t, token = some t → t.utf8ByteSize ≤ maxToken := by
  cases token with
  | none => simp [Server.joinOutOfBounds, and_assoc]
  | some t => simp [Server.joinOutOfBounds, and_assoc]

/-- A superseded member is told so under another code, and nobody else gets an error. -/
theorem bad_input_notMem_joinSends (r : Room) (s t : SocketId) (text : String) :
    (t, .error "bad_input" text) ∉ Server.joinSends r s userId name := by
  intro hm
  rcases List.mem_append.mp hm with hm | hm
  · rcases List.mem_append.mp hm with hm | hm
    · obtain ⟨old, -, heq⟩ := Option.map_eq_some_iff.mp (Option.mem_toList.mp hm)
      simp at heq
    · obtain ⟨id, _, _, -, hmsg⟩ := Fifo.mem_broadcast.mp hm
      split at hmsg
      · cases hmsg
      · cases hmsg
  · split at hm
    · obtain ⟨id, _, _, -, hmsg⟩ := Fifo.mem_broadcast.mp hm
      cases hmsg
    · cases hm

/-- The reply to the first Join of a socket says `bad_input` only if a field is out of bounds. -/
theorem bad_input_notMem_joinReply {cfg : ServerConfig} {st : Server} {s : SocketId} {text : String}
    (h : Server.joinOutOfBounds room userId name token = false) :
    (s, .error "bad_input" text) ∉ Server.joinReply cfg st s none room userId name token := by
  unfold Server.joinReply
  rw [h, if_neg (by simp), if_neg Bool.false_ne_true]
  split
  · simp
  · split
    · simp
    · exact bad_input_notMem_joinSends _ s s text

/-- What the app's checks let through is within the server's bounds exactly when the trimmed name, which
    the app measures in characters, is within them in bytes. -/
theorem admissible_iff (h : args.validate = .ok start) :
    start.Admissible ↔ (Text.trim args.name).utf8ByteSize ≤ maxName := by
  have passes := ConnectArgs.validate_iff.mp h
  obtain ⟨hroom, room⟩ := passes.room
  obtain ⟨huser, userId⟩ := passes.userId
  obtain ⟨hname, name⟩ := passes.name
  have nonempty : Text.trim args.name ≠ "" := by
    intro hempty
    rw [hempty] at name
    cases name
  have token : ∀ t, start.engine.token = some t → t.utf8ByteSize ≤ maxToken := fun t ht =>
    (validHex_iff.mp (cleanOption_ok passes.token t ht).2).2.1
  have bounds : Server.joinOutOfBounds start.engine.room start.engine.userId start.engine.name start.engine.token = false ↔
      (Text.trim args.name).utf8ByteSize ≤ maxName := by
    rw [joinOutOfBounds_eq_false, hroom, huser, hname]
    constructor
    · rintro ⟨-, -, within, -⟩
      simp only [lenOk, Bool.and_eq_true, decide_eq_true_eq] at within
      exact within.2
    · intro within
      exact ⟨lenOk_of_validId room, lenOk_of_validId userId, by simp [lenOk, nonempty, within], token⟩
  exact ⟨fun hadm => bounds.mp hadm.bounds, fun hle =>
    ⟨bounds.mpr hle, fun _ _ _ _ => bad_input_notMem_joinReply (bounds.mpr hle)⟩⟩

/-- A call of the app with only a name to choose. -/
def sampleArgs (name : String) : ConnectArgs :=
  { server := "wss://h", room := "r", userId := "u", name, token := none, certSha256 := none, inputDevice := none,
    outputDevice := none, relayEnabled := none }

def sampleStart (name : String) : StartConfig :=
  { engine := { room := "r", userId := "u", name, token := none, relayEnabled := false }, server := "wss://h",
    certSha256 := none, inputDevice := none, outputDevice := none }

theorem admissible_short : (sampleArgs " Zoë ").validate = .ok (sampleStart "Zoë") ∧ (sampleStart "Zoë").Admissible :=
  have h : (sampleArgs " Zoë ").validate = .ok (sampleStart "Zoë") := by rfl
  ⟨h, (admissible_iff h).mpr (by decide)⟩

/-- Thirty-three letters of two bytes each. -/
def umlauts : String := String.ofList (List.replicate 33 'ä')

theorem accepted_then_refused : ¬ ∀ args start, ConnectArgs.validate args = .ok start → start.Admissible := by
  intro all
  have h : (sampleArgs umlauts).validate = .ok (sampleStart umlauts) := by rfl
  have hle := (all _ _ h).bounds
  cases (show Server.joinOutOfBounds "r" "u" umlauts none = true by rfl).symm.trans hle

end

/-! ### What the broker hands out -/

/-- What the library says of `hex::encode`: it writes two hex digits for each byte. -/
structure Crypto.Hexes (prim : Crypto) : Prop where
  digits : ∀ b, ∀ c ∈ (prim.hex b).toList, Text.isAsciiHexdigit c = true
  size : ∀ b, (prim.hex b).length = 2 * b.length

theorem Crypto.Hexes.utf8ByteSize {prim : Crypto} (hexes : prim.Hexes) (b : Bytes) :
    (prim.hex b).utf8ByteSize = 2 * b.length := by
  have ascii : Text.Ascii (prim.hex b) := fun c hc =>
    Text.lt_of_alphanumeric (Text.isAsciiAlphanumeric_of_hexdigit (hexes.digits b c hc))
  exact ascii.utf8ByteSize.trans (hexes.size b)

/-- A room and a token with which the app connects and the server lets in. -/
structure Admits (prim : Crypto) (auth : AuthConfig) (room : String) (token : Option String) : Prop where
  roomOk : validId room 64 = true
  tokenOk : ∀ t, token = some t → validHex t 128 = true
  connects : ∀ args start, ConnectArgs.validate args = .ok start →
    { args with room, token }.validate = .ok { start with engine := { start.engine with room, token } }
  within : ∀ userId name, lenOk userId maxId = true → lenOk name maxName = true →
    Server.joinOutOfBounds room userId name token = false
  check : auth.check prim room token = true

/-- The room has a random name and the token is the one of the room. -/
def Minted (hex : Bytes → String) (tokenFor : String → Option String) (room : String) (token : Option String) : Prop :=
  (∃ draw, room = "squad-" ++ randHex hex draw) ∧ token = tokenFor room

/-- The credentials of the broker admit whoever presents them, and under a secret nothing else does. -/
structure CredentialsWork (prim : Crypto) (auth : AuthConfig) : Prop where
  created : ∀ draws now m c m', Sessions.create prim.hex (auth.tokenFor prim) draws now m = some (c, m') →
    Admits prim auth c.room c.token
  joined : ∀ b, Lts.Reach (Broker.step prim.hex (auth.tokenFor prim)) Lts.anyStep .empty b → ∀ now code pin room token,
    (b.sessions.join now code pin).1 = .ok (room, token) → Admits prim auth room token
  exact : ∀ key, auth = .hmac key → ∀ room, auth.check prim room none = false ∧
    ∀ t, auth.check prim room (some t) = true ↔ auth.tokenFor prim room = some t

section
variable {prim : Crypto} {auth : AuthConfig} {hex : Bytes → String} {tokenFor : String → Option String} {room : String}
  {token : Option String}

theorem check_iff (key : Bytes) (room t : String) : AuthConfig.check prim (.hmac key) room (some t) = true ↔
    AuthConfig.tokenFor prim (.hmac key) room = some t := by
  rw [AuthConfig.tokenFor, Option.some_inj]
  exact ctEq_iff.trans (bytes_inj.trans eq_comm)

theorem check_tokenFor (auth : AuthConfig) (room : String) : auth.check prim room (auth.tokenFor prim room) = true := by
  cases auth with
  | opened => rfl
  | hmac key => exact (check_iff key room _).mpr rfl

/-- The room's name is within the bounds of an identifier, and so is its alphabet. -/
theorem validId_room (hexes : prim.Hexes) (draw : Fin 8 → UInt8) :
    validId ("squad-" ++ randHex prim.hex draw) 64 = true := by
  refine validId_iff.mpr ⟨?_, ?_, fun c hc => ?_⟩
  · intro h
    have := congrArg String.utf8ByteSize h
    rw [String.utf8ByteSize_append] at this
    cases (Nat.add_eq_zero_iff.mp this).1
  · rw [String.utf8ByteSize_append, randHex, hexes.utf8ByteSize, List.length_ofFn]
    decide
  · rw [String.toList_append, List.mem_append] at hc
    rcases hc with hc | hc
    · have alphabet : "squad-".toList.all (fun c => Text.isAsciiAlphanumeric c || c == '-' || c == '_') = true := by decide
      exact List.all_eq_true.mp alphabet c hc
    · rw [Text.isAsciiAlphanumeric_of_hexdigit (hexes.digits _ c hc)]
      rfl

theorem validHex_token (hexes : prim.Hexes) (macs : ∀ key msg, (prim.hmacSha256 key msg).length = 32) {t : String}
    (h : auth.tokenFor prim room = some t) : validHex t 128 = true ∧ Text.trim t = t := by
  cases auth with
  | opened => cases h
  | hmac key =>
    cases h
    have size : (hmacHex prim key (bytes room)).utf8ByteSize = 64 := by rw [hmacHex, hexes.utf8ByteSize, macs]
    refine ⟨validHex_iff.mpr ⟨?_, by omega, hexes.digits _⟩, Text.trim_of_alphanumeric fun c hc => ?_⟩
    · intro h
      rw [h] at size
      cases size
    · exact Text.isAsciiAlphanumeric_of_hexdigit (hexes.digits _ c hc)

theorem Minted.admits (hexes : prim.Hexes) (macs : ∀ key msg, (prim.hmacSha256 key msg).length = 32)
    (h : Minted prim.hex (auth.tokenFor prim) room token) : Admits prim auth room token := by
  obtain ⟨⟨draw, hroom⟩, htoken⟩ := h
  have valid : validId room 64 = true := hroom ▸ validId_room hexes draw
  have hex : ∀ t, token = some t → validHex t 128 = true ∧ Text.trim t = t := fun t ht =>
    validHex_token hexes macs (htoken ▸ ht)
  have cleaned : cleanToken token = .ok token := by
    cases token with
    | none => rfl
    | some t =>
      obtain ⟨ok, trimmed⟩ := hex t rfl
      exact cleanOption_self trimmed (validHex_iff.mp ok).1 ok
  refine ⟨valid, fun t ht => (hex t ht).1, fun args start hstart => ?_, fun userId name huser hname => ?_, ?_⟩
  · have passes := ConnectArgs.validate_iff.mp hstart
    exact ConnectArgs.validate_iff.mpr { passes with room := ⟨rfl, valid⟩, token := cleaned }
  · exact joinOutOfBounds_eq_false.mpr ⟨lenOk_of_validId valid, huser, hname, fun t ht =>
      (validHex_iff.mp (hex t ht).1).2.1⟩
  · exact htoken ▸ check_tokenFor auth room

theorem minted_create {draws : Draws} {now : Nat} {m m' : Sessions} {c : Created}
    (h : m.create hex tokenFor draws now = some (c, m')) : Minted hex tokenFor c.room c.token := by
  obtain ⟨code, -, h⟩ := Option.map_eq_some_iff.mp h
  cases h
  exact ⟨⟨draws.room, rfl⟩, rfl⟩

/-- Every call leaves in the store only sessions whose credentials the broker minted. -/
theorem minted_step {b b' : Broker} {op : BrokerOp}
    (inv : ∀ code s, b.sessions.lookup code = some s → Minted hex tokenFor s.room s.token)
    (hs : b.step hex tokenFor op = some b') :
    ∀ code s, b'.sessions.lookup code = some s → Minted hex tokenFor s.room s.token := by
  obtain ⟨call, hcall, moves⟩ := Broker.step_codeMove hs
  have made : ∀ c, call = .created c → Minted hex tokenFor c.room c.token := by
    rintro c rfl
    cases op with
    | create draws now =>
      obtain ⟨⟨c', m⟩, hc, rfl⟩ := Option.map_eq_some_iff.mp hs
      cases List.append_cancel_left hcall
      exact minted_create hc
    | join now code pin =>
      cases hs
      cases List.append_cancel_left hcall
    | reap now roomNonempty =>
      cases hs
      cases List.append_cancel_left hcall
  intro code s hl
  have move := moves code
  rw [hl] at move
  generalize hold : b.sessions.lookup code = old at move
  cases move with
  | created c now _ => exact made c rfl
  | guessed s pin _ => exact inv code s hold
  | seen s t _ _ => exact inv code s hold

theorem minted_reach {b : Broker} (reach : Lts.Reach (Broker.step hex tokenFor) Lts.anyStep .empty b) :
    ∀ code s, b.sessions.lookup code = some s → Minted hex tokenFor s.room s.token :=
  reach.invariant nofun fun _ _ _ inv _ hs => minted_step inv hs

/-- The random room name, the hex token, the app's checks, the server's bounds and its comparison fit
    together, for every secret and in open mode. -/
theorem credentials_work (hexes : prim.Hexes) (macs : ∀ key msg, (prim.hmacSha256 key msg).length = 32)
    (auth : AuthConfig) :
    CredentialsWork prim auth := by
  refine ⟨fun draws now m c m' h => (minted_create h).admits hexes macs, fun b reach now code pin room token h => ?_, ?_⟩
  · rcases Sessions.join_cases b.sessions now code pin with ⟨err, hj⟩ | ⟨s, hs, hj⟩ | ⟨s, hs, hj⟩
    · rw [hj] at h
      cases h
    · rw [hj] at h
      cases h
    · rw [hj] at h
      cases h
      exact (minted_reach reach code s hs).admits hexes macs
  · rintro key rfl room
    exact ⟨rfl, check_iff key room⟩

/-- HMAC-SHA256 of `squad-0000000000000000` under the key `secret`. -/
def sampleMac : Bytes :=
  [165, 41, 160, 31, 128, 138, 208, 219, 242, 168, 24, 215, 62, 6, 79, 82, 194, 91, 88, 46, 11, 91, 226, 109, 249, 207, 225,
    35, 84, 118, 44, 130]

def sampleCrypto : Crypto :=
  { hmacSha256 := fun _ _ => sampleMac, hmacSha1 := fun _ _ => [], base64 := fun _ => "", hex := sampleHex }

theorem sampleCrypto_hexes : sampleCrypto.Hexes where
  digits b c hc := by
    have digit : ∀ n < 16, Text.isAsciiHexdigit (Nat.digitChar n) = true := by decide
    change c ∈ (sampleHex b).toList at hc
    rw [sampleHex, String.toList_ofList] at hc
    obtain ⟨x, -, hc⟩ := List.mem_flatMap.mp hc
    have := x.toNat_lt
    rcases List.mem_cons.mp hc with rfl | hc
    · exact digit _ (by omega)
    · rw [List.mem_singleton.mp hc]
      exact digit _ (by omega)
  size b := by
    change (sampleHex b).length = 2 * b.length
    rw [sampleHex, ← String.length_toList, String.toList_ofList]
    simp [Nat.mul_comm]

theorem credentials_work_secret : CredentialsWork sampleCrypto (.hmac (bytes "secret")) ∧
    AuthConfig.tokenFor sampleCrypto (.hmac (bytes "secret")) "squad-0000000000000000" =
      some "a529a01f808ad0dbf2a818d73e064f52c25b582e0b5be26df9cfe12354762c82" :=
  ⟨credentials_work sampleCrypto_hexes (fun _ _ => rfl) _, by rfl⟩

end

end SquadLink

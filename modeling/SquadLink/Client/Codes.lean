import SquadLink.Client.Connect
import SquadLink.Client.Rigs
import SquadLink.Lib.Base64
import SquadLink.Lib.Lts
import SquadLink.Lib.Text
import SquadLink.Server.Auth

/-! Serverless 1:1 mode (`serverless.rs` and the serverless commands of the Tauri shell): two peers exchange their
    descriptions as codes to copy and paste. The base64 engine is a parameter, and what a call of the webrtc library comes
    to is given with the command. -/

namespace SquadLink

/-- The `STANDARD` engine of the base64 library. -/
structure Base64Engine where
  encode : Bytes → String
  decode : String → Option Bytes

/-- The engine decodes an encoding and nothing else: it insists on the padding, and on trailing bits that are zero. -/
def Base64Engine.Canonical (b64 : Base64Engine) : Prop := ∀ text b, b64.decode text = some b ↔ text = b64.encode b

def encodeCode (b64 : Base64Engine) (sdp : String) : String := b64.encode (bytes sdp)

/-- `String::from_utf8`. -/
def fromUtf8 (b : Bytes) : Option String := String.fromUTF8? ⟨b.toArray⟩

def decodeCode (b64 : Base64Engine) (code : String) : Except String String :=
  match b64.decode (Text.trim code) with
  | none => .error "ungültiger Code (kein base64)"
  | some b =>
    match fromUtf8 b with
    | none => .error "ungültiger Code (kein UTF-8)"
    | some sdp => .ok sdp

/-- What the calls inside `create_offer` return, in their order. -/
structure OfferCalls where
  buildPc : Except String Unit
  createDataChannel : Except String Unit
  createOffer : Except String Unit
  setLocalDescription : Except String Unit
  localDescription : Option String

structure AnswerCalls where
  buildPc : Except String Unit
  offer : Except String Unit
  setRemoteDescription : Except String Unit
  createAnswer : Except String Unit
  setLocalDescription : Except String Unit
  localDescription : Option String

structure FinishCalls where
  answer : Except String Unit
  setRemoteDescription : Except String Unit

/-- A serverless session with the descriptions of its PeerConnection. -/
structure CodeSession extends Serverless where
  localSdp : String
  remoteSdp : Option String
deriving DecidableEq, Repr

namespace CodeSession

section
variable (b64 : Base64Engine)

/-- Role A: create an offer, return the code to hand to the peer. -/
def createOffer (w : OfferCalls) (me : String) : Except String (CodeSession × String) := do
  w.buildPc
  w.createDataChannel
  w.createOffer
  w.setLocalDescription
  let sdp ← w.localDescription.elim (.error "no local description") .ok
  return ({ me, localSdp := sdp, remoteSdp := none }, encodeCode b64 sdp)

/-- Role B: accept the peer's offer code, return our answer code. -/
def acceptOffer (w : AnswerCalls) (code me : String) : Except String (CodeSession × String) := do
  w.buildPc
  let offer ← decodeCode b64 code
  w.offer
  w.setRemoteDescription
  w.createAnswer
  w.setLocalDescription
  let sdp ← w.localDescription.elim (.error "no local description") .ok
  return ({ me, localSdp := sdp, remoteSdp := some offer }, encodeCode b64 sdp)

/-- Role A: finish the handshake with the peer's answer code. -/
def acceptAnswer (s : CodeSession) (w : FinishCalls) (code : String) : Except String CodeSession := do
  let answer ← decodeCode b64 code
  w.answer
  w.setRemoteDescription
  return { s with remoteSdp := some answer }

end

end CodeSession

/-- The serverless part of the shell's state; `shown` is the code that the session was returned with, and `pasted` the one
    that it has accepted. -/
structure CodeApp where
  session : Option CodeSession
  shown : Option String
  pasted : Option String

inductive CodeCmd
  | serverlessOffer (name : String) (w : OfferCalls)
  | serverlessAcceptOffer (name code : String) (w : AnswerCalls)
  | serverlessAcceptAnswer (code : String) (w : FinishCalls)
  | disconnect

/-- The text that a command is given as a code. -/
def CodeCmd.code : CodeCmd → Option String
  | .serverlessAcceptOffer _ code _ | .serverlessAcceptAnswer code _ => some code
  | _ => none

namespace CodeApp

def empty : CodeApp := { session := none, shown := none, pasted := none }

/-- What a command returns and the state after it. -/
def exec (b64 : Base64Engine) (app : CodeApp) : CodeCmd → Except String (Option String) × CodeApp
  | .serverlessOffer name w =>
    match CodeSession.createOffer b64 w name with
    | .error e => (.error e, app)
    | .ok (s, code) => (.ok (some code), { session := some s, shown := some code, pasted := none })
  | .serverlessAcceptOffer name code w =>
    match CodeSession.acceptOffer b64 w code name with
    | .error e => (.error e, app)
    | .ok (s, answer) => (.ok (some answer), { session := some s, shown := some answer, pasted := some code })
  | .serverlessAcceptAnswer code w =>
    match app.session with
    | none => (.error "keine offene Serverless-Sitzung", app)
    | some s =>
      match s.acceptAnswer b64 w code with
      | .error e => (.error e, app)
      | .ok s => (.ok none, { app with session := some s, pasted := some code })
  | .disconnect => (.ok none, empty)

end CodeApp

/-- Any number of apps; a command goes to one of them. -/
def CodeApp.step {ι : Type} [DecidableEq ι] (b64 : Base64Engine) (apps : ι → CodeApp) (a : ι × CodeCmd) :
    Option (ι → CodeApp) :=
  some (Function.update apps a.1 ((apps a.1).exec b64 a.2).2)

/-! ### The codes -/

theorem fromUtf8_eq_some {b : Bytes} {s : String} : fromUtf8 b = some s ↔ b = bytes s := by
  unfold fromUtf8 String.fromUTF8? bytes
  constructor
  · intro h
    split at h
    · cases Option.some.inj h
      rfl
    · cases h
  · rintro rfl
    rw [dif_pos (show ByteArray.IsValidUTF8 ⟨s.toUTF8.data.toList.toArray⟩ from s.isValidUTF8)]
    rfl

section
variable {b64 : Base64Engine} (canonical : b64.Canonical) {code sdp sdp' : String}
include canonical

theorem encodeCode_inj : encodeCode b64 sdp = encodeCode b64 sdp' ↔ sdp = sdp' := by
  refine ⟨fun h => bytes_inj.mp ?_, fun h => h ▸ rfl⟩
  have decoded := (canonical (encodeCode b64 sdp) (bytes sdp)).mpr rfl
  have decoded' := (canonical (encodeCode b64 sdp') (bytes sdp')).mpr rfl
  rw [h] at decoded
  exact Option.some.inj (decoded.symm.trans decoded')

/-- A code is decoded exactly if, up to whitespace around it, it is the encoding of what comes out. -/
theorem decodeCode_iff : decodeCode b64 code = .ok sdp ↔ Text.trim code = encodeCode b64 sdp := by
  rw [encodeCode, ← canonical, decodeCode]
  cases b64.decode (Text.trim code) with
  | none => simp
  | some b =>
    rw [Option.some.injEq, ← fromUtf8_eq_some]
    dsimp only
    cases fromUtf8 b <;> simp

end

/-! ### Sessions -/

/-- The code shown is that of the session's own description, and the one that was pasted that of the peer's. -/
structure CodeApp.Sound (b64 : Base64Engine) (app : CodeApp) : Prop where
  shown : ∀ s ∈ app.session, app.shown = some (encodeCode b64 s.localSdp)
  pasted : ∀ s ∈ app.session, app.pasted.map Text.trim = s.remoteSdp.map (encodeCode b64)

section
variable {ι : Type} [DecidableEq ι] {b64 : Base64Engine} {apps : ι → CodeApp} {app : CodeApp} {s s' t : CodeSession}
  {code answer me : String} {cmd : CodeCmd}

theorem createOffer_ok {w : OfferCalls} (h : CodeSession.createOffer b64 w me = .ok (s, code)) :
    code = encodeCode b64 s.localSdp ∧ s.remoteSdp = none := by
  simp only [CodeSession.createOffer, bind_eq_ok, pure, Except.pure, Except.ok.injEq, Prod.mk.injEq] at h
  obtain ⟨-, -, -, -, -, -, -, -, sdp, -, rfl, rfl⟩ := h
  exact ⟨rfl, rfl⟩

theorem CodeApp.sound_empty : CodeApp.empty.Sound b64 := ⟨fun _ h => (by cases h), fun _ h => (by cases h)⟩

/-- A text that is no code makes a command fail, and it changes nothing. -/
theorem exec_of_no_code (given : cmd.code = some code) (noCode : ∀ sdp, decodeCode b64 code ≠ .ok sdp) :
    (app.exec b64 cmd).1.isOk = false ∧ (app.exec b64 cmd).2 = app := by
  cases cmd with
  | serverlessOffer name w => cases given
  | serverlessAcceptOffer name code' w =>
    cases given
    dsimp only [CodeApp.exec]
    split
    · exact ⟨rfl, rfl⟩
    · rename_i h
      simp only [CodeSession.acceptOffer, bind_eq_ok] at h
      obtain ⟨-, -, offer, decoded, -⟩ := h
      exact absurd decoded (noCode offer)
  | serverlessAcceptAnswer code' w =>
    cases given
    dsimp only [CodeApp.exec]
    split
    · exact ⟨rfl, rfl⟩
    · split
      · exact ⟨rfl, rfl⟩
      · rename_i h
        simp only [CodeSession.acceptAnswer, bind_eq_ok] at h
        obtain ⟨answer, decoded, -⟩ := h
        exact absurd decoded (noCode answer)
  | disconnect => cases given

section
variable (canonical : b64.Canonical)
include canonical

theorem acceptOffer_ok {w : AnswerCalls} (h : CodeSession.acceptOffer b64 w code me = .ok (s, answer)) :
    answer = encodeCode b64 s.localSdp ∧ ∃ offer, s.remoteSdp = some offer ∧ Text.trim code = encodeCode b64 offer := by
  simp only [CodeSession.acceptOffer, bind_eq_ok, pure, Except.pure, Except.ok.injEq, Prod.mk.injEq] at h
  obtain ⟨-, -, offer, decoded, -, -, -, -, -, -, -, -, sdp, -, rfl, rfl⟩ := h
  exact ⟨rfl, offer, rfl, (decodeCode_iff canonical).mp decoded⟩

theorem acceptAnswer_ok {w : FinishCalls} (h : s.acceptAnswer b64 w code = .ok s') :
    s'.localSdp = s.localSdp ∧ ∃ answer, s'.remoteSdp = some answer ∧ Text.trim code = encodeCode b64 answer := by
  simp only [CodeSession.acceptAnswer, bind_eq_ok, pure, Except.pure, Except.ok.injEq] at h
  obtain ⟨answer, decoded, -, -, -, -, rfl⟩ := h
  exact ⟨rfl, answer, rfl, (decodeCode_iff canonical).mp decoded⟩

theorem CodeApp.Sound.exec (sound : app.Sound b64) (cmd : CodeCmd) : (app.exec b64 cmd).2.Sound b64 := by
  cases cmd with
  | serverlessOffer name w =>
    dsimp only [CodeApp.exec]
    split
    · exact sound
    · rename_i s code h
      obtain ⟨rfl, unset⟩ := createOffer_ok h
      refine ⟨fun t ht => ?_, fun t ht => ?_⟩ <;> cases ht
      · rfl
      · rw [unset]
        rfl
  | serverlessAcceptOffer name code w =>
    dsimp only [CodeApp.exec]
    split
    · exact sound
    · rename_i s answer h
      obtain ⟨rfl, offer, set, trimmed⟩ := acceptOffer_ok canonical h
      refine ⟨fun t ht => ?_, fun t ht => ?_⟩ <;> cases ht
      · rfl
      · rw [set, Option.map_some, Option.map_some, trimmed]
  | serverlessAcceptAnswer code w =>
    dsimp only [CodeApp.exec]
    split
    · exact sound
    · rename_i s hs
      split
      · exact sound
      · rename_i s' h
        obtain ⟨same, answer, set, trimmed⟩ := acceptAnswer_ok canonical h
        refine ⟨fun t ht => ?_, fun t ht => ?_⟩ <;> cases ht
        · rw [same]
          exact sound.shown s hs
        · rw [set, Option.map_some, Option.map_some, trimmed]
  | disconnect => exact CodeApp.sound_empty

/-- In every run of any number of apps a session has the description of another one as its remote description exactly if
    it was given the code that the other one shows, up to whitespace around it; and a text that is no code of any
    description is refused without a change. -/
theorem codes_pair (h : Lts.Reach (CodeApp.step b64) Lts.anyStep (fun _ : ι => CodeApp.empty) apps) :
    (∀ i j s t, (apps i).session = some s → (apps j).session = some t →
      (s.remoteSdp = some t.localSdp ↔ (apps i).pasted.map Text.trim = (apps j).shown)) ∧
    ∀ i cmd code, cmd.code = some code → (∀ sdp, Text.trim code ≠ encodeCode b64 sdp) →
      ((apps i).exec b64 cmd).1.isOk = false ∧ CodeApp.step b64 apps (i, cmd) = some apps := by
  have sound : ∀ i, (apps i).Sound b64 := by
    refine h.invariant (P := fun apps => ∀ i, (apps i).Sound b64) (fun i => CodeApp.sound_empty)
      fun apps a apps' sound _ hs i => ?_
    cases Option.some.inj hs
    by_cases hi : i = a.1
    · subst hi
      rw [Function.update_self]
      exact (sound a.1).exec canonical a.2
    · rw [Function.update_of_ne hi]
      exact sound i
  refine ⟨fun i j s t hs ht => ?_, fun i cmd code given noCode => ?_⟩
  · rw [(sound i).pasted s hs, (sound j).shown t ht]
    cases s.remoteSdp <;> simp [encodeCode_inj canonical]
  · have undecoded (sdp : String) : decodeCode b64 code ≠ .ok sdp :=
      fun decoded => noCode sdp ((decodeCode_iff canonical).mp decoded)
    obtain ⟨failed, same⟩ : ((apps i).exec b64 cmd).1.isOk = false ∧ ((apps i).exec b64 cmd).2 = apps i :=
      exec_of_no_code given undecoded
    exact ⟨failed, by rw [CodeApp.step, same, Function.update_eq_self]⟩

end

end

/-! ### Two apps -/

/-- The standard alphabet with canonical padding. -/
def standard : Base64Engine :=
  { encode := fun b => String.ofList (Base64.encode b), decode := fun text => Base64.decode text.toList }

theorem standard_canonical : standard.Canonical := fun text b => by
  rw [standard, Base64.decode_eq_some_iff, ← String.toList_inj, String.toList_ofList]

/-- No symbol is whitespace, so that a code can be copied with whitespace around it. -/
theorem trim_encodeCode (sdp : String) : Text.trim (encodeCode standard sdp) = encodeCode standard sdp := by
  have letters : ∀ c ∈ Base64.alphabet, Text.isWhitespace c = false := by
    have all : (Base64.alphabet.all fun c => Text.isWhitespace c == false) = true := rfl
    exact fun c hc => beq_iff_eq.mp (List.all_eq_true.mp all c hc)
  have symbols : ∀ c ∈ (encodeCode standard sdp).toList, Text.isWhitespace c = false := by
    intro c hc
    rw [encodeCode, standard, String.toList_ofList] at hc
    rcases Base64.mem_encode _ hc with rfl | hc
    · rfl
    · exact letters c hc
  exact Text.trim_eq_self (fun c hc => symbols c (List.mem_of_mem_head? hc)) fun c hc => symbols c (List.mem_of_getLast? hc)

def offering : OfferCalls :=
  { buildPc := .ok (), createDataChannel := .ok (), createOffer := .ok (), setLocalDescription := .ok (),
    localDescription := some "offer" }

def answering : AnswerCalls :=
  { buildPc := .ok (), offer := .ok (), setRemoteDescription := .ok (), createAnswer := .ok (),
    setLocalDescription := .ok (), localDescription := some "answer" }

/-- Alice hands her offer's code to Bob, and he his answer's to her. -/
def handshake : List (Bool × CodeCmd) :=
  [(true, .serverlessOffer "Alice" offering), (false, .serverlessAcceptOffer "Bob" (encodeCode standard "offer") answering),
    (true, .serverlessAcceptAnswer (encodeCode standard "answer") { answer := .ok (), setRemoteDescription := .ok () })]

theorem codes_pair_handshake :
    ∃ apps s t, Lts.exec (CodeApp.step standard) (fun _ : Bool => CodeApp.empty) handshake = some apps ∧
    (apps true).session = some s ∧ (apps false).session = some t ∧
      (s.remoteSdp = some t.localSdp ↔ (apps true).pasted.map Text.trim = (apps false).shown) ∧
      (t.remoteSdp = some s.localSdp ↔ (apps false).pasted.map Text.trim = (apps true).shown) ∧
      s.remoteSdp = some "answer" ∧ t.remoteSdp = some "offer" := by
  have decoded (sdp : String) : decodeCode standard (encodeCode standard sdp) = .ok sdp :=
    (decodeCode_iff standard_canonical).mpr (trim_encodeCode sdp)
  obtain ⟨apps, run, hs, ht⟩ : ∃ apps,
      Lts.exec (CodeApp.step standard) (fun _ : Bool => CodeApp.empty) handshake = some apps ∧
      (apps true).session = some { me := "Alice", localSdp := "offer", remoteSdp := some "answer" } ∧
      (apps false).session = some { me := "Bob", localSdp := "answer", remoteSdp := some "offer" } := by
    refine ⟨_, rfl, ?_, ?_⟩ <;>
      simp [offering, answering, CodeApp.exec, CodeSession.createOffer, CodeSession.acceptOffer,
        CodeSession.acceptAnswer, decoded, bind, Except.bind, pure, Except.pure, Function.update]
  have pairs := (codes_pair standard_canonical (Lts.Reach.of_exec (fun _ _ _ _ => trivial) run)).1
  exact ⟨apps, _, _, run, hs, ht, pairs true false _ _ hs ht, pairs false true _ _ ht hs, rfl, rfl⟩

end SquadLink

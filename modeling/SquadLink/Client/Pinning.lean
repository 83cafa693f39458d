import SquadLink.Lib.Text
import SquadLink.Server.Auth

/-! Certificate pinning of the signaling client (`companion-core/src/signaling.rs`). The hash, the check of a
    handshake signature and the decoding of hex are parameters; a handshake completes exactly when the verifier's
    certificate callback and the signature callback of the negotiated version both accept. -/

namespace SquadLink

/-- What the pinned client is given by the TLS libraries. -/
structure Tls where
  sha256 : Bytes → Bytes
  /-- The signature over the message verifies under the public key of the certificate. -/
  genuine : (cert message signature : Bytes) → Bool

inductive TlsVersion
  | tls12
  | tls13
deriving DecidableEq, Repr

/-- What a server presents in a handshake. -/
structure ServerHandshake where
  version : TlsVersion
  endEntity : Bytes
  intermediates : List Bytes
  serverName : String
  ocsp : Bytes
  /-- The part of the transcript that the server signs. -/
  message : Bytes
  signature : Bytes

/-- Verifier that trusts exactly one cert, matched by its SHA-256 fingerprint. -/
structure PinnedCert where
  sha256 : Bytes
  size : sha256.length = 32

/-- `hexDecode` is `hex::decode`. -/
def pinnedConnector (hexDecode : String → Option Bytes) (certSha256 : String) : Except String PinnedCert :=
  match hexDecode (Text.trim certSha256) with
  | none => .error "CERT_SHA256 ist kein gültiges Hex"
  | some bytes =>
    if size : bytes.length = 32 then .ok { sha256 := bytes, size }
    else .error "CERT_SHA256 muss 32 Byte (64 Hex-Zeichen) sein"

namespace PinnedCert

def verifyServerCert (tls : Tls) (pin : PinnedCert) (endEntity : Bytes) : Except String Unit :=
  if tls.sha256 endEntity = pin.sha256 then .ok () else .error "certificate pin mismatch"

/-- The cert itself is pinned, so its handshake signatures are accepted. -/
def verifyTls12Signature (_ : PinnedCert) (_message _cert _signature : Bytes) : Except String Unit := .ok ()

def verifyTls13Signature (_ : PinnedCert) (_message _cert _signature : Bytes) : Except String Unit := .ok ()

def handshakeCompletes (tls : Tls) (pin : PinnedCert) (h : ServerHandshake) : Bool :=
  (pin.verifyServerCert tls h.endEntity).isOk &&
    match h.version with
    | .tls12 => (pin.verifyTls12Signature h.message h.endEntity h.signature).isOk
    | .tls13 => (pin.verifyTls13Signature h.message h.endEntity h.signature).isOk

/-- The handshake completes only with a server that shows the pinned certificate and holds its key. -/
def Authenticates (tls : Tls) (pin : PinnedCert) (h : ServerHandshake) : Prop :=
  pin.handshakeCompletes tls h = true →
    tls.sha256 h.endEntity = pin.sha256 ∧ tls.genuine h.endEntity h.message h.signature = true

section
variable (tls : Tls) (pin : PinnedCert) (h : ServerHandshake)

theorem handshakeCompletes_iff : pin.handshakeCompletes tls h = true ↔ tls.sha256 h.endEntity = pin.sha256 := by
  have accepts : (pin.verifyServerCert tls h.endEntity).isOk = true ↔ tls.sha256 h.endEntity = pin.sha256 := by
    unfold verifyServerCert
    split <;> simp [Except.isOk, Except.toBool, *]
  rw [handshakeCompletes, Bool.and_eq_true, accepts]
  refine ⟨And.left, fun hpin => ⟨hpin, ?_⟩⟩
  cases h.version <;> rfl

/-- Pinning authenticates a server exactly when its certificate is not the pinned one or its signature is
    genuine: the signature callbacks look at nothing. -/
theorem authenticates_iff :
    pin.Authenticates tls h ↔
      tls.sha256 h.endEntity ≠ pin.sha256 ∨ tls.genuine h.endEntity h.message h.signature = true := by
  rw [Authenticates, handshakeCompletes_iff]
  constructor
  · intro auth
    by_cases hpin : tls.sha256 h.endEntity = pin.sha256
    · exact Or.inr (auth hpin).2
    · exact Or.inl hpin
  · rintro (hne | hgen) hpin
    · exact absurd hpin hne
    · exact ⟨hpin, hgen⟩

end

/-! A server that shows the pinned certificate without its key. -/

/-- Every certificate has the digest of 32 zeros, and the one genuine signature of a message is the message. -/
def sampleTls : Tls :=
  { sha256 := fun _ => List.replicate 32 0, genuine := fun _ message signature => message == signature }

def samplePin : PinnedCert := { sha256 := List.replicate 32 0, size := rfl }

def forgedHandshake : ServerHandshake :=
  { version := .tls13, endEntity := [1], intermediates := [], serverName := "squadlink", ocsp := [],
    message := [2], signature := [3] }

theorem forged_handshake_completes :
    ¬ ∀ (tls : Tls) (pin : PinnedCert) (h : ServerHandshake), pin.Authenticates tls h := by
  intro all
  have forged := (all sampleTls samplePin forgedHandshake (by decide)).2
  exact absurd forged (by decide)

end PinnedCert

end SquadLink

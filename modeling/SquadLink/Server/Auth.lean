import SquadLink.Protocol

/-! Room authentication and TURN credentials (`server/init/src/auth.rs`, `turn.rs`). The MACs and the base64 and hex
    encodings are parameters. -/

namespace SquadLink

abbrev Bytes := List UInt8

/-- The bytes of a string (`as_bytes`). -/
def bytes (s : String) : Bytes := s.toUTF8.data.toList

/-- The library functions the server's credentials rest on; `hex` is `hex::encode`. -/
structure Crypto where
  hmacSha256 : Bytes → Bytes → Bytes
  hmacSha1 : Bytes → Bytes → Bytes
  base64 : Bytes → String
  hex : Bytes → String

/-- Two lower-case digits for each byte. -/
def sampleHex (b : Bytes) : String :=
  String.ofList (b.flatMap fun x => [Nat.digitChar (x.toNat / 16), Nat.digitChar (x.toNat % 16)])

def hmacHex (prim : Crypto) (key msg : Bytes) : String := prim.hex (prim.hmacSha256 key msg)

/-- Comparison that looks at every byte of equally long inputs. -/
def ctEq (a b : Bytes) : Bool :=
  if a.length ≠ b.length then false else (a.zip b).foldl (fun diff p => diff ||| (p.1 ^^^ p.2)) 0 == 0

theorem bytes_inj {s t : String} : bytes s = bytes t ↔ s = t := by
  refine ⟨fun h => ?_, fun h => h ▸ rfl⟩
  exact String.toByteArray_inj.mp (ByteArray.ext (Array.ext' h))

/-- The accumulated difference is zero exactly when it was and every pair of bytes agrees. -/
theorem foldl_diff_eq_zero : ∀ (a b : Bytes) (diff : UInt8), a.length = b.length →
    ((a.zip b).foldl (fun diff p => diff ||| (p.1 ^^^ p.2)) diff = 0 ↔ diff = 0 ∧ a = b)
  | [], [], diff, _ => by simp
  | x :: a, y :: b, diff, h => by
    rw [List.zip_cons_cons, List.foldl_cons, foldl_diff_eq_zero a b _ (Nat.succ.inj h), UInt8.or_eq_zero_iff,
      UInt8.xor_eq_zero_iff, List.cons.injEq, and_assoc]

theorem ctEq_iff {a b : Bytes} : ctEq a b = true ↔ a = b := by
  unfold ctEq
  by_cases hlen : a.length = b.length
  · rw [if_neg (not_not.mpr hlen), beq_iff_eq, foldl_diff_eq_zero a b 0 hlen]
    exact and_iff_right rfl
  · rw [if_pos hlen]
    refine ⟨fun h => ?_, fun h => absurd (congrArg List.length h) hlen⟩
    cases h

inductive AuthConfig
  | opened
  | hmac (key : Bytes)

namespace AuthConfig

/-- The valid join token for a room (none in open mode). -/
def tokenFor (prim : Crypto) : AuthConfig → String → Option String
  | opened, _ => none
  | hmac key, room => some (hmacHex prim key (bytes room))

def check (prim : Crypto) : AuthConfig → String → Option String → Bool
  | opened, _, _ => true
  | hmac key, room, token =>
    (token.map fun t => ctEq (bytes t) (bytes (hmacHex prim key (bytes room)))).getD false

end AuthConfig

structure TurnConfig where
  secret : Bytes
  urls : List String
  ttl : Nat

/-- `now` is the clock in seconds. -/
def TurnConfig.mint (prim : Crypto) (cfg : TurnConfig) (now : Nat) (userId : String) : TurnCreds :=
  let expiry := now + cfg.ttl
  let username := s!"{expiry}:{userId}"
  { urls := cfg.urls, username, credential := prim.base64 (prim.hmacSha1 cfg.secret (bytes username)), ttl := cfg.ttl }

end SquadLink

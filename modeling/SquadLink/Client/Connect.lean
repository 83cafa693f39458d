import SquadLink.Client.Endpoint
import SquadLink.Client.Engine

/-! The desktop app's `connect` command (`companion/src-tauri/src/main.rs`): what it checks and cleans of
    the webview's arguments before it starts the engine. -/

namespace SquadLink

/-- Identifier guard: non-empty, bounded, safe charset. -/
def validId (s : String) (max : Nat) : Bool :=
  !s.isEmpty && s.utf8ByteSize ≤ max && s.toList.all fun c => Text.isAsciiAlphanumeric c || c == '-' || c == '_'

def validHex (s : String) (max : Nat) : Bool :=
  !s.isEmpty && s.utf8ByteSize ≤ max && s.toList.all Text.isAsciiHexdigit

structure ConnectArgs where
  server : String
  room : String
  userId : String
  name : String
  token : Option String
  certSha256 : Option String
  inputDevice : Option String
  outputDevice : Option String
  relayEnabled : Option Bool

/-- What the engine is started with: the configuration its loop reads, its endpoint, and the devices. -/
structure StartConfig where
  engine : EngineConfig
  server : String
  certSha256 : Option String
  inputDevice : Option String
  outputDevice : Option String
deriving DecidableEq

/-- An optional argument is trimmed, counts as missing when it is empty, and is checked otherwise. -/
def cleanOption (ok : String → Bool) (err : String) (arg : Option String) : Except String (Option String) :=
  match (arg.map Text.trim).filter fun s => !s.isEmpty with
  | some s => if ok s then .ok (some s) else .error err
  | none => .ok none

def cleanToken : Option String → Except String (Option String) :=
  cleanOption (fun t => validHex t 128) "invalid token"

def cleanCert : Option String → Except String (Option String) :=
  cleanOption (fun c => c.utf8ByteSize == 64 && validHex c 64) "invalid cert_sha256 (64 hex chars)"

def cleanDev : Option String → Except String (Option String) :=
  cleanOption (fun s => s.utf8ByteSize ≤ 256) "invalid device name"

/-- A name within 64 characters and without control characters. -/
def validName (name : String) : Bool := !(name.isEmpty || decide (64 < name.length) || name.toList.any Text.isControl)

/-- Rust-side validation (never trust the webview). -/
def ConnectArgs.validate (args : ConnectArgs) : Except String StartConfig :=
  let server := Text.trim args.server
  if !serverUrlOk server then .error "invalid server URL — use wss:// or loopback ws://"
  else if !validId args.room 64 then .error "invalid room"
  else if !validId args.userId 64 then .error "invalid user_id"
  else
    let name := Text.trim args.name
    if !validName name then .error "invalid name (1–64 chars, no control chars)"
    else do
      let token ← cleanToken args.token
      let certSha256 ← cleanCert args.certSha256
      let inputDevice ← cleanDev args.inputDevice
      let outputDevice ← cleanDev args.outputDevice
      let engine : EngineConfig :=
        { room := args.room, userId := args.userId, name, token, relayEnabled := args.relayEnabled.getD false }
      .ok { engine, server, certSha256, inputDevice, outputDevice }

section
variable {s err : String} {max : Nat} {ok : String → Bool} {arg out : Option String} {args : ConnectArgs}
  {start : StartConfig}

theorem validId_iff : validId s max = true ↔ s ≠ "" ∧ s.utf8ByteSize ≤ max ∧
    ∀ c ∈ s.toList, (Text.isAsciiAlphanumeric c || c == '-' || c == '_') = true := by
  simp only [validId, Bool.and_eq_true, Bool.not_eq_true', String.isEmpty_eq_false_iff,
    decide_eq_true_eq, List.all_eq_true, and_assoc]

theorem validHex_iff : validHex s max = true ↔ s ≠ "" ∧ s.utf8ByteSize ≤ max ∧
    ∀ c ∈ s.toList, Text.isAsciiHexdigit c = true := by
  simp only [validHex, Bool.and_eq_true, Bool.not_eq_true', String.isEmpty_eq_false_iff,
    decide_eq_true_eq, List.all_eq_true, and_assoc]

/-- What is cleaned is absent or passes the check. -/
theorem cleanOption_ok (h : cleanOption ok err arg = .ok out) : ∀ s, out = some s → s ≠ "" ∧ ok s = true := by
  rintro s rfl
  unfold cleanOption at h
  split at h
  · rename_i t ht
    split at h
    · rename_i hok
      cases h
      have filtered := (Option.filter_eq_some_iff.mp ht).2
      exact ⟨by simpa using filtered, hok⟩
    · cases h
  · cases h

/-- What is trimmed, not empty and passes the check is kept as it is. -/
theorem cleanOption_self (trimmed : Text.trim s = s) (hne : s ≠ "") (hok : ok s = true) :
    cleanOption ok err (some s) = .ok (some s) := by
  have filtered : ((some s).map Text.trim).filter (fun s => !s.isEmpty) = some s := by simp [trimmed, hne]
  unfold cleanOption
  rw [filtered]
  exact if_pos hok

/-- What an accepted call starts the engine with. -/
structure ConnectArgs.Passes (args : ConnectArgs) (start : StartConfig) : Prop where
  server : start.server = Text.trim args.server ∧ serverUrlOk start.server = true
  room : start.engine.room = args.room ∧ validId args.room 64 = true
  userId : start.engine.userId = args.userId ∧ validId args.userId 64 = true
  name : start.engine.name = Text.trim args.name ∧ validName (Text.trim args.name) = true
  token : cleanToken args.token = .ok start.engine.token
  certSha256 : cleanCert args.certSha256 = .ok start.certSha256
  inputDevice : cleanDev args.inputDevice = .ok start.inputDevice
  outputDevice : cleanDev args.outputDevice = .ok start.outputDevice
  relayEnabled : start.engine.relayEnabled = args.relayEnabled.getD false

theorem bind_eq_ok {α β : Type} {x : Except String α} {f : α → Except String β} {b : β} :
    (x >>= f) = .ok b ↔ ∃ a, x = .ok a ∧ f a = .ok b := by
  cases x with
  | error e => exact iff_of_false nofun fun ⟨_, h, _⟩ => nomatch h
  | ok a => exact ⟨fun h => ⟨a, rfl, h⟩, fun ⟨_, h, hf⟩ => by cases h; exact hf⟩

theorem ConnectArgs.validate_iff : args.validate = .ok start ↔ args.Passes start := by
  constructor
  · intro h
    simp only [validate] at h
    split at h
    · cases h
    rename_i server
    split at h
    · cases h
    rename_i room
    split at h
    · cases h
    rename_i userId
    split at h
    · cases h
    rename_i name
    obtain ⟨token, htoken, h⟩ := bind_eq_ok.mp h
    obtain ⟨cert, hcert, h⟩ := bind_eq_ok.mp h
    obtain ⟨input, hinput, h⟩ := bind_eq_ok.mp h
    obtain ⟨output, houtput, h⟩ := bind_eq_ok.mp h
    cases h
    simp only [Bool.not_eq_true', Bool.not_eq_false] at server room userId name
    exact ⟨⟨rfl, server⟩, ⟨rfl, room⟩, ⟨rfl, userId⟩, ⟨rfl, name⟩, htoken, hcert, hinput, houtput, rfl⟩
  · rintro ⟨⟨hserver, server⟩, ⟨hroom, room⟩, ⟨huser, userId⟩, ⟨hname, name⟩, htoken, hcert, hinput, houtput, hrelay⟩
    obtain ⟨⟨_, _, _, token, relay⟩, _, cert, input, output⟩ := start
    subst hserver hroom huser hname hrelay
    simp only [validate, server, room, userId, name, Bool.not_true, Bool.false_eq_true, if_false]
    exact bind_eq_ok.mpr ⟨token, htoken, bind_eq_ok.mpr ⟨cert, hcert, bind_eq_ok.mpr ⟨input, hinput,
      bind_eq_ok.mpr ⟨output, houtput, rfl⟩⟩⟩⟩

end

end SquadLink

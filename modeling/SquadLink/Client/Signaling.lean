import SquadLink.Client.Authority
import SquadLink.Client.Connect
import SquadLink.Client.Pinning

/-! Opening the signaling connection (`companion-core/src/signaling.rs`, `connect`): the URLs that are handed
    to the WebSocket library, on the ways that lead there from the desktop app and from the headless client
    (`companion-core/src/main.rs`). -/

namespace SquadLink

namespace Signaling

/-- A call of the WebSocket library: the URL, and the connector if the certificate is pinned. -/
structure Handover where
  url : String
  connector : Option PinnedCert

def startsWith (scheme : Scheme) (url : String) : Bool := (scheme.text ++ "://".toList).isPrefixOf url.toList

/-- What `connect` hands over, or why it gives up before. -/
def connect (hexDecode : String → Option Bytes) (url : String) (certSha256 : Option String) : Except String Handover :=
  if startsWith .wss url then
    match certSha256 with
    | some pin => (pinnedConnector hexDecode pin).map fun connector => { url, connector := some connector }
    | none => .ok { url, connector := none }
  else if startsWith .ws url && !isLoopback url then
    .error "ws:// nur für Loopback erlaubt — nutze wss:// (Nichts verlässt unverschlüsselt den Rechner)"
  else .ok { url, connector := none }

end Signaling

/-- `std::env::var` with a default. -/
def envOr (env : String → Option String) (key default : String) : String := (env key).getD default

/-- What the headless client starts its engine with, from its environment. -/
def headlessConfig (env : String → Option String) : StartConfig :=
  let user := envOr env "USER_ID" "user"
  { engine :=
      { room := envOr env "ROOM" "testroom", userId := user, name := envOr env "NAME" user, token := env "TOKEN",
        relayEnabled := (env "RELAY_DISABLED").isNone }
    server := envOr env "SERVER" "ws://127.0.0.1:8080/ws"
    certSha256 := env "CERT_SHA256"
    inputDevice := env "IN_DEVICE"
    outputDevice := env "OUT_DEVICE" }

namespace Signaling

/-- Only an acceptable URL is handed over. -/
def Guarded (hexDecode : String → Option Bytes) (url : String) (certSha256 : Option String) : Prop :=
  ∀ handover, connect hexDecode url certSha256 = .ok handover → serverUrlOk handover.url = true

/-- Without the whitespace around it, the URL has a scheme and a host that the scheme admits. -/
def Names (url : String) : Prop :=
  ∃ scheme rest, (Text.trim url).toList = Scheme.text scheme ++ "://".toList ++ rest ∧
    scheme.admits (hostText (hostport rest)) = true

/-- The pin that is given is no fingerprint. -/
def BadPin (hexDecode : String → Option Bytes) (certSha256 : Option String) : Prop :=
  ∃ pin ∈ certSha256, (pinnedConnector hexDecode pin).toOption = none

section
variable {hexDecode : String → Option Bytes} {url : String} {certSha256 : Option String} {rest l w : List Char}

/-! ### Whitespace at the end of a loopback URL -/

theorem ne_of_isWhitespace {c d : Char} (h : Text.isWhitespace c = true) (hd : Text.isWhitespace d = false) : c ≠ d := by
  rintro rfl
  rw [h] at hd
  cases hd

theorem toLower_of_isWhitespace {c : Char} (h : Text.isWhitespace c = true) : c.toLower = c := by
  have small : ¬ (c.val ≥ 'A'.val ∧ c.val ≤ 'Z'.val) := by
    rintro ⟨low, high⟩
    rw [ge_iff_le, UInt32.le_iff_toNat_le] at low
    rw [UInt32.le_iff_toNat_le] at high
    change 65 ≤ c.toNat at low
    change c.toNat ≤ 90 at high
    simp only [Text.isWhitespace, Bool.or_eq_true, Bool.and_eq_true, decide_eq_true_eq, beq_iff_eq] at h
    omega
  exact dif_neg small

/-- Appended text that does not end a piece either stays outside the piece or makes its end. -/
theorem takeWhile_append_cases {p : Char → Bool} (hw : ∀ c ∈ w, p c = true) :
    (l ++ w).takeWhile p = l.takeWhile p ∨ (l.takeWhile p = l ∧ (l ++ w).takeWhile p = l ++ w) := by
  rw [List.takeWhile_append]
  split
  · rename_i hlen
    have whole : l.takeWhile p = l := (List.takeWhile_prefix p).eq_of_length hlen
    exact Or.inr ⟨whole, by rw [List.takeWhile_eq_self_iff.mpr hw]⟩
  · exact Or.inl rfl

theorem hostport_append (hw : ∀ c ∈ w, Text.isWhitespace c = true) :
    hostport (l ++ w) = hostport l ∨ hostport (l ++ w) = hostport l ++ w := by
  have inside : ∀ c ∈ w, (c != '/' && c != '?' && c != '#') = true := fun c hc => by
    simp only [Bool.and_eq_true, bne_iff_ne]
    exact ⟨⟨ne_of_isWhitespace (hw c hc) (by decide), ne_of_isWhitespace (hw c hc) (by decide)⟩,
      ne_of_isWhitespace (hw c hc) (by decide)⟩
  have notAt : ∀ c ∈ w.reverse, (c != '@') = true := fun c hc =>
    bne_iff_ne.mpr (ne_of_isWhitespace (hw c (List.mem_reverse.mp hc)) (by decide))
  unfold hostport
  rcases takeWhile_append_cases (l := l) inside with h | ⟨hl, h⟩
  · exact Or.inl (by rw [h])
  · refine Or.inr ?_
    rw [h, hl, List.rtakeWhile, List.rtakeWhile, List.reverse_append, List.takeWhile_append_of_pos notAt,
      List.reverse_append, List.reverse_reverse]

theorem hostText_append (hw : ∀ c ∈ w, Text.isWhitespace c = true) :
    hostText (l ++ w) = hostText l ∨ ∃ front, hostText (l ++ w) = front ++ w := by
  have notColon : ∀ c ∈ w, (c != ':') = true := fun c hc => bne_iff_ne.mpr (ne_of_isWhitespace (hw c hc) (by decide))
  have notClosing : ∀ c ∈ w, (c != ']') = true := fun c hc => bne_iff_ne.mpr (ne_of_isWhitespace (hw c hc) (by decide))
  by_cases bracketed : ∃ after, l = '[' :: after
  · obtain ⟨after, rfl⟩ := bracketed
    rcases takeWhile_append_cases (l := after) notClosing with h | ⟨-, h⟩
    · exact Or.inl h
    · exact Or.inr ⟨after, h⟩
  · have plain : ∀ after, l ++ w = '[' :: after → False := fun after heq => by
      cases l with
      | nil =>
        have opening : '[' ∈ w := by
          rw [List.nil_append] at heq
          exact heq ▸ List.mem_cons_self
        exact ne_of_isWhitespace (hw _ opening) (by decide) rfl
      | cons c l => exact bracketed ⟨l, by rw [(List.cons.inj heq).1]⟩
    have hl : ∀ after, l = '[' :: after → False := fun after heq => bracketed ⟨after, heq⟩
    rw [(hostText_plain plain).1, (hostText_plain hl).1]
    rcases takeWhile_append_cases (l := l) notColon with h | ⟨-, h⟩
    · exact Or.inl h
    · exact Or.inr ⟨l, h⟩

theorem spaceless_of_loopback {text : List Char} (h : lowered text ∈ loopbackHosts) :
    ∀ c ∈ text, Text.isWhitespace c = false := by
  intro c hc
  by_contra space
  rw [Bool.not_eq_false] at space
  have mem : c ∈ (lowered text).toList := by
    rw [lowered, String.toList_ofList]
    exact List.mem_map.mpr ⟨c, hc, toLower_of_isWhitespace space⟩
  have none : ∀ host ∈ loopbackHosts, host.toList.any Text.isWhitespace = false := by decide
  exact List.any_eq_false.mp (none _ h) c mem space

/-- Whitespace behind a URL with a loopback host does not reach the host. -/
theorem admits_of_append (hw : ∀ c ∈ w, Text.isWhitespace c = true)
    (h : Scheme.ws.admits (hostText (hostport (rest ++ w))) = true) :
    Scheme.ws.admits (hostText (hostport rest)) = true := by
  have spaceless := spaceless_of_loopback (List.contains_iff_mem.mp h)
  rcases hostport_append (l := rest) hw with hp | hp
  · rwa [hp] at h
  · rw [hp] at h spaceless
    rcases hostText_append (l := hostport rest) hw with ht | ⟨front, ht⟩
    · rwa [ht] at h
    · rw [ht] at spaceless
      have none : w = [] := List.eq_nil_iff_forall_not_mem.mpr fun c hc => by
        have := spaceless c (List.mem_append_right front hc)
        rw [hw c hc] at this
        cases this
      rwa [none, List.append_nil] at h

theorem startsWith_iff {scheme : Scheme} : startsWith scheme url = true ↔
    ∃ rest, url.toList = scheme.text ++ "://".toList ++ rest := Scheme.isPrefixOf_iff

/-- What is admitted as it stands is admitted without the whitespace behind it. -/
theorem names_of_loopback (hws : startsWith .ws url = true) (h : isLoopback url = true) : Names url := by
  obtain ⟨rest, hrest⟩ := startsWith_iff.mp hws
  have trimmed := Text.toList_trim_append hrest (by decide) (by decide) (by decide)
  refine ⟨.ws, rest.rdropWhile Text.isWhitespace, trimmed, ?_⟩
  have spaces : ∀ c ∈ rest.rtakeWhile Text.isWhitespace, Text.isWhitespace c = true :=
    fun c hc => List.mem_rtakeWhile_imp hc
  refine admits_of_append spaces ?_
  rw [List.rdropWhile_append_rtakeWhile]
  exact (admits_ws_iff hrest).mp h

/-! ### What is handed over -/

theorem connect_wss (h : startsWith .wss url = true) :
    (∃ handover, connect hexDecode url certSha256 = .ok handover) ↔ ¬ BadPin hexDecode certSha256 := by
  unfold connect
  rw [if_pos h]
  cases certSha256 with
  | none => exact iff_of_true ⟨_, rfl⟩ fun ⟨_, hp, _⟩ => by cases hp
  | some pin =>
    change (∃ handover, (pinnedConnector hexDecode pin).map _ = .ok handover) ↔ _
    cases hpin : pinnedConnector hexDecode pin with
    | error err => exact iff_of_false (fun ⟨_, heq⟩ => by cases heq) fun hgood => hgood ⟨pin, rfl, by rw [hpin]; rfl⟩
    | ok connector =>
      refine iff_of_true ⟨_, rfl⟩ ?_
      rintro ⟨_, hp, hbad⟩
      cases hp
      rw [hpin] at hbad
      cases hbad

theorem connect_other (h : startsWith .wss url = false) :
    (∃ handover, connect hexDecode url certSha256 = .ok handover) ↔
    (startsWith .ws url = true → isLoopback url = true) := by
  unfold connect
  rw [h, if_neg Bool.false_ne_true]
  cases startsWith .ws url with
  | false => exact iff_of_true ⟨_, rfl⟩ fun hws => by cases hws
  | true =>
    cases isLoopback url with
    | false => exact iff_of_false (fun ⟨_, heq⟩ => by cases heq) fun hloop => by cases hloop rfl
    | true => exact iff_of_true ⟨_, rfl⟩ fun _ => rfl

theorem startsWith_exclusive (h : startsWith .ws url = true) : startsWith .wss url = false := by
  by_contra hwss
  obtain ⟨_, hrest⟩ := startsWith_iff.mp h
  obtain ⟨_, hrest'⟩ := startsWith_iff.mp (Bool.not_eq_false _ ▸ hwss)
  exact absurd (scheme_unique hrest hrest').1 (by decide)

theorem connect_url {handover : Handover} (h : connect hexDecode url certSha256 = .ok handover) : handover.url = url := by
  unfold connect at h
  split at h
  · split at h
    · rename_i pin
      cases hpin : pinnedConnector hexDecode pin with
      | error err =>
        rw [hpin] at h
        cases h
      | ok connector =>
        rw [hpin] at h
        cases h
        rfl
    · cases h
      rfl
  · split at h
    · cases h
    · cases h
      rfl

theorem guarded_iff_handed : Guarded hexDecode url certSha256 ↔
    ((∃ handover, connect hexDecode url certSha256 = .ok handover) → Names url) := by
  constructor
  · rintro guarded ⟨handover, h⟩
    have ok := guarded handover h
    rw [connect_url h] at ok
    exact serverUrlOk_iff.mp ok
  · intro names handover h
    rw [connect_url h]
    exact serverUrlOk_iff.mpr (names ⟨handover, h⟩)

/-- Only an acceptable URL is handed over exactly when it starts with ws://, or it starts with wss:// and the
    pin is no fingerprint, or there is an acceptable URL between the whitespace around it. The desktop
    app's command comes with nothing else. -/
theorem guarded_iff (hexDecode : String → Option Bytes) (url : String) (certSha256 : Option String) :
    (Guarded hexDecode url certSha256 ↔ startsWith .ws url = true ∨
      (startsWith .wss url = true ∧ BadPin hexDecode certSha256) ∨ Names url) ∧
    ∀ (args : ConnectArgs) (start : StartConfig), args.validate = .ok start → start.server = url →
      Guarded hexDecode url certSha256 := by
  refine ⟨?_, fun args start h hurl handover handed => ?_⟩
  · rw [guarded_iff_handed]
    constructor
    · intro guarded
      by_cases hws : startsWith .ws url = true
      · exact Or.inl hws
      · refine Or.inr ?_
        by_cases hwss : startsWith .wss url = true
        · by_cases hbad : BadPin hexDecode certSha256
          · exact Or.inl ⟨hwss, hbad⟩
          · exact Or.inr (guarded ((connect_wss hwss).mpr hbad))
        · exact Or.inr (guarded ((connect_other (Bool.not_eq_true _ ▸ hwss)).mpr fun h => absurd h hws))
    · rintro (hws | ⟨hwss, hbad⟩ | names) handed
      · exact names_of_loopback hws ((connect_other (startsWith_exclusive hws)).mp handed hws)
      · exact absurd hbad ((connect_wss hwss).mp handed)
      · exact names
  · rw [connect_url handed, ← hurl]
    exact (ConnectArgs.validate_iff.mp h).server.2

def desktopArgs : ConnectArgs :=
  { server := " wss://squadlink.raumdock.org/ws ", room := "ops", userId := "alice", name := "Alice",
    token := none, certSha256 := none, inputDevice := none, outputDevice := none, relayEnabled := none }

def desktopStart : StartConfig :=
  { engine := { room := "ops", userId := "alice", name := "Alice", token := none, relayEnabled := false },
    server := "wss://squadlink.raumdock.org/ws", certSha256 := none, inputDevice := none, outputDevice := none }

theorem guarded_desktop : Guarded (fun _ => none) desktopStart.server desktopStart.certSha256 :=
  (guarded_iff (fun _ => none) desktopStart.server desktopStart.certSha256).2 desktopArgs desktopStart (by decide) rfl

/-- A scheme in capitals, from the environment of the headless client. -/
theorem capital_scheme_handed_over : ¬ ∃ hexDecode, ∀ env : String → Option String,
    Guarded hexDecode (headlessConfig env).server (headlessConfig env).certSha256 := by
  rintro ⟨hexDecode, h⟩
  have handed := h (fun key => if key = "SERVER" then some "WS://evil.example/ws" else none)
    { url := "WS://evil.example/ws", connector := none } (by rfl)
  exact absurd handed (by decide)

end

end Signaling

end SquadLink

import SquadLink.Client.Endpoint

/-! The URLs that the endpoint policy is about, put together from their parts
    (`companion-core/src/signaling.rs`, `url_host`, `server_url_ok`): the host is read back from every
    composed URL, and which accepted strings are composed ones. -/

namespace SquadLink

/-! ### Parts of a URL -/

inductive Scheme
  | ws
  | wss
deriving DecidableEq, Repr

def Scheme.text : Scheme → List Char
  | ws => "ws".toList
  | wss => "wss".toList

/-- The characters that end the authority of a URL. -/
def endsAuthority (c : Char) : Bool := c == '/' || c == '?' || c == '#'

/-- A host as it stands in a URL, plain or in brackets. -/
inductive UrlHost
  | plain (text : List Char)
  | bracketed (text : List Char)
deriving DecidableEq, Repr

namespace UrlHost

def text : UrlHost → List Char
  | plain text | bracketed text => text

def written : UrlHost → List Char
  | plain text => text
  | bracketed text => '[' :: text ++ [']']

/-- The characters that the host has none of. -/
def barred : UrlHost → Char → Bool
  | plain _, c => endsAuthority c || c == '@' || c == ':' || c == '['
  | bracketed _, c => endsAuthority c || c == '@' || c == ']'

end UrlHost

/-- The parts of a ws(s):// URL. -/
structure UrlParts where
  scheme : Scheme
  userinfo : Option (List Char)
  host : UrlHost
  port : Option (List Char)
  tail : List Char
  userinfo_free : ∀ text ∈ userinfo, ∀ c ∈ text, endsAuthority c = false
  host_nonempty : host.text ≠ []
  host_free : ∀ c ∈ host.text, host.barred c = false
  port_free : ∀ text ∈ port, ∀ c ∈ text, (endsAuthority c || c == '@') = false
  tail_start : ∀ c ∈ tail.head?, endsAuthority c = true

def writtenUserinfo : Option (List Char) → List Char
  | some text => text ++ ['@']
  | none => []

def writtenPort : Option (List Char) → List Char
  | some text => ':' :: text
  | none => []

namespace UrlParts

/-- What follows the scheme. -/
def rest (u : UrlParts) : List Char := writtenUserinfo u.userinfo ++ (u.host.written ++ writtenPort u.port) ++ u.tail

def compose (u : UrlParts) : String := String.ofList (u.scheme.text ++ "://".toList ++ u.rest)

end UrlParts

/-! ### The cuts of `urlHost` -/

/-- The authority without its userinfo. -/
def hostport (rest : List Char) : List Char :=
  (rest.takeWhile fun c => c != '/' && c != '?' && c != '#').rtakeWhile fun c => c != '@'

/-- The text of the host, as it stands at the start of the host and port. -/
def hostText : List Char → List Char
  | '[' :: after => after.takeWhile fun c => c != ']'
  | hostport => hostport.takeWhile fun c => c != ':'

/-- What is cut off behind it. -/
def behindHost : List Char → List Char
  | '[' :: after => after.dropWhile fun c => c != ']'
  | hostport => hostport.dropWhile fun c => c != ':'

def lowered (text : List Char) : String := String.ofList (text.map Char.toLower)

def loopbackHosts : List String := ["localhost", "127.0.0.1", "::1"]

section
variable {url : String} {scheme : Scheme} {rest text before : List Char} {u : UrlParts}

theorem hostText_plain {hp : List Char} (h : ∀ after, hp = '[' :: after → False) :
    hostText hp = hp.takeWhile (fun c => c != ':') ∧ behindHost hp = hp.dropWhile (fun c => c != ':') := by
  unfold hostText behindHost
  split
  · exact (h _ rfl).elim
  · exact ⟨rfl, rfl⟩

theorem urlHost_of_split (h : Text.splitOnce "://".toList url.toList = some (before, rest)) :
    urlHost url = if (hostText (hostport rest)).isEmpty then none else some (lowered (hostText (hostport rest))) := by
  rw [urlHost, h]
  simp only [Option.bind_some]
  split
  · rename_i after heq
    have bracketed : hostport rest = '[' :: after := heq
    rw [bracketed]
    rfl
  · rename_i hne
    rw [(@hostText_plain (hostport rest) hne).1]
    rfl

theorem Scheme.colon_not_mem : ∀ scheme : Scheme, ':' ∉ scheme.text := by
  intro scheme
  cases scheme <;> decide

theorem splitOnce_scheme (h : url.toList = scheme.text ++ "://".toList ++ rest) :
    Text.splitOnce "://".toList url.toList = some (scheme.text, rest) := by
  rw [h]
  exact Text.splitOnce_append scheme.colon_not_mem

/-- A URL has one scheme and one text behind it. -/
theorem scheme_unique {scheme' : Scheme} {rest' : List Char} (h : url.toList = scheme.text ++ "://".toList ++ rest)
    (h' : url.toList = scheme'.text ++ "://".toList ++ rest') : scheme = scheme' ∧ rest = rest' := by
  have same := Option.some.inj ((splitOnce_scheme h).symm.trans (splitOnce_scheme h'))
  obtain ⟨htext, hrest⟩ := Prod.mk.inj same
  refine ⟨?_, hrest⟩
  cases scheme <;> cases scheme' <;> first | rfl | exact absurd htext (by decide)

theorem isLoopback_iff : isLoopback url = true ↔ ∃ host, urlHost url = some host ∧ host ∈ loopbackHosts := by
  rw [isLoopback]
  split
  all_goals simp only [loopbackHosts, List.mem_cons, List.not_mem_nil, or_false]
  all_goals grind

/-! ### Reading composed URLs -/

theorem continues_iff {c : Char} : (c != '/' && c != '?' && c != '#') = !endsAuthority c := by
  simp only [endsAuthority, bne, Bool.not_or]

namespace UrlParts

theorem host_chars : ∀ c ∈ u.host.written ++ writtenPort u.port, endsAuthority c = false ∧ c ≠ '@' := by
  intro c hc
  rcases List.mem_append.mp hc with hc | hc
  · have host := u.host_free
    cases hhost : u.host with
    | plain text =>
      rw [hhost] at hc host
      have := host c hc
      simp only [UrlHost.barred, Bool.or_eq_false_iff, beq_eq_false_iff_ne] at this
      exact ⟨this.1.1.1, this.1.1.2⟩
    | bracketed text =>
      rw [hhost] at hc host
      simp only [UrlHost.written, List.cons_append, List.mem_cons, List.mem_append, List.not_mem_nil, or_false] at hc
      rcases hc with rfl | hc | rfl
      · decide
      · have := host c hc
        simp only [UrlHost.barred, Bool.or_eq_false_iff, beq_eq_false_iff_ne] at this
        exact this.1
      · decide
  · have port := u.port_free
    cases hport : u.port with
    | none =>
      rw [hport] at hc
      cases hc
    | some text =>
      rw [hport] at hc port
      rcases List.mem_cons.mp hc with rfl | hc
      · decide
      · have := port text rfl c hc
        simpa only [Bool.or_eq_false_iff, beq_eq_false_iff_ne] using this

theorem userinfo_chars : ∀ c ∈ writtenUserinfo u.userinfo, endsAuthority c = false := by
  intro c hc
  have userinfo := u.userinfo_free
  cases hinfo : u.userinfo with
  | none =>
    rw [hinfo] at hc
    cases hc
  | some text =>
    rw [hinfo] at hc userinfo
    rcases List.mem_append.mp hc with hc | hc
    · exact userinfo text rfl c hc
    · rw [List.mem_singleton.mp hc]
      decide

theorem userinfo_last : ∀ c ∈ (writtenUserinfo u.userinfo).getLast?, (c != '@') = false := by
  intro c hc
  cases hinfo : u.userinfo with
  | none =>
    rw [hinfo] at hc
    cases hc
  | some text =>
    rw [hinfo, writtenUserinfo, List.getLast?_append_of_ne_nil _ (List.cons_ne_nil '@' [])] at hc
    cases hc
    rfl

/-- Whatever the userinfo holds, the host and port are what is left of the authority. -/
theorem hostport_rest : hostport u.rest = u.host.written ++ writtenPort u.port := by
  have inside : ∀ c ∈ writtenUserinfo u.userinfo ++ (u.host.written ++ writtenPort u.port),
      (c != '/' && c != '?' && c != '#') = true := by
    intro c hc
    rw [continues_iff, Bool.not_eq_true']
    rcases List.mem_append.mp hc with hc | hc
    · exact u.userinfo_chars c hc
    · exact (u.host_chars c hc).1
  have stop : ∀ c ∈ u.tail.head?, (c != '/' && c != '?' && c != '#') = false := fun c hc => by
    rw [continues_iff, u.tail_start c hc]
    rfl
  rw [hostport, rest, (Text.takeWhile_append_stop inside stop).1]
  exact Text.rtakeWhile_append_stop (fun c hc => bne_iff_ne.mpr (u.host_chars c hc).2) u.userinfo_last

theorem port_head : ∀ c ∈ (writtenPort u.port).head?, (c != ':') = false := by
  intro c hc
  cases hport : u.port with
  | none =>
    rw [hport] at hc
    cases hc
  | some text =>
    rw [hport] at hc
    cases hc
    rfl

/-- A plain host is not taken for a bracketed one. -/
theorem unbracketed (h : u.host = .plain text) : ∀ after, text ++ writtenPort u.port = '[' :: after → False := by
  intro after heq
  have host := u.host_free
  have nonempty := u.host_nonempty
  rw [h] at host nonempty
  cases text with
  | nil => exact nonempty rfl
  | cons c text =>
    have := host c List.mem_cons_self
    simp only [UrlHost.barred, Bool.or_eq_false_iff, beq_eq_false_iff_ne] at this
    exact this.2 (List.cons.inj heq).1

theorem hostText_plain_port (h : u.host = .plain text) :
    hostText (text ++ writtenPort u.port) = text ∧ behindHost (text ++ writtenPort u.port) = writtenPort u.port := by
  have host := u.host_free
  rw [h] at host
  have inside : ∀ c ∈ text, (c != ':') = true := fun c hc => by
    have := host c hc
    simp only [UrlHost.barred, Bool.or_eq_false_iff, beq_eq_false_iff_ne] at this
    exact bne_iff_ne.mpr this.1.2
  obtain ⟨htext, hbehind⟩ := hostText_plain (u.unbracketed h)
  obtain ⟨htake, hdrop⟩ := Text.takeWhile_append_stop inside u.port_head
  exact ⟨htext.trans htake, hbehind.trans hdrop⟩

theorem hostText_bracketed_port (h : u.host = .bracketed text) :
    hostText ('[' :: (text ++ ']' :: writtenPort u.port)) = text ∧
      behindHost ('[' :: (text ++ ']' :: writtenPort u.port)) = ']' :: writtenPort u.port := by
  have host := u.host_free
  rw [h] at host
  have inside : ∀ c ∈ text, (c != ']') = true := fun c hc => by
    have := host c hc
    simp only [UrlHost.barred, Bool.or_eq_false_iff, beq_eq_false_iff_ne] at this
    exact bne_iff_ne.mpr this.2
  have stop : ∀ c ∈ (']' :: writtenPort u.port).head?, (c != ']') = false := fun c hc => by
    cases hc
    rfl
  exact Text.takeWhile_append_stop inside stop

theorem written_bracketed (text port : List Char) :
    (UrlHost.bracketed text).written ++ port = '[' :: (text ++ ']' :: port) := by
  simp [UrlHost.written]

theorem hostText_rest : hostText (hostport u.rest) = u.host.text := by
  rw [hostport_rest]
  cases h : u.host with
  | plain text => exact (u.hostText_plain_port h).1
  | bracketed text =>
    rw [written_bracketed]
    exact (u.hostText_bracketed_port h).1

theorem toList_compose : u.compose.toList = u.scheme.text ++ "://".toList ++ u.rest := String.toList_ofList

theorem compose_eq_of_split (h : url.toList = u.scheme.text ++ "://".toList ++ u.rest) : u.compose = url :=
  String.toList_inj.mp (toList_compose.trans h.symm)

theorem urlHost_of_compose (h : u.compose = url) : urlHost url = some (lowered u.host.text) := by
  have nonempty : ¬ u.host.text.isEmpty = true := by
    rw [List.isEmpty_iff]
    exact u.host_nonempty
  rw [← h, urlHost_of_split (splitOnce_scheme u.toList_compose), hostText_rest, if_neg nonempty]

end UrlParts

/-! ### Accepted URLs -/

/-- The hosts that the policy admits under the scheme. -/
def Scheme.admits : Scheme → List Char → Bool
  | ws, host => loopbackHosts.contains (lowered host)
  | wss, host => !host.isEmpty

theorem urlHost_iff (h : url.toList = scheme.text ++ "://".toList ++ rest) {host : String} :
    urlHost url = some host ↔ hostText (hostport rest) ≠ [] ∧ lowered (hostText (hostport rest)) = host := by
  rw [urlHost_of_split (splitOnce_scheme h)]
  split
  · rename_i hempty
    exact iff_of_false (by simp) fun hne => hne.1 (List.isEmpty_iff.mp hempty)
  · rename_i hne
    rw [List.isEmpty_iff] at hne
    exact ⟨fun heq => ⟨hne, Option.some.inj heq⟩, fun heq => congrArg some heq.2⟩

theorem admits_ws_iff (h : url.toList = Scheme.ws.text ++ "://".toList ++ rest) :
    isLoopback url = true ↔ Scheme.ws.admits (hostText (hostport rest)) = true := by
  rw [isLoopback_iff, Scheme.admits, List.contains_iff_mem]
  constructor
  · rintro ⟨host, hhost, hmem⟩
    rw [((urlHost_iff h).mp hhost).2]
    exact hmem
  · intro hmem
    refine ⟨_, (urlHost_iff h).mpr ⟨fun hnil => ?_, rfl⟩, hmem⟩
    rw [hnil] at hmem
    exact absurd hmem (by decide)

theorem admits_wss_iff (h : url.toList = Scheme.wss.text ++ "://".toList ++ rest) :
    (urlHost url).isSome = true ↔ Scheme.wss.admits (hostText (hostport rest)) = true := by
  rw [Option.isSome_iff_exists, Scheme.admits, Bool.not_eq_true', List.isEmpty_eq_false_iff]
  constructor
  · rintro ⟨host, hhost⟩
    exact ((urlHost_iff h).mp hhost).1
  · intro hne
    exact ⟨_, (urlHost_iff h).mpr ⟨hne, rfl⟩⟩

theorem Scheme.isPrefixOf_iff {l : List Char} :
    (scheme.text ++ "://".toList).isPrefixOf l = true ↔ ∃ rest, l = scheme.text ++ "://".toList ++ rest := by
  rw [List.isPrefixOf_iff_prefix]
  exact ⟨fun ⟨rest, h⟩ => ⟨rest, h.symm⟩, fun ⟨rest, h⟩ => ⟨rest, h.symm⟩⟩

/-- What is accepted, in terms of the text behind the scheme. -/
theorem serverUrlOk_iff : serverUrlOk url = true ↔ ∃ scheme rest,
    (Text.trim url).toList = Scheme.text scheme ++ "://".toList ++ rest ∧
    scheme.admits (hostText (hostport rest)) = true := by
  have wss_text : Scheme.wss.text ++ "://".toList = "wss://".toList := by decide
  have ws_text : Scheme.ws.text ++ "://".toList = "ws://".toList := by decide
  simp only [serverUrlOk]
  constructor
  · intro h
    split at h
    · rename_i hwss
      rw [← wss_text, Scheme.isPrefixOf_iff] at hwss
      obtain ⟨rest, hrest⟩ := hwss
      exact ⟨.wss, rest, hrest, (admits_wss_iff hrest).mp (Bool.and_eq_true_iff.mp h).2⟩
    · split at h
      · rename_i hws
        rw [← ws_text, Scheme.isPrefixOf_iff] at hws
        obtain ⟨rest, hrest⟩ := hws
        exact ⟨.ws, rest, hrest, (admits_ws_iff hrest).mp h⟩
      · cases h
  · rintro ⟨scheme, rest, hrest, admitted⟩
    have starts : (scheme.text ++ "://".toList).isPrefixOf (Text.trim url).toList = true :=
      Scheme.isPrefixOf_iff.mpr ⟨rest, hrest⟩
    cases scheme with
    | ws =>
      have other : "wss://".toList.isPrefixOf (Text.trim url).toList = false := by
        rw [hrest]
        rfl
      rw [ws_text] at starts
      rw [other, if_neg Bool.false_ne_true, if_pos starts]
      exact (admits_ws_iff hrest).mpr admitted
    | wss =>
      rw [wss_text] at starts
      have behind : (Text.trim url).toList.drop "wss://".length = rest := by
        rw [hrest]
        rfl
      have nonempty : rest.isEmpty = false := by
        rw [List.isEmpty_eq_false_iff]
        rintro rfl
        exact absurd admitted (by decide)
      rw [if_pos starts, behind, nonempty, Bool.not_false, Bool.true_and]
      exact (admits_wss_iff hrest).mpr admitted

theorem UrlParts.admits_iff : u.scheme.admits (hostText (hostport u.rest)) = true ↔
    u.scheme = .wss ∨ lowered u.host.text ∈ loopbackHosts := by
  rw [UrlParts.hostText_rest]
  cases u.scheme with
  | ws => rw [Scheme.admits, List.contains_iff_mem, or_iff_right (by decide)]
  | wss =>
    have nonempty := List.isEmpty_eq_false_iff.mpr u.host_nonempty
    exact iff_of_true (by rw [Scheme.admits, nonempty]; rfl) (Or.inl rfl)

/-- The policy looks at the scheme and the host of a composed URL only. -/
theorem urlHost_compose (u : UrlParts) (spaceless : ∀ c ∈ u.compose.toList, Text.isWhitespace c = false) :
    urlHost u.compose = some (lowered u.host.text) ∧
      (serverUrlOk u.compose = true ↔ u.scheme = .wss ∨ lowered u.host.text ∈ loopbackHosts) := by
  have trimmed : Text.trim u.compose = u.compose :=
    Text.trim_eq_self (fun c hc => spaceless c (List.mem_of_mem_head? hc)) fun c hc => spaceless c (List.mem_of_getLast? hc)
  refine ⟨UrlParts.urlHost_of_compose rfl, ?_⟩
  rw [serverUrlOk_iff, trimmed, ← u.admits_iff]
  constructor
  · rintro ⟨scheme, rest, hrest, admitted⟩
    obtain ⟨rfl, rfl⟩ := scheme_unique hrest u.toList_compose
    exact admitted
  · intro admitted
    exact ⟨u.scheme, u.rest, u.toList_compose, admitted⟩

/-- A URL whose userinfo, port and path all look like another host. -/
def disguised : UrlParts :=
  { scheme := .ws
    userinfo := some "localhost:80@[::1]:".toList
    host := .plain "Evil.example".toList
    port := some "[::1]".toList
    tail := "/127.0.0.1?@localhost#://".toList
    host_nonempty := by decide
    userinfo_free := fun text h => by
      cases h
      exact List.all_iff_forall_prop.mp (by decide)
    host_free := List.all_iff_forall_prop.mp (by decide)
    port_free := fun text h => by
      cases h
      exact List.all_iff_forall_prop.mp (by decide)
    tail_start := fun c h => by
      cases h
      rfl }

theorem urlHost_disguised : urlHost disguised.compose = some "evil.example" ∧
    (serverUrlOk disguised.compose = true ↔ Scheme.ws = .wss ∨ "evil.example" ∈ loopbackHosts) :=
  urlHost_compose disguised (List.all_iff_forall_prop.mp (by decide))

end

end SquadLink

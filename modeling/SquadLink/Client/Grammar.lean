import SquadLink.Client.Authority

/-! Malformed endpoints (`companion-core/src/signaling.rs`, `server_url_ok`): the accepted strings that are
    no well-formed URLs, by what `urlHost` cuts off behind the host without looking at it. -/

namespace SquadLink

def isDigit (c : Char) : Bool := '0' ≤ c && c ≤ '9'

/-- No stray bracket in the host, and a port of decimal digits. -/
structure UrlParts.Strict (u : UrlParts) : Prop where
  brackets : ∀ text, u.host = .plain text → ']' ∉ text
  port : ∀ text ∈ u.port, text ≠ [] ∧ ∀ c ∈ text, isDigit c = true

/-- A well-formed ws(s):// URL whose host is the one that `urlHost` reads. -/
def WellFormed (url : String) : Prop :=
  ∃ u : UrlParts, u.Strict ∧ u.compose = url ∧ urlHost url = some (lowered u.host.text)

/-- An accepted string is a well-formed URL. -/
def AcceptsWellFormed (url : String) : Prop := serverUrlOk url = true → WellFormed (Text.trim url)

/-- Nothing, or a colon and digits. -/
def isPort : List Char → Bool
  | [] => true
  | c :: text => c == ':' && !text.isEmpty && text.all isDigit

/-- Host and port with nothing else: behind a bracketed host its closing bracket and perhaps a port, behind
    any other host perhaps a port, and no stray bracket in it. -/
def isTidy : List Char → Bool
  | '[' :: after =>
    match after.dropWhile fun c => c != ']' with
    | [] => false
    | _ :: port => isPort port
  | hostport => !(hostText hostport).contains '[' && !(hostText hostport).contains ']' && isPort (behindHost hostport)

/-- If the trimmed string has a scheme and a host that the scheme admits, its host and port are tidy. -/
def Tidy (url : String) : Prop :=
  ∀ scheme rest, (Text.trim url).toList = Scheme.text scheme ++ "://".toList ++ rest →
    scheme.admits (hostText (hostport rest)) = true → isTidy (hostport rest) = true

section
variable {url : String} {scheme : Scheme} {rest hp port : List Char} {u : UrlParts}

theorem isPort_iff : isPort port = true ↔ port = [] ∨ ∃ text, port = ':' :: text ∧ text ≠ [] ∧
    ∀ c ∈ text, isDigit c = true := by
  cases port with
  | nil => exact iff_of_true rfl (Or.inl rfl)
  | cons c text =>
    simp only [isPort, Bool.and_eq_true, beq_iff_eq, Bool.not_eq_true', List.isEmpty_eq_false_iff, List.all_eq_true]
    constructor
    · rintro ⟨⟨rfl, hne⟩, digits⟩
      exact Or.inr ⟨text, rfl, hne, digits⟩
    · rintro (h | ⟨_, h, hne, digits⟩)
      · cases h
      · cases h
        exact ⟨⟨rfl, hne⟩, digits⟩

theorem isTidy_plain (h : ∀ after, hp = '[' :: after → False) :
    isTidy hp = true ↔ '[' ∉ hostText hp ∧ ']' ∉ hostText hp ∧ isPort (behindHost hp) = true := by
  unfold isTidy
  split
  · exact (h _ rfl).elim
  · simp only [Bool.and_eq_true, Bool.not_eq_true', List.contains_eq_mem, decide_eq_false_iff_not, and_assoc]

theorem isTidy_bracketed {after : List Char} : isTidy ('[' :: after) = true ↔ ∃ port,
    behindHost ('[' :: after) = ']' :: port ∧ isPort port = true := by
  have closing : ∀ c ∈ (after.dropWhile fun c => c != ']').head?, c = ']' := fun c hc => by
    have := List.head?_dropWhile_not (fun c => c != ']') after
    rw [Option.mem_def.mp hc] at this
    simpa using this
  simp only [isTidy, behindHost]
  split
  · rename_i hnil
    rw [hnil]
    refine iff_of_false Bool.false_ne_true ?_
    rintro ⟨port, h, -⟩
    cases h
  · rename_i c port hcons
    rw [hcons] at closing
    rw [hcons, closing c rfl]
    constructor
    · intro h
      exact ⟨port, rfl, h⟩
    · rintro ⟨_, h, hport⟩
      cases h
      exact hport

/-! ### Well-formed URLs are tidy -/

theorem UrlParts.Strict.isPort (strict : u.Strict) : isPort (writtenPort u.port) = true := by
  rw [isPort_iff]
  cases hport : u.port with
  | none => exact Or.inl rfl
  | some text =>
    obtain ⟨hne, digits⟩ := strict.port text hport
    exact Or.inr ⟨text, rfl, hne, digits⟩

theorem UrlParts.Strict.isTidy (strict : u.Strict) : isTidy (hostport u.rest) = true := by
  rw [UrlParts.hostport_rest]
  cases h : u.host with
  | plain text =>
    obtain ⟨htext, hbehind⟩ := u.hostText_plain_port h
    have opening : '[' ∉ text := fun hm => by
      have := u.host_free
      rw [h] at this
      simpa [UrlHost.barred] using this _ hm
    rw [UrlHost.written, isTidy_plain (u.unbracketed h), htext, hbehind]
    exact ⟨opening, strict.brackets text h, strict.isPort⟩
  | bracketed text =>
    rw [UrlParts.written_bracketed, isTidy_bracketed]
    exact ⟨_, (u.hostText_bracketed_port h).2, strict.isPort⟩

/-! ### Tidy URLs are well-formed -/

/-- A port as it is written. -/
theorem exists_port (h : isPort port = true) : ∃ o : Option (List Char), writtenPort o = port ∧
    ∀ text ∈ o, text ≠ [] ∧ ∀ c ∈ text, isDigit c = true := by
  rcases isPort_iff.mp h with rfl | ⟨text, rfl, hne, digits⟩
  · exact ⟨none, rfl, fun _ h => by cases h⟩
  · exact ⟨some text, rfl, fun _ h => by cases h; exact ⟨hne, digits⟩⟩

/-- The userinfo as it is written, in front of the last `@`. -/
theorem exists_userinfo (authority : List Char) : ∃ o : Option (List Char),
    writtenUserinfo o = authority.rdropWhile fun c => c != '@' := by
  rcases List.eq_nil_or_concat (authority.rdropWhile fun c => c != '@') with h | ⟨text, c, h⟩
  · exact ⟨none, h.symm⟩
  · have hne : authority.rdropWhile (fun c => c != '@') ≠ [] := by simp [h]
    have last := List.rdropWhile_last_not (fun c => c != '@') authority hne
    simp only [h, List.concat_eq_append, List.getLast_append_singleton, bne_iff_ne, ne_eq, not_not] at last
    refine ⟨some text, ?_⟩
    rw [h, last, List.concat_eq_append]
    rfl

theorem hostport_chars : ∀ c ∈ hostport rest, endsAuthority c = false ∧ c ≠ '@' := by
  intro c hc
  have notAt : (c != '@') = true := List.mem_rtakeWhile_imp (p := fun c => c != '@') hc
  have inside : (c != '/' && c != '?' && c != '#') = true :=
    List.mem_takeWhile_imp (p := fun c => c != '/' && c != '?' && c != '#') ((List.rtakeWhile_suffix _ _).mem hc)
  rw [continues_iff, Bool.not_eq_true'] at inside
  exact ⟨inside, bne_iff_ne.mp notAt⟩

/-- The parts of tidy text behind a scheme. -/
theorem exists_host (chars : ∀ c ∈ hp, endsAuthority c = false ∧ c ≠ '@') (nonempty : hostText hp ≠ [])
    (tidy : isTidy hp = true) : ∃ (host : UrlHost) (port : List Char), host.written ++ port = hp ∧ host.text = hostText hp ∧
      (∀ c ∈ host.text, host.barred c = false) ∧ (∀ text, host = .plain text → ']' ∉ text) ∧ isPort port = true := by
  by_cases bracketed : ∃ after, hp = '[' :: after
  · obtain ⟨after, rfl⟩ := bracketed
    obtain ⟨port, behind, hport⟩ := isTidy_bracketed.mp tidy
    have whole : (after.takeWhile fun c => c != ']') ++ ']' :: port = after := by
      rw [← behind]
      exact List.takeWhile_append_dropWhile
    refine ⟨.bracketed (hostText ('[' :: after)), port, ?_, rfl, fun c hc => ?_, (fun text h => by cases h), hport⟩
    · rw [UrlParts.written_bracketed]
      exact congrArg _ whole
    · have inner : (c != ']') = true := List.mem_takeWhile_imp (p := fun c => c != ']') hc
      have := chars c (List.mem_cons_of_mem _ ((List.takeWhile_prefix _).mem hc))
      simp only [UrlHost.barred, Bool.or_eq_false_iff, beq_eq_false_iff_ne]
      exact ⟨this, bne_iff_ne.mp inner⟩
  · have plain : ∀ after, hp = '[' :: after → False := fun after h => bracketed ⟨after, h⟩
    obtain ⟨opening, closing, hport⟩ := (isTidy_plain plain).mp tidy
    obtain ⟨htext, hbehind⟩ := hostText_plain plain
    refine ⟨.plain (hostText hp), behindHost hp, ?_, rfl, fun c hc => ?_, (fun text h => by cases h; exact closing), hport⟩
    · rw [htext, hbehind]
      exact List.takeWhile_append_dropWhile
    · have notOpening : c ≠ '[' := fun h => opening (h ▸ hc)
      rw [UrlHost.text, htext] at hc
      have notColon : (c != ':') = true := List.mem_takeWhile_imp (p := fun c => c != ':') hc
      have := chars c ((List.takeWhile_prefix _).mem hc)
      simp only [UrlHost.barred, Bool.or_eq_false_iff, beq_eq_false_iff_ne]
      exact ⟨⟨this, bne_iff_ne.mp notColon⟩, notOpening⟩

/-- Tidy text behind a scheme is that of a well-formed URL. -/
theorem exists_parts (scheme : Scheme) (nonempty : hostText (hostport rest) ≠ []) (tidy : isTidy (hostport rest) = true) :
    ∃ u : UrlParts, u.Strict ∧ u.scheme = scheme ∧ u.rest = rest := by
  obtain ⟨host, portChars, hhost, htext, hfree, brackets, hport⟩ := exists_host hostport_chars nonempty tidy
  obtain ⟨port, rfl, digits⟩ := exists_port hport
  obtain ⟨userinfo, huserinfo⟩ := exists_userinfo (rest.takeWhile fun c => c != '/' && c != '?' && c != '#')
  have authority : writtenUserinfo userinfo ++ (host.written ++ writtenPort port) =
      rest.takeWhile fun c => c != '/' && c != '?' && c != '#' := by
    rw [huserinfo, hhost, hostport, List.rdropWhile_append_rtakeWhile]
  have port_free : ∀ text ∈ port, ∀ c ∈ text, (endsAuthority c || c == '@') = false := fun text htext c hc => by
    have written : c ∈ writtenPort port := by
      rw [Option.mem_def.mp htext]
      exact List.mem_cons_of_mem _ hc
    simpa only [Bool.or_eq_false_iff, beq_eq_false_iff_ne] using hostport_chars c (hhost ▸ List.mem_append_right _ written)
  have userinfo_free : ∀ text ∈ userinfo, ∀ c ∈ text, endsAuthority c = false := fun text htext c hc => by
    have written : c ∈ writtenUserinfo userinfo := by
      rw [Option.mem_def.mp htext]
      exact List.mem_append_left _ hc
    have inside := List.mem_takeWhile_imp (p := fun c => c != '/' && c != '?' && c != '#')
      (authority ▸ List.mem_append_left (host.written ++ writtenPort port) written)
    rwa [continues_iff, Bool.not_eq_true'] at inside
  have tail_start : ∀ c ∈ (rest.dropWhile fun c => c != '/' && c != '?' && c != '#').head?, endsAuthority c = true :=
    fun c hc => by
    have stop := List.head?_dropWhile_not (fun c => c != '/' && c != '?' && c != '#') rest
    rw [Option.mem_def.mp hc] at stop
    simpa [continues_iff] using stop
  let u : UrlParts :=
    { scheme, userinfo, host, port, tail := rest.dropWhile (fun c => c != '/' && c != '?' && c != '#'), userinfo_free,
      host_nonempty := htext ▸ nonempty, host_free := hfree, port_free, tail_start }
  have whole : u.rest = rest := by
    rw [UrlParts.rest, authority, List.takeWhile_append_dropWhile]
  exact ⟨u, ⟨brackets, digits⟩, rfl, whole⟩

/-! ### What is accepted -/

theorem Scheme.nonempty_of_admits {host : List Char} (h : scheme.admits host = true) : host ≠ [] := by
  rintro rfl
  cases scheme <;> exact absurd h (by decide)

theorem wellFormed_iff_tidy (hrest : (Text.trim url).toList = scheme.text ++ "://".toList ++ rest)
    (nonempty : hostText (hostport rest) ≠ []) : WellFormed (Text.trim url) ↔ isTidy (hostport rest) = true := by
  constructor
  · rintro ⟨u, strict, hcompose, -⟩
    have whole : (Text.trim url).toList = u.scheme.text ++ "://".toList ++ u.rest := hcompose ▸ u.toList_compose
    rw [(scheme_unique hrest whole).2]
    exact strict.isTidy
  · intro tidy
    obtain ⟨u, strict, rfl, rfl⟩ := exists_parts scheme nonempty tidy
    have hcompose := UrlParts.compose_eq_of_split hrest
    exact ⟨u, strict, hcompose, UrlParts.urlHost_of_compose hcompose⟩

/-- An accepted string is a well-formed URL exactly when it has nothing behind its host that is no port and
    no stray bracket in it. -/
theorem accepts_wellFormed_iff (url : String) : AcceptsWellFormed url ↔ Tidy url := by
  constructor
  · intro accepts scheme rest hrest admitted
    have wellFormed := accepts (serverUrlOk_iff.mpr ⟨scheme, rest, hrest, admitted⟩)
    exact (wellFormed_iff_tidy hrest (Scheme.nonempty_of_admits admitted)).mp wellFormed
  · intro tidy accepted
    obtain ⟨scheme, rest, hrest, admitted⟩ := serverUrlOk_iff.mp accepted
    exact (wellFormed_iff_tidy hrest (Scheme.nonempty_of_admits admitted)).mpr (tidy scheme rest hrest admitted)

/-- A bracket that is never closed. -/
theorem unclosed_bracket_accepted : ¬ ∀ url : String, AcceptsWellFormed url := by
  intro h
  have hrest : (Text.trim "wss://[::1").toList = Scheme.wss.text ++ "://".toList ++ "[::1".toList := by decide
  have wellFormed := h "wss://[::1" (by decide)
  rw [wellFormed_iff_tidy hrest (by decide)] at wellFormed
  exact absurd wellFormed (by decide)

end

end SquadLink

import SquadLink.Lib.Guessing
import SquadLink.Server.Lifetime
import SquadLink.Server.Proxies
import SquadLink.Server.State

/-! The REST endpoints of session brokering as their handlers answer them (`server/init/src/main.rs`, `create_session` and
    `join_session`), over the limiter and the session store, and how much an attacker can learn of a session's PIN. -/

namespace SquadLink

def maxCode : Nat := 32
def maxPin : Nat := 12

/-- The status and the fields of the JSON body; a field without a value is `null`. -/
structure Response where
  status : Nat
  body : List (String × Option String)
deriving DecidableEq, Repr

/-- `base` and `ws` are what `public_base` and `public_ws` read from the environment. -/
structure RestConfig where
  prim : Crypto
  auth : AuthConfig
  base : String
  ws : String

structure Rest where
  rate : RateLimiter
  sessions : Sessions

/-- Who calls a handler, and the clock when the limiter and when the store reads it. -/
structure Caller where
  headers : HeaderMap
  peer : SocketAddr
  now : Nat
  later : Nat

namespace Rest

def refusal (status : Nat) (error : String) : Response := { status, body := [("error", some error)] }

/-- Host creates a session. It does not return while the codes drawn are all taken. -/
def createSession (cfg : RestConfig) (r : Rest) (o : Caller) (draws : Draws) : Option (Response × Rest) :=
  let (allowed, rate) := r.rate.allow o.now (clientIp o.headers o.peer) rlCreateMax rlWindow
  if !allowed then some (refusal 429 "rate_limited", { r with rate })
  else (r.sessions.create cfg.prim.hex (cfg.auth.tokenFor cfg.prim) draws o.later).map fun (c, sessions) =>
    ({ status := 200
       body := [("code", some c.code), ("pin", some c.pin), ("room", some c.room), ("token", c.token), ("ws", some cfg.ws),
        ("link", some (cfg.base ++ "/j/" ++ c.code))] }, { rate, sessions })

def joinResponse (cfg : RestConfig) : Except JoinError (String × Option String) → Response
  | .ok (room, token) => { status := 200, body := [("room", some room), ("token", token), ("ws", some cfg.ws)] }
  | .error .notFound => refusal 404 "not_found"
  | .error .locked => refusal 429 "locked"
  | .error .badPin => refusal 403 "bad_pin"

/-- Mate resolves a code with the PIN. `pin` is the string under `pin` in the request's body, if there is one. -/
def joinSession (cfg : RestConfig) (r : Rest) (o : Caller) (code : String) (pin : Option String) : Response × Rest :=
  let (allowed, rate) := r.rate.allow o.now (clientIp o.headers o.peer) rlJoinMax rlWindow
  if !allowed then (refusal 429 "rate_limited", { r with rate })
  else
    let pin := pin.getD ""
    if !lenOk code maxCode || !lenOk pin maxPin then (refusal 404 "not_found", { r with rate })
    else
      let (result, sessions) := r.sessions.join o.later code pin
      (joinResponse cfg result, { rate, sessions })

/-- The minute task. -/
def sweep (r : Rest) (now later : Nat) (roomNonempty : String → Bool) : Rest :=
  { rate := r.rate.prune later rlWindow, sessions := r.sessions.reap now roomNonempty }

/-! ### Pins -/

section
variable {p q : Fin 1000000}

theorem randPin_toList (p : Fin 1000000) :
    (randPin p).toList = List.replicate (6 - (Nat.toDigits 10 p).length) '0' ++ Nat.toDigits 10 p := by
  simp only [randPin, String.toList_ofList]

theorem randPin_inj (h : randPin p = randPin q) : p = q := by
  have same := congrArg (fun s => Nat.ofDigitChars 10 s.toList 0) h
  simp only [randPin_toList, Nat.ofDigitChars_append, Nat.ofDigitChars_replicate_zero, Nat.mul_zero,
    Nat.ofDigitChars_ten_toDigits] at same
  exact Fin.ext same

theorem lenOk_randPin (p : Fin 1000000) : lenOk (randPin p) maxPin = true := by
  have short : (Nat.toDigits 10 p).length ≤ 6 := (Nat.length_toDigits_le_iff (by decide) (by decide)).mpr p.isLt
  have ascii : ∀ c ∈ List.replicate (6 - (Nat.toDigits 10 p).length) '0' ++ Nat.toDigits 10 p, c.toNat < 128 := by
    intro c hc
    rcases List.mem_append.mp hc with hc | hc
    · rw [List.eq_of_mem_replicate hc]
      decide
    · have digit := Nat.isDigit_of_mem_toDigits (by decide) (by decide) hc
      simp only [Char.isDigit, Bool.and_eq_true, decide_eq_true_eq] at digit
      have := UInt32.le_iff_toNat_le.mp digit.2
      exact Nat.lt_of_le_of_lt this (by decide)
  have size : (randPin p).utf8ByteSize = 6 := by
    rw [randPin, Text.utf8ByteSize_ofList _ ascii, List.length_append, List.length_replicate]
    omega
  have nonempty : randPin p ≠ "" := fun h => by rw [h] at size; cases size
  simp [lenOk, nonempty, size, maxPin]

end

/-! ### Guessing a PIN -/

/-- What happens while a session is up, as far as an attacker decides it: the requests, those of a mate who knows the PIN
    included, and the sweeps. -/
inductive Move
  | create (o : Caller) (draws : Draws)
  | join (o : Caller) (code : String) (pin : Option String)
  | mate (o : Caller)
  | sweep (now later : Nat) (roomNonempty : String → Bool)

/-- The move against the session `code`, with the response if the attacker gets to see it. The game is over when a sweep
    ends the session. -/
def move (cfg : RestConfig) (code : String) (r : Rest) : Move → Option (Option Response × Rest)
  | .create o draws => (r.createSession cfg o draws).map fun (response, r') => (some response, r')
  | .join o code' pin => some (some (r.joinSession cfg o code' pin).1, (r.joinSession cfg o code' pin).2)
  | .mate o => (r.sessions.lookup code).map fun s => (none, (r.joinSession cfg o code (some s.pin)).2)
  | .sweep now later roomNonempty =>
    let r' := r.sweep now later roomNonempty
    if (r'.sessions.lookup code).isSome then some (none, r') else none

/-- The session is opened with a guessed PIN. -/
def Opens (code : String) (q : Move × Option Response) : Prop :=
  ∃ o pin response, q = (.join o code pin, some response) ∧ response.status = 200

/-! ### The store without the PIN

The session `code` is kept without its PIN, which no request can guess: an empty PIN is refused before the store is
asked. -/

/-- The session with its PIN put back. -/
def withPin (code : String) (p : Fin 1000000) (c : String) (s : Session) : Session :=
  if c = code then { s with pin := randPin p } else s

def Masks (code : String) (p : Fin 1000000) (m m₀ : Sessions) : Prop :=
  ∀ c, m.lookup c = (m₀.lookup c).map (withPin code p c)

structure Hides (code : String) (p : Fin 1000000) (r r₀ : Rest) : Prop where
  rate : r.rate = r₀.rate
  masks : Masks code p r.sessions r₀.sessions
  target : ∃ s, r₀.sessions.lookup code = some s ∧ s.pin = ""

/-- The PIN that the string is, if it is one. -/
noncomputable def pinOf (s : String) : Option (Fin 1000000) :=
  open Classical in if h : ∃ p, randPin p = s then some h.choose else none

/-- A mate's join, which is right whatever the PIN is. -/
def mateIdeal (code : String) (r₀ : Rest) (o : Caller) (s : Session) : Rest :=
  let (allowed, rate) := r₀.rate.allow o.now (clientIp o.headers o.peer) rlJoinMax rlWindow
  if !allowed || !lenOk code maxCode || decide (s.attempts ≥ maxAttempts) then { r₀ with rate }
  else { rate, sessions := r₀.sessions.insert code { s with lastActive := o.later } }

/-- The game without the PIN. A wrong guess at the session would have been right for one PIN. -/
noncomputable def ideal (cfg : RestConfig) (code : String) : Guessing.Ideal (Fin 1000000) Rest Move (Option Response)
  | r₀, .create o draws => (r₀.createSession cfg o draws).map fun (response, r') => (none, some response, r')
  | r₀, .join o code' pin =>
    let (response, r') := r₀.joinSession cfg o code' pin
    some (if code' = code ∧ response.status = 403 then pinOf (pin.getD "") else none, some response, r')
  | r₀, .mate o => (r₀.sessions.lookup code).map fun s => (none, none, mateIdeal code r₀ o s)
  | r₀, .sweep now later roomNonempty =>
    let r' := r₀.sweep now later roomNonempty
    if (r'.sessions.lookup code).isSome then some (none, none, r') else none

/-- The guesses that the session still takes. -/
def left (code : String) (r₀ : Rest) : ℕ := maxAttempts - ((r₀.sessions.lookup code).map (·.attempts)).getD maxAttempts

section
variable {cfg : RestConfig} {code : String} {p : Fin 1000000} {m m₀ : Sessions} {r r₀ r' : Rest} {o : Caller}

theorem pinOf_randPin (p : Fin 1000000) : pinOf (randPin p) = some p := by
  have h : ∃ q, randPin q = randPin p := ⟨p, rfl⟩
  rw [pinOf, dif_pos h, Option.some.injEq]
  exact randPin_inj h.choose_spec

theorem Masks.notMem_iff (masks : Masks code p m m₀) (c : String) : c ∉ m ↔ c ∉ m₀ := by
  rw [← AList.lookup_eq_none, ← AList.lookup_eq_none, masks c, Option.map_eq_none_iff]

theorem Masks.insert (masks : Masks code p m m₀) (c : String) (s : Session) :
    Masks code p (m.insert c (withPin code p c s)) (m₀.insert c s) := by
  intro c'
  by_cases hc : c' = c
  · subst hc
    rw [AList.lookup_insert, AList.lookup_insert, Option.map_some]
  · rw [AList.lookup_insert_ne hc, AList.lookup_insert_ne hc, masks c']

/-- Creating draws the same code and puts the same session there, which is another one. -/
theorem Masks.create (masks : Masks code p m m₀) (present : m₀.lookup code ≠ none) (hex : Bytes → String)
    (tokenFor : String → Option String) (draws : Draws) (now : Nat) :
    (∃ c m' m₀', m.create hex tokenFor draws now = some (c, m') ∧
      m₀.create hex tokenFor draws now = some (c, m₀') ∧ c.code ≠ code ∧
      m₀'.lookup code = m₀.lookup code ∧ Masks code p m' m₀') ∨
    (m.create hex tokenFor draws now = none ∧ m₀.create hex tokenFor draws now = none) := by
  have same : m.freshCode draws.codes = m₀.freshCode draws.codes := by
    simp only [Sessions.freshCode, masks.notMem_iff]
  cases hf : m₀.freshCode draws.codes with
  | none =>
    right
    simp only [Sessions.create, same, hf, Option.map_none, and_self]
  | some fresh =>
    left
    have hne : fresh ≠ code := fun heq => present (heq ▸ Sessions.freshCode_notMem hf)
    let room := "squad-" ++ randHex hex draws.room
    let s : Session :=
      { room, token := tokenFor room, pin := randPin draws.pin, created := now, lastActive := now, attempts := 0 }
    refine ⟨{ code := fresh, pin := s.pin, room, token := s.token }, m.insert fresh s, m₀.insert fresh s, ?_, ?_, hne,
      AList.lookup_insert_ne (Ne.symm hne), ?_⟩
    · simp only [Sessions.create, same, hf, Option.map_some, room, s]
    · simp only [Sessions.create, hf, Option.map_some, room, s]
    · have grown := masks.insert fresh s
      rwa [withPin, if_neg hne] at grown

/-- A join that is as right for the one store as for the other is answered alike. -/
theorem Masks.join (masks : Masks code p m m₀) (now : Nat) {code' pin : String}
    (same : ∀ s, m₀.lookup code' = some s → s.attempts < maxAttempts →
      ctEq (bytes (withPin code p code' s).pin) (bytes pin) = ctEq (bytes s.pin) (bytes pin)) :
    (m.join now code' pin).1 = (m₀.join now code' pin).1 ∧
    Masks code p (m.join now code' pin).2 (m₀.join now code' pin).2 := by
  have kept (s : Session) : (withPin code p code' s).attempts = s.attempts ∧ (withPin code p code' s).room = s.room ∧
      (withPin code p code' s).token = s.token := by
    unfold withPin
    split <;> exact ⟨rfl, rfl, rfl⟩
  simp only [Sessions.join, masks code']
  cases hl : m₀.lookup code' with
  | none => exact ⟨rfl, masks⟩
  | some s =>
    obtain ⟨attempts, room, token⟩ := kept s
    simp only [Option.map_some, attempts, room, token]
    by_cases hlock : s.attempts ≥ maxAttempts
    · rw [if_pos hlock, if_pos hlock]
      exact ⟨rfl, masks⟩
    · rw [if_neg hlock, if_neg hlock, same s hl (not_le.mp hlock)]
      have seen := masks.insert code' { s with lastActive := now }
      have guessed := masks.insert code' { s with attempts := s.attempts + 1 }
      split
      · refine ⟨rfl, ?_⟩
        convert seen using 2
        unfold withPin
        split <;> rfl
      · refine ⟨rfl, ?_⟩
        convert guessed using 2
        unfold withPin
        split <;> rfl

theorem Masks.reap (masks : Masks code p m m₀) (now : Nat) (roomNonempty : String → Bool) :
    Masks code p (m.reap now roomNonempty) (m₀.reap now roomNonempty) := by
  intro c
  rw [Sessions.lookup_reap, Sessions.lookup_reap, masks c]
  cases m₀.lookup c with
  | none => rfl
  | some s =>
    simp only [Option.map_some, Option.bind_some]
    unfold withPin
    split
    · simp only [Sessions.keep]
      split
      · rfl
      · split
        · rfl
        · split <;> rfl
    · exact Option.map_id'.symm

/-- What a join leaves of a session: its PIN, and its count of wrong guesses but for one more if this is one. -/
theorem lookup_join_of_some {s : Session} (hl : m.lookup code = some s) (now : Nat) (code' pin : String) :
    ∃ s', (m.join now code' pin).2.lookup code = some s' ∧ s'.pin = s.pin ∧
      ((s'.attempts = s.attempts + 1 ∧ s.attempts < maxAttempts) ∨
        (s'.attempts = s.attempts ∧ (code' = code → (m.join now code' pin).1 ≠ .error .badPin))) := by
  by_cases hcode : code' = code
  · subst hcode
    simp only [Sessions.join, hl]
    by_cases hlock : s.attempts ≥ maxAttempts
    · rw [if_pos hlock]
      exact ⟨s, hl, rfl, Or.inr ⟨rfl, fun _ => by simp⟩⟩
    · rw [if_neg hlock]
      split
      · exact ⟨_, AList.lookup_insert _, rfl, Or.inr ⟨rfl, fun _ => by simp⟩⟩
      · exact ⟨_, AList.lookup_insert _, rfl, Or.inl ⟨rfl, not_le.mp hlock⟩⟩
  · refine ⟨s, ?_, rfl, Or.inr ⟨rfl, fun heq => absurd heq hcode⟩⟩
    have hne : code ≠ code' := fun heq => hcode heq.symm
    rcases m.join_cases now code' pin with ⟨err, hj⟩ | ⟨s', -, hj⟩ | ⟨s', -, hj⟩
    · rw [hj, hl]
    · rw [hj, AList.lookup_insert_ne hne, hl]
    · rw [hj, AList.lookup_insert_ne hne, hl]

theorem joinResponse_badPin {result : Except JoinError (String × Option String)}
    (h : (joinResponse cfg result).status = 403) :
    result = .error .badPin := by
  match result, h with
  | .error .badPin, _ => rfl
  | .ok _, h | .error .notFound, h | .error .locked, h => cases h

/-! ### The moves, with and without the PIN -/

theorem hides_create (cfg : RestConfig) (h : Hides code p r r₀) (o : Caller) (draws : Draws) :
    (∃ response r' r₀', r.createSession cfg o draws = some (response, r') ∧
      r₀.createSession cfg o draws = some (response, r₀') ∧ Hides code p r' r₀' ∧ left code r₀' = left code r₀) ∨
    (r.createSession cfg o draws = none ∧ r₀.createSession cfg o draws = none) := by
  obtain ⟨s, hs, hpin⟩ := h.target
  simp only [createSession, h.rate]
  split
  · exact Or.inl ⟨_, _, _, rfl, rfl, ⟨rfl, h.masks, s, hs, hpin⟩, rfl⟩
  · rcases h.masks.create (by rw [hs]; simp) cfg.prim.hex (cfg.auth.tokenFor cfg.prim) draws o.later with
      ⟨c, m', m₀', hm, hm₀, -, still, masks⟩ | ⟨hm, hm₀⟩
    · rw [hm, hm₀]
      exact Or.inl ⟨_, _, _, rfl, rfl, ⟨rfl, masks, s, still.trans hs, hpin⟩, by simp only [left, still]⟩
    · rw [hm, hm₀]
      exact Or.inr ⟨rfl, rfl⟩

/-- A join that is no right guess. -/
theorem hides_join (cfg : RestConfig) (h : Hides code p r r₀) (o : Caller) (code' : String) (pin : Option String)
    (unguessed : code' = code → (r₀.joinSession cfg o code' pin).1.status = 403 → pinOf (pin.getD "") ≠ some p) :
    (r.joinSession cfg o code' pin).1 = (r₀.joinSession cfg o code' pin).1 ∧
      Hides code p (r.joinSession cfg o code' pin).2 (r₀.joinSession cfg o code' pin).2 := by
  obtain ⟨s, hs, hpin⟩ := h.target
  simp only [joinSession, h.rate] at unguessed ⊢
  split
  · exact ⟨rfl, rfl, h.masks, s, hs, hpin⟩
  · rename_i allowed
    rw [if_neg allowed] at unguessed
    split
    · exact ⟨rfl, rfl, h.masks, s, hs, hpin⟩
    · rename_i bounds
      rw [if_neg bounds] at unguessed
      have nonempty : pin.getD "" ≠ "" := fun he => by
        rw [he] at bounds
        simp [lenOk] at bounds
      have same : ∀ s, r₀.sessions.lookup code' = some s → s.attempts < maxAttempts →
          ctEq (bytes (withPin code p code' s).pin) (bytes (pin.getD "")) = ctEq (bytes s.pin) (bytes (pin.getD "")) := by
        intro s' hs' few
        by_cases hcode : code' = code
        · subst hcode
          cases hs.symm.trans hs'
          -- with the PIN as well as without the guess is wrong
          have wrong : ctEq (bytes s.pin) (bytes (pin.getD "")) = false := Bool.eq_false_iff.mpr fun heq =>
            nonempty (bytes_inj.mp (ctEq_iff.mp heq) ▸ hpin)
          have bad : (r₀.sessions.join o.later code' (pin.getD "")).1 = .error .badPin := by
            simp only [Sessions.join, hs, if_neg (not_le.mpr few), wrong, Bool.false_eq_true, ↓reduceIte]
          have other := unguessed rfl (by rw [bad]; rfl)
          rw [wrong, withPin, if_pos rfl]
          exact Bool.eq_false_iff.mpr fun heq => other (by rw [← bytes_inj.mp (ctEq_iff.mp heq), pinOf_randPin])
        · rw [withPin, if_neg hcode]
      obtain ⟨answer, masks⟩ := h.masks.join o.later same
      obtain ⟨s', hs', hpin', -⟩ := lookup_join_of_some hs o.later code' (pin.getD "")
      exact ⟨by rw [answer], rfl, masks, s', hs', hpin'.trans hpin⟩

theorem left_join (h : Hides code p r r₀) (o : Caller) (code' : String) (pin : Option String) :
    left code (r₀.joinSession cfg o code' pin).2 +
      (if code' = code ∧ (r₀.joinSession cfg o code' pin).1.status = 403 then pinOf (pin.getD "") else none).toList.length ≤
        left code r₀ := by
  obtain ⟨s, hs, -⟩ := h.target
  simp only [joinSession]
  split
  · rw [if_neg fun hg => by cases hg.2]
    exact le_rfl
  · split
    · rw [if_neg fun hg => by cases hg.2]
      exact le_rfl
    · obtain ⟨s', hs', -, hcount⟩ := lookup_join_of_some hs o.later code' (pin.getD "")
      simp only [left, hs, hs', Option.map_some, Option.getD_some]
      rcases hcount with ⟨hcount, few⟩ | ⟨hcount, notBad⟩
      · have one (x : Option (Fin 1000000)) : x.toList.length ≤ 1 := by cases x <;> simp
        have := one (if code' = code ∧ (joinResponse cfg (r₀.sessions.join o.later code' (pin.getD "")).1).status = 403 then
          pinOf (pin.getD "") else none)
        omega
      · rw [if_neg fun hg => notBad hg.1 (joinResponse_badPin hg.2), hcount]
        exact le_rfl

/-- A mate is let in, or finds the session locked. -/
theorem hides_mate (cfg : RestConfig) (h : Hides code p r r₀) (o : Caller) {s : Session}
    (hs : r₀.sessions.lookup code = some s) :
    Hides code p (r.joinSession cfg o code (some (randPin p))).2 (mateIdeal code r₀ o s) ∧
      left code (mateIdeal code r₀ o s) = left code r₀ := by
  obtain ⟨s', hs', hpin⟩ := h.target
  cases hs.symm.trans hs'
  have stored : r.sessions.lookup code = some { s with pin := randPin p } := by
    rw [h.masks code, hs, Option.map_some, withPin, if_pos rfl]
  simp only [joinSession, mateIdeal, h.rate, Option.getD_some, lenOk_randPin, Bool.not_true, Bool.or_false]
  by_cases allowed : (r₀.rate.allow o.now (clientIp o.headers o.peer) rlJoinMax rlWindow).1 = true
  · by_cases bound : lenOk code maxCode = true
    · by_cases hlock : s.attempts ≥ maxAttempts
      · simp only [allowed, bound, hlock, Sessions.join, stored, Bool.not_true, Bool.false_eq_true, ↓reduceIte, decide_true,
          Bool.or_true]
        exact ⟨⟨rfl, h.masks, s, hs, hpin⟩, rfl⟩
      · have right : ctEq (bytes (randPin p)) (bytes (randPin p)) = true := ctEq_iff.mpr rfl
        simp only [allowed, bound, hlock, Sessions.join, stored, right, Bool.not_true, Bool.false_eq_true, ↓reduceIte,
          decide_false, Bool.or_false]
        have seen := h.masks.insert code { s with lastActive := o.later }
        rw [withPin, if_pos rfl] at seen
        refine ⟨⟨rfl, seen, _, AList.lookup_insert _, hpin⟩, ?_⟩
        simp only [left, AList.lookup_insert, hs, Option.map_some]
    · simp only [allowed, bound, Bool.not_true, Bool.false_eq_true, ↓reduceIte, Bool.not_false, Bool.or_true, Bool.true_or]
      exact ⟨⟨rfl, h.masks, s, hs, hpin⟩, rfl⟩
  · simp only [allowed, Bool.not_false, ↓reduceIte, Bool.true_or]
    exact ⟨⟨rfl, h.masks, s, hs, hpin⟩, rfl⟩

theorem hides_sweep (h : Hides code p r r₀) (now later : Nat) (roomNonempty : String → Bool) :
    ((r.sweep now later roomNonempty).sessions.lookup code).isSome =
      ((r₀.sweep now later roomNonempty).sessions.lookup code).isSome ∧
    (((r₀.sweep now later roomNonempty).sessions.lookup code).isSome = true →
      Hides code p (r.sweep now later roomNonempty) (r₀.sweep now later roomNonempty) ∧
        left code (r₀.sweep now later roomNonempty) = left code r₀) := by
  obtain ⟨s, hs, hpin⟩ := h.target
  have masks := h.masks.reap now roomNonempty
  refine ⟨by simp only [sweep, masks code, Option.isSome_map], fun stays => ?_⟩
  have hkeep : (r₀.sweep now later roomNonempty).sessions.lookup code = Sessions.keep now roomNonempty s := by
    rw [sweep, Sessions.lookup_reap, hs, Option.bind_some]
  rcases @Sessions.keep_cases now roomNonempty s with gone | ⟨t, kept⟩
  · rw [hkeep, gone] at stays
    cases stays
  · rw [kept] at hkeep
    refine ⟨⟨by simp only [sweep, h.rate], masks, _, hkeep, hpin⟩, ?_⟩
    simp only [left, hkeep, hs, Option.map_some]

theorem ideal_join (o : Caller) (code' : String) (pin : Option String) :
    ideal cfg code r₀ (.join o code' pin) =
      some (if code' = code ∧ (r₀.joinSession cfg o code' pin).1.status = 403 then pinOf (pin.getD "") else none,
        some (r₀.joinSession cfg o code' pin).1, (r₀.joinSession cfg o code' pin).2) := rfl

theorem conditions (cfg : RestConfig) (code : String) :
    Guessing.Conditions (move cfg code) (ideal cfg code) (left code) (Hides code) where
  spends {p r r₀ a guess answer r₀'} h hi := by
    cases a with
    | create o draws =>
      rcases hides_create cfg h o draws with ⟨response, r', r₁, -, hr₀, -, same⟩ | ⟨-, hr₀⟩
      · simp only [ideal, hr₀, Option.map_some] at hi
        cases hi
        exact le_of_eq same
      · simp only [ideal, hr₀, Option.map_none] at hi
        cases hi
    | join o code' pin =>
      rw [ideal_join, Option.some.injEq, Prod.mk.injEq, Prod.mk.injEq] at hi
      obtain ⟨rfl, -, rfl⟩ := hi
      exact left_join h o code' pin
    | mate o =>
      obtain ⟨s, hs, heq⟩ := Option.map_eq_some_iff.mp hi
      cases heq
      exact le_of_eq (hides_mate cfg h o hs).2
    | sweep now later roomNonempty =>
      simp only [ideal, Option.ite_none_right_eq_some] at hi
      obtain ⟨stays, heq⟩ := hi
      cases heq
      exact le_of_eq ((hides_sweep h now later roomNonempty).2 stays).2
  ends {p r r₀ a} h hi := by
    cases a with
    | create o draws =>
      rcases hides_create cfg h o draws with ⟨response, r', r₁, -, hr₀, -⟩ | ⟨hr, -⟩
      · simp only [ideal, hr₀, Option.map_some] at hi
        cases hi
      · simp only [move, hr, Option.map_none]
    | join o code' pin => cases hi
    | mate o =>
      obtain ⟨s, hs, -⟩ := h.target
      simp only [ideal, hs, Option.map_some] at hi
      cases hi
    | sweep now later roomNonempty =>
      simp only [ideal, ite_eq_right_iff] at hi
      have gone : ¬ ((r₀.sweep now later roomNonempty).sessions.lookup code).isSome = true := fun stays => by cases hi stays
      simp only [move, (hides_sweep h now later roomNonempty).1, if_neg gone]
  same {p r r₀ a guess answer r₀'} h hi unguessed := by
    cases a with
    | create o draws =>
      rcases hides_create cfg h o draws with ⟨response, r', r₁, hr, hr₀, hides, -⟩ | ⟨-, hr₀⟩
      · simp only [ideal, hr₀, Option.map_some] at hi
        cases hi
        exact ⟨r', by simp only [move, hr, Option.map_some], hides⟩
      · simp only [ideal, hr₀, Option.map_none] at hi
        cases hi
    | join o code' pin =>
      rw [ideal_join, Option.some.injEq, Prod.mk.injEq, Prod.mk.injEq] at hi
      obtain ⟨rfl, rfl, rfl⟩ := hi
      obtain ⟨answer, hides⟩ := hides_join cfg h o code' pin fun hcode hbad heq =>
        unguessed (by rw [if_pos ⟨hcode, hbad⟩, heq])
      exact ⟨_, by simp only [move, answer], hides⟩
    | mate o =>
      obtain ⟨s, hs, heq⟩ := Option.map_eq_some_iff.mp hi
      cases heq
      refine ⟨_, ?_, (hides_mate cfg h o hs).1⟩
      simp only [move, h.masks code, hs, Option.map_some, withPin, ↓reduceIte]
    | sweep now later roomNonempty =>
      simp only [ideal, Option.ite_none_right_eq_some] at hi
      obtain ⟨stays, heq⟩ := hi
      cases heq
      obtain ⟨same, rest⟩ := hides_sweep h now later roomNonempty
      exact ⟨_, by simp only [move, same, if_pos stays], (rest stays).1⟩

/-! ### All PINs but six -/

/-- The session is there, without its PIN. -/
def Blank (code : String) (r₀ : Rest) : Prop := ∃ s, r₀.sessions.lookup code = some s ∧ s.pin = ""

theorem Blank.hides (h : Blank code r₀) (p : Fin 1000000) : ∃ r, Hides code p r r₀ := by
  obtain ⟨s, hs, hpin⟩ := h
  refine ⟨{ r₀ with sessions := r₀.sessions.insert code { s with pin := randPin p } }, rfl, fun c => ?_, s, hs, hpin⟩
  by_cases hc : c = code
  · subst hc
    rw [AList.lookup_insert, hs, Option.map_some, withPin, if_pos rfl]
  · have still : withPin code p c = id := funext fun s => by rw [withPin, if_neg hc, id]
    rw [AList.lookup_insert_ne hc, still, Option.map_id, id]

theorem Blank.refused (h : Blank code r₀) (o : Caller) (pin : Option String) :
    (r₀.joinSession cfg o code pin).1.status ≠ 200 := by
  obtain ⟨s, hs, hpin⟩ := h
  simp only [joinSession]
  split
  · simp [refusal]
  · split
    · simp [refusal]
    · rename_i bounds
      have wrong : ¬ ctEq (bytes s.pin) (bytes (pin.getD "")) = true := fun heq => by
        rw [← bytes_inj.mp (ctEq_iff.mp heq), hpin] at bounds
        simp [lenOk] at bounds
      simp only [Sessions.join, hs]
      by_cases hlock : s.attempts ≥ maxAttempts
      · rw [if_pos hlock]
        simp [joinResponse, refusal]
      · rw [if_neg hlock, if_neg wrong]
        simp [joinResponse, refusal]

theorem Blank.step {a : Move} {answer : Option Response} (h : Blank code r₀)
    (hs : (ideal cfg code).step r₀ a = some (answer, r')) : Blank code r' ∧ ¬ Opens code (a, answer) := by
  obtain ⟨⟨guess, answer, r₁⟩, hi, heq⟩ := Option.map_eq_some_iff.mp hs
  cases heq
  constructor
  · -- a secret that is not the one guessed goes along
    obtain ⟨p, hp⟩ : ∃ p : Fin 1000000, guess ≠ some p := by
      by_cases h0 : guess = some 0
      · exact ⟨1, by rw [h0]; decide⟩
      · exact ⟨0, h0⟩
    obtain ⟨r, hides⟩ := h.hides p
    obtain ⟨_, -, hides'⟩ := (conditions cfg code).same hides hi hp
    exact hides'.target
  · rintro ⟨o, pin, response, heq, hok⟩
    cases heq
    rw [ideal_join, Option.some.injEq, Prod.mk.injEq, Prod.mk.injEq] at hi
    obtain ⟨-, hr, -⟩ := hi
    exact h.refused o pin (Option.some.inj hr ▸ hok)

/-- A session that was created with some PIN, whatever it is, beside the one without. -/
theorem hides_created {draws : Draws} {code : String} {after : Fin 1000000 → Rest}
    (hosts : ∀ p, ∃ response, r.createSession cfg o { draws with pin := p } = some (response, after p) ∧
      response.status = 200 ∧ response.body.lookup "code" = some (some code)) :
    ∃ r₀, left code r₀ = maxAttempts ∧ Blank code r₀ ∧ ∀ p, Hides code p (after p) r₀ := by
  have shape (p : Fin 1000000) : r.sessions.freshCode draws.codes = some code ∧
      after p =
        { rate := (r.rate.allow o.now (clientIp o.headers o.peer) rlCreateMax rlWindow).2
          sessions := r.sessions.insert code
            { room := "squad-" ++ randHex cfg.prim.hex draws.room,
              token := cfg.auth.tokenFor cfg.prim ("squad-" ++ randHex cfg.prim.hex draws.room)
              pin := randPin p, created := o.later, lastActive := o.later, attempts := 0 } } := by
    obtain ⟨response, made, hok, hcode⟩ := hosts p
    simp only [createSession] at made
    split at made
    · obtain ⟨rfl, -⟩ := Prod.mk.inj (Option.some.inj made)
      cases hok
    · obtain ⟨⟨c, m⟩, hc, heq⟩ := Option.map_eq_some_iff.mp made
      obtain ⟨rfl, hafter⟩ := Prod.mk.inj heq
      obtain ⟨fresh, hf, heq⟩ := Option.map_eq_some_iff.mp hc
      cases heq
      cases Option.some.inj (Option.some.inj hcode)
      exact ⟨hf, hafter.symm⟩
  refine ⟨{ rate := (r.rate.allow o.now (clientIp o.headers o.peer) rlCreateMax rlWindow).2
            sessions := r.sessions.insert code
              { room := "squad-" ++ randHex cfg.prim.hex draws.room,
                token := cfg.auth.tokenFor cfg.prim ("squad-" ++ randHex cfg.prim.hex draws.room)
                pin := "", created := o.later, lastActive := o.later, attempts := 0 } }, ?_,
    ⟨_, AList.lookup_insert _, rfl⟩, fun p => ?_⟩
  · simp only [left, AList.lookup_insert, Option.map_some, Option.getD_some, Nat.sub_zero]
  · rw [(shape p).2]
    refine ⟨rfl, fun c => ?_, _, AList.lookup_insert _, rfl⟩
    by_cases hc : c = code
    · subst hc
      simp only [AList.lookup_insert, Option.map_some, withPin, ↓reduceIte]
    · have still : withPin code p c = id := funext fun s => by rw [withPin, if_neg hc, id]
      rw [AList.lookup_insert_ne hc, AList.lookup_insert_ne hc, still, Option.map_id, id]

/-- Whatever an attacker asks, whatever comes in between and however long it goes on: while the session is up, all PINs
    but six give the same answers, and with none of them the session is opened. -/
theorem pin_found_rarely {draws : Draws} {after : Fin 1000000 → Rest}
    (hosts : ∀ p, ∃ response, r.createSession cfg o { draws with pin := p } = some (response, after p) ∧
      response.status = 200 ∧ response.body.lookup "code" = some (some code))
    (strategy : List (Move × Option Response) → Move) (n : ℕ) :
    ∃ found : Finset (Fin 1000000), found.card ≤ maxAttempts ∧
      (∀ p ∉ found, ∀ p' ∉ found, Guessing.play (move cfg code) strategy n (after p) [] =
        Guessing.play (move cfg code) strategy n (after p') []) ∧
      ∀ p ∉ found, ∀ q ∈ Guessing.play (move cfg code) strategy n (after p) [], ¬ Opens code q := by
  obtain ⟨r₀, guesses, blank, hides⟩ := hides_created hosts
  obtain ⟨found, few, same⟩ := (conditions cfg code).all_but_few strategy n r₀ []
  refine ⟨found, guesses ▸ few, fun p hp p' hp' => ?_, fun p hp => ?_⟩
  · rw [same p hp _ (hides p), same p' hp' _ (hides p')]
  · rw [same p hp _ (hides p)]
    exact Guessing.play_forall (fun _ _ _ _ known hs => known.step hs) strategy n r₀ [] blank nofun

end

def empty : Rest := { rate := ∅, sessions := ∅ }

def callFrom (host : UInt8) : Caller :=
  { headers := [], peer := { ip := .v4 #v[192, 0, 2, host], port := 0 }, now := 0, later := 0 }

def openRest : RestConfig :=
  { prim := { hmacSha256 := fun _ _ => [], hmacSha1 := fun _ _ => [], base64 := fun _ => "", hex := sampleHex }
    auth := .opened
    base := "https://squadlink.raumdock.org"
    ws := "wss://squadlink.raumdock.org/ws" }

def hostDraws : Draws := { room := fun i => UInt8.ofNat i, pin := Fin.last 999999, codes := [Fin.castAdd 24] }

/-- A service with one session. -/
def hosted (p : Fin 1000000) : Rest :=
  ((empty.createSession openRest (callFrom 7) { hostDraws with pin := p }).map Prod.snd).getD empty

/-- An attacker who asks for `000000`, `000001` and so on. -/
def countingUp (seen : List (Move × Option Response)) : Move :=
  .join (callFrom 1) "abcdefgh" (some (randPin ⟨seen.length % 1000000, Nat.mod_lt _ (by decide)⟩))

theorem pin_found_rarely_counting_up : ∃ found : Finset (Fin 1000000), found.card ≤ maxAttempts ∧
    (∀ p ∉ found, ∀ p' ∉ found, Guessing.play (move openRest "abcdefgh") countingUp 1000 (hosted p) [] =
      Guessing.play (move openRest "abcdefgh") countingUp 1000 (hosted p') []) ∧
    ∀ p ∉ found, ∀ q ∈ Guessing.play (move openRest "abcdefgh") countingUp 1000 (hosted p) [], ¬ Opens "abcdefgh" q :=
  have hosts (p : Fin 1000000) : ∃ response, empty.createSession openRest (callFrom 7) { hostDraws with pin := p } =
      some (response, hosted p) ∧ response.status = 200 ∧ response.body.lookup "code" = some (some "abcdefgh") :=
    ⟨_, rfl, rfl, rfl⟩
  pin_found_rarely hosts countingUp 1000

end Rest

end SquadLink

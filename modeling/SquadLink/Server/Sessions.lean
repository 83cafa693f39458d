import SquadLink.Lib.Assoc
import SquadLink.Lib.Lts
import SquadLink.Server.Auth

/-! PIN-protected session brokering (`server/init/src/sessions.rs`): the store under its lock, the history
    of its calls, and what the history alone says that a join returns. -/

namespace SquadLink

/-- Hard cap: a session ends at most 24h after creation, no matter what. -/
def maxAgeSecs : Nat := 24 * 3600
/-- Grace after the room goes empty. -/
def emptyGraceSecs : Nat := 5 * 60
/-- Wrong-PIN tries before the code locks. -/
def maxAttempts : Nat := 6

/-- `lastActive` is the last time the room had a connected member (at first, the creation). -/
structure Session where
  room : String
  token : Option String
  pin : String
  created : Nat
  lastActive : Nat
  attempts : Nat
deriving DecidableEq, Repr

inductive JoinError
  | notFound
  | locked
  | badPin
deriving DecidableEq, Repr

/-- What `create` returns. -/
structure Created where
  code : String
  pin : String
  room : String
  token : Option String
deriving DecidableEq, Repr

/-- code ↦ session -/
abbrev Sessions := HashMap Session

/-- What one `create` draws: the bytes of the room, the PIN's number, and its codes one after another. -/
structure Draws where
  room : Fin 8 → UInt8
  pin : Fin 1000000
  codes : List (Fin 8 → Fin 32)

def randHex (hex : Bytes → String) (draw : Fin 8 → UInt8) : String := hex (List.ofFn draw)

/-- Unambiguous alphabet (no 0/o/1/l). -/
def codeChars : List Char := "abcdefghijkmnpqrstuvwxyz23456789".toList

def randCode (draw : Fin 8 → Fin 32) : String := String.ofList (List.ofFn fun i => codeChars.getD (draw i) 'a')

/-- `format!("{n:06}")`. -/
def randPin (n : Fin 1000000) : String :=
  let digits := Nat.toDigits 10 n
  String.ofList (List.replicate (6 - digits.length) '0' ++ digits)

namespace Sessions

/-- The first code drawn that the map does not hold; none while the loop still draws. -/
def freshCode (m : Sessions) (draws : List (Fin 8 → Fin 32)) : Option String :=
  (draws.map randCode).find? fun code => decide (code ∉ m)

/-- Create a session. `tokenFor` mints the room's join token. -/
def create (hex : Bytes → String) (tokenFor : String → Option String) (draws : Draws) (now : Nat) (m : Sessions) :
    Option (Created × Sessions) :=
  let room := "squad-" ++ randHex hex draws.room
  let token := tokenFor room
  let pin := randPin draws.pin
  (m.freshCode draws.codes).map fun code =>
    ({ code, pin, room, token }, m.insert code { room, token, pin, created := now, lastActive := now, attempts := 0 })

/-- Resolve a code with a PIN. -/
def join (now : Nat) (code pin : String) (m : Sessions) : Except JoinError (String × Option String) × Sessions :=
  match m.lookup code with
  | none => (.error .notFound, m)
  | some s =>
    if s.attempts ≥ maxAttempts then (.error .locked, m)
    else if ctEq (bytes s.pin) (bytes pin) then (.ok (s.room, s.token), m.insert code { s with lastActive := now })
    else (.error .badPin, m.insert code { s with attempts := s.attempts + 1 })

/-- What the sweep at `now` leaves of a session. -/
def keep (now : Nat) (roomNonempty : String → Bool) (s : Session) : Option Session :=
  if now - s.created ≥ maxAgeSecs then none
  else if roomNonempty s.room then some { s with lastActive := now }
  else if now - s.lastActive < emptyGraceSecs then some s
  else none

/-- Lifecycle sweep. -/
def reap (now : Nat) (roomNonempty : String → Bool) (m : Sessions) : Sessions :=
  Assoc.retain (keep now roomNonempty) m

theorem freshCode_notMem {m : Sessions} {draws : List (Fin 8 → Fin 32)} {code : String}
    (h : m.freshCode draws = some code) : m.lookup code = none := by
  have := List.find?_some h
  exact AList.lookup_eq_none.mpr (of_decide_eq_true this)

theorem keep_cases {now : Nat} {roomNonempty : String → Bool} {s : Session} :
    keep now roomNonempty s = none ∨ ∃ t, keep now roomNonempty s = some { s with lastActive := t } := by
  unfold keep
  split
  · exact Or.inl rfl
  · split
    · exact Or.inr ⟨now, rfl⟩
    · split
      · exact Or.inr ⟨s.lastActive, rfl⟩
      · exact Or.inl rfl

end Sessions

/-- A finished call, with what it returned. A sweep is recorded with the codes whose session it dropped. -/
inductive Call
  | created (c : Created)
  | joined (code pin : String) (result : Except JoinError (String × Option String))
  | reaped (codes : List String)

namespace Call

/-- The call works on the code. -/
def concerns (code : String) : Call → Bool
  | created c => c.code == code
  | joined code' _ _ => code' == code
  | reaped codes => codes.contains code

/-- A join of the code that returned `BadPin`. -/
def isWrong (code : String) : Call → Bool
  | joined code' _ (.error .badPin) => code' == code
  | _ => false

theorem concerns_of_isWrong {code : String} : ∀ {c : Call}, c.isWrong code = true → c.concerns code = true
  | joined _ _ (.error .badPin), h => h
  | created _, h | reaped _, h | joined _ _ (.ok _), h | joined _ _ (.error .notFound), h
  | joined _ _ (.error .locked), h => by cases h

end Call

/-- The store with the calls that finished on it, which no call reads. -/
structure Broker where
  sessions : Sessions
  history : List Call

inductive BrokerOp
  | create (draws : Draws) (now : Nat)
  | join (now : Nat) (code pin : String)
  | reap (now : Nat) (roomNonempty : String → Bool)

namespace Broker

def empty : Broker := { sessions := ∅, history := [] }

/-- One call, under the store's lock. A `create` whose draws are all taken has not returned. -/
def step (hex : Bytes → String) (tokenFor : String → Option String) (b : Broker) : BrokerOp → Option Broker
  | .create draws now => (b.sessions.create hex tokenFor draws now).map fun (c, m) =>
      { sessions := m, history := b.history ++ [.created c] }
  | .join now code pin =>
    let (result, m) := b.sessions.join now code pin
    some { sessions := m, history := b.history ++ [.joined code pin result] }
  | .reap now roomNonempty =>
    let m := b.sessions.reap now roomNonempty
    some { sessions := m, history := b.history ++ [.reaped (b.sessions.keys.filter fun code => decide (code ∉ m))] }

end Broker

/-! ### What the history says of a code -/

/-- `c` is a creation of the code whose instance no call of `since`, the calls after it, has reaped. -/
structure LiveSince (history : List Call) (code : String) (c : Created) (since : List Call) : Prop where
  made : ∃ pre, history = pre ++ .created c :: since
  code_eq : c.code = code
  kept : ∀ codes, .reaped codes ∈ since → code ∉ codes

/-- The joins of the code among the calls that returned `BadPin`. -/
def wrongGuesses (code : String) (since : List Call) : Nat := since.countP (Call.isWrong code)

section
variable {history since : List Call} {code : String} {c : Created}

/-- A creation is live in the grown history if it was and the new call does not reap it, or if it is the
    new call. -/
theorem LiveSince.grown {call : Call} (h : LiveSince (history ++ [call]) code c since) :
    (∃ before, since = before ++ [call] ∧ LiveSince history code c before) ∨ (since = [] ∧ call = .created c) := by
  obtain ⟨⟨pre, hpre⟩, hcode, kept⟩ := h
  rcases Lts.split_grown hpre with ⟨mid, hold, rfl⟩ | ⟨mid, -, hnew⟩
  · exact Or.inl ⟨mid, rfl, ⟨pre, hold⟩, hcode, fun codes hm => kept codes (List.mem_append_left _ hm)⟩
  · rcases List.singleton_eq_append_iff.mp hnew with ⟨-, h⟩ | ⟨-, h⟩
    · cases h
      exact Or.inr ⟨rfl, rfl⟩
    · cases h

theorem LiveSince.snoc {call : Call} (h : LiveSince history code c since)
    (hkeep : ∀ codes, call = .reaped codes → code ∉ codes) : LiveSince (history ++ [call]) code c (since ++ [call]) := by
  obtain ⟨⟨pre, rfl⟩, hcode, kept⟩ := h
  refine ⟨⟨pre, by simp⟩, hcode, fun codes hm => ?_⟩
  rcases List.mem_append.mp hm with hm | hm
  · exact kept codes hm
  · exact hkeep codes (List.mem_singleton.mp hm).symm

theorem LiveSince.filter (h : LiveSince history code c since) :
    LiveSince (history.filter (Call.concerns code)) code c (since.filter (Call.concerns code)) := by
  obtain ⟨⟨pre, rfl⟩, hcode, kept⟩ := h
  refine ⟨⟨pre.filter (Call.concerns code), ?_⟩, hcode, fun codes hm => kept codes (List.mem_filter.mp hm).1⟩
  rw [List.filter_append, List.filter_cons_of_pos (by simpa [Call.concerns] using hcode)]

/-- Whether and since when a code is live depends on the calls that concern it only. -/
theorem LiveSince.of_filter (h : LiveSince (history.filter (Call.concerns code)) code c since) :
    ∃ all, LiveSince history code c all ∧ since = all.filter (Call.concerns code) := by
  obtain ⟨⟨pre, hpre⟩, hcode, kept⟩ := h
  obtain ⟨l₁, l₂, rfl, -, hl₂⟩ := List.filter_eq_append_iff.mp hpre
  obtain ⟨m₁, all, rfl, -, -, rfl⟩ := List.filter_eq_cons_iff.mp hl₂
  refine ⟨all, ⟨⟨l₁ ++ m₁, by simp⟩, hcode, fun codes hm hin => ?_⟩, rfl⟩
  exact kept codes (List.mem_filter.mpr ⟨hm, List.contains_iff_mem.mpr hin⟩) hin

theorem wrongGuesses_filter : wrongGuesses code (since.filter (Call.concerns code)) = wrongGuesses code since := by
  unfold wrongGuesses
  rw [List.countP_filter]
  refine List.countP_congr fun call _ => ?_
  simp only [Bool.and_eq_true]
  exact ⟨And.left, fun h => ⟨h, Call.concerns_of_isWrong h⟩⟩

theorem wrongGuesses_snoc (call : Call) :
    wrongGuesses code (since ++ [call]) = wrongGuesses code since + if call.isWrong code then 1 else 0 := by
  simp [wrongGuesses, List.countP_append, List.countP_singleton]

end

/-- The result of a join, read off the history. -/
structure Answers (history : List Call) (code pin : String) (result : Except JoinError (String × Option String)) :
    Prop where
  notFound : result = .error .notFound ↔ ∀ c since, ¬ LiveSince history code c since
  locked : ∀ c since, LiveSince history code c since → (result = .error .locked ↔ wrongGuesses code since = 6)
  ok : ∀ c since, LiveSince history code c since → wrongGuesses code since ≠ 6 →
    (result = .ok (c.room, c.token) ↔ pin = c.pin)
  badPin : ∀ c since, LiveSince history code c since → wrongGuesses code since ≠ 6 →
    (result = .error .badPin ↔ pin ≠ c.pin)

/-! ### What a call does to the session of a code -/

/-- The call neither creates nor reaps the session of the code and is no wrong guess at it. -/
structure Call.Passive (code : String) (call : Call) : Prop where
  wrong : call.isWrong code = false
  created : ∀ c, call = .created c → c.code ≠ code
  reaped : ∀ codes, call = .reaped codes → code ∉ codes

/-- The session of a code before and after a call. -/
inductive CodeMove (code : String) : Option Session → Call → Option Session → Prop
  | created (c : Created) (now : Nat) : c.code = code → CodeMove code none (.created c)
      (some { room := c.room, token := c.token, pin := c.pin, created := now, lastActive := now, attempts := 0 })
  | guessed (s : Session) (pin : String) : s.attempts < maxAttempts →
      CodeMove code (some s) (.joined code pin (.error .badPin)) (some { s with attempts := s.attempts + 1 })
  | reaped (s : Session) (codes : List String) : code ∈ codes → CodeMove code (some s) (.reaped codes) none
  | idle (call : Call) : call.Passive code → CodeMove code none call none
  | seen (s : Session) (t : Nat) (call : Call) : call.Passive code →
      CodeMove code (some s) call (some { s with lastActive := t })

namespace CodeMove

theorem unmoved {code : String} {call : Call} (h : call.Passive code) : ∀ s : Option Session, CodeMove code s call s
  | none => .idle call h
  | some s => .seen s s.lastActive call h

theorem join (m : Sessions) (now : Nat) (code code' pin : String) :
    CodeMove code (m.lookup code) (.joined code' pin (m.join now code' pin).1) ((m.join now code' pin).2.lookup code) := by
  have passive {result} (h : ∀ e, result = .error e → code' = code → e ≠ .badPin) :
      (Call.joined code' pin result).Passive code := by
    refine ⟨?_, nofun, nofun⟩
    match result with
    | .ok _ | .error .notFound | .error .locked => rfl
    | .error .badPin => exact beq_eq_false_iff_ne.mpr fun heq => h _ rfl heq rfl
  have elsewhere (hne : code ≠ code') (s : Session) : (m.insert code' s).lookup code = m.lookup code :=
    AList.lookup_insert_ne hne
  unfold Sessions.join
  cases hl : m.lookup code' with
  | none => exact unmoved (passive fun e he _ => by cases he; simp) _
  | some s =>
    dsimp only
    by_cases hlock : s.attempts ≥ maxAttempts
    · rw [if_pos hlock]
      exact unmoved (passive fun e he _ => by cases he; simp) _
    · rw [if_neg hlock]
      by_cases hpin : ctEq (bytes s.pin) (bytes pin) = true
      · rw [if_pos hpin]
        have hp : (Call.joined code' pin (.ok (s.room, s.token))).Passive code := passive nofun
        by_cases hcode : code = code'
        · subst hcode
          rw [hl, AList.lookup_insert]
          exact .seen s now _ hp
        · rw [elsewhere hcode]
          exact unmoved hp _
      · rw [if_neg hpin]
        by_cases hcode : code = code'
        · subst hcode
          rw [hl, AList.lookup_insert]
          exact .guessed s pin (not_le.mp hlock)
        · rw [elsewhere hcode]
          exact unmoved (passive fun _ _ heq => absurd heq.symm hcode) _

theorem reap (m : Sessions) (now : Nat) (roomNonempty : String → Bool) (code : String) :
    CodeMove code (m.lookup code)
      (.reaped (m.keys.filter fun code => decide (code ∉ m.reap now roomNonempty)))
      ((m.reap now roomNonempty).lookup code) := by
  have hlookup : (m.reap now roomNonempty).lookup code = (m.lookup code).bind (Sessions.keep now roomNonempty) :=
    Assoc.lookup_retain m code
  have hin : code ∈ m.keys.filter (fun code => decide (code ∉ m.reap now roomNonempty)) ↔
      code ∈ m ∧ (m.reap now roomNonempty).lookup code = none := by
    rw [List.mem_filter, decide_eq_true_eq, AList.lookup_eq_none]
    exact Iff.rfl
  have passive (h : ¬ (code ∈ m ∧ (m.reap now roomNonempty).lookup code = none)) :
      (Call.reaped (m.keys.filter fun code => decide (code ∉ m.reap now roomNonempty))).Passive code := by
    refine ⟨rfl, nofun, fun codes hc => ?_⟩
    cases hc
    exact fun hm => h (hin.mp hm)
  cases hl : m.lookup code with
  | none =>
    rw [hl, Option.bind_none] at hlookup
    rw [hlookup]
    exact .idle _ (passive fun h => AList.lookup_eq_none.mp hl h.1)
  | some s =>
    have hmem : code ∈ m := AList.lookup_isSome.mp (by rw [hl]; rfl)
    rw [hl, Option.bind_some] at hlookup
    rcases Sessions.keep_cases (s := s) with hgone | ⟨t, hkept⟩
    · rw [hlookup, hgone]
      exact .reaped s _ (hin.mpr ⟨hmem, hlookup.trans hgone⟩)
    · rw [hlookup, hkept]
      exact .seen s t _ (passive fun h => by rw [hlookup, hkept] at h; exact nomatch h.2)

theorem create {hex : Bytes → String} {tokenFor : String → Option String} {draws : Draws}
    {now : Nat} {m m' : Sessions} {c : Created} (h : m.create hex tokenFor draws now = some (c, m')) (code : String) :
    CodeMove code (m.lookup code) (.created c) (m'.lookup code) := by
  obtain ⟨fresh, hfresh, h⟩ := Option.map_eq_some_iff.mp h
  cases h
  by_cases hcode : code = fresh
  · subst hcode
    rw [Sessions.freshCode_notMem hfresh, AList.lookup_insert]
    exact .created ⟨code, _, _, _⟩ now rfl
  · rw [AList.lookup_insert_ne hcode]
    refine unmoved ⟨rfl, fun c hc => ?_, fun codes hc => ?_⟩ _
    · cases hc
      exact fun heq => hcode heq.symm
    · cases hc

end CodeMove

theorem Broker.step_codeMove {hex : Bytes → String} {tokenFor : String → Option String} {b b' : Broker} {op : BrokerOp}
    (h : b.step hex tokenFor op = some b') :
    ∃ call, b'.history = b.history ++ [call] ∧
      ∀ code, CodeMove code (b.sessions.lookup code) call (b'.sessions.lookup code) := by
  cases op with
  | create draws now =>
    obtain ⟨⟨c, m⟩, hc, h⟩ := Option.map_eq_some_iff.mp h
    cases h
    exact ⟨_, rfl, CodeMove.create hc⟩
  | join now code' pin =>
    cases h
    exact ⟨_, rfl, fun code => CodeMove.join b.sessions now code code' pin⟩
  | reap now roomNonempty =>
    cases h
    exact ⟨_, rfl, CodeMove.reap b.sessions now roomNonempty⟩

/-! ### The store refines its history -/

/-- The session stored for a code is the one its live creation made, with the wrong guesses since. -/
structure Session.Recorded (s : Session) (code : String) (c : Created) (since : List Call) : Prop where
  room : s.room = c.room
  token : s.token = c.token
  pin : s.pin = c.pin
  attempts : s.attempts = wrongGuesses code since
  bounded : s.attempts ≤ maxAttempts

/-- What the history records of a code, beside the session stored for it. -/
structure Tracks (history : List Call) (code : String) (s : Option Session) : Prop where
  known : s.isSome = true → ∃ c since, LiveSince history code c since
  live : ∀ c since, LiveSince history code c since → ∃ s', s = some s' ∧ s'.Recorded code c since

theorem Tracks.move {history : List Call} {code : String} {call : Call} {s s' : Option Session}
    (inv : Tracks history code s) (h : CodeMove code s call s') : Tracks (history ++ [call]) code s' := by
  cases h with
  | created c now hcode =>
    have fresh : LiveSince (history ++ [.created c]) code c [] := ⟨⟨history, rfl⟩, hcode, nofun⟩
    refine ⟨fun _ => ⟨c, [], fresh⟩, fun c' since hlive => ?_⟩
    rcases hlive.grown with ⟨before, -, hb⟩ | ⟨rfl, heq⟩
    · obtain ⟨_, hs, -⟩ := inv.live c' before hb
      cases hs
    · cases heq
      exact ⟨_, rfl, rfl, rfl, rfl, rfl, Nat.zero_le _⟩
  | guessed s pin hlt =>
    refine ⟨fun _ => ?_, fun c since hlive => ?_⟩
    · obtain ⟨c, since, hlive⟩ := inv.known rfl
      exact ⟨c, _, hlive.snoc nofun⟩
    · rcases hlive.grown with ⟨before, rfl, hb⟩ | ⟨-, heq⟩
      · obtain ⟨_, hs, hrec⟩ := inv.live c before hb
        cases hs
        refine ⟨_, rfl, hrec.room, hrec.token, hrec.pin, ?_, hlt⟩
        have wrong : Call.isWrong code (.joined code pin (.error .badPin)) = true := beq_self_eq_true code
        rw [wrongGuesses_snoc, if_pos wrong, ← hrec.attempts]
      · cases heq
  | reaped s codes hmem =>
    refine ⟨fun h => (nomatch h), fun c since hlive => ?_⟩
    rcases hlive.grown with ⟨before, rfl, -⟩ | ⟨-, heq⟩
    · exact absurd hmem (hlive.kept codes (by simp))
    · cases heq
  | idle call passive =>
    refine ⟨fun h => (nomatch h), fun c since hlive => ?_⟩
    rcases hlive.grown with ⟨before, -, hb⟩ | ⟨-, heq⟩
    · obtain ⟨_, hs, -⟩ := inv.live c before hb
      cases hs
    · exact absurd hlive.code_eq (passive.created c heq)
  | seen s t call passive =>
    refine ⟨fun _ => ?_, fun c since hlive => ?_⟩
    · obtain ⟨c, since, hlive⟩ := inv.known rfl
      exact ⟨c, _, hlive.snoc passive.reaped⟩
    · rcases hlive.grown with ⟨before, rfl, hb⟩ | ⟨-, heq⟩
      · obtain ⟨_, hs, hrec⟩ := inv.live c before hb
        cases hs
        refine ⟨_, rfl, hrec.room, hrec.token, hrec.pin, ?_, hrec.bounded⟩
        rw [wrongGuesses_snoc, passive.wrong, if_neg Bool.false_ne_true, Nat.add_zero, ← hrec.attempts]
      · exact absurd hlive.code_eq (passive.created c heq)

theorem Tracks.answers {history : List Call} {code : String} {m : Sessions} (inv : Tracks history code (m.lookup code))
    (now : Nat) (pin : String) : Answers history code pin (m.join now code pin).1 := by
  unfold Sessions.join
  cases hl : m.lookup code with
  | none =>
    have dead : ∀ c since, ¬ LiveSince history code c since := fun c since hlive => by
      obtain ⟨_, hs, -⟩ := inv.live c since hlive
      rw [hl] at hs
      cases hs
    exact ⟨iff_of_true rfl dead, fun c since h => absurd h (dead c since), fun c since h => absurd h (dead c since),
      fun c since h => absurd h (dead c since)⟩
  | some s =>
    have recorded : ∀ c since, LiveSince history code c since → s.Recorded code c since := fun c since hlive => by
      obtain ⟨_, hs, hrec⟩ := inv.live c since hlive
      rw [hl] at hs
      cases hs
      exact hrec
    have alive : ¬ ∀ c since, ¬ LiveSince history code c since := fun dead => by
      obtain ⟨c, since, hlive⟩ := inv.known (by rw [hl]; rfl)
      exact dead c since hlive
    dsimp only
    by_cases hlock : s.attempts ≥ maxAttempts
    · rw [if_pos hlock]
      have full : ∀ c since, LiveSince history code c since → wrongGuesses code since = 6 := fun c since hlive => by
        have hrec := recorded c since hlive
        exact hrec.attempts ▸ le_antisymm hrec.bounded hlock
      exact ⟨iff_of_false nofun alive, fun c since h => iff_of_true rfl (full c since h),
        fun c since h hne => absurd (full c since h) hne, fun c since h hne => absurd (full c since h) hne⟩
    · rw [if_neg hlock]
      have free : ∀ c since, LiveSince history code c since → wrongGuesses code since ≠ 6 := fun c since hlive heq =>
        hlock (Nat.le_of_eq ((recorded c since hlive).attempts.trans heq).symm)
      by_cases hpin : s.pin = pin
      · rw [if_pos (ctEq_iff.mpr (congrArg bytes hpin))]
        refine ⟨iff_of_false nofun alive, fun c since h => iff_of_false nofun (free c since h),
          fun c since h _ => ?_, fun c since h _ => ?_⟩
        · have hrec := recorded c since h
          exact iff_of_true (by rw [hrec.room, hrec.token]) (hpin.symm.trans hrec.pin)
        · exact iff_of_false nofun fun hne => hne (hpin.symm.trans (recorded c since h).pin)
      · rw [if_neg fun h => hpin (bytes_inj.mp (ctEq_iff.mp h))]
        have wrong : ∀ c since, LiveSince history code c since → pin ≠ c.pin := fun c since h heq =>
          hpin ((recorded c since h).pin.trans heq.symm)
        exact ⟨iff_of_false nofun alive, fun c since h => iff_of_false nofun (free c since h),
          fun c since h _ => iff_of_false nofun (wrong c since h), fun c since h _ => iff_of_true rfl (wrong c since h)⟩

theorem LiveSince.transfer {history history' since : List Call} {code : String} {c : Created}
    (heq : history.filter (Call.concerns code) = history'.filter (Call.concerns code))
    (h : LiveSince history code c since) :
    ∃ since', LiveSince history' code c since' ∧ wrongGuesses code since' = wrongGuesses code since := by
  obtain ⟨since', h', hsince⟩ := (heq ▸ h.filter).of_filter
  exact ⟨since', h', by rw [← wrongGuesses_filter, ← hsince, wrongGuesses_filter]⟩

/-- Histories with the same calls for a code answer a join of it alike. -/
theorem Answers.agree {history history' : List Call} {code pin : String}
    {r r' : Except JoinError (String × Option String)} (h : Answers history code pin r) (h' : Answers history' code pin r')
    (heq : history.filter (Call.concerns code) = history'.filter (Call.concerns code)) : r' = r := by
  by_cases hdead : ∀ c since, ¬ LiveSince history code c since
  · rw [h.notFound.mpr hdead]
    refine h'.notFound.mpr fun c since hlive => ?_
    obtain ⟨since', hlive', -⟩ := hlive.transfer heq.symm
    exact hdead c since' hlive'
  · simp only [not_forall, not_not] at hdead
    obtain ⟨c, since, hlive⟩ := hdead
    obtain ⟨since', hlive', hwrong⟩ := hlive.transfer heq
    by_cases hfull : wrongGuesses code since = 6
    · rw [(h.locked c since hlive).mpr hfull, (h'.locked c since' hlive').mpr (hwrong.trans hfull)]
    · have hfull' : wrongGuesses code since' ≠ 6 := fun hf => hfull (hwrong.symm.trans hf)
      by_cases hpin : pin = c.pin
      · rw [(h.ok c since hlive hfull).mpr hpin, (h'.ok c since' hlive' hfull').mpr hpin]
      · rw [(h.badPin c since hlive hfull).mpr hpin, (h'.badPin c since' hlive' hfull').mpr hpin]

namespace Broker
open Lts (Reach)

variable {hex : Bytes → String} {tokenFor : String → Option String} {b : Broker}

theorem tracks (h : Reach (step hex tokenFor) Lts.anyStep empty b) (code : String) :
    Tracks b.history code (b.sessions.lookup code) := by
  refine h.invariant (P := fun b => Tracks b.history code (b.sessions.lookup code)) ?_ fun b op b' inv _ hs => ?_
  · exact ⟨nofun, fun c since hlive => by obtain ⟨⟨pre, hpre⟩, -, -⟩ := hlive; simp [empty] at hpre⟩
  · obtain ⟨call, hh, hmove⟩ := step_codeMove hs
    rw [hh]
    exact inv.move (hmove code)

/-- In every state that the calls lead to, a join returns what the history says of its code, no instance
    has answered more than six wrong guesses, and calls on other codes do not matter. -/
theorem join_answers_history (h : Reach (step hex tokenFor) Lts.anyStep empty b) (code : String) :
    (∀ now pin, Answers b.history code pin (b.sessions.join now code pin).1) ∧
    (∀ c since, LiveSince b.history code c since → wrongGuesses code since ≤ 6) ∧
    ∀ b', Reach (step hex tokenFor) Lts.anyStep empty b' →
      b.history.filter (Call.concerns code) = b'.history.filter (Call.concerns code) →
      ∀ now now' pin, (b'.sessions.join now' code pin).1 = (b.sessions.join now code pin).1 := by
  refine ⟨(tracks h code).answers, fun c since hlive => ?_, fun b' h' heq now now' pin => ?_⟩
  · obtain ⟨s, -, hrec⟩ := (tracks h code).live c since hlive
    exact hrec.attempts ▸ hrec.bounded
  · exact ((tracks h code).answers now pin).agree ((tracks h' code).answers now' pin) heq

/-- A code, six wrong guesses at it with a correct one in between, and a sweep that keeps it. -/
def guessedOps : List BrokerOp :=
  let wrong (now : Nat) : BrokerOp := .join now "aaaaaaaa" "000000"
  [.create { room := fun _ => 0, pin := 123456, codes := [fun _ => 0] } 0, wrong 1, wrong 2, wrong 3,
    .join 4 "aaaaaaaa" "123456", .reap 60 fun _ => false, wrong 61, wrong 62, wrong 63]

def guessed : Broker := (Lts.exec (step sampleHex fun _ => none) empty guessedOps).getD empty

theorem join_answers_history_guessed :
    (guessed.sessions.join 64 "aaaaaaaa" "123456").1 = .error .locked ∧
      Answers guessed.history "aaaaaaaa" "123456" (guessed.sessions.join 64 "aaaaaaaa" "123456").1 := by
  have ran : Lts.exec (step sampleHex fun _ => none) empty guessedOps = some guessed := rfl
  exact ⟨rfl, (join_answers_history (Reach.of_exec (fun _ _ _ _ => trivial) ran) "aaaaaaaa").1 64 "123456"⟩

end Broker

end SquadLink

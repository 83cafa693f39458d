import SquadLink.Server.RateLimit

/-! The two REST endpoints on the limiter they share (`server/init/src/main.rs`, `create_session` and
    `join_session`): how far the answers of one depend on what is asked of the other. -/

namespace SquadLink

inductive Endpoint
  | createSession
  | joinSession
deriving DecidableEq, Repr

namespace Endpoint

/-- The limit that the endpoint passes to `allow`. -/
def max : Endpoint → Nat
  | createSession => rlCreateMax
  | joinSession => rlJoinMax

def other : Endpoint → Endpoint
  | createSession => joinSession
  | joinSession => createSession

theorem other_ne : ∀ e : Endpoint, e.other ≠ e
  | createSession | joinSession => by simp [other]

end Endpoint

/-- What reaches the limiter: a request at an endpoint, and the prune of the sweep task. -/
inductive Request
  | call (now : Nat) (e : Endpoint) (ip : String)
  | prune (now : Nat)
deriving DecidableEq, Repr

namespace Request

def now : Request → Nat
  | call now _ _ | prune now => now

def isAt (e : Endpoint) : Request → Bool
  | call _ e' _ => e' == e
  | prune _ => false

/-- The limiter after the request. -/
def serve (m : RateLimiter) : Request → RateLimiter
  | call now e ip => (m.allow now ip e.max rlWindow).2
  | prune now => m.prune now rlWindow

/-- What the endpoint answers, if the request is one of its own: `false` for `rate_limited`. -/
def answer (e : Endpoint) (m : RateLimiter) : Request → Option Bool
  | call now e' ip => if e' = e then some (m.allow now ip e'.max rlWindow).1 else none
  | prune _ => none

end Request

/-- The answers of an endpoint in a history of requests. -/
def answersAt (e : Endpoint) : RateLimiter → List Request → List Bool
  | _, [] => []
  | m, r :: rs => (r.answer e m).toList ++ answersAt e (r.serve m) rs

/-- Requests at one endpoint, each from an address at a time. -/
def asked (e : Endpoint) (own : List (Nat × String)) : List Request := own.map fun r => .call r.1 e r.2

/-- A history with the requests `own` at the endpoint, requests at the other one from addresses in
    `others`, and prunes. -/
structure Interleaves (e : Endpoint) (own : List (Nat × String)) (others : String → Prop) (h : List Request) : Prop where
  timely : Clock.Timely Request.now h
  own : h.filter (Request.isAt e) = asked e own
  others : ∀ now e' ip, .call now e' ip ∈ h → e' ≠ e → others ip

/-- Whatever the addresses in `others` ask of the other endpoint, the requests `own` get the same answers. -/
def CountedSeparately (e : Endpoint) (own : List (Nat × String)) (others : String → Prop) : Prop :=
  ∀ h₁ h₂, Interleaves e own others h₁ → Interleaves e own others h₂ → answersAt e ∅ h₁ = answersAt e ∅ h₂

section
variable {e : Endpoint} {m m' : RateLimiter} {now : Nat} {ip : String} {own : List (Nat × String)} {others : String → Prop}

theorem answersAt_append (h₂ : List Request) : ∀ (m : RateLimiter) (h₁ : List Request),
    answersAt e m (h₁ ++ h₂) = answersAt e m h₁ ++ answersAt e (h₁.foldl Request.serve m) h₂
  | m, [] => rfl
  | m, r :: h₁ => by
    rw [List.cons_append, answersAt, answersAt, answersAt_append h₂ _ h₁, List.append_assoc, List.foldl_cons]

/-! ### Addresses that do not ask the other endpoint -/

/-- The endpoint's answers are those to its own requests alone, if the other endpoint is asked from other
    addresses only. -/
theorem answersAt_filter : ∀ {h : List Request} {m m' : RateLimiter} {t : Nat}, Clock.Timely Request.now h →
    (∀ r ∈ h, t ≤ r.now) → (∀ now ip, .call now e ip ∈ h → ¬ others ip) →
    (∀ now e' ip, .call now e' ip ∈ h → e' ≠ e → others ip) →
    RateLimiter.Alike rlWindow (fun ip => ¬ others ip) t m m' →
    answersAt e m h = answersAt e m' (h.filter (Request.isAt e))
  | [], _, _, _, _, _, _, _, _ => rfl
  | r :: h, m, m', t, timely, late, mine, elsewhere, alike => by
    obtain ⟨hle, timely⟩ := List.pairwise_cons.mp timely
    have rest {m m' : RateLimiter} (alike : RateLimiter.Alike rlWindow (fun ip => ¬ others ip) r.now m m') :
        answersAt e m h = answersAt e m' (h.filter (Request.isAt e)) :=
      answersAt_filter timely hle (fun now ip hm => mine now ip (List.mem_cons_of_mem r hm))
        (fun now e' ip hm => elsewhere now e' ip (List.mem_cons_of_mem r hm)) alike
    have ht := late r List.mem_cons_self
    cases r with
    | call now e' ip =>
      by_cases he : e' = e
      · subst he
        obtain ⟨same, alike⟩ := alike.allow (mine now ip List.mem_cons_self) ht e'.max
        have tail : answersAt e' (Request.serve m (.call now e' ip)) h =
            answersAt e' (Request.serve m' (.call now e' ip)) (h.filter (Request.isAt e')) := rest alike
        have head : (Request.call now e' ip).answer e' m = (Request.call now e' ip).answer e' m' := by
          simp only [Request.answer, ↓reduceIte, Option.some.injEq]
          exact same
        rw [List.filter_cons_of_pos (by simp [Request.isAt]), answersAt, answersAt, head, tail]
      · have hip : ¬ ¬ others ip := not_not.mpr (elsewhere now e' ip List.mem_cons_self he)
        have tail : answersAt e (Request.serve m (.call now e' ip)) h = answersAt e m' (h.filter (Request.isAt e)) :=
          rest ((alike.later ht).insert_other hip _)
        rw [List.filter_cons_of_neg (by simpa [Request.isAt] using he), answersAt, tail]
        simp only [Request.answer, if_neg he, Option.toList_none, List.nil_append]
    | prune now =>
      have tail : answersAt e (Request.serve m (.prune now)) h = answersAt e m' (h.filter (Request.isAt e)) :=
        rest (RateLimiter.alike_prune.trans (alike.later ht))
      rw [List.filter_cons_of_neg (by simp [Request.isAt]), answersAt, tail]
      rfl

theorem Interleaves.answers {h : List Request} (i : Interleaves e own others h) (apart : ∀ r ∈ own, ¬ others r.2) :
    answersAt e ∅ h = answersAt e ∅ (asked e own) := by
  rw [← i.own]
  refine answersAt_filter i.timely (fun _ _ => Nat.zero_le _) (fun now ip hm => ?_) i.others .refl
  have hown : Request.call now e ip ∈ h.filter (Request.isAt e) := List.mem_filter.mpr ⟨hm, by simp [Request.isAt]⟩
  rw [i.own] at hown
  obtain ⟨r, hr, heq⟩ := List.mem_map.mp hown
  cases heq
  exact apart r hr

/-! ### An address that asks both -/

theorem lookup_serve_of_ne {r : Request} (h : ∀ now e, r ≠ .call now e ip) (hm : m.lookup ip = none) :
    (r.serve m).lookup ip = none := by
  cases r with
  | call now e ip' =>
    have hne : ip ≠ ip' := fun heq => h now e (by rw [heq])
    exact (AList.lookup_insert_ne hne).trans hm
  | prune now => exact (Assoc.lookup_retain m ip).trans (by rw [hm]; rfl)

theorem lookup_foldl_of_ne : ∀ {h : List Request} {m : RateLimiter}, (∀ r ∈ h, ∀ now e, r ≠ .call now e ip) →
    m.lookup ip = none → (h.foldl Request.serve m).lookup ip = none
  | [], _, _, hm => hm
  | r :: h, m, hne, hm => by
    rw [List.foldl_cons]
    refine lookup_foldl_of_ne (fun r' hr' => hne r' (List.mem_cons_of_mem r hr')) ?_
    exact lookup_serve_of_ne (hne r List.mem_cons_self) hm

/-- After `k` requests at once from an address that is new, the next one is counted on top of them. -/
theorem current_replicate (hm : m.lookup ip = none) : ∀ k < 2 ^ 32,
    Window.current rlWindow now (((List.replicate k (.call now e ip)).foldl Request.serve m).lookup ip) =
      { start := now, count := k }
  | 0, _ => by rw [List.replicate_zero, List.foldl_nil, hm, Window.current_none]
  | k + 1, hk => by
    have ih := current_replicate hm k (by omega)
    have hlookup : ((List.replicate (k + 1) (Request.call now e ip)).foldl Request.serve m).lookup ip =
        some { start := now, count := k + 1 } := by
      rw [List.replicate_succ', List.foldl_append]
      refine (AList.lookup_insert _).trans ?_
      rw [ih, Window.hit, Nat.mod_eq_of_lt hk]
    rw [hlookup]
    exact Window.current_running (by simp [rlWindow])

/-- Requests at the other endpoint use up the limit of this one. -/
theorem answer_after_others (hm : m.lookup ip = none) :
    (Request.call now e ip).answer e ((List.replicate e.max (.call now e.other ip)).foldl Request.serve m) =
    some false := by
  have small : e.max + 1 < 2 ^ 32 := by cases e <;> decide
  have found := @current_replicate e.other m now ip hm e.max (by omega)
  simp only [Request.answer, ↓reduceIte, RateLimiter.allow, found, Window.hit, Nat.mod_eq_of_lt small]
  simp

theorem answer_first (hm : m.lookup ip = none) : (Request.call now e ip).answer e m = some true := by
  simp only [Request.answer, ↓reduceIte, RateLimiter.allow, hm, Window.current_none]
  cases e <;> rfl

theorem answersAt_replicate_other (now : Nat) (ip : String) : ∀ (k : Nat) (m : RateLimiter),
    answersAt e m (List.replicate k (.call now e.other ip)) = []
  | 0, _ => rfl
  | k + 1, m => by
    rw [List.replicate_succ, answersAt, answersAt_replicate_other now ip k]
    simp [Request.answer, e.other_ne]

/-- The requests, and just before one of them as many at the other endpoint as this one allows. -/
def flooded (e : Endpoint) (before : List (Nat × String)) (r : Nat × String) (after : List (Nat × String)) : List Request :=
  asked e before ++ (List.replicate e.max (.call r.1 e.other r.2) ++ asked e (r :: after))

theorem asked_append (own own' : List (Nat × String)) : asked e (own ++ own') = asked e own ++ asked e own' :=
  List.map_append

theorem asked_cons (r : Nat × String) : asked e (r :: own) = .call r.1 e r.2 :: asked e own := rfl

theorem mem_asked {r : Request} : r ∈ asked e own ↔ ∃ q ∈ own, .call q.1 e q.2 = r := List.mem_map

theorem timely_asked (sorted : own.Pairwise fun r r' => r.1 ≤ r'.1) : Clock.Timely Request.now (asked e own) :=
  List.pairwise_map.mpr sorted

theorem interleaves_asked (sorted : own.Pairwise fun r r' => r.1 ≤ r'.1) : Interleaves e own others (asked e own) := by
  refine ⟨timely_asked sorted, List.filter_eq_self.mpr fun a ha => ?_, fun now e' ip hm hne => ?_⟩
  · obtain ⟨r, -, rfl⟩ := mem_asked.mp ha
    simp [Request.isAt]
  · obtain ⟨r, -, heq⟩ := mem_asked.mp hm
    cases heq
    exact absurd rfl hne

section
variable {before after : List (Nat × String)} {r : Nat × String}

theorem interleaves_flooded (sorted : (before ++ r :: after).Pairwise fun r r' => r.1 ≤ r'.1) (hr : others r.2) :
    Interleaves e (before ++ r :: after) others (flooded e before r after) := by
  have plain := @interleaves_asked e _ others sorted
  rw [asked_append] at plain
  refine ⟨plain.timely.insert fun b hb => by rw [List.eq_of_mem_replicate hb]; rfl, ?_, fun now e' ip hm hne => ?_⟩
  · have none : (List.replicate e.max (Request.call r.1 e.other r.2)).filter (Request.isAt e) = [] :=
      List.filter_eq_nil_iff.mpr fun a ha => by
        rw [List.eq_of_mem_replicate ha]
        simp [Request.isAt, e.other_ne]
    rw [flooded, List.filter_append, List.filter_append, none, List.nil_append, ← List.filter_append]
    exact plain.own
  · rcases List.mem_append.mp hm with hm | hm
    · exact plain.others now e' ip (List.mem_append_left _ hm) hne
    · rcases List.mem_append.mp hm with hm | hm
      · cases List.eq_of_mem_replicate hm
        exact hr
      · exact plain.others now e' ip (List.mem_append_right _ hm) hne

/-- The first request of an address is allowed, and denied after the flood. -/
theorem answersAt_flooded_ne (new : ∀ q ∈ before, q.2 ≠ r.2) :
    answersAt e ∅ (asked e (before ++ r :: after)) ≠ answersAt e ∅ (flooded e before r after) := by
  have absent : ((asked e before).foldl Request.serve ∅).lookup r.2 = none := by
    refine lookup_foldl_of_ne (fun a ha now e' heq => ?_) (AList.lookup_empty _)
    obtain ⟨q, hq, rfl⟩ := mem_asked.mp ha
    exact new q hq (Request.call.inj heq).2.2
  intro same
  rw [asked_append, flooded, answersAt_append, answersAt_append, answersAt_append,
    answersAt_replicate_other, List.nil_append,
    asked_cons, answersAt, answersAt, answer_first absent, answer_after_others absent] at same
  exact absurd (List.cons.inj (List.append_cancel_left same)).1 (by simp)

end

/-- The answers of an endpoint to its requests are independent of the requests that some addresses make at
    the other endpoint exactly when none of these addresses makes a request of its own. -/
theorem counted_separately_iff (sorted : own.Pairwise fun r r' => r.1 ≤ r'.1) :
    CountedSeparately e own others ↔ ∀ r ∈ own, ¬ others r.2 := by
  constructor
  · intro separate r hr hip
    -- the first request from an address that also asks the other endpoint
    classical
    obtain ⟨first, found⟩ : ∃ first, own.find? (fun r => decide (others r.2)) = some first :=
      Option.isSome_iff_exists.mp (List.find?_isSome.mpr ⟨r, hr, decide_eq_true hip⟩)
    obtain ⟨hit, before, after, rfl, missed⟩ := List.find?_eq_some_iff_append.mp found
    have asks : others first.2 := of_decide_eq_true hit
    refine answersAt_flooded_ne (fun q hq heq => ?_)
      (separate _ _ (interleaves_asked sorted) (interleaves_flooded sorted asks))
    have := missed q hq
    rw [heq] at this
    simp [asks] at this
  · intro apart h₁ h₂ i₁ i₂
    rw [i₁.answers apart, i₂.answers apart]

/-- An address that creates sessions and another one that tries PINs. -/
theorem counted_separately_apart :
    CountedSeparately .createSession [(0, "192.0.2.1"), (5, "192.0.2.1")] (· = "198.51.100.7") :=
  (counted_separately_iff (by decide)).mpr (by decide)

/-- Twenty PIN tries from an address, and a session created from there. -/
def joinsFirst : List Request :=
  List.replicate 20 (.call 0 .joinSession "192.0.2.1") ++ [.call 1 .createSession "192.0.2.1"]

theorem creation_denied_after_joins : ¬ ∀ (e : Endpoint) (h₁ h₂ : List Request), Clock.Timely Request.now h₁ →
    Clock.Timely Request.now h₂ → h₁.filter (Request.isAt e) = h₂.filter (Request.isAt e) →
    answersAt e ∅ h₁ = answersAt e ∅ h₂ := by
  intro h
  have denied : answersAt .createSession ∅ joinsFirst = [false] := by decide
  have allowed : answersAt .createSession ∅ [.call 1 .createSession "192.0.2.1"] = [true] := by decide
  have same := h .createSession joinsFirst [.call 1 .createSession "192.0.2.1"] (by decide) (by decide) (by decide)
  rw [allowed, denied] at same
  cases same

end

end SquadLink

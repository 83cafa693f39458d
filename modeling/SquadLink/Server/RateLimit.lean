import Mathlib.Algebra.Group.Nat.Defs
import SquadLink.Lib.Assoc
import SquadLink.Lib.Clock
import SquadLink.Protocol

/-! Rate limiting by IP in fixed windows (`server/init/src/main.rs`, `RateLimiter`), and the two endpoints
    that share the limiter. Clock values are seconds. -/

namespace SquadLink

/-- Five minutes. -/
def rlWindow : Nat := 300
/-- PIN tries of an IP in a window. -/
def rlJoinMax : Nat := 30
/-- Session creations of an IP in a window. -/
def rlCreateMax : Nat := 20

/-- `(window_start, count)`; the count is a `u32`. -/
structure Window where
  start : Nat
  count : Nat
deriving DecidableEq, Repr

/-- ip ↦ window -/
abbrev RateLimiter := HashMap Window

namespace Window

/-- The window that a call at `now` is counted in: a new one where there is none or the old one is over. -/
def current (window now : Nat) (w : Option Window) : Window :=
  let e := w.getD { start := now, count := 0 }
  if now - e.start ≥ window then { start := now, count := 0 } else e

/-- One more call; the `u32` wraps. -/
def hit (w : Window) : Window := { w with count := (w.count + 1) % 2 ^ 32 }

section
variable {window now : Nat} {w : Window}

theorem current_none : current window now none = { start := now, count := 0 } := by simp [current]

theorem current_over (h : window ≤ now - w.start) : current window now (some w) = { start := now, count := 0 } :=
  if_pos h

theorem current_running (h : now - w.start < window) : current window now (some w) = w := if_neg (not_le.mpr h)

@[simp] theorem hit_start : w.hit.start = w.start := rfl

end

end Window

namespace RateLimiter

/-- Whether the IP is still within `max` calls, and the limiter with the call counted. -/
def allow (now : Nat) (ip : String) (max window : Nat) (m : RateLimiter) : Bool × RateLimiter :=
  let e := (Window.current window now (m.lookup ip)).hit
  (decide (e.count ≤ max), m.insert ip e)

def prune (now window : Nat) (m : RateLimiter) : RateLimiter :=
  Assoc.retain (fun e => if now - e.start < window then some e else none) m

/-- From `t` on, a call from one of `ips` is counted in the same window in both limiters. -/
def Alike (window : Nat) (ips : String → Prop) (t : Nat) (a b : RateLimiter) : Prop :=
  ∀ now, t ≤ now → ∀ ip, ips ip → Window.current window now (a.lookup ip) = Window.current window now (b.lookup ip)

section
variable {window t now : Nat} {ips : String → Prop} {a b c : RateLimiter} {ip : String}

theorem Alike.refl : Alike window ips t a a := fun _ _ _ _ => rfl

theorem Alike.trans (h₁ : Alike window ips t a b) (h₂ : Alike window ips t b c) : Alike window ips t a c :=
  fun now hnow ip hip => (h₁ now hnow ip hip).trans (h₂ now hnow ip hip)

theorem Alike.later (h : Alike window ips t a b) (hle : t ≤ now) : Alike window ips now a b :=
  fun now' hnow ip hip => h now' (hle.trans hnow) ip hip

theorem Alike.insert (h : Alike window ips t a b) (w : Window) : Alike window ips t (a.insert ip w) (b.insert ip w) := by
  intro now hnow ip' hip
  by_cases heq : ip' = ip
  · rw [heq, AList.lookup_insert, AList.lookup_insert]
  · rw [AList.lookup_insert_ne heq, AList.lookup_insert_ne heq]
    exact h now hnow ip' hip

/-- A call from elsewhere leaves the windows of these addresses alone. -/
theorem Alike.insert_other (h : Alike window ips t a b) (hip : ¬ ips ip) (w : Window) :
    Alike window ips t (a.insert ip w) b := by
  intro now hnow ip' hip'
  have hne : ip' ≠ ip := fun heq => hip (by rwa [← heq])
  rw [AList.lookup_insert_ne hne]
  exact h now hnow ip' hip'

/-- Pruning drops the windows that the next call would replace by a new one. -/
theorem alike_prune : Alike window ips t (a.prune t window) a := by
  intro now hnow ip _
  rw [show (a.prune t window).lookup ip = _ from Assoc.lookup_retain a ip]
  cases a.lookup ip with
  | none => rfl
  | some w =>
    rw [Option.bind_some]
    split
    · rfl
    · have passed : window ≤ now - w.start := by omega
      rw [Window.current_none, Window.current_over passed]

theorem Alike.allow (h : Alike window ips t a b) (hip : ips ip) (hle : t ≤ now) (max : Nat) :
    (a.allow now ip max window).1 = (b.allow now ip max window).1 ∧
      Alike window ips now (a.allow now ip max window).2 (b.allow now ip max window).2 := by
  unfold RateLimiter.allow
  rw [h now hle ip hip]
  exact ⟨rfl, (h.later hle).insert _⟩

end

end RateLimiter

/-! ### The limiter with its answers -/

inductive LimiterOp
  | allow (now : Nat) (ip : String) (max : Nat)
  | prune (now : Nat)
deriving DecidableEq, Repr

namespace LimiterOp

def now : LimiterOp → Nat
  | allow now _ _ | prune now => now

def isAllow : LimiterOp → Bool
  | allow _ _ _ => true
  | prune _ => false

end LimiterOp

/-- A finished `allow`, with the start of the window it was counted in. -/
structure Charge where
  ip : String
  max : Nat
  now : Nat
  start : Nat
  granted : Bool
deriving DecidableEq, Repr

/-- What is recorded of a call. -/
def RateLimiter.charge (now : Nat) (ip : String) (max window : Nat) (m : RateLimiter) : Charge :=
  { ip, max, now, start := (Window.current window now (m.lookup ip)).start, granted := (m.allow now ip max window).1 }

theorem RateLimiter.Alike.charge {window t now : Nat} {ips : String → Prop} {a b : RateLimiter} {ip : String}
    (h : Alike window ips t a b) (hip : ips ip) (hle : t ≤ now) (max : Nat) :
    a.charge now ip max window = b.charge now ip max window := by
  unfold RateLimiter.charge
  rw [h now hle ip hip, (h.allow hip hle max).1]

/-- The call was made with this limit and allowed. -/
def Charge.grants (max : Nat) (c : Charge) : Bool := c.max == max && c.granted

/-- The limiter with the calls that finished on it, which no call reads. -/
structure Metered where
  limiter : RateLimiter
  charges : List Charge

namespace Metered

def empty : Metered := { limiter := ∅, charges := [] }

def step (window : Nat) (l : Metered) : LimiterOp → Metered
  | .allow now ip max =>
    { limiter := (l.limiter.allow now ip max window).2, charges := l.charges ++ [l.limiter.charge now ip max window] }
  | .prune now => { l with limiter := l.limiter.prune now window }

/-- The limiter after a list of calls, all with the same window. -/
def run (window : Nat) (ops : List LimiterOp) : Metered := ops.foldl (step window) empty

/-- What the `allow` calls return, one after the other. -/
def answers (window : Nat) (ops : List LimiterOp) : List Bool := (run window ops).charges.map (·.granted)

/-! ### Pruning -/

section
variable {window : Nat} {ops : List LimiterOp}

theorem run_snoc (op : LimiterOp) : run window (ops ++ [op]) = step window (run window ops) op := List.foldl_append

/-- After the same calls with and without the prunes among them, the limiters are alike and every call has
    been counted in the same window with the same answer. -/
theorem run_unpruned (timely : Clock.Timely LimiterOp.now ops) :
    RateLimiter.Alike window (fun _ => True) (Clock.last LimiterOp.now ops) (run window ops).limiter
        (run window (ops.filter LimiterOp.isAllow)).limiter ∧
      (run window ops).charges = (run window (ops.filter LimiterOp.isAllow)).charges := by
  induction ops using List.reverseRecOn with
  | nil => exact ⟨.refl, rfl⟩
  | append_singleton ops op ih =>
    obtain ⟨timely, hle⟩ := Clock.timely_snoc.mp timely
    obtain ⟨alike, charges⟩ := ih timely
    rw [Clock.last_snoc, List.filter_append, run_snoc]
    cases op with
    | allow now ip max =>
      rw [List.filter_cons_of_pos (p := LimiterOp.isAllow) rfl, List.filter_nil, run_snoc]
      have hle : Clock.last LimiterOp.now ops ≤ now := hle
      have same : (run window ops).limiter.charge now ip max window =
          (run window (ops.filter LimiterOp.isAllow)).limiter.charge now ip max window := alike.charge trivial hle max
      exact ⟨(alike.allow trivial hle max).2, by simp only [step, charges, same]⟩
    | prune now =>
      rw [List.filter_cons_of_neg (by simp [LimiterOp.isAllow]), List.filter_nil, List.append_nil]
      exact ⟨RateLimiter.alike_prune.trans (alike.later hle), charges⟩

/-- Pruning is invisible: every `allow` call returns what it would have returned without any prune. -/
theorem prune_invisible (timely : Clock.Timely LimiterOp.now ops) :
    answers window ops = answers window (ops.filter LimiterOp.isAllow) := by
  unfold answers
  rw [(run_unpruned timely).2]

/-- An entry pruned at the very end of its window, and the call after it. -/
theorem prune_invisible_sample :
    answers 300 [.allow 0 "ip" 1, .allow 299 "ip" 1, .prune 300, .allow 300 "ip" 1] =
      answers 300 [.allow 0 "ip" 1, .allow 299 "ip" 1, .allow 300 "ip" 1] :=
  @prune_invisible 300 [.allow 0 "ip" 1, .allow 299 "ip" 1, .prune 300, .allow 300 "ip" 1] (by decide)

/-! ### How much is allowed -/

/-- The finished calls from an IP. -/
def callsFrom (ip : String) (l : Metered) : List Charge := l.charges.filter fun c => c.ip == ip

/-- What a call from `ip` at `now` finds: its window counts the earlier calls that fell into it, and the
    other earlier calls fell into windows that were over when it began. -/
structure Counted (window : Nat) (ip : String) (now : Nat) (l : Metered) (e : Window) : Prop where
  inside : e.start ≤ now ∧ now < e.start + window
  count : e.count = (l.callsFrom ip).countP (fun c => c.start == e.start) % 2 ^ 32
  behind : ∀ c ∈ l.callsFrom ip, c.start = e.start ∨ c.start + window ≤ e.start

/-- The windows of an IP up to the clock value `t`. A limit holds in each of them unless its count wraps. -/
structure Metes (window : Nat) (ip : String) (t : Nat) (l : Metered) : Prop where
  tiled : Clock.Tiled Charge.now Charge.start window (l.callsFrom ip)
  next : ∀ now, t ≤ now → Counted window ip now l (Window.current window now (l.limiter.lookup ip))
  limit : ∀ start max, (l.callsFrom ip).countP (fun c => c.start == start) < 2 ^ 32 →
    (l.callsFrom ip).countP (fun c => c.grants max && c.start == start) ≤ max

section
variable {t now max : Nat} {l : Metered} {ip : String} {e : Window}

theorem callsFrom_allow_self :
    (step window l (.allow now ip max)).callsFrom ip = l.callsFrom ip ++ [l.limiter.charge now ip max window] := by
  simp [callsFrom, step, RateLimiter.charge, List.filter_append]

theorem callsFrom_allow_ne {ip' : String} (h : ip' ≠ ip) :
    (step window l (.allow now ip' max)).callsFrom ip = l.callsFrom ip := by
  simp [callsFrom, step, RateLimiter.charge, List.filter_append, h]

/-- With one more call counted in its window, the next one finds the same window or, once that is over, a
    new one. -/
theorem Counted.hit (pos : 0 < window) (h : Counted window ip now l e) {c : Charge} {l' : Metered} (hc : c.start = e.start)
    (calls : l'.callsFrom ip = l.callsFrom ip ++ [c]) {now' : Nat} (hle : now ≤ now') :
    Counted window ip now' l' (Window.current window now' (some e.hit)) := by
  have behind : ∀ d ∈ l'.callsFrom ip, d.start = e.start ∨ d.start + window ≤ e.start := fun d hd => by
    rw [calls, List.mem_append, List.mem_singleton] at hd
    rcases hd with hd | rfl
    · exact h.behind d hd
    · exact Or.inl hc
  by_cases running : now' - e.hit.start < window
  · rw [Window.current_running running]
    refine ⟨⟨h.inside.1.trans hle, ?_⟩, ?_, behind⟩
    · rw [Window.hit_start] at running ⊢
      omega
    · rw [calls, List.countP_append, List.countP_singleton, Window.hit_start, if_pos (beq_iff_eq.mpr hc)]
      show (e.count + 1) % 2 ^ 32 = _
      rw [h.count, Nat.mod_add_mod]
  · rw [Window.current_over (not_lt.mp running)]
    have passed : e.start + window ≤ now' := by
      rw [Window.hit_start] at running
      omega
    have past : ∀ d ∈ l'.callsFrom ip, d.start + window ≤ now' := fun d hd => by
      rcases behind d hd with heq | hle
      · exact heq ▸ passed
      · omega
    refine ⟨⟨le_refl _, Nat.lt_add_of_pos_right pos⟩, ?_, fun d hd => Or.inr (past d hd)⟩
    have fresh : (l'.callsFrom ip).countP (fun d => d.start == now') = 0 := List.countP_eq_zero.mpr fun d hd heq => by
      have := past d hd
      rw [beq_iff_eq.mp heq] at this
      omega
    simp only [fresh, Nat.zero_mod]

/-- A call that is allowed makes at most `max` of the calls in its window. -/
theorem Counted.limit (h : Counted window ip now l e) {c : Charge} (hc : c.start = e.start)
    (granted : c.granted = decide (e.hit.count ≤ c.max))
    (old : ∀ start max, (l.callsFrom ip).countP (fun c => c.start == start) < 2 ^ 32 →
      (l.callsFrom ip).countP (fun c => c.grants max && c.start == start) ≤ max) (start max : Nat)
    (nowrap : (l.callsFrom ip ++ [c]).countP (fun c => c.start == start) < 2 ^ 32) :
    (l.callsFrom ip ++ [c]).countP (fun c => c.grants max && c.start == start) ≤ max := by
  rw [List.countP_append, List.countP_singleton] at nowrap ⊢
  by_cases counted : (c.grants max && c.start == start) = true
  · simp only [Charge.grants, Bool.and_eq_true, beq_iff_eq] at counted
    obtain ⟨⟨hmax, hgranted⟩, hstart⟩ := counted
    rw [if_pos (beq_iff_eq.mpr hstart)] at nowrap
    rw [hgranted, hmax, eq_comm, decide_eq_true_eq] at granted
    have within : (l.callsFrom ip).countP (fun c => c.start == start) + 1 ≤ max := by
      have hcount := h.count
      rw [← hc, hstart, Nat.mod_eq_of_lt (by omega)] at hcount
      have : (e.count + 1) % 2 ^ 32 ≤ max := granted
      rwa [hcount, Nat.mod_eq_of_lt nowrap] at this
    have fewer : (l.callsFrom ip).countP (fun c => c.grants max && c.start == start) ≤
        (l.callsFrom ip).countP (fun c => c.start == start) :=
      List.countP_mono_left fun d _ hd => (Bool.and_eq_true_iff.mp hd).2
    split <;> omega
  · rw [if_neg counted, Nat.add_zero]
    exact old start max (by omega)

theorem Metes.allow (pos : 0 < window) (h : Metes window ip t l) (hle : t ≤ now) (max : Nat) :
    Metes window ip now (step window l (.allow now ip max)) := by
  have found := h.next now hle
  refine ⟨?_, fun now' hnow => ?_, fun start max' nowrap => ?_⟩
  · rw [callsFrom_allow_self]
    exact h.tiled.snoc found.inside found.behind
  · have hlookup : (step window l (.allow now ip max)).limiter.lookup ip =
        some (Window.current window now (l.limiter.lookup ip)).hit := AList.lookup_insert _
    rw [hlookup]
    exact found.hit pos rfl callsFrom_allow_self hnow
  · rw [callsFrom_allow_self] at nowrap ⊢
    exact found.limit rfl rfl h.limit start max' nowrap

/-- A step that leaves the calls of an IP as they are and its next window alike. -/
theorem Metes.still (h : Metes window ip t l) (hle : t ≤ now) {l' : Metered} (calls : l'.callsFrom ip = l.callsFrom ip)
    (alike : RateLimiter.Alike window (· = ip) now l'.limiter l.limiter) : Metes window ip now l' := by
  refine ⟨calls ▸ h.tiled, fun now' hnow => ?_, fun start max nowrap => ?_⟩
  · rw [alike now' hnow ip rfl]
    obtain ⟨inside, count, behind⟩ := h.next now' (hle.trans hnow)
    exact ⟨inside, calls ▸ count, calls ▸ behind⟩
  · rw [calls] at nowrap ⊢
    exact h.limit start max nowrap

theorem Metes.step (pos : 0 < window) (h : Metes window ip t l) (op : LimiterOp) (hle : t ≤ op.now) :
    Metes window ip op.now (step window l op) := by
  cases op with
  | allow now ip' max =>
    by_cases hip : ip' = ip
    · rw [hip]
      exact h.allow pos hle max
    · have alike : RateLimiter.Alike window (· = ip) now
          (Metered.step window l (.allow now ip' max)).limiter l.limiter := by
        refine RateLimiter.Alike.insert_other .refl ?_ _
        exact hip
      exact h.still hle (callsFrom_allow_ne hip) alike
  | prune now => exact h.still hle rfl RateLimiter.alike_prune

theorem metes_run (pos : 0 < window) (timely : Clock.Timely LimiterOp.now ops) (ip : String) :
    Metes window ip (Clock.last LimiterOp.now ops) (run window ops) := by
  refine Clock.Timely.foldl timely ?_ fun t l op h hle => h.step pos op hle
  refine ⟨⟨nofun, nofun⟩, fun now _ => ?_, fun _ _ _ => Nat.zero_le _⟩
  rw [show Window.current window now (empty.limiter.lookup ip) = _ from Window.current_none]
  exact ⟨⟨le_refl _, Nat.lt_add_of_pos_right pos⟩, rfl, nofun⟩

/-- As long as the count of no window wraps, at most `2 * max` calls from an IP with the limit `max` are
    allowed in an interval as long as the window, and at most `max` in one window. -/
theorem allowed_bounded (pos : 0 < window) (timely : Clock.Timely LimiterOp.now ops) (ip : String)
    (nowrap : ∀ start, ((run window ops).callsFrom ip).countP (fun c => c.start == start) < 2 ^ 32) (max : Nat) :
    (∀ t, ((run window ops).callsFrom ip).countP
      (fun c => c.grants max && (decide (t ≤ c.now) && decide (c.now < t + window))) ≤ 2 * max) ∧
    ∀ start, ((run window ops).callsFrom ip).countP (fun c => c.grants max && c.start == start) ≤ max := by
  have metes := metes_run pos timely ip
  have limit : ∀ start, ((run window ops).callsFrom ip).countP (fun c => c.grants max && c.start == start) ≤ max :=
    fun start => metes.limit start max (nowrap start)
  exact ⟨metes.tiled.countP_interval_le limit, limit⟩

/-- Calls at the end of one window and at the start of the next, with another limit among them. -/
def burst : List LimiterOp :=
  [.allow 0 "ip" 3, .allow 299 "ip" 3, .allow 299 "ip" 30, .allow 299 "ip" 3, .prune 300,
    .allow 300 "ip" 3, .allow 301 "ip" 3]

theorem allowed_bounded_burst : ((run 300 burst).callsFrom "ip").countP
    (fun c => c.grants 3 && (decide (299 ≤ c.now) && decide (c.now < 599))) ≤ 6 :=
  (@allowed_bounded 300 burst (by decide) (by decide) "ip"
    (fun _ => lt_of_le_of_lt List.countP_le_length (by decide)) 3).1 299

end

end

end Metered

end SquadLink

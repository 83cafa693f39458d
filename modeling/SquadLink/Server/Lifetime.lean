import SquadLink.Lib.Clock
import SquadLink.Server.Sessions
import SquadLink.Server.Step

/-! How long a session lives (`server/init/src/sessions.rs`): what each call does to the times of a
    session, the cap on its age, which only the sweep enforces, and the grace after its room empties, which
    is counted from what the store happened to note. -/

namespace SquadLink

namespace Sessions

section
variable {m m' : Sessions} {now : Nat} {code : String} {s s' : Session} {roomNonempty : String → Bool}

theorem lookup_create {hex : Bytes → String} {tokenFor : String → Option String} {draws : Draws} {c : Created}
    (h : m.create hex tokenFor draws now = some (c, m')) (code : String) :
    m'.lookup code = if code = c.code then
      some { room := c.room, token := c.token, pin := c.pin, created := now, lastActive := now, attempts := 0 }
    else m.lookup code := by
  obtain ⟨fresh, -, h⟩ := Option.map_eq_some_iff.mp h
  cases h
  by_cases hcode : code = fresh
  · subst hcode
    rw [if_pos rfl, AList.lookup_insert]
  · rw [if_neg hcode, AList.lookup_insert_ne hcode]

theorem join_cases (m : Sessions) (now : Nat) (code pin : String) :
    (∃ err, m.join now code pin = (.error err, m)) ∨
    (∃ s, m.lookup code = some s ∧
      m.join now code pin = (.error .badPin, m.insert code { s with attempts := s.attempts + 1 })) ∨
    ∃ s, m.lookup code = some s ∧ m.join now code pin =
      (.ok (s.room, s.token), m.insert code { s with lastActive := now }) := by
  unfold join
  cases hl : m.lookup code with
  | none => exact Or.inl ⟨_, rfl⟩
  | some s =>
    dsimp only
    by_cases hlock : s.attempts ≥ maxAttempts
    · rw [if_pos hlock]
      exact Or.inl ⟨_, rfl⟩
    · rw [if_neg hlock]
      split
      · exact Or.inr (Or.inr ⟨s, rfl, rfl⟩)
      · exact Or.inr (Or.inl ⟨s, rfl, rfl⟩)

/-- A join changes no session but the joined one, and of that one the time of its last activity only if it
    succeeds. -/
theorem lookup_join {code' pin : String} (h : (m.join now code' pin).2.lookup code = some s') :
    ∃ s, m.lookup code = some s ∧ s'.room = s.room ∧ s'.created = s.created ∧
      s'.lastActive = if code' = code ∧ (m.join now code' pin).1.isOk then now else s.lastActive := by
  have elsewhere (hne : code ≠ code') {s : Session} (h : (m.insert code' s).lookup code = some s') :
      m.lookup code = some s' := (AList.lookup_insert_ne hne).symm.trans h
  rcases m.join_cases now code' pin with ⟨err, hj⟩ | ⟨s, hs, hj⟩ | ⟨s, hs, hj⟩
  · rw [hj] at h ⊢
    exact ⟨s', h, rfl, rfl, by simp [Except.isOk, Except.toBool]⟩
  · rw [hj] at h ⊢
    by_cases hcode : code = code'
    · subst hcode
      rw [AList.lookup_insert] at h
      cases h
      exact ⟨s, hs, rfl, rfl, by simp [Except.isOk, Except.toBool]⟩
    · exact ⟨s', elsewhere hcode h, rfl, rfl, by simp [Except.isOk, Except.toBool]⟩
  · rw [hj] at h ⊢
    by_cases hcode : code = code'
    · subst hcode
      rw [AList.lookup_insert] at h
      cases h
      exact ⟨s, hs, rfl, rfl, by simp [Except.isOk, Except.toBool]⟩
    · have hne : ¬ code' = code := fun heq => hcode heq.symm
      exact ⟨s', elsewhere hcode h, rfl, rfl, by simp [hne]⟩

/-- What a sweep keeps is under the cap, and its last activity is the sweep's if its room is occupied. -/
theorem keep_eq_some (h : keep now roomNonempty s = some s') : now - s.created < maxAgeSecs ∧ s'.room = s.room ∧
    s'.created = s.created ∧ s'.lastActive = if roomNonempty s.room then now else s.lastActive := by
  unfold keep at h
  by_cases hage : now - s.created ≥ maxAgeSecs
  · rw [if_pos hage] at h
    cases h
  · rw [if_neg hage] at h
    refine ⟨not_le.mp hage, ?_⟩
    by_cases hroom : roomNonempty s.room = true
    · rw [if_pos hroom] at h
      cases h
      exact ⟨rfl, rfl, (if_pos hroom).symm⟩
    · rw [if_neg hroom] at h
      split at h
      · cases h
        exact ⟨rfl, rfl, (if_neg hroom).symm⟩
      · cases h

theorem keep_eq_none_iff : keep now roomNonempty s = none ↔
    maxAgeSecs ≤ now - s.created ∨ (roomNonempty s.room = false ∧ emptyGraceSecs ≤ now - s.lastActive) := by
  unfold keep
  by_cases hage : now - s.created ≥ maxAgeSecs
  · rw [if_pos hage]
    exact iff_of_true rfl (Or.inl hage)
  · rw [if_neg hage, or_iff_right hage]
    cases hroom : roomNonempty s.room <;> simp

theorem lookup_reap (m : Sessions) (now : Nat) (roomNonempty : String → Bool) (code : String) :
    (m.reap now roomNonempty).lookup code = (m.lookup code).bind (keep now roomNonempty) :=
  Assoc.lookup_retain m code

end

end Sessions

namespace BrokerOp

def now : BrokerOp → Nat
  | create _ now | join now _ _ | reap now _ => now

/-- The time of a sweep. -/
def sweep? : BrokerOp → Option Nat
  | reap now _ => some now
  | _ => none

end BrokerOp

namespace Broker

/-! ### The cap on the age -/

/-- Whatever else is called, in a run with these sweeps no join at `t` of a session created at `c` succeeds
    once the session has reached the cap. -/
def EndsInTime (sweeps : List Nat) (c t : Nat) : Prop :=
  ∀ hex tokenFor ops b, Lts.Run (step hex tokenFor) Lts.anyStep empty ops b → Clock.Timely BrokerOp.now ops →
    ops.filterMap BrokerOp.sweep? = sweeps → (∀ op ∈ ops, op.now ≤ t) →
    ∀ code pin s r, b.sessions.lookup code = some s → s.created = c → (b.sessions.join t code pin).1 = .ok r →
      t - c < maxAgeSecs

/-- Where a session's time of creation comes from, and that it outlived the sweeps so far. -/
structure Aged (ops : List BrokerOp) (s : Session) : Prop where
  made : ∃ draws, .create draws s.created ∈ ops
  young : ∀ n ∈ ops.filterMap BrokerOp.sweep?, n - s.created < maxAgeSecs

section
variable {hex : Bytes → String} {tokenFor : String → Option String} {b b' : Broker} {op : BrokerOp}
  {ops : List BrokerOp} {code : String} {s s' : Session}

theorem Aged.snoc (h : Aged ops s) (hc : s'.created = s.created)
    (sweep : ∀ n, op.sweep? = some n → n - s.created < maxAgeSecs) : Aged (ops ++ [op]) s' := by
  obtain ⟨⟨draws, made⟩, young⟩ := h
  refine ⟨⟨draws, hc ▸ List.mem_append_left _ made⟩, fun n hn => ?_⟩
  rw [hc]
  rw [List.filterMap_append, List.mem_append] at hn
  rcases hn with hn | hn
  · exact young n hn
  · obtain ⟨op', hop, hn⟩ := List.mem_filterMap.mp hn
    exact sweep n (List.mem_singleton.mp hop ▸ hn)

theorem aged_step (timely : Clock.Timely BrokerOp.now ops) (hle : Clock.last BrokerOp.now ops ≤ op.now)
    (inv : ∀ code s, b.sessions.lookup code = some s → Aged ops s) (hs : b.step hex tokenFor op = some b') :
    ∀ code s, b'.sessions.lookup code = some s → Aged (ops ++ [op]) s := by
  intro code s' hl
  cases op with
  | create draws now =>
    obtain ⟨⟨c, m⟩, hc, rfl⟩ := Option.map_eq_some_iff.mp hs
    rw [Sessions.lookup_create hc] at hl
    split at hl
    · cases hl
      refine ⟨⟨draws, by simp⟩, fun n hn => ?_⟩
      -- every sweep so far was made before the session
      obtain ⟨op', hop, hn⟩ := List.mem_filterMap.mp hn
      have hnow : op'.now ≤ now := by
        rcases List.mem_append.mp hop with hop | hop
        · exact (timely.le_last op' hop).trans hle
        · rw [List.mem_singleton.mp hop]
          exact le_refl now
      have hsweep : n = op'.now := by
        cases op' <;> cases hn
        rfl
      show n - now < maxAgeSecs
      rw [hsweep, Nat.sub_eq_zero_of_le hnow]
      decide
    · exact (inv code s' hl).snoc rfl nofun
  | join now code' pin =>
    cases hs
    obtain ⟨s, hs, -, hcreated, -⟩ := Sessions.lookup_join hl
    exact (inv code s hs).snoc hcreated nofun
  | reap now roomNonempty =>
    cases hs
    obtain ⟨s, hs, hkeep⟩ := Option.bind_eq_some_iff.mp ((Sessions.lookup_reap ..).symm.trans hl)
    obtain ⟨hyoung, -, hcreated, -⟩ := Sessions.keep_eq_some hkeep
    refine (inv code s hs).snoc hcreated fun n hn => ?_
    cases hn
    exact hyoung

theorem aged_run (timely : Clock.Timely BrokerOp.now ops) (run : Lts.Run (step hex tokenFor) Lts.anyStep empty ops b) :
    ∀ code s, b.sessions.lookup code = some s → Aged ops s :=
  timely.run run nofun fun _ _ _ _ timely inv hle _ hs => aged_step timely hle inv hs

/-! A session that is kept active until a sweep meets it at the cap -/

theorem run_reaps (b : Broker) (roomNonempty : String → Bool) (sweeps : List Nat) :
    ∃ b', Lts.Run (step hex tokenFor) Lts.anyStep b (sweeps.map fun n => .reap n roomNonempty) b' ∧
      ∀ code, b'.sessions.lookup code =
        sweeps.foldl (fun s n => s.bind (Sessions.keep n roomNonempty)) (b.sessions.lookup code) := by
  induction sweeps using List.reverseRecOn with
  | nil => exact ⟨b, .nil, fun _ => rfl⟩
  | append_singleton sweeps n ih =>
    obtain ⟨b₁, run, hlookup⟩ := ih
    rw [List.map_append, List.map_singleton]
    refine ⟨_, run.snoc (.reap n roomNonempty) trivial rfl, fun code => ?_⟩
    rw [List.foldl_append, ← hlookup]
    exact Sessions.lookup_reap ..

theorem foldl_keep_none (roomNonempty : String → Bool) : ∀ sweeps : List Nat,
    sweeps.foldl (fun s n => s.bind (Sessions.keep n roomNonempty)) none = none
  | [] => rfl
  | _ :: sweeps => foldl_keep_none roomNonempty sweeps

theorem foldl_keep_occupied : ∀ {sweeps : List Nat} {s : Session}, (∀ n ∈ sweeps, n - s.created < maxAgeSecs) →
    ∃ t, sweeps.foldl (fun s n => s.bind (Sessions.keep n fun _ => true)) (some s) = some { s with lastActive := t }
  | [], s, _ => ⟨s.lastActive, rfl⟩
  | n :: sweeps, s, young => by
    have kept : Sessions.keep n (fun _ => true) s = some { s with lastActive := n } := by
      have := young n List.mem_cons_self
      simp [Sessions.keep, Nat.not_le.mpr this]
    obtain ⟨t, ht⟩ := foldl_keep_occupied (s := { s with lastActive := n }) fun n hn => young n (List.mem_cons_of_mem _ hn)
    refine ⟨t, ?_⟩
    rw [List.foldl_cons, Option.bind_some, kept, ht]

theorem create_of_none {draws : Draws} {now : Nat} {m : Sessions} {draw : Fin 8 → Fin 32} (hd : draws.codes = [draw])
    (hm : m.lookup (randCode draw) = none) :
    ∃ c m', m.create hex tokenFor draws now = some (c, m') := by
  have fresh : m.freshCode draws.codes = some (randCode draw) := by
    rw [Sessions.freshCode, hd, List.map_singleton, List.find?_singleton, if_pos]
    exact decide_eq_true (AList.lookup_eq_none.mp hm)
  unfold Sessions.create
  rw [fresh]
  exact ⟨_, _, rfl⟩

/-- A session created at `c` among sweeps that all find its room occupied and none of which comes at the
    cap or later. -/
theorem exists_run_kept {sweeps : List Nat} {c t : Nat} (sorted : sweeps.Pairwise (· ≤ ·)) (past : ∀ n ∈ sweeps, n ≤ t)
    (hc : c ≤ t) (young : ∀ n ∈ sweeps, n - c < maxAgeSecs) :
    ∃ ops b code s, Lts.Run (step sampleHex fun _ => none) Lts.anyStep empty ops b ∧ Clock.Timely BrokerOp.now ops ∧
      ops.filterMap BrokerOp.sweep? = sweeps ∧ (∀ op ∈ ops, op.now ≤ t) ∧ b.sessions.lookup code = some s ∧
      s.created = c ∧ s.attempts = 0 := by
  obtain ⟨before, after, rfl, hbefore, hafter⟩ := Clock.Timely.split c sorted
  let reap (n : Nat) : BrokerOp := .reap n fun _ => true
  let draws : Draws := { room := fun _ => 0, pin := 0, codes := [fun _ => 0] }
  obtain ⟨b₁, run₁, hb₁⟩ := @run_reaps sampleHex (fun _ => none) empty (fun _ => true) before
  have hnone (code : String) : b₁.sessions.lookup code = none := (hb₁ code).trans (foldl_keep_none _ before)
  obtain ⟨made, m, hcreate⟩ := @create_of_none sampleHex (fun _ => none) draws c b₁.sessions _ rfl (hnone _)
  let b₂ : Broker := { sessions := m, history := b₁.history ++ [.created made] }
  have run₂ : Lts.Run (step sampleHex fun _ => none) Lts.anyStep empty (before.map reap ++ [.create draws c]) b₂ :=
    run₁.snoc (.create draws c) trivial (by simp only [step, hcreate]; rfl)
  obtain ⟨b₃, run₃, hb₃⟩ := @run_reaps sampleHex (fun _ => none) b₂ (fun _ => true) after
  let s : Session :=
    { room := made.room, token := made.token, pin := made.pin, created := c, lastActive := c, attempts := 0 }
  have hmade : b₂.sessions.lookup made.code = some s := (Sessions.lookup_create hcreate made.code).trans (if_pos rfl)
  obtain ⟨last, hlast⟩ := @foldl_keep_occupied after s fun n hn => young n (List.mem_append_right _ hn)
  have swept (l : List Nat) : (l.map reap).filterMap BrokerOp.sweep? = l := by
    rw [List.filterMap_map]
    exact List.filterMap_some
  have times (l : List Nat) (hl : ∀ n ∈ l, n ≤ t) : ∀ op ∈ l.map reap, op.now ≤ t := fun op hop => by
    obtain ⟨n, hn, rfl⟩ := List.mem_map.mp hop
    exact hl n hn
  refine ⟨_, b₃, made.code, { s with lastActive := last }, run₂.append run₃, ?_, ?_, fun op hop => ?_, ?_, rfl, rfl⟩
  · obtain ⟨hsb, hsa, hcross⟩ := List.pairwise_append.mp sorted
    refine List.pairwise_append.mpr ⟨List.pairwise_append.mpr ⟨List.pairwise_map.mpr hsb, List.pairwise_singleton _ _, ?_⟩,
      List.pairwise_map.mpr hsa, ?_⟩
    · intro a ha b hb
      obtain ⟨n, hn, rfl⟩ := List.mem_map.mp ha
      rw [List.mem_singleton.mp hb]
      exact (hbefore n hn).le
    · intro a ha b hb
      obtain ⟨n, hn, rfl⟩ := List.mem_map.mp hb
      rcases List.mem_append.mp ha with ha | ha
      · obtain ⟨n', hn', rfl⟩ := List.mem_map.mp ha
        exact hcross n' hn' n hn
      · rw [List.mem_singleton.mp ha]
        exact hafter n hn
  · rw [List.filterMap_append, List.filterMap_append, swept]
    show before ++ [] ++ (after.map reap).filterMap BrokerOp.sweep? = _
    rw [swept, List.append_nil]
  · rcases List.mem_append.mp hop with hop | hop
    · rcases List.mem_append.mp hop with hop | hop
      · exact times before (fun n hn => past n (List.mem_append_left _ hn)) op hop
      · rw [List.mem_singleton.mp hop]
        exact hc
    · exact times after (fun n hn => past n (List.mem_append_right _ hn)) op hop
  · rw [hb₃, hmade, hlast]

theorem not_endsInTime {sweeps : List Nat} {c t : Nat} (sorted : sweeps.Pairwise (· ≤ ·)) (past : ∀ n ∈ sweeps, n ≤ t)
    (old : maxAgeSecs ≤ t - c) (young : ∀ n ∈ sweeps, n - c < maxAgeSecs) : ¬ EndsInTime sweeps c t := by
  intro ends
  have hc : c ≤ t := by
    have : 0 < maxAgeSecs := by decide
    omega
  obtain ⟨ops, b, code, s, run, timely, hsweeps, htimes, hs, hcreated, hattempts⟩ := exists_run_kept sorted past hc young
  have joined : (b.sessions.join t code s.pin).1 = .ok (s.room, s.token) := by
    simp [Sessions.join, hs, hattempts, maxAttempts, ctEq_iff]
  exact absurd (ends _ _ ops b run timely hsweeps htimes code s.pin s _ hs hcreated joined) (not_lt.mpr old)

/-- For given sweeps, no run lets a join at `t` succeed on a session that was created at `c` and has reached
    the cap, exactly when one of the sweeps comes at the cap or later. -/
theorem ends_in_time_iff {sweeps : List Nat} {c t : Nat} (sorted : sweeps.Pairwise (· ≤ ·)) (past : ∀ n ∈ sweeps, n ≤ t) :
    EndsInTime sweeps c t ↔ t - c < maxAgeSecs ∨ ∃ n ∈ sweeps, maxAgeSecs ≤ n - c := by
  constructor
  · intro ends
    by_contra! ⟨old, young⟩
    exact not_endsInTime sorted past old young ends
  · rintro (young | ⟨n, hn, late⟩) hex tokenFor ops b run timely hsweeps htimes code pin s r hs hcreated -
    · exact young
    · have aged := aged_run timely run code s hs
      have := aged.young n (hsweeps ▸ hn)
      rw [hcreated] at this
      exact absurd this (not_lt.mpr late)

theorem ends_in_time_swept : EndsInTime [60, 86430] 30 86431 :=
  (ends_in_time_iff (by decide) (by decide)).mpr (Or.inr ⟨86430, by decide, by decide⟩)

/-- A session created half a minute after a sweep is still joined when it is exactly 24 hours old, with a
    sweep every minute. -/
theorem joined_at_cap : ¬ ∀ sweeps c t, EndsInTime sweeps c t := by
  intro ends
  have minutes : ∀ n ∈ (List.range 1441).map (60 * ·), n ≤ 86400 := fun n hn => by
    obtain ⟨k, hk, rfl⟩ := List.mem_map.mp hn
    have := List.mem_range.mp hk
    omega
  refine not_endsInTime ?_ (fun n hn => ?_) ?_ (fun n hn => ?_) (ends ((List.range 1441).map (60 * ·)) 30 86430)
  · exact List.pairwise_map.mpr (List.pairwise_lt_range.imp fun h => by omega)
  · exact (minutes n hn).trans (by decide)
  · decide
  · have := minutes n hn
    unfold maxAgeSecs
    omega

end

end Broker

/-! ### The grace after the room empties -/

/-- Live membership of a room. -/
def Server.roomNonempty (st : Server) (room : String) : Bool := ((st.rooms room).map fun r => !r.keys.isEmpty).getD false

/-- The parts of the server's state that a session's lifetime depends on, with what no call reads: when a
    room last had a member, and when the store took note of a code. -/
structure Service where
  server : Server
  sessions : Sessions
  occupied : String → Option Nat
  notes : List (Nat × String)

inductive ServiceOp
  /-- A step of the WebSocket tasks, or a restart of the process. -/
  | signal (now : Nat) (a : SAct)
  | create (now : Nat) (draws : Draws)
  | join (now : Nat) (code pin : String)
  /-- The sweep task's round; it reads the rooms at one moment. -/
  | sweep (now : Nat)

def ServiceOp.now : ServiceOp → Nat
  | signal now _ | create now _ | join now _ _ | sweep now => now

namespace Service

def empty : Service := { server := .empty, sessions := ∅, occupied := fun _ => none, notes := [] }

/-- When a room last had a member, if the server goes on as `srv` at `now`. -/
def seen (σ : Service) (now : Nat) (srv : Server) (room : String) : Option Nat :=
  if σ.server.roomNonempty room || srv.roomNonempty room then some now else σ.occupied room

/-- The code, if joining it succeeds. -/
def admitted (σ : Service) (now : Nat) (code pin : String) : List String :=
  if (σ.sessions.join now code pin).1.isOk then [code] else []

/-- The codes of the sessions whose room the sweep finds occupied. -/
def found (σ : Service) : List String :=
  σ.sessions.keys.filter fun code => ((σ.sessions.lookup code).map fun s => σ.server.roomNonempty s.room).getD false

def step (cfg : ServerConfig) (σ : Service) : ServiceOp → Option Service
  | .signal now a => (σ.server.step cfg a).map fun srv =>
      { server := srv
        sessions := match a with
          | .restart => ∅
          | _ => σ.sessions
        occupied := σ.seen now srv
        notes := σ.notes }
  | .create now draws => (σ.sessions.create cfg.prim.hex (cfg.auth.tokenFor cfg.prim) draws now).map fun (c, m) =>
      { σ with sessions := m, occupied := σ.seen now σ.server, notes := σ.notes ++ [(now, c.code)] }
  | .join now code pin =>
    some { σ with
      sessions := (σ.sessions.join now code pin).2
      occupied := σ.seen now σ.server
      notes := σ.notes ++ (σ.admitted now code pin).map fun code => (now, code) }
  | .sweep now =>
    some { σ with
      sessions := σ.sessions.reap now σ.server.roomNonempty
      occupied := σ.seen now σ.server
      notes := σ.notes ++ σ.found.map fun code => (now, code) }

/-- The next sweep, at `n`, removes the session of the code. -/
def Removes (σ : Service) (n : Nat) (code : String) : Prop :=
  (σ.sessions.reap n σ.server.roomNonempty).lookup code = none

/-- The room had a member at some moment later than the grace before `n`. -/
def OccupiedLately (σ : Service) (n : Nat) (room : String) : Prop :=
  ∃ t, σ.seen n σ.server room = some t ∧ n < t + emptyGraceSecs

/-- The session of the code was created, joined or found occupied later than the grace before `n`. -/
def NotedLately (σ : Service) (n : Nat) (code : String) : Prop := ∃ t, (t, code) ∈ σ.notes ∧ n < t + emptyGraceSecs

/-- The last activity stored for a session is the last note of its code. -/
structure Noted (notes : List (Nat × String)) (code : String) (s : Session) : Prop where
  noted : (s.lastActive, code) ∈ notes
  last : ∀ t, (t, code) ∈ notes → t ≤ s.lastActive

/-- A sweep at `n` does not remove a session below the cap whose room was occupied within the grace. -/
def KeepsGrace (σ : Service) (n : Nat) (code : String) (s : Session) : Prop :=
  σ.Removes n code → n - s.created < maxAgeSecs → ¬ σ.OccupiedLately n s.room

/-- What the notes say of the stored sessions up to the clock value `t`. -/
structure Kept (t : Nat) (σ : Service) : Prop where
  past : ∀ note ∈ σ.notes, note.1 ≤ t
  noted : ∀ code s, σ.sessions.lookup code = some s → Noted σ.notes code s

section
variable {cfg : ServerConfig} {σ σ' : Service} {op : ServiceOp} {ops : List ServiceOp} {t now n : Nat} {code : String}
  {notes : List (Nat × String)} {s s' : Session}

/-- A note of the code at the time of its session's activity is the last one. -/
theorem Noted.anew (past : ∀ note ∈ notes, note.1 ≤ now) (hs : s.lastActive = now) {codes : List String}
    (hc : code ∈ codes) :
    Noted (notes ++ codes.map fun code => (now, code)) code s := by
  refine ⟨List.mem_append_right _ (List.mem_map.mpr ⟨code, hc, by rw [hs]⟩), fun t ht => ?_⟩
  rw [hs]
  rcases List.mem_append.mp ht with ht | ht
  · exact past _ ht
  · obtain ⟨_, -, heq⟩ := List.mem_map.mp ht
    cases heq
    exact le_refl now

/-- Notes of other codes. -/
theorem Noted.still (h : Noted notes code s) (hs : s'.lastActive = s.lastActive) {codes : List String} (hc : code ∉ codes) :
    Noted (notes ++ codes.map fun code => (now, code)) code s' := by
  obtain ⟨noted, last⟩ := h
  refine ⟨hs ▸ List.mem_append_left _ noted, fun t ht => ?_⟩
  rw [hs]
  rcases List.mem_append.mp ht with ht | ht
  · exact last t ht
  · obtain ⟨code', hc', heq⟩ := List.mem_map.mp ht
    cases heq
    exact absurd hc' hc

theorem past_append (past : ∀ note ∈ notes, note.1 ≤ now) (codes : List String) :
    ∀ note ∈ notes ++ codes.map (fun code => (now, code)), note.1 ≤ now := fun note hn => by
  rcases List.mem_append.mp hn with hn | hn
  · exact past note hn
  · obtain ⟨_, -, rfl⟩ := List.mem_map.mp hn
    exact le_refl now

theorem mem_admitted {code' pin : String} : code ∈ σ.admitted now code' pin ↔
    code' = code ∧ (σ.sessions.join now code' pin).1.isOk = true := by
  unfold admitted
  split
  · rename_i hok
    rw [List.mem_singleton, and_iff_left hok]
    exact eq_comm
  · rename_i hok
    exact iff_of_false List.not_mem_nil fun h => hok h.2

theorem mem_found : code ∈ σ.found ↔ ∃ s, σ.sessions.lookup code = some s ∧ σ.server.roomNonempty s.room = true := by
  unfold found
  rw [List.mem_filter]
  cases hl : σ.sessions.lookup code with
  | none =>
    have : code ∉ σ.sessions.keys := AList.lookup_eq_none.mp hl
    simp [this]
  | some s =>
    have : code ∈ σ.sessions.keys := AList.lookup_isSome.mp (by rw [hl]; rfl)
    simp [this]

theorem kept_step (inv : Kept t σ) (hle : t ≤ op.now) (hs : σ.step cfg op = some σ') : Kept op.now σ' := by
  have past : ∀ note ∈ σ.notes, note.1 ≤ op.now := fun note hn => (inv.past note hn).trans hle
  cases op with
  | signal now a =>
    obtain ⟨srv, -, rfl⟩ := Option.map_eq_some_iff.mp hs
    refine ⟨past, fun code s hl => ?_⟩
    cases a with
    | restart => exact nomatch hl
    | _ => exact inv.noted code s hl
  | create now draws =>
    obtain ⟨⟨c, m⟩, hc, rfl⟩ := Option.map_eq_some_iff.mp hs
    refine ⟨past_append past [c.code], fun code s hl => ?_⟩
    rw [Sessions.lookup_create hc] at hl
    split at hl
    · rename_i hcode
      cases hl
      exact Noted.anew past rfl (List.mem_singleton.mpr hcode)
    · rename_i hcode
      exact (inv.noted code s hl).still rfl fun hm => hcode (List.mem_singleton.mp hm)
  | join now code' pin =>
    cases hs
    refine ⟨past_append past (σ.admitted now code' pin), fun code s hl => ?_⟩
    obtain ⟨s₀, hs₀, -, -, hactive⟩ := Sessions.lookup_join hl
    by_cases hok : code' = code ∧ (σ.sessions.join now code' pin).1.isOk = true
    · rw [if_pos hok] at hactive
      exact Noted.anew past hactive (mem_admitted.mpr hok)
    · rw [if_neg hok] at hactive
      exact (inv.noted code s₀ hs₀).still hactive fun hm => hok (mem_admitted.mp hm)
  | sweep now =>
    cases hs
    refine ⟨past_append past σ.found, fun code s hl => ?_⟩
    obtain ⟨s₀, hs₀, hkeep⟩ := Option.bind_eq_some_iff.mp ((Sessions.lookup_reap ..).symm.trans hl)
    obtain ⟨-, -, -, hactive⟩ := Sessions.keep_eq_some hkeep
    by_cases hroom : σ.server.roomNonempty s₀.room = true
    · rw [if_pos hroom] at hactive
      exact Noted.anew past hactive (mem_found.mpr ⟨s₀, hs₀, hroom⟩)
    · rw [if_neg hroom] at hactive
      refine (inv.noted code s₀ hs₀).still hactive fun hm => hroom ?_
      obtain ⟨s₁, hs₁, hroom⟩ := mem_found.mp hm
      cases hs₀.symm.trans hs₁
      exact hroom

theorem kept_run (timely : Clock.Timely ServiceOp.now ops) (run : Lts.Run (step cfg) Lts.anyStep empty ops σ) :
    Kept (Clock.last ServiceOp.now ops) σ := by
  refine Clock.Timely.run (P := fun ops σ => Kept (Clock.last ServiceOp.now ops) σ) timely run ⟨nofun, nofun⟩ ?_
  intro ops σ op σ' _ inv hle _ hs
  rw [Clock.last_snoc]
  exact kept_step inv hle hs

theorem Noted.lately_iff (h : Noted σ.notes code s) : σ.NotedLately n code ↔ n < s.lastActive + emptyGraceSecs := by
  constructor
  · rintro ⟨t, ht, hlt⟩
    exact hlt.trans_le (Nat.add_le_add_right (h.last t ht) _)
  · exact fun hlt => ⟨_, h.noted, hlt⟩

/-- In every state of every run, the next sweep keeps the grace of a session exactly when an occupied room
    did not go unnoticed: it is occupied at the sweep, or within the grace the session was created, was
    joined, or had a sweep find its room occupied. -/
theorem keeps_grace_iff (timely : Clock.Timely ServiceOp.now ops) (run : Lts.Run (step cfg) Lts.anyStep empty ops σ)
    (hs : σ.sessions.lookup code = some s) (n : Nat) :
    σ.KeepsGrace n code s ↔ (n - s.created < maxAgeSecs → σ.OccupiedLately n s.room →
      σ.server.roomNonempty s.room = true ∨ σ.NotedLately n code) := by
  have noted := (kept_run timely run).noted code s hs
  have removes : σ.Removes n code ↔ maxAgeSecs ≤ n - s.created ∨
      (σ.server.roomNonempty s.room = false ∧ emptyGraceSecs ≤ n - s.lastActive) := by
    unfold Removes
    rw [Sessions.lookup_reap, hs, Option.bind_some, Sessions.keep_eq_none_iff]
  have grace : 0 < emptyGraceSecs := by decide
  rw [KeepsGrace, removes, noted.lately_iff]
  constructor
  · intro keeps young lately
    by_contra! ⟨hroom, hnote⟩
    exact keeps (Or.inr ⟨Bool.not_eq_true _ ▸ hroom, by omega⟩) young lately
  · rintro noticed (old | ⟨hroom, hactive⟩) young lately
    · exact absurd young (not_lt.mpr old)
    · rcases noticed young lately with hocc | hnote
      · rw [hroom] at hocc
        cases hocc
      · omega

/-- An open server, a session created on it, five minutes of sweeps, and a member who stays in its room for
    forty seconds between two of them. -/
def visitConfig : ServerConfig :=
  { prim := { hmacSha256 := fun _ _ => [], hmacSha1 := fun _ _ => [], base64 := fun _ => "", hex := sampleHex }
    auth := .opened
    turn := none }

def visitOps : List ServiceOp :=
  [.create 0 { room := fun _ => 0, pin := ⟨123456, by decide⟩, codes := [fun _ => ⟨0, by decide⟩] }, .sweep 0, .sweep 60,
    .sweep 120, .sweep 180, .sweep 240, .signal 250 .accept,
    .signal 250 (.frame 0 (.text (.join "squad-0000000000000000" "alice" "Alice" none))),
    .signal 250 (.finishJoin 0 0), .signal 290 (.close 0)]

def visited : Service := (Lts.exec (step visitConfig) empty visitOps).getD empty

theorem exec_visitOps : Lts.exec (step visitConfig) empty visitOps = some visited := rfl

/-- A sweep soon after the visit keeps the session: its creation is within the grace. -/
theorem keeps_grace_visited : ∃ s, visited.sessions.lookup "aaaaaaaa" = some s ∧ visited.KeepsGrace 295 "aaaaaaaa" s := by
  refine ⟨{ room := "squad-0000000000000000", token := none, pin := "123456", created := 0,
            lastActive := 0, attempts := 0 }, rfl, ?_⟩
  exact (keeps_grace_iff (by decide) (Lts.Run.of_exec exec_visitOps) rfl 295).mpr fun _ _ =>
    Or.inr ⟨0, by decide, by decide⟩

theorem removed_after_visit : ¬ ∀ cfg ops σ, Clock.Timely ServiceOp.now ops → Lts.Run (step cfg) Lts.anyStep empty ops σ →
    ∀ n, (∀ op ∈ ops, op.now ≤ n) → ∀ code s, σ.sessions.lookup code = some s → σ.KeepsGrace n code s := by
  intro keeps
  have removed : visited.Removes 300 "aaaaaaaa" := rfl
  refine keeps visitConfig visitOps visited (by decide) (Lts.Run.of_exec exec_visitOps) 300
    (by decide) "aaaaaaaa" _ rfl removed
    (by decide) ⟨290, rfl, by decide⟩

end

end Service

end SquadLink

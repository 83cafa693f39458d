import SquadLink.Server.Isolation

/-! Two sockets for one user. A Join replaces the user's handle while the socket it supersedes lives on:
    it keeps its identity, goes on relaying under it, and its cleanup removes whatever handle the room
    then lists under the user id. Registration and authority hold exactly as long as no superseded socket
    gets to do that. -/

namespace SquadLink

/-- The socket whose reader loop the action ends. -/
def SAct.ends : SAct → Option SocketId
  | .close s => some s
  | .frame s .close => some s
  | .frame s (.text .leave) => some s
  | _ => none

/-- The room that a Join is for. -/
def SAct.joinRoom : SAct → Option String
  | .frame _ (.text (.join room _ _ _)) => some room
  | _ => none

namespace Server

/-! ### Registration -/

/-- The latest socket whose Join as (`room`, `userId`) was accepted is, while it is open, the one that the
    room lists; and no member of the room has been told since then that the user left. -/
def StaysRegistered (st : Server) : Prop :=
  ∀ pre post s room userId token, st.history = pre ++ .accepted s room userId token :: post →
    (∀ s' token', .accepted s' room userId token' ∉ post) → st.IsOpen s →
      (∃ h, st.handle? room userId = some h ∧ h.tx = s) ∧
      ∀ cause dest, .placed cause dest (.peerLeft userId) ∈ post →
        ∀ member token', .accepted dest room member token' ∉ st.history

/-- The cleanup that the action runs, if it does, finds its own handle under its user id, or none. -/
def OwnCleanup (st : Server) (a : SAct) : Prop :=
  ∀ s ∈ a.ends, ∀ p ∈ st.ident s, ∀ h ∈ st.handle? p.1 p.2, h.tx = s

instance (st : Server) (a : SAct) : Decidable (OwnCleanup st a) := by
  unfold OwnCleanup
  infer_instance

section
variable {cfg : ServerConfig} {st st' : Server} {a : SAct}

theorem staysRegistered_step (inv : Inv cfg st) (own : OwnCleanup st a) (hs : step cfg st a = some st')
    (reg : StaysRegistered st) : StaysRegistered st' := by
  have kept := step_connsKept inv.fresh hs
  have inv' := inv_step inv hs
  obtain ⟨evs, hist, change⟩ := step_change (inv.fresh _ (Nat.le_refl _)) hs
  intro pre post s room userId token hpost latest hopen
  -- The accepted Join of an open socket that was there before: nothing but the new events is new.
  have before : ∀ mid, st.history = pre ++ .accepted s room userId token :: mid → post = mid ++ evs →
      (∃ h, st.handle? room userId = some h ∧ h.tx = s) ∧ ∀ cause dest,
        .placed cause dest (.peerLeft userId) ∈ mid → ∀ member token', .accepted dest room member token' ∉ st.history := by
    rintro mid hmid rfl
    have hacc : .accepted s room userId token ∈ st.history := by rw [hmid]; simp
    exact reg pre mid s room userId token hmid (fun s' token' hm => latest s' token' (List.mem_append_left _ hm))
      (kept.opened s (inv.fresh.ne (inv.accepted _ _ _ _ hacc).1) hopen)
  -- A receiver of an earlier PeerLeft has joined already, so it does not join the room now.
  have receiver : ∀ {cause dest mid}, st.history = pre ++ .accepted s room userId token :: mid →
      .placed cause dest (.peerLeft userId) ∈ mid → ∃ room' member token',
      .accepted dest room' member token' ∈ st.history := by
    intro cause dest mid hmid hm
    obtain ⟨m₁, m₂, rfl⟩ := List.append_of_mem hm
    obtain ⟨room', _, _, member, token', -, hd, -⟩ :=
      inv.roomBound (pre ++ .accepted s room userId token :: m₁) m₂ cause dest (.peerLeft userId) (by rw [hmid]; simp) rfl
    refine ⟨room', member, token', ?_⟩
    rw [hmid, ← List.cons_append, ← List.append_assoc]
    exact List.mem_append_left _ hd
  cases change with
  | same handles idents placed =>
    have no_join : ∀ {s room u token}, .accepted s room u token ∉ evs := fun h => by
      obtain ⟨_, _, _, he, -⟩ := placed _ h
      cases he
    rcases Lts.split_grown (hist ▸ hpost) with ⟨mid, hmid, rfl⟩ | ⟨mid, -, hnew⟩
    · obtain ⟨hreg, hleft⟩ := before mid hmid rfl
      refine ⟨by rw [handles]; exact hreg, fun cause dest hm member token' hacc => ?_⟩
      rw [hist, List.mem_append] at hacc
      rcases List.mem_append.mp hm with hm | hm
      · exact hleft cause dest hm member token' (hacc.resolve_right no_join)
      · obtain ⟨_, _, _, he, hj⟩ := placed _ hm
        cases he
        cases (hj rfl).2.1
    · exact absurd (show Event.accepted s room userId token ∈ evs by rw [hnew]; simp) no_join
  | admitted s₀ room₀ userId₀ name₀ token₀ rest act admits events handles idents placed =>
    subst events
    have not_left : ∀ {cause dest u}, .placed cause dest (.peerLeft u) ∉ rest := fun h => by
      obtain ⟨_, _, he, hm⟩ := placed _ h
      cases he
      exact (mem_joinSends hm rfl).2.2.2 _ rfl
    have rest_no_join : ∀ {s room u token}, .accepted s room u token ∉ rest := fun h => by
      obtain ⟨_, _, he, -⟩ := placed _ h
      cases he
    rcases Lts.split_grown (hist ▸ hpost) with ⟨mid, hmid, rfl⟩ | ⟨mid, -, hnew⟩
    · obtain ⟨hreg, hleft⟩ := before mid hmid rfl
      have hne : ¬ (room = room₀ ∧ userId = userId₀) := fun h =>
        latest s₀ token₀ (by rw [h.1, h.2]; simp)
      refine ⟨by rw [handles, if_neg hne]; exact hreg, fun cause dest hm member token' hacc => ?_⟩
      have hm' : .placed cause dest (.peerLeft userId) ∈ mid := by
        simp only [List.mem_append, List.mem_cons, reduceCtorEq, false_or] at hm
        exact hm.resolve_right not_left
      rw [hist, List.mem_append, List.mem_cons] at hacc
      rcases hacc with hacc | hacc | hacc
      · exact hleft cause dest hm' member token' hacc
      · injection hacc with hd
        subst hd
        -- The joining socket would have joined before.
        obtain ⟨room', member', token'', h⟩ := receiver hmid hm'
        obtain ⟨⟨c, hc, hr, hme⟩, -⟩ := admits
        have := (inv.accepted _ _ _ _ h).2.2.2 ⟨c, hc, by rw [hr]; exact Phase.noConfusion⟩
        rw [ident_of_reading hc hr, hme] at this
        cases this
      · exact rest_no_join hacc
    · rcases List.cons_eq_append_iff.mp hnew with ⟨-, hrest⟩ | ⟨mid, -, hrest⟩
      · injection hrest with he hrest
        injection he with h₁ h₂ h₃
        subst h₁ h₂ h₃
        refine ⟨⟨_, by rw [handles, if_pos ⟨rfl, rfl⟩], rfl⟩, fun cause dest hm => ?_⟩
        exact absurd (hrest ▸ hm) not_left
      · exact absurd (show Event.accepted s room userId token ∈ rest by rw [hrest]; simp) rest_no_join
  | left s₀ room₀ userId₀ identity act handles idents ended placed =>
    have no_join : ∀ {s room u token}, .accepted s room u token ∉ evs := fun h => by
      obtain ⟨_, _, -, -, he⟩ := placed _ h
      cases he
    have hends : a.ends = some s₀ := by rcases act with rfl | rfl | rfl <;> rfl
    rcases Lts.split_grown (hist ▸ hpost) with ⟨mid, hmid, rfl⟩ | ⟨mid, -, hnew⟩
    · obtain ⟨⟨h, hh, htx⟩, hleft⟩ := before mid hmid rfl
      -- The cleanup is not for the latest socket's user: it would find that socket's handle.
      have hne : ¬ (room = room₀ ∧ userId = userId₀) := by
        rintro ⟨rfl, rfl⟩
        have := own s₀ hends _ identity h hh
        exact ended (this ▸ htx ▸ hopen)
      refine ⟨⟨h, by rw [handles, if_neg hne]; exact hh, htx⟩, fun cause dest hm member token' hacc => ?_⟩
      rw [hist, List.mem_append] at hacc
      have hacc := hacc.resolve_right no_join
      rcases List.mem_append.mp hm with hm | hm
      · exact hleft cause dest hm member token' hacc
      · obtain ⟨id, hd, hhd, -, he⟩ := placed _ hm
        injection he with _ h₁ h₂
        injection h₂ with h₂
        subst h₁ h₂
        obtain ⟨token'', hacc'⟩ := inv.joined _ _ _ (inv.listed _ _ _ hhd)
        exact hne ⟨(inv.unique hacc hacc').1, rfl⟩
    · exact absurd (show Event.accepted s room userId token ∈ evs by rw [hnew]; simp) no_join
  | restarted act handles ended events => exact absurd hopen (ended s)

/-- In every run in which no socket's cleanup finds another socket's handle under its user id, the latest
    joined socket of a user stays registered. -/
theorem registration_survives
    (h : Lts.Reach (step cfg) (fun st a _ => OwnCleanup st a) empty st) : StaysRegistered st :=
  h.invariant_over (fun _ hr => (inv_reach hr : Inv cfg _))
    (fun pre post s room userId token hist => by simp [empty] at hist)
    fun _ _ _ inv _ reg own hs => staysRegistered_step inv own hs reg

/-- A user whose connection comes back under a second socket before the server sees the first one close. -/
def rejoinActs : List SAct := joinActs 0 "alice" ++ joinActs 1 "bob" ++ joinActs 2 "alice"

def afterRejoin : Server := (Lts.exec (step openConfig) empty rejoinActs).getD empty

theorem exec_rejoinActs : Lts.exec (step openConfig) empty rejoinActs = some afterRejoin := rfl

theorem registration_survives_rejoin :
    (∃ pre post, afterRejoin.history = pre ++ .accepted 2 "r" "alice" none :: post) ∧ StaysRegistered afterRejoin := by
  refine ⟨List.append_of_mem (by decide), @registration_survives openConfig _ ?_⟩
  exact Lts.Reach.of_execOk (fun _ _ _ => of_decide_eq_true)
    (show Lts.execOk (step openConfig) (fun st a _ => decide (OwnCleanup st a)) empty rejoinActs =
      some afterRejoin from rfl)

/-- The old socket closes after the new one has joined: the new one is no longer listed, though open, and
    the room has been told that the user left. -/
def lateCloseActs : List SAct := rejoinActs ++ [.close 0]

def afterLateClose : Server := (Lts.exec (step openConfig) empty lateCloseActs).getD empty

theorem registration_lost_to_late_close :
    ¬ ∀ st, Lts.Reach (step openConfig) Lts.anyStep empty st → StaysRegistered st := by
  intro all
  have reach : Lts.Reach (step openConfig) Lts.anyStep empty afterLateClose :=
    Lts.Reach.of_exec (fun _ _ _ _ => trivial)
      (show Lts.exec (step openConfig) empty lateCloseActs = some afterLateClose from rfl)
  have later : afterLateClose.history.drop 6 =
      [.placed 2 0 (.error "superseded" "joined from another connection"), .placed 2 1 (.peerJoined "alice" "alice"),
        .placed 2 2 (.roster [{ userId := "bob", name := "bob" }]), .placed 0 1 (.peerLeft "alice")] := by decide
  obtain ⟨⟨h, hh, -⟩, -⟩ := all _ reach (afterLateClose.history.take 5) (afterLateClose.history.drop 6) 2 "r" "alice" none
    (by decide) (by simp [later]) ⟨_, rfl, Phase.noConfusion⟩
  cases hh

/-! ### Authority -/

/-- What a step places in queues on behalf of a user is caused by the socket that the room lists for that
    user at that moment. -/
def OnlyCurrentActs (cfg : ServerConfig) (st : Server) : Prop :=
  ∀ a st' evs, step cfg st a = some st' → st'.history = st.history ++ evs →
    ∀ cause dest msg, .placed cause dest msg ∈ evs → msg.onBehalf = true →
      ∃ room userId h, st.ident cause = some (room, userId) ∧ st.handle? room userId = some h ∧ h.tx = cause

/-- The action is a Join that gets through the guards while the room lists another socket for its user. -/
def supersedes (cfg : ServerConfig) (st : Server) : SAct → Bool
  | .frame s (.text (.join room userId name token)) =>
    (st.ident s).isNone && !joinOutOfBounds room userId name token && cfg.auth.check cfg.prim room token &&
      (st.handle? room userId).isSome
  | _ => false

/-- `supersedes`, in one room. -/
def supersedesIn (cfg : ServerConfig) (st : Server) (room : String) (a : SAct) : Bool :=
  supersedes cfg st a && a.joinRoom == some room

section
variable {cfg : ServerConfig} {st st' : Server} {a : SAct} {room : String}

/-- Every joined socket of the room is the one that it lists for its user. -/
def IdentsListedIn (st : Server) (room : String) : Prop :=
  ∀ s userId, st.ident s = some (room, userId) → ∃ h, st.handle? room userId = some h ∧ h.tx = s

/-- Every joined socket is the one that its room lists for its user. -/
def IdentsListed (st : Server) : Prop :=
  ∀ s room userId, st.ident s = some (room, userId) → ∃ h, st.handle? room userId = some h ∧ h.tx = s

theorem identsListedIn_step (inv : Inv cfg st) (sole : supersedesIn cfg st room a = false) (hs : step cfg st a = some st')
    (listed : IdentsListedIn st room) : IdentsListedIn st' room := by
  obtain ⟨evs, -, change⟩ := step_change (inv.fresh _ (Nat.le_refl _)) hs
  intro t userId hi
  cases change with
  | same handles idents placed =>
    rw [handles]
    exact listed t userId (idents t ▸ hi)
  | admitted s room₀ userId₀ name token rest act admits events handles idents placed =>
    obtain ⟨⟨c, hc, hr, hme⟩, hbounds, hauth, -⟩ := admits
    have vacant : room = room₀ → st.handle? room₀ userId₀ = none := by
      rintro rfl
      subst act
      simpa [supersedesIn, supersedes, SAct.joinRoom, ident_of_reading hc hr, hme, hbounds, hauth] using sole
    rw [idents] at hi
    split at hi
    · rename_i ht
      injection hi with hi
      injection hi with h₁ h₂
      subst ht h₁ h₂
      exact ⟨_, by rw [handles, if_pos ⟨rfl, rfl⟩], rfl⟩
    · obtain ⟨h, hh, htx⟩ := listed t userId hi
      have hne : ¬ (room = room₀ ∧ userId = userId₀) := by
        rintro ⟨rfl, rfl⟩
        rw [vacant rfl] at hh
        cases hh
      exact ⟨h, by rw [handles, if_neg hne]; exact hh, htx⟩
  | left s room₀ userId₀ identity act handles idents ended placed =>
    rw [idents] at hi
    split at hi
    · cases hi
    · rename_i ht
      obtain ⟨h, hh, htx⟩ := listed t userId hi
      -- Another socket of the same identity would be listed under the same key.
      have hne : ¬ (room = room₀ ∧ userId = userId₀) := by
        rintro ⟨rfl, rfl⟩
        obtain ⟨h', hh', htx'⟩ := listed s userId identity
        cases hh.symm.trans hh'
        exact ht (htx.symm.trans htx')
      exact ⟨h, by rw [handles, if_neg hne]; exact hh, htx⟩
  | restarted act handles ended events => exact absurd (isOpen_of_ident hi) (ended t)

theorem identsListed_step (inv : Inv cfg st) (sole : supersedes cfg st a = false) (hs : step cfg st a = some st')
    (listed : IdentsListed st) : IdentsListed st' := fun s room userId hi =>
  identsListedIn_step inv (by simp [supersedesIn, sole]) hs (fun s userId => listed s room userId) s userId hi

theorem identsListed_reach (h : Lts.Reach (step cfg) (fun st a _ => supersedes cfg st a = false) empty st) :
    IdentsListed st :=
  h.invariant_over (fun _ hr => (inv_reach hr : Inv cfg _)) (fun s room userId hi => by cases hi)
    fun _ _ _ inv _ listed sole hs => identsListed_step inv sole hs listed

end

end

end Server

end SquadLink

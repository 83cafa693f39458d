import SquadLink.Server.Isolation
import SquadLink.Server.Queues

/-! The teardown of a connection. The reader loop enqueues its last words and then aborts the task that
    would write them: what is still queued when the abort takes effect is never sent. -/

namespace SquadLink

namespace Server

/-! ### What enters a queue -/

/-- The messages that were placed in the queue of a socket so far. -/
def placedAt (st : Server) (t : SocketId) : List ServerMsg :=
  st.history.filterMap fun
    | .placed _ dest msg => if dest = t then some msg else none
    | .accepted _ _ _ _ => none

def queueOf (st : Server) (t : SocketId) : List ServerMsg := ((st.conns t).map Conn.queue).getD []

/-- A queue without a receiver is empty. -/
def ClosedEmpty (st : Server) : Prop := ∀ t c, st.conns t = some c → c.rxOpen = false → c.queue = []

/-- Every queue grows by exactly what the history says was placed in it. -/
structure Enqueues (st st' : Server) : Prop where
  grown : ∀ t, ∃ msgs, st'.placedAt t = st.placedAt t ++ msgs ∧ st'.queueOf t = st.queueOf t ++ msgs
  closed : st.ClosedEmpty → st'.ClosedEmpty

section
variable {cfg : ServerConfig} {st st' st'' : Server} {s : SocketId}

theorem Enqueues.refl : Enqueues st st := ⟨fun _ => ⟨[], by simp, by simp⟩, id⟩

theorem Enqueues.trans (h₁ : Enqueues st st') (h₂ : Enqueues st' st'') : Enqueues st st'' := by
  refine ⟨fun t => ?_, h₂.closed ∘ h₁.closed⟩
  obtain ⟨msgs, hp, hq⟩ := h₁.grown t
  obtain ⟨more, hp', hq'⟩ := h₂.grown t
  exact ⟨msgs ++ more, by rw [hp', hp, List.append_assoc], by rw [hq', hq, List.append_assoc]⟩

theorem queueOf_modifyConn {f : Conn → Conn} (hf : ∀ c, st.conns s = some c → (f c).queue = c.queue) (t : SocketId) :
    (st.modifyConn s f).queueOf t = st.queueOf t := by
  unfold queueOf
  rw [modifyConn_conns]
  by_cases ht : t = s
  · subst ht
    rw [if_pos rfl]
    cases hc : st.conns t with
    | none => rfl
    | some c => simp [hf c hc]
  · rw [if_neg ht]

theorem enqueues_modifyConn {f : Conn → Conn} (hq : ∀ c, st.conns s = some c → (f c).queue = c.queue)
    (hr : ∀ c, st.conns s = some c → (f c).rxOpen = c.rxOpen) : Enqueues st (st.modifyConn s f) := by
  refine ⟨fun t => ⟨[], (List.append_nil _).symm, by rw [queueOf_modifyConn hq, List.append_nil]⟩,
    fun closed t c hc hrx => ?_⟩
  rw [modifyConn_conns] at hc
  split at hc
  · obtain ⟨c₀, hc₀, rfl⟩ := Option.map_eq_some_iff.mp hc
    rw [hq c₀ hc₀]
    exact closed s c₀ hc₀ ((hr c₀ hc₀).symm.trans hrx)
  · exact closed t c hc hrx

theorem enqueues_setRoom (room : String) (r : Option Room) : Enqueues st (st.setRoom room r) :=
  ⟨fun _ => ⟨[], (List.append_nil _).symm, (List.append_nil _).symm⟩, id⟩

theorem enqueues_accepted (room userId : String) (token : Option String) :
    Enqueues st (st.record (.accepted s room userId token)) :=
  ⟨fun _ => ⟨[], by simp [placedAt, record], (List.append_nil _).symm⟩, id⟩

theorem enqueues_finish : Enqueues st (st.finish s) := enqueues_modifyConn (fun _ _ => rfl) fun _ _ => rfl

theorem enqueues_trySend (cause dest : SocketId) (msg : ServerMsg) : Enqueues st (st.trySend cause dest msg) := by
  unfold trySend
  split
  · rename_i c hc
    split
    · rename_i hacc
      have hopen : c.rxOpen = true := (Bool.and_eq_true _ _ ▸ hacc).1
      refine ⟨fun t => ?_, fun closed t c' hc' hrx => ?_⟩
      · by_cases ht : dest = t
        · subst ht
          exact ⟨[msg], by simp [placedAt], by simp [queueOf, hc]⟩
        · exact ⟨[], by simp [placedAt, ht], by simp [queueOf, Function.update_of_ne (Ne.symm ht)]⟩
      · by_cases ht : t = dest
        · subst ht
          simp only [Function.update_self, Option.some.injEq] at hc'
          rw [← hc', hopen] at hrx
          cases hrx
        · simp only [Function.update_of_ne ht] at hc'
          exact closed t c' hc' hrx
    · exact .refl
  · exact .refl

theorem enqueues_sendAll (cause : SocketId) (out : List (SocketId × ServerMsg)) : Enqueues st (st.sendAll cause out) := by
  induction out generalizing st with
  | nil => exact .refl
  | cons p out ih => exact (enqueues_trySend cause p.1 p.2).trans ih

theorem enqueues_cleanup (me : Option (String × String)) : Enqueues st (st.cleanup s me) := by
  unfold cleanup
  split
  · exact enqueues_finish
  · split
    · exact enqueues_finish
    · exact ((enqueues_sendAll ..).trans (enqueues_setRoom ..)).trans enqueues_finish

theorem enqueues_enroll (room userId name : String) (token : Option String) :
    Enqueues st (st.enroll s room userId name token) :=
  (((enqueues_setRoom ..).trans (enqueues_accepted ..)).trans (enqueues_sendAll ..)).trans
    (enqueues_modifyConn (fun _ _ => rfl) fun _ _ => rfl)

theorem enqueues_join (me : Option (String × String)) (room userId name : String) (token : Option String) :
    Enqueues st (st.join cfg s me room userId name token) := by
  have refused : ∀ msg, Enqueues st ((st.trySend s s msg).finish s) := fun msg =>
    (enqueues_trySend s s msg).trans enqueues_finish
  unfold join
  split
  · exact enqueues_trySend ..
  · split
    · exact refused _
    · split
      · exact refused _
      · split
        · exact refused _
        · exact enqueues_enroll ..

theorem enqueues_relayTo (me : Option (String × String)) (dest : String) (build : String → ServerMsg) :
    Enqueues st (st.relayTo s me dest build) := by
  rw [relayTo_eq]
  exact enqueues_sendAll ..

theorem enqueues_toRoom (room : String) (g : String → Option ServerMsg) : Enqueues st (st.toRoom s room g) := by
  rw [toRoom_eq]
  exact enqueues_sendAll ..

theorem enqueues_handleFrame (me : Option (String × String)) (f : Frame) : Enqueues st (st.handleFrame cfg s me f) := by
  cases f with
  | badText err => exact enqueues_trySend ..
  | close => exact enqueues_cleanup me
  | other => exact .refl
  | text msg =>
    cases msg with
    | join room userId name token => exact enqueues_join me room userId name token
    | offer dest sdp => simp only [handleFrame, handleMsg]; split; exacts [.refl, enqueues_relayTo ..]
    | answer dest sdp => simp only [handleFrame, handleMsg]; split; exacts [.refl, enqueues_relayTo ..]
    | ice dest candidate => simp only [handleFrame, handleMsg]; split; exacts [.refl, enqueues_relayTo ..]
    | ptt active => simp only [handleFrame, handleMsg, ptt]; split; exacts [.refl, enqueues_toRoom ..]
    | rekey => simp only [handleFrame, handleMsg, rekey]; split; exacts [.refl, enqueues_toRoom ..]
    | leave => exact enqueues_cleanup me

end

/-! ### What leaves a queue -/

/-- The refusal that ends the reader loop of the socket, if the action is a Join that gets one. -/
def refusal (cfg : ServerConfig) (st : Server) : SAct → Option (SocketId × ServerMsg)
  | .frame s (.text (.join room userId name token)) =>
    if (st.ident s).isSome then none
    else if joinOutOfBounds room userId name token then some (s, .error "bad_input" "field empty or too long")
    else if !cfg.auth.check cfg.prim room token then some (s, .error "bad_token" "invalid room token")
    else if st.isFull room userId then some (s, .roomFull hardCap)
    else none
  | _ => none

/-- The server with what its writer tasks have written, the sockets on which a send has failed, and the
    refusals so far. -/
structure Watched where
  server : Server
  written : SocketId → List ServerMsg
  failed : SocketId → Bool
  refused : List (SocketId × ServerMsg)

namespace Watched

def empty : Watched := { server := Server.empty, written := fun _ => [], failed := fun _ => false, refused := [] }

def step (cfg : ServerConfig) (w : Watched) (a : SAct) : Option Watched :=
  (Server.step cfg w.server a).map fun server =>
    { server
      written := match a with
        | .write s => Function.update w.written s (w.written s ++ (w.server.queueOf s).take 1)
        | _ => w.written
      failed := match a with
        | .writeFail s => Function.update w.failed s true
        | _ => w.failed
      refused := w.refused ++ (refusal cfg w.server a).toList }

/-- The reader loop of the socket has ended and its writer task is gone. -/
def Finished (w : Watched) (s : SocketId) : Prop := ∃ c, w.server.conns s = some c ∧ c.phase = .ended ∧ c.rxOpen = false

/-- A finished connection on which no send failed was written every refusal, and all that was ever
    enqueued for it. -/
structure Explained (w : Watched) : Prop where
  refusals : ∀ s msg, (s, msg) ∈ w.refused → w.Finished s → w.failed s = false → msg ∈ w.written s
  complete : ∀ s, w.Finished s → w.failed s = false → w.written s = w.server.placedAt s

/-- A refusal finds room in the queue, unless a send has failed on the socket, and a queue that is dropped
    with its writer task is empty. -/
def Drains (cfg : ServerConfig) (w : Watched) : SAct → Prop
  | .abort s => w.server.queueOf s = []
  | .restart => ∀ s, s < w.server.nextSocket → w.server.queueOf s = []
  | a => ∀ p ∈ refusal cfg w.server a, w.failed p.1 = false → ∀ c ∈ w.server.conns p.1, c.accepts = true

instance (cfg : ServerConfig) (w : Watched) (a : SAct) : Decidable (w.Drains cfg a) := by
  cases a <;> (unfold Drains; infer_instance)

/-- What was placed in a queue has been written or is still there; nothing is left behind a closed one. -/
structure Accounted (w : Watched) : Prop where
  balance : ∀ t, w.failed t = false → w.server.placedAt t = w.written t ++ w.server.queueOf t
  closed : w.server.ClosedEmpty
  refused : ∀ t msg, (t, msg) ∈ w.refused → w.failed t = false → msg ∈ w.server.placedAt t

theorem Accounted.explained {w : Watched} (acc : w.Accounted) : w.Explained := by
  have complete : ∀ s, w.Finished s → w.failed s = false → w.written s = w.server.placedAt s := by
    rintro s ⟨c, hc, -, hrx⟩ hf
    have hq : w.server.queueOf s = [] := by simp [queueOf, hc, acc.closed s c hc hrx]
    rw [acc.balance s hf, hq, List.append_nil]
  refine ⟨fun s msg hm hfin hf => ?_, complete⟩
  rw [complete s hfin hf]
  exact acc.refused s msg hm hf

section
variable {cfg : ServerConfig} {w w' : Watched} {a : SAct}

/-- A step that only enqueues keeps the balance. -/
theorem Accounted.of_enqueues (acc : w.Accounted) (hw : w'.written = w.written) (hf : w'.failed = w.failed)
    (enq : Enqueues w.server w'.server)
    (hr : ∀ t msg, (t, msg) ∈ w'.refused → w.failed t = false → (t, msg) ∈ w.refused ∨ msg ∈ w'.server.placedAt t) :
    w'.Accounted := by
  refine ⟨fun t ht => ?_, enq.closed acc.closed, fun t msg hm ht => ?_⟩
  · obtain ⟨msgs, hp, hq⟩ := enq.grown t
    rw [hp, hq, hw, acc.balance t (hf ▸ ht), List.append_assoc]
  · rw [hf] at ht
    rcases hr t msg hm ht with hm | hm
    · obtain ⟨msgs, hp, -⟩ := enq.grown t
      rw [hp]
      exact List.mem_append_left _ (acc.refused t msg hm ht)
    · exact hm

/-- A step that drops empty queues only is no loss. -/
theorem enqueues_dropRx {st : Server} {s : SocketId} (h : st.queueOf s = []) :
    Enqueues st (st.modifyConn s Conn.dropRx) := by
  have hq : ∀ c, st.conns s = some c → c.queue = [] := fun c hc => by simpa [queueOf, hc] using h
  refine ⟨fun t => ⟨[], (List.append_nil _).symm, ?_⟩, fun closed t c hc hrx => ?_⟩
  · rw [queueOf_modifyConn (fun c hc => (hq c hc).symm), List.append_nil]
  · rw [modifyConn_conns] at hc
    split at hc
    · obtain ⟨c₀, -, rfl⟩ := Option.map_eq_some_iff.mp hc
      rfl
    · exact closed t c hc hrx

/-- A refusal that finds room in the queue is placed there. -/
theorem refusal_placed {st st' : Server} (hs : Server.step cfg st a = some st') {s : SocketId} {msg : ServerMsg}
    (h : refusal cfg st a = some (s, msg)) (fits : ∀ c ∈ st.conns s, c.accepts = true) : msg ∈ st'.placedAt s := by
  unfold refusal at h
  split at h
  · rename_i t room userId name token
    obtain ⟨c, hc, hr, rfl⟩ := step_frame_inv hs
    have placed : ∀ m, t = s → m ∈ ((st.trySend t t m).finish t).placedAt s := by
      rintro m rfl
      simp [finish, placedAt, trySend, hc, fits c hc]
    have hi := ident_of_reading hc hr
    split at h
    · cases h
    · rename_i hme
      rw [hi] at hme
      simp only [handleFrame, handleMsg, join, if_neg hme]
      split at h
      · rename_i hbounds
        cases h
        rw [if_pos hbounds]
        exact placed _ rfl
      · rename_i hbounds
        rw [if_neg hbounds]
        split at h
        · rename_i hauth
          cases h
          rw [if_pos hauth]
          exact placed _ rfl
        · rename_i hauth
          rw [if_neg hauth]
          split at h
          · rename_i hfull
            cases h
            rw [if_pos hfull]
            exact placed _ rfl
          · cases h
  · cases h

theorem step_inv (hs : w.step cfg a = some w') :
    Server.step cfg w.server a = some w'.server ∧ w'.refused = w.refused ++ (refusal cfg w.server a).toList := by
  obtain ⟨st', hst, rfl⟩ := Option.map_eq_some_iff.mp hs
  exact ⟨hst, rfl⟩

theorem enqueues_accept {st : Server} (fresh : st.Fresh) :
    Enqueues st { st with conns := Function.update st.conns st.nextSocket (some {}), nextSocket := st.nextSocket + 1 } := by
  have hnone := fresh st.nextSocket (Nat.le_refl _)
  refine ⟨fun t => ⟨[], (List.append_nil _).symm, ?_⟩, fun closed t c hc hrx => ?_⟩
  · by_cases ht : t = st.nextSocket
    · subst ht
      simp [queueOf, hnone]
    · simp [queueOf, Function.update_of_ne ht]
  · by_cases ht : t = st.nextSocket
    · subst ht
      simp only [Function.update_self, Option.some.injEq] at hc
      rw [← hc] at hrx
      cases hrx
    · simp only [Function.update_of_ne ht] at hc
      exact closed t c hc hrx

theorem enqueues_restart {st : Server} (h : ∀ s, st.queueOf s = []) :
    Enqueues st { st with
      rooms := fun _ => none
      conns := fun s => (st.conns s).map fun c => { c.dropRx with phase := .ended } } := by
  refine ⟨fun t => ⟨[], (List.append_nil _).symm, ?_⟩, fun _ t c hc _ => ?_⟩
  · rw [h t]
    cases hc : st.conns t <;> simp [queueOf, hc, Conn.dropRx]
  · obtain ⟨c₀, -, rfl⟩ := Option.map_eq_some_iff.mp hc
    rfl

/-- The oldest queued message goes from the queue to what is written. -/
theorem accounted_write {s : SocketId} (acc : w.Accounted) :
    Accounted { w with
      server := w.server.modifyConn s fun c => { c with queue := c.queue.tail }
      written := Function.update w.written s (w.written s ++ (w.server.queueOf s).take 1) } := by
  refine ⟨fun t ht => ?_, fun t c hc hrx => ?_, acc.refused⟩
  · by_cases hts : t = s
    · subst hts
      have htail : (w.server.modifyConn t fun c => { c with queue := c.queue.tail }).queueOf t =
          (w.server.queueOf t).drop 1 := by
        cases hc : w.server.conns t <;> simp [queueOf, hc]
      simp only [Function.update_self]
      rw [htail, List.append_assoc, List.take_append_drop]
      exact acc.balance t ht
    · simp only [Function.update_of_ne hts]
      have hother : (w.server.modifyConn s fun c => { c with queue := c.queue.tail }).queueOf t = w.server.queueOf t := by
        simp [queueOf, modifyConn_conns_ne _ _ _ hts]
      rw [hother]
      exact acc.balance t ht
  · simp only [modifyConn_conns] at hc
    split at hc
    · obtain ⟨c₀, hc₀, rfl⟩ := Option.map_eq_some_iff.mp hc
      simp [acc.closed s c₀ hc₀ hrx]
    · exact acc.closed t c hc hrx

/-- A socket on which a send failed is not accounted for any more. -/
theorem accounted_writeFail {s : SocketId} (acc : w.Accounted) :
    Accounted { w with server := w.server.modifyConn s Conn.dropRx, failed := Function.update w.failed s true } := by
  have unfailed : ∀ t, Function.update w.failed s true t = false → t ≠ s ∧ w.failed t = false := by
    intro t ht
    by_cases hts : t = s
    · subst hts
      simp at ht
    · exact ⟨hts, by rwa [Function.update_of_ne hts] at ht⟩
  refine ⟨fun t ht => ?_, fun t c hc hrx => ?_, fun t msg hm ht => acc.refused t msg hm (unfailed t ht).2⟩
  · by_cases hts : t = s
    · exact absurd hts (unfailed t ht).1
    · simp only [Function.update_of_ne hts] at ht
      have hother : (w.server.modifyConn s Conn.dropRx).queueOf t = w.server.queueOf t := by
        simp [queueOf, modifyConn_conns_ne _ _ _ hts]
      rw [hother]
      exact acc.balance t ht
  · simp only [modifyConn_conns] at hc
    split at hc
    · obtain ⟨c₀, -, rfl⟩ := Option.map_eq_some_iff.mp hc
      rfl
    · exact acc.closed t c hc hrx

theorem accounted_step (fresh : w.server.Fresh) (acc : w.Accounted) (drains : w.Drains cfg a)
    (hs : w.step cfg a = some w') : w'.Accounted := by
  obtain ⟨hst, hrefused⟩ := step_inv hs
  have refused : ∀ t msg, (t, msg) ∈ w'.refused → w.failed t = false →
      (t, msg) ∈ w.refused ∨ msg ∈ w'.server.placedAt t := by
    intro t msg hm hf
    rw [hrefused, List.mem_append, Option.mem_toList] at hm
    refine hm.imp_right fun hm => ?_
    cases a with
    | frame s f => exact refusal_placed hst hm (drains _ hm hf)
    | _ => cases hm
  obtain ⟨st', -, rfl⟩ := Option.map_eq_some_iff.mp hs
  cases a with
  | accept =>
    cases Option.some.inj hst
    exact acc.of_enqueues rfl rfl (enqueues_accept fresh) refused
  | frame s f =>
    obtain ⟨c, -, -, rfl⟩ := step_frame_inv hst
    exact acc.of_enqueues rfl rfl (enqueues_handleFrame c.me f) refused
  | finishJoin s now =>
    obtain ⟨c, room, userId, roster, -, -, rfl⟩ := step_finishJoin_inv hst
    exact acc.of_enqueues rfl rfl
      ((enqueues_sendAll ..).trans (enqueues_modifyConn (fun _ _ => rfl) fun _ _ => rfl)) refused
  | close s =>
    obtain ⟨c, -, -, rfl⟩ := step_close_inv hst
    exact acc.of_enqueues rfl rfl (enqueues_cleanup c.me) refused
  | rehash room r =>
    obtain ⟨r₀, -, -, rfl⟩ := step_rehash_inv hst
    exact acc.of_enqueues rfl rfl (enqueues_setRoom ..) refused
  | abort s =>
    obtain ⟨c, -, -, rfl⟩ := step_abort_inv hst
    exact acc.of_enqueues rfl rfl (enqueues_dropRx drains) refused
  | restart =>
    cases Option.some.inj hst
    refine acc.of_enqueues rfl rfl (enqueues_restart fun s => ?_) refused
    by_cases hs : s < w.server.nextSocket
    · exact drains s hs
    · simp [queueOf, fresh s (Nat.le_of_not_lt hs)]
  | write s =>
    obtain ⟨c, -, -, rfl⟩ := step_write_inv hst
    simpa [refusal] using accounted_write (s := s) acc
  | writeFail s =>
    obtain ⟨c, -, -, rfl⟩ := step_writeFail_inv hst
    simpa [refusal] using accounted_writeFail (s := s) acc

/-- The server of a watched run makes a run of its own. -/
theorem reach_server {ok : Watched → SAct → Watched → Prop} (h : Lts.Reach (step cfg) ok empty w) :
    Lts.Reach (Server.step cfg) Lts.anyStep Server.empty w.server := by
  induction h with
  | refl => exact .refl
  | step a _ _ hs ih => exact ih.step a trivial (step_inv hs).1

end

/-! A socket whose Join is refused. -/

def refusedActs : List SAct := [.accept, .frame 0 (.text (.join "r" "alice" "" none))]

/-- The writer task gets to the refusal before it is aborted. -/
def explainedActs : List SAct := refusedActs ++ [.write 0, .abort 0]

/-- The abort comes first. -/
def abortedActs : List SAct := refusedActs ++ [.abort 0]

def explained : Watched := (Lts.exec (step openConfig) empty explainedActs).getD empty

def aborted : Watched := (Lts.exec (step openConfig) empty abortedActs).getD empty

end Watched

end Server

end SquadLink

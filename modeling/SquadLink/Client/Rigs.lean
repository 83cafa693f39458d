import Mathlib.Data.List.Induction
import SquadLink.Lib.Lts

/-! Audio rigs and the sessions that hold them (`setup_audio`, `start` and `Drop for Engine` of
    `companion-core/src/lib.rs`, `serverless.rs`, and the session commands of the Tauri shell). A command
    is given with the outcome of each of its fallible steps. -/

namespace SquadLink

/-- The stop flag of every rig that `setup_audio` has started, the oldest first. -/
structure Rigs where
  stops : List Bool
deriving DecidableEq, Repr

namespace Rigs

/-- The rigs whose stop flag is unset. -/
def running (r : Rigs) : Nat := r.stops.count false

/-- The audio threads are up, under a new stop flag. -/
def setupAudio (r : Rigs) : Nat × Rigs := (r.stops.length, { stops := r.stops ++ [false] })

end Rigs

/-- The handle of a running engine (`Engine` in the source), with the stop flag of its rig. -/
structure EngineHandle where
  stop : Nat
deriving DecidableEq, Repr

/-- `Drop for Engine`. -/
def EngineHandle.drop (e : EngineHandle) (r : Rigs) : Rigs := { stops := r.stops.set e.stop true }

/-- A serverless session, which does not know the stop flag of its rig. -/
structure Serverless where
  me : String
deriving DecidableEq, Repr

/-- What the fallible steps of `connect` come to, in their order. -/
structure ConnectSteps where
  /-- The arguments pass their validation. -/
  valid : Bool
  setupAudio : Bool
  buildApi : Bool
  signalingConnect : Bool
  sendJoin : Bool
deriving DecidableEq, Repr

structure BuildPcSteps where
  setupAudio : Bool
  buildApi : Bool
  newPeerConnection : Bool
  addTrack : Bool
deriving DecidableEq, Repr

structure CreateOfferSteps where
  buildPc : BuildPcSteps
  createDataChannel : Bool
  createOffer : Bool
  setLocalDescription : Bool
  localDescription : Bool
deriving DecidableEq, Repr

structure AcceptOfferSteps where
  buildPc : BuildPcSteps
  decodeCode : Bool
  offer : Bool
  setRemoteDescription : Bool
  createAnswer : Bool
  setLocalDescription : Bool
  localDescription : Bool
deriving DecidableEq, Repr

/-- Start the engine: open audio, connect signaling, join. -/
def start (o : ConnectSteps) (r : Rigs) : Option EngineHandle × Rigs :=
  if !o.setupAudio then (none, r) else
  let (stop, r) := r.setupAudio
  if !o.buildApi then (none, r) else
  if !o.signalingConnect then (none, r) else
  if !o.sendJoin then (none, r) else
  (some { stop }, r)

/-- Whether a PeerConnection wired to a rig was built. The rig's stop flag is not kept. -/
def buildPc (o : BuildPcSteps) (r : Rigs) : Bool × Rigs :=
  if !o.setupAudio then (false, r) else
  let (_stop, r) := r.setupAudio
  if !o.buildApi then (false, r) else
  if !o.newPeerConnection then (false, r) else
  if !o.addTrack then (false, r) else
  (true, r)

namespace Serverless

/-- Role A: create an offer. -/
def createOffer (o : CreateOfferSteps) (me : String) (r : Rigs) : Option Serverless × Rigs :=
  let (built, r) := buildPc o.buildPc r
  if !built then (none, r) else
  if !o.createDataChannel then (none, r) else
  if !o.createOffer then (none, r) else
  if !o.setLocalDescription then (none, r) else
  if !o.localDescription then (none, r) else
  (some { me }, r)

/-- Role B: accept the peer's offer code. -/
def acceptOffer (o : AcceptOfferSteps) (me : String) (r : Rigs) : Option Serverless × Rigs :=
  let (built, r) := buildPc o.buildPc r
  if !built then (none, r) else
  if !o.decodeCode then (none, r) else
  if !o.offer then (none, r) else
  if !o.setRemoteDescription then (none, r) else
  if !o.createAnswer then (none, r) else
  if !o.setLocalDescription then (none, r) else
  if !o.localDescription then (none, r) else
  (some { me }, r)

end Serverless

/-- The shell's `AppState`, with the rigs of the process. -/
structure AppState where
  engine : Option EngineHandle
  serverless : Option Serverless
  rigs : Rigs
deriving DecidableEq, Repr

inductive AppCmd
  | connect (o : ConnectSteps)
  | serverlessOffer (name : String) (o : CreateOfferSteps)
  | serverlessAcceptOffer (name : String) (o : AcceptOfferSteps)
  | disconnect
deriving DecidableEq, Repr

namespace AppState

def empty : AppState := { engine := none, serverless := none, rigs := { stops := [] } }

/-- `*state.engine.lock().unwrap() = engine`: the engine held before is dropped. -/
def setEngine (st : AppState) (engine : Option EngineHandle) : AppState :=
  { st with
    engine
    rigs := match st.engine with
      | none => st.rigs
      | some old => old.drop st.rigs }

def setServerless (st : AppState) (s : Option Serverless) : AppState := { st with serverless := s }

def connect (o : ConnectSteps) (st : AppState) : AppState :=
  if !o.valid then st else
  match start o st.rigs with
  | (none, rigs) => { st with rigs }
  | (some engine, rigs) => { st with rigs }.setEngine (some engine)

def serverlessOffer (name : String) (o : CreateOfferSteps) (st : AppState) : AppState :=
  match Serverless.createOffer o name st.rigs with
  | (none, rigs) => { st with rigs }
  | (some s, rigs) => { st with rigs }.setServerless (some s)

def serverlessAcceptOffer (name : String) (o : AcceptOfferSteps) (st : AppState) : AppState :=
  match Serverless.acceptOffer o name st.rigs with
  | (none, rigs) => { st with rigs }
  | (some s, rigs) => { st with rigs }.setServerless (some s)

def disconnect (st : AppState) : AppState := (st.setEngine none).setServerless none

def exec (st : AppState) : AppCmd → AppState
  | .connect o => st.connect o
  | .serverlessOffer name o => st.serverlessOffer name o
  | .serverlessAcceptOffer name o => st.serverlessAcceptOffer name o
  | .disconnect => st.disconnect

/-- The sessions that the state holds. -/
def held (st : AppState) : Nat := st.engine.toList.length + st.serverless.toList.length

/-- No rig runs without a session. -/
def NoOrphans (st : AppState) : Prop := st.rigs.running = st.held

end AppState

/-! ### When a rig is orphaned -/

namespace BuildPcSteps

def allOk (o : BuildPcSteps) : Bool := o.setupAudio && o.buildApi && o.newPeerConnection && o.addTrack

end BuildPcSteps

/-- Every step after the start of the rig succeeds. -/
def ConnectSteps.restOk (o : ConnectSteps) : Bool := o.buildApi && o.signalingConnect && o.sendJoin

def CreateOfferSteps.allOk (o : CreateOfferSteps) : Bool :=
  o.buildPc.allOk && o.createDataChannel && o.createOffer && o.setLocalDescription && o.localDescription

def AcceptOfferSteps.allOk (o : AcceptOfferSteps) : Bool :=
  o.buildPc.allOk && o.decodeCode && o.offer && o.setRemoteDescription && o.createAnswer && o.setLocalDescription &&
    o.localDescription

namespace AppState

/-- The command starts a rig and then fails, or it takes a serverless session out of the state. -/
def Orphans (st : AppState) : AppCmd → Bool
  | .connect o => o.valid && o.setupAudio && !o.restOk
  | .serverlessOffer _ o => o.buildPc.setupAudio && (!o.allOk || st.serverless.isSome)
  | .serverlessAcceptOffer _ o => o.buildPc.setupAudio && (!o.allOk || st.serverless.isSome)
  | .disconnect => st.serverless.isSome

/-- The engine's flag is that of a running rig. -/
def EngineRuns (st : AppState) : Prop := ∀ e ∈ st.engine, st.rigs.stops[e.stop]? = some false

end AppState

section
variable {r : Rigs}

theorem start_cases (o : ConnectSteps) (r : Rigs) :
    (o.setupAudio = false ∧ start o r = (none, r)) ∨
    (o.setupAudio = true ∧ o.restOk = false ∧ start o r = (none, r.setupAudio.2)) ∨
    (o.setupAudio = true ∧ o.restOk = true ∧ start o r = (some { stop := r.stops.length }, r.setupAudio.2)) := by
  unfold start ConnectSteps.restOk
  cases o.setupAudio <;> cases o.buildApi <;> cases o.signalingConnect <;> cases o.sendJoin <;> simp [Rigs.setupAudio]

theorem buildPc_eq (o : BuildPcSteps) (r : Rigs) :
    buildPc o r = (o.allOk, if o.setupAudio then r.setupAudio.2 else r) := by
  unfold buildPc BuildPcSteps.allOk
  cases o.setupAudio <;> cases o.buildApi <;> cases o.newPeerConnection <;> cases o.addTrack <;> rfl

theorem createOffer_eq (o : CreateOfferSteps) (me : String) (r : Rigs) :
    Serverless.createOffer o me r =
      (if o.allOk then some { me } else none, if o.buildPc.setupAudio then r.setupAudio.2 else r) := by
  unfold Serverless.createOffer CreateOfferSteps.allOk
  rw [buildPc_eq]
  cases o.buildPc.allOk <;> cases o.createDataChannel <;> cases o.createOffer <;> cases o.setLocalDescription <;>
    cases o.localDescription <;> rfl

theorem acceptOffer_eq (o : AcceptOfferSteps) (me : String) (r : Rigs) :
    Serverless.acceptOffer o me r =
      (if o.allOk then some { me } else none, if o.buildPc.setupAudio then r.setupAudio.2 else r) := by
  unfold Serverless.acceptOffer AcceptOfferSteps.allOk
  rw [buildPc_eq]
  cases o.buildPc.allOk <;> cases o.decodeCode <;> cases o.offer <;> cases o.setRemoteDescription <;>
    cases o.createAnswer <;>
    cases o.setLocalDescription <;> cases o.localDescription <;> rfl

theorem CreateOfferSteps.started (o : CreateOfferSteps) (h : o.allOk = true) : o.buildPc.setupAudio = true := by
  simp only [allOk, BuildPcSteps.allOk, Bool.and_eq_true] at h
  exact h.1.1.1.1.1.1.1

theorem AcceptOfferSteps.started (o : AcceptOfferSteps) (h : o.allOk = true) : o.buildPc.setupAudio = true := by
  simp only [allOk, BuildPcSteps.allOk, Bool.and_eq_true] at h
  exact h.1.1.1.1.1.1.1.1.1

theorem Rigs.running_setupAudio (r : Rigs) : r.setupAudio.2.running = r.running + 1 := by
  simp [Rigs.running, Rigs.setupAudio, List.count_append]

theorem EngineHandle.running_drop {e : EngineHandle} (h : r.stops[e.stop]? = some false) :
    (e.drop r).running + 1 = r.running := by
  obtain ⟨hlt, hget⟩ := List.getElem?_eq_some_iff.mp h
  have pos : 0 < r.stops.count false := List.count_pos_iff.mpr (hget ▸ List.getElem_mem hlt)
  simp only [EngineHandle.drop, Rigs.running, List.count_set hlt, hget]
  simp
  omega

end

namespace AppState

section
variable {st : AppState}

/-- Replacing the engine stops the rig of the one held before, if there was one. -/
theorem running_setEngine (runs : st.EngineRuns) (engine : Option EngineHandle) :
    (st.setEngine engine).rigs.running + st.engine.toList.length = st.rigs.running := by
  unfold setEngine
  cases he : st.engine with
  | none => rfl
  | some old => exact EngineHandle.running_drop (runs old he)

/-- What a serverless command makes of the state: the rig it started, and its session if all went well. -/
def afterServerless (st : AppState) (audio : Bool) (s : Option Serverless) : AppState :=
  { st with
    serverless := s.or st.serverless
    rigs := if audio then st.rigs.setupAudio.2 else st.rigs }

theorem serverlessOffer_eq (name : String) (o : CreateOfferSteps) :
    st.serverlessOffer name o = st.afterServerless o.buildPc.setupAudio
      (if o.allOk then some { me := name } else none) := by
  unfold serverlessOffer afterServerless
  rw [createOffer_eq]
  cases o.allOk <;> rfl

theorem serverlessAcceptOffer_eq (name : String) (o : AcceptOfferSteps) :
    st.serverlessAcceptOffer name o =
      st.afterServerless o.buildPc.setupAudio (if o.allOk then some { me := name } else none) := by
  unfold serverlessAcceptOffer afterServerless
  rw [acceptOffer_eq]
  cases o.allOk <;> rfl

theorem afterServerless_surplus {audio ok : Bool} (name : String) (started : ok = true → audio = true) :
    (st.afterServerless audio (if ok then some { me := name } else none)).rigs.running + st.held =
      st.rigs.running + (st.afterServerless audio (if ok then some { me := name } else none)).held +
        (audio && (!ok || st.serverless.isSome)).toNat := by
  have up := st.rigs.running_setupAudio
  cases audio with
  | false =>
    have hok : ok = false := by simpa using started
    simp [afterServerless, held, hok]
  | true => cases ok <;> cases hs : st.serverless <;> simp [afterServerless, held, hs, up] <;> omega

/-- The rigs without a session after a command: those before it, and one more if it orphans one. -/
theorem exec_surplus (runs : st.EngineRuns) (c : AppCmd) :
    (st.exec c).rigs.running + st.held = st.rigs.running + (st.exec c).held + (st.Orphans c).toNat := by
  cases c with
  | connect o =>
    cases hv : o.valid with
    | false => simp [exec, connect, Orphans, hv]
    | true =>
      rcases start_cases o st.rigs with ⟨ha, hs⟩ | ⟨ha, hrest, hs⟩ | ⟨ha, hrest, hs⟩
      · simp [exec, connect, Orphans, hv, ha, hs, held]
      · have up := st.rigs.running_setupAudio
        simp [exec, connect, Orphans, hv, ha, hrest, hs, held, up]
        omega
      · have runs' : ({ st with rigs := st.rigs.setupAudio.2 } : AppState).EngineRuns := fun e he => by
          obtain ⟨hlt, -⟩ := List.getElem?_eq_some_iff.mp (runs e he)
          exact (List.getElem?_append_left hlt).trans (runs e he)
        have stopped := running_setEngine runs' (some { stop := st.rigs.stops.length })
        rw [Rigs.running_setupAudio] at stopped
        simp only [exec, connect, Orphans, hv, ha, hrest, hs, held]
        simp [setEngine] at stopped ⊢
        omega
  | serverlessOffer name o =>
    rw [exec, serverlessOffer_eq]
    exact afterServerless_surplus name o.started
  | serverlessAcceptOffer name o =>
    rw [exec, serverlessAcceptOffer_eq]
    exact afterServerless_surplus name o.started
  | disconnect =>
    have stopped := running_setEngine runs none
    simp only [exec, disconnect, Orphans, held]
    cases hs : st.serverless <;> simp [setEngine, setServerless, hs] at stopped ⊢ <;> omega

theorem setEngine_engineRuns {engine : Option EngineHandle}
    (h : ∀ e ∈ engine, st.rigs.stops[e.stop]? = some false ∧ ∀ old ∈ st.engine, old.stop ≠ e.stop) :
    (st.setEngine engine).EngineRuns := by
  intro e he
  obtain ⟨running, other⟩ := h e he
  unfold setEngine
  cases ho : st.engine with
  | none => exact running
  | some old => exact (List.getElem?_set_ne (other old ho)).trans running

theorem exec_engineRuns (runs : st.EngineRuns) (c : AppCmd) : (st.exec c).EngineRuns := by
  have grown : ∀ e ∈ st.engine, st.rigs.setupAudio.2.stops[e.stop]? = some false := fun e he => by
    obtain ⟨hlt, -⟩ := List.getElem?_eq_some_iff.mp (runs e he)
    exact (List.getElem?_append_left hlt).trans (runs e he)
  have serverless (audio : Bool) (s : Option Serverless) : (st.afterServerless audio s).EngineRuns := by
    cases audio with
    | false => exact runs
    | true => exact grown
  cases c with
  | connect o =>
    simp only [exec, connect]
    cases o.valid with
    | false => exact runs
    | true =>
      rcases start_cases o st.rigs with ⟨-, hs⟩ | ⟨-, -, hs⟩ | ⟨-, -, hs⟩
      · rw [hs]
        exact runs
      · rw [hs]
        exact grown
      · rw [hs]
        refine setEngine_engineRuns fun e he => ?_
        cases he
        refine ⟨by simp [Rigs.setupAudio], fun old hold => ?_⟩
        obtain ⟨hlt, -⟩ := List.getElem?_eq_some_iff.mp (runs old hold)
        exact Nat.ne_of_lt hlt
  | serverlessOffer name o => rw [exec, serverlessOffer_eq]; exact serverless _ _
  | serverlessAcceptOffer name o => rw [exec, serverlessAcceptOffer_eq]; exact serverless _ _
  | disconnect => exact nofun

end

/-! ### Sequences of commands -/

/-- The state after a sequence of commands. -/
def execAll (cmds : List AppCmd) : AppState := cmds.foldl exec empty

theorem execAll_snoc (cmds : List AppCmd) (c : AppCmd) : execAll (cmds ++ [c]) = (execAll cmds).exec c := by
  simp [execAll]

theorem execAll_engineRuns (cmds : List AppCmd) : (execAll cmds).EngineRuns := by
  induction cmds using List.reverseRecOn with
  | nil => exact nofun
  | append_singleton cmds c ih => exact execAll_snoc cmds c ▸ exec_engineRuns ih c

/-- None of the commands orphans a rig in the state it finds. -/
def NoneOrphans (cmds : List AppCmd) : Prop :=
  ∀ pre c post, cmds = pre ++ c :: post → (execAll pre).Orphans c = false

theorem noneOrphans_snoc {cmds : List AppCmd} {c : AppCmd} :
    NoneOrphans (cmds ++ [c]) ↔ NoneOrphans cmds ∧ (execAll cmds).Orphans c = false := Lts.forall_split_snoc

/-- The rigs that run are those of the held sessions and one for each command that orphaned one. -/
theorem execAll_surplus (cmds : List AppCmd) :
    ∃ n, (execAll cmds).rigs.running = (execAll cmds).held + n ∧ (n = 0 ↔ NoneOrphans cmds) := by
  induction cmds using List.reverseRecOn with
  | nil => exact ⟨0, rfl, iff_of_true rfl fun pre c post h => by simp at h⟩
  | append_singleton cmds c ih =>
    obtain ⟨n, hn, hiff⟩ := ih
    have step := exec_surplus (execAll_engineRuns cmds) c
    refine ⟨n + ((execAll cmds).Orphans c).toNat, by rw [execAll_snoc]; omega, ?_⟩
    rw [noneOrphans_snoc, Nat.add_eq_zero_iff, hiff]
    cases (execAll cmds).Orphans c <;> simp

/-- After any commands, as many rigs run as sessions are held if and only if no command so far failed after
    its rig had started or took a serverless session out of the state. -/
theorem no_orphans_iff (cmds : List AppCmd) : (execAll cmds).NoOrphans ↔ NoneOrphans cmds := by
  obtain ⟨n, hn, hiff⟩ := execAll_surplus cmds
  rw [← hiff, NoOrphans, hn]
  omega

/-- A connect to a server that does not answer leaves its rig running. -/
def unanswered : ConnectSteps :=
  { valid := true, setupAudio := true, buildApi := true, signalingConnect := false, sendJoin := true }

theorem orphan_of_failed_connect : ¬ ∀ cmds, (execAll cmds).NoOrphans := by
  intro all
  have matched : (execAll [.connect unanswered]).rigs.running = 0 := all [.connect unanswered]
  exact absurd matched (by decide)

end AppState

end SquadLink

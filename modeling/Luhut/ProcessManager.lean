import Luhut.DartInt
import Luhut.LabelledRuns

set_option autoImplicit false

/-! A `Slot` is what the program and the operating system hold for one of the three
services: the handle `_xProcess`, every child spawned so far, and the startX and
stopX calls suspended at `Process.start` and at `taskkill`. A killed child is
not dead at once: its exit is a step of its own, and the exit notification
(the `exitCode.then` callback) another one. -/
namespace Luhut.ProcessManager
open DartInt LabelledRuns

inductive Service where
  | nginx | php | mysql
deriving DecidableEq, Repr

structure Spawn where
  executable : Text
  arguments : List Text
  workingDirectory : Option Text
  runInShell : Bool
deriving DecidableEq, Repr

structure Child where
  spawn : Spawn
  alive : Bool
  killed : Bool
  notified : Bool
deriving DecidableEq, Repr

/-- A pending `Process.run('taskkill', ..)`: it may still have to terminate the
    processes of its image, or have done so without its future being delivered. -/
inductive Taskkill where
  | running | finished
deriving DecidableEq, Repr

structure Slot where
  process : Option ℕ
  children : List Child
  starting : List Spawn
  stopping : List Taskkill
deriving DecidableEq, Repr

abbrev ProcessManagerService := Service → Slot

def Slot.initial : Slot := ⟨none, [], [], []⟩

def initial : ProcessManagerService := fun _ => Slot.initial

def Slot.isRunning (s : Slot) : Bool := s.process.isSome

def binPath : Text := "bin".toList

def nginxSpawn : Spawn :=
  ⟨binPath ++ "/nginx/nginx.exe".toList, [], some (binPath ++ "/nginx".toList), false⟩

/-- The version only reaches the log: the executable path is fixed. -/
def phpSpawn (_version : Text) (port : ℤ) : Spawn :=
  ⟨binPath ++ "/php/8.4/php-cgi.exe".toList,
    ["-b".toList, "127.0.0.1:".toList ++ toText port], none, false⟩

def mysqlSpawn : Spawn :=
  ⟨binPath ++ "/mysql/bin/mysqld.exe".toList, ["--console".toList],
    some (binPath ++ "/mysql".toList), false⟩

/-- startX up to its await: the guard, then `Process.start`. -/
def Slot.start (spawn : Spawn) (s : Slot) : Slot :=
  if s.isRunning then s else { s with starting := s.starting ++ [spawn] }

def Slot.started (spawn : Spawn) (s : Slot) : Slot :=
  { s with
      process := some s.children.length
      children := s.children ++ [⟨spawn, true, false, false⟩] }

def Child.kill (c : Child) : Child := { c with killed := c.killed || c.alive }

/-- stopNginx and stopMySQL up to their await. -/
def Slot.stop (s : Slot) : Slot :=
  match s.process with
  | some p => { s with
      children := s.children.modify p Child.kill
      stopping := s.stopping ++ [.running] }
  | none => s

def Slot.stopNow (s : Slot) : Slot :=
  match s.process with
  | some p => { s with children := s.children.modify p Child.kill, process := none }
  | none => s

theorem stop_none {s : Slot} (h : s.process = none) : s.stop = s := by
  simp only [Slot.stop, h]

theorem stop_some {s : Slot} {p : ℕ} (h : s.process = some p) :
    s.stop = { s with
      children := s.children.modify p Child.kill
      stopping := s.stopping ++ [.running] } := by
  simp only [Slot.stop, h]

theorem stopNow_none {s : Slot} (h : s.process = none) : s.stopNow = s := by
  simp only [Slot.stopNow, h]

theorem stopNow_some {s : Slot} {p : ℕ} (h : s.process = some p) :
    s.stopNow = { s with children := s.children.modify p Child.kill, process := none } := by
  simp only [Slot.stopNow, h]

def isNginxRunning (m : ProcessManagerService) : Bool := (m .nginx).isRunning
def isPhpRunning (m : ProcessManagerService) : Bool := (m .php).isRunning
def isMysqlRunning (m : ProcessManagerService) : Bool := (m .mysql).isRunning

def onSlot (x : Service) (f : Slot → Slot) (m : ProcessManagerService) : ProcessManagerService :=
  Function.update m x (f (m x))

def startNginx (m : ProcessManagerService) : ProcessManagerService :=
  onSlot .nginx (Slot.start nginxSpawn) m

def stopNginx (m : ProcessManagerService) : ProcessManagerService :=
  onSlot .nginx Slot.stop m

def startPHP (version : Text) (port : ℤ) (m : ProcessManagerService) : ProcessManagerService :=
  onSlot .php (Slot.start (phpSpawn version port)) m

def stopPHP (m : ProcessManagerService) : ProcessManagerService :=
  onSlot .php Slot.stopNow m

def startMySQL (m : ProcessManagerService) : ProcessManagerService :=
  onSlot .mysql (Slot.start mysqlSpawn) m

def stopMySQL (m : ProcessManagerService) : ProcessManagerService :=
  onSlot .mysql Slot.stop m

/-- The three calls are not awaited: each runs up to its own await. -/
def stopAll (m : ProcessManagerService) : ProcessManagerService :=
  stopMySQL (stopPHP (stopNginx m))

inductive Call where
  | startNginx | stopNginx
  | startPHP (version : Text) (port : ℤ) | stopPHP
  | startMySQL | stopMySQL

def call (m : ProcessManagerService) : Call → ProcessManagerService
  | .startNginx => startNginx m
  | .stopNginx => stopNginx m
  | .startPHP version port => startPHP version port m
  | .stopPHP => stopPHP m
  | .startMySQL => startMySQL m
  | .stopMySQL => stopMySQL m

/-- What the event loop and the operating system do for one service. The index
    names a suspended start, a suspended stop, or a child. -/
inductive Event where
  | spawned (i : ℕ)
  | spawnFailed (i : ℕ)
  | taskkilled (i : ℕ)
  | stopped (i : ℕ)
  | exited (k : ℕ)
  | notified (k : ℕ)
deriving DecidableEq, Repr

def Slot.event (s : Slot) : Event → Option Slot
  | .spawned i =>
    (s.starting[i]?).map fun spawn =>
      Slot.started spawn { s with starting := s.starting.eraseIdx i }
  | .spawnFailed i =>
    if i < s.starting.length then some { s with starting := s.starting.eraseIdx i } else none
  | .taskkilled i =>
    if s.stopping[i]? = some .running then
      some { s with
        stopping := s.stopping.set i .finished
        children := s.children.map Child.kill }
    else none
  | .stopped i =>
    if s.stopping[i]? = some .finished then
      some { s with stopping := s.stopping.eraseIdx i, process := none }
    else none
  | .exited k =>
    if (s.children[k]?).any (·.alive) then
      some { s with children := s.children.modify k fun c => { c with alive := false } }
    else none
  | .notified k =>
    -- the callback clears the handle without looking at what it holds
    if (s.children[k]?).any (fun c => !c.alive && !c.notified) then
      some { s with
        children := s.children.modify k fun c => { c with notified := true }
        process := none }
    else none

inductive Action where
  | call (c : Call)
  | event (x : Service) (e : Event)

def step (m : ProcessManagerService) : Action → Option ProcessManagerService
  | .call c => some (call m c)
  | .event x e => ((m x).event e).map (Function.update m x)

def Slot.aliveCount (s : Slot) : ℕ := s.children.countP (·.alive)

inductive SlotAction where
  | start (spawn : Spawn)
  | stop
  | stopNow
  | event (e : Event)

def Slot.step (s : Slot) : SlotAction → Option Slot
  | .start spawn => some (s.start spawn)
  | .stop => some s.stop
  | .stopNow => some s.stopNow
  | .event e => s.event e

def Call.service : Call → Service
  | .startNginx | .stopNginx => .nginx
  | .startPHP _ _ | .stopPHP => .php
  | .startMySQL | .stopMySQL => .mysql

def Call.isStart : Call → Bool
  | .startNginx | .startPHP _ _ | .startMySQL => true
  | .stopNginx | .stopPHP | .stopMySQL => false

def Call.slotAction : Call → SlotAction
  | .startNginx => .start nginxSpawn
  | .startPHP version port => .start (phpSpawn version port)
  | .startMySQL => .start mysqlSpawn
  | .stopNginx | .stopMySQL => .stop
  | .stopPHP => .stopNow

def Action.at (x : Service) : Action → Option SlotAction
  | .call c => if c.service = x then some c.slotAction else none
  | .event y e => if y = x then some (.event e) else none

theorem call_other (m : ProcessManagerService) (c : Call) (x : Service) (h : c.service ≠ x) :
    call m c x = m x := by
  cases c <;> exact Function.update_of_ne (Ne.symm h) _ _

theorem call_self (m : ProcessManagerService) (c : Call) :
    (m c.service).step c.slotAction = some (call m c c.service) := by
  cases c <;> simp [call, startNginx, stopNginx, startPHP, stopPHP, startMySQL, stopMySQL, onSlot,
    Call.service, Call.slotAction, Slot.step]

theorem step_idle {m m' : ProcessManagerService} {a : Action} {x : Service}
    (hx : a.at x = none) (h : step m a = some m') : m' x = m x := by
  cases a with
  | call c =>
    cases h
    refine call_other m c x fun hc => ?_
    simp [Action.at, hc] at hx
  | event y e =>
    obtain ⟨s, _, rfl⟩ := Option.map_eq_some_iff.mp h
    refine Function.update_of_ne (fun hy => ?_) _ _
    simp [Action.at, hy] at hx

theorem step_slot {m m' : ProcessManagerService} {a : Action} {x : Service} {b : SlotAction}
    (hx : a.at x = some b) (h : step m a = some m') : (m x).step b = some (m' x) := by
  cases a with
  | call c =>
    cases h
    simp only [Action.at] at hx
    split at hx
    · next hc =>
      subst hc
      cases hx
      exact call_self m c
    · cases hx
  | event y e =>
    obtain ⟨s, hs, rfl⟩ := Option.map_eq_some_iff.mp h
    simp only [Action.at] at hx
    split at hx
    · next hy =>
      subst hy
      cases hx
      rw [Function.update_self]
      exact hs
    · cases hx

theorem step_event {m m' : ProcessManagerService} {x : Service} {e : Event}
    (h : step m (.event x e) = some m') : (m x).event e = some (m' x) :=
  step_slot (b := .event e) (by simp only [Action.at, ↓reduceIte]) h

theorem Runs.slot {allow : ProcessManagerService → Action → Prop}
    {m m' : ProcessManagerService} {as : List Action} (x : Service)
    (allow' : Slot → SlotAction → Prop)
    (hallow : ∀ m a b, a.at x = some b → allow m a → allow' (m x) b)
    (h : Runs step allow m as m') :
    Runs Slot.step allow' (m x) (as.filterMap (Action.at x)) (m' x) :=
  h.project (fun m => m x) (Action.at x) (fun _ _ _ hx hs => step_idle hx hs)
    (fun m a _ b hx ok hs => ⟨hallow m a b hx ok, step_slot hx hs⟩)

theorem Runs.lift_update {m : ProcessManagerService} {x : Service} {s' : Slot} {es : List Event}
    (allow : ProcessManagerService → Action → Prop) (hallow : ∀ m e, allow m (.event x e))
    (h : Runs Slot.event always (m x) es s') :
    Runs step allow m (es.map (.event x)) (Function.update m x s') := by
  generalize hs : m x = s at h
  induction h generalizing m with
  | refl s =>
    rw [← hs, Function.update_eq_self]
    exact .refl m
  | @next s u v e es _ he _ ih =>
    have hm : step m (.event x e) = some (Function.update m x u) := by
      simp only [step, hs, he, Option.map_some]
    have tail := ih (m := Function.update m x u) (Function.update_self ..)
    rw [Function.update_idem] at tail
    exact .next (hallow m e) hm tail

theorem Runs.lift {m : ProcessManagerService} {x : Service} {s s' : Slot} {es : List Event}
    (allow : ProcessManagerService → Action → Prop) (hallow : ∀ m e, allow m (.event x e))
    (hs : m x = s) (h : Runs Slot.event always s es s') :
    ∃ m', Runs step allow m (es.map (.event x)) m' ∧ m' x = s' := by
  subst hs
  exact ⟨_, Runs.lift_update allow hallow h, Function.update_self ..⟩

structure Child.Ages (c c' : Child) : Prop where
  spawn : c'.spawn = c.spawn
  alive : c'.alive = true → c.alive = true
  killed : c.killed = true → c'.killed = true
  notified : c.notified = true → c'.notified = true
  dead : c'.notified = true → c.notified = true ∨ c'.alive = false

def Ages (cs cs' : List Child) : Prop :=
  cs'.length = cs.length ∧
    ∀ (k : ℕ) (c' : Child), cs'[k]? = some c' → ∃ c, cs[k]? = some c ∧ Child.Ages c c'

theorem Child.Ages.refl (c : Child) : Child.Ages c c :=
  ⟨rfl, id, id, id, Or.inl⟩

theorem Ages.refl (cs : List Child) : Ages cs cs :=
  ⟨rfl, fun _ c h => ⟨c, h, .refl c⟩⟩

theorem Child.kill_ages (c : Child) : Child.Ages c c.kill :=
  ⟨rfl, id, fun h => by simp [Child.kill, h], id, Or.inl⟩

theorem modify_ages (cs : List Child) (k : ℕ) (f : Child → Child)
    (hf : ∀ c, cs[k]? = some c → Child.Ages c (f c)) : Ages cs (cs.modify k f) := by
  refine ⟨List.length_modify .., ?_⟩
  intro j c' hj
  rw [List.getElem?_modify] at hj
  obtain ⟨c, hc, rfl⟩ := Option.map_eq_some_iff.mp hj
  refine ⟨c, hc, ?_⟩
  split
  · next hk =>
    subst hk
    exact hf c hc
  · exact .refl c

theorem kill_ages (cs : List Child) (k : ℕ) : Ages cs (cs.modify k Child.kill) :=
  modify_ages cs k _ fun c _ => Child.kill_ages c

theorem taskkill_ages (cs : List Child) : Ages cs (cs.map Child.kill) := by
  refine ⟨List.length_map .., ?_⟩
  intro j c' hj
  rw [List.getElem?_map] at hj
  obtain ⟨c, hc, rfl⟩ := Option.map_eq_some_iff.mp hj
  exact ⟨c, hc, Child.kill_ages c⟩

theorem exit_ages (cs : List Child) (k : ℕ) :
    Ages cs (cs.modify k fun c => { c with alive := false }) :=
  modify_ages cs k _ fun _ _ => ⟨rfl, fun h => (by cases h), id, id, Or.inl⟩

theorem notify_ages (cs : List Child) (k : ℕ)
    (h : (cs[k]?).any (fun c => !c.alive && !c.notified) = true) :
    Ages cs (cs.modify k fun c => { c with notified := true }) := by
  refine modify_ages cs k _ fun c hc => ⟨rfl, id, id, fun _ => rfl, fun _ => Or.inr ?_⟩
  simp only [hc, Option.any_some, Bool.and_eq_true, Bool.not_eq_true'] at h
  exact h.1

theorem event_spec {s s' : Slot} {e : Event} (h : s.event e = some s') :
    match e with
    | .spawned i => ∃ spawn, s.starting[i]? = some spawn ∧
        s' = Slot.started spawn { s with starting := s.starting.eraseIdx i }
    | .spawnFailed i => i < s.starting.length ∧
        s' = { s with starting := s.starting.eraseIdx i }
    | .taskkilled i => s.stopping[i]? = some .running ∧
        s' = { s with
          stopping := s.stopping.set i .finished
          children := s.children.map Child.kill }
    | .stopped i => s.stopping[i]? = some .finished ∧
        s' = { s with stopping := s.stopping.eraseIdx i, process := none }
    | .exited k => (s.children[k]?).any (·.alive) = true ∧
        s' = { s with children := s.children.modify k fun c => { c with alive := false } }
    | .notified k => (s.children[k]?).any (fun c => !c.alive && !c.notified) = true ∧
        s' = { s with
          children := s.children.modify k fun c => { c with notified := true }
          process := none } := by
  cases e with
  | spawned i =>
    obtain ⟨spawn, hi, rfl⟩ := Option.map_eq_some_iff.mp h
    exact ⟨spawn, hi, rfl⟩
  | spawnFailed | taskkilled | stopped | exited | notified =>
    simp only [Slot.event] at h
    split at h
    · next ok => exact ⟨ok, (Option.some.inj h).symm⟩
    · cases h

theorem step_children {s s' : Slot} {a : SlotAction} (h : s.step a = some s') :
    (∃ i spawn, a = .event (.spawned i) ∧ s.starting[i]? = some spawn ∧
      s' = Slot.started spawn { s with starting := s.starting.eraseIdx i }) ∨
    Ages s.children s'.children := by
  cases a with
  | start spawn =>
    cases h
    refine Or.inr ?_
    unfold Slot.start
    split <;> exact .refl _
  | stop =>
    cases h
    refine Or.inr ?_
    unfold Slot.stop
    split
    · exact kill_ages _ _
    · exact .refl _
  | stopNow =>
    cases h
    refine Or.inr ?_
    unfold Slot.stopNow
    split
    · exact kill_ages _ _
    · exact .refl _
  | event e =>
    have hs := event_spec h
    cases e with
    | spawned i =>
      obtain ⟨spawn, hi, rfl⟩ := hs
      exact Or.inl ⟨i, spawn, rfl, hi, rfl⟩
    | spawnFailed i => obtain ⟨_, rfl⟩ := hs; exact Or.inr (.refl _)
    | taskkilled i => obtain ⟨_, rfl⟩ := hs; exact Or.inr (taskkill_ages _)
    | stopped i => obtain ⟨_, rfl⟩ := hs; exact Or.inr (.refl _)
    | exited k => obtain ⟨_, rfl⟩ := hs; exact Or.inr (exit_ages _ _)
    | notified k => obtain ⟨hk, rfl⟩ := hs; exact Or.inr (notify_ages _ _ hk)

end Luhut.ProcessManager

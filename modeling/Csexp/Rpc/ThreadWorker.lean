import Csexp.Library.Systems

/-!
# Thread workers

A thread that runs the jobs of a queue. Everybody else works on the queue
while holding the mutex, which the thread gives up while it runs a job or
waits for one. A job is never left in the queue of a thread that sleeps.
-/

namespace Csexp.ThreadWorker

inductive State where
  | running
  | stopped
  | finished
  deriving DecidableEq

/-- Where the thread is in `run`. It holds the mutex at `loop` and at `test`
and competes for it at `lock`, in front of `loop`, and at `woken`, behind
`Condition.wait`. -/
inductive Point (J : Type) where
  | lock
  | loop
  | test
  | wait
  | woken
  | job (j : J)
  | exited
  deriving DecidableEq

/-- `accepted` and `ran` keep the jobs that `add_work` has taken and those
that have been run. -/
structure T (J : Type) where
  work : List J
  state : State
  thread : Point J
  accepted : List J
  ran : List J

variable {J : Type}

namespace T

def create : T J where
  work := []
  state := .running
  thread := .lock
  accepted := []
  ran := []

def isRunning (t : T J) : Bool :=
  match t.state with
  | .running => true
  | .stopped | .finished => false

/-- A step of `run`; none while the thread waits for a signal. -/
def run (t : T J) : Option (T J) :=
  match t.thread with
  | .lock => some { t with thread := .loop }
  | .loop =>
    match t.state, t.work with
    | .stopped, [] => some { t with state := .finished, thread := .exited }
    | .stopped, j :: work => some { t with work, thread := .job j }
    | .finished, _ => some { t with thread := .exited }
    | .running, j :: work => some { t with work, thread := .job j }
    | .running, [] => some { t with thread := .test }
  | .test =>
    if t.work.isEmpty && t.isRunning then some { t with thread := .wait }
    else some { t with thread := .loop }
  | .woken => some { t with thread := .test }
  | .job j => some { t with thread := .lock, ran := t.ran ++ [j] }
  | .wait => none
  | .exited => none

def signal (t : T J) : T J :=
  match t.thread with
  | .wait => { t with thread := .woken }
  | _ => t

def addWork (t : T J) (j : J) : Except Unit (T J) :=
  if t.isRunning then
    .ok { t with work := t.work ++ [j], accepted := t.accepted ++ [j] }.signal
  else .error ()

def stop (t : T J) : T J :=
  match t.state with
  | .running => { t with state := .stopped }.signal
  | .stopped | .finished => t

/-- The thread holds the mutex. -/
def Holds (t : T J) : Prop := t.thread = .loop ∨ t.thread = .test

inductive Step (t : T J) : T J → Prop where
  | run {t' : T J} (h : t.run = some t') : Step t t'
  | spurious (h : t.thread = .wait) : Step t { t with thread := .woken }
  | addWork (j : J) {t' : T J} (hfree : ¬ t.Holds) (h : t.addWork j = .ok t') : Step t t'
  | stop (hfree : ¬ t.Holds) : Step t t.stop

def system (J : Type) : System (T J) where
  init t := t = create
  step := Step

/-! ## What each step keeps -/

def current (t : T J) : List J :=
  match t.thread with
  | .job j => [j]
  | _ => []

structure Inv (t : T J) : Prop where
  jobs : t.accepted = t.ran ++ t.current ++ t.work
  wait : t.thread = .wait → t.work = [] ∧ t.state = .running
  finished : t.state = .finished ↔ t.thread = .exited
  exited : t.thread = .exited → t.work = []

theorem isRunning_iff {t : T J} : t.isRunning = true ↔ t.state = .running := by
  rw [isRunning]
  cases t.state <;> simp

@[simp] theorem signal_work (t : T J) : t.signal.work = t.work := by
  unfold signal
  split <;> rfl

@[simp] theorem signal_state (t : T J) : t.signal.state = t.state := by
  unfold signal
  split <;> rfl

@[simp] theorem signal_accepted (t : T J) : t.signal.accepted = t.accepted := by
  unfold signal
  split <;> rfl

@[simp] theorem signal_ran (t : T J) : t.signal.ran = t.ran := by
  unfold signal
  split <;> rfl

@[simp] theorem signal_current (t : T J) : t.signal.current = t.current := by
  unfold signal
  split
  · rename_i h
    simp [current, h]
  · rfl

theorem signal_ne_wait (t : T J) : t.signal.thread ≠ .wait := by
  unfold signal
  split
  · simp
  · assumption

theorem signal_exited {t : T J} : t.signal.thread = .exited ↔ t.thread = .exited := by
  unfold signal
  split
  · rename_i h
    simp [h]
  · rfl

theorem inv_create : (create : T J).Inv where
  jobs := rfl
  wait h := by cases h
  finished := by simp [create]
  exited h := by cases h

theorem Inv.run {t t' : T J} (ht : t.Inv) (h : t.run = some t') : t'.Inv := by
  obtain ⟨work, state, thread, accepted, ran⟩ := t
  obtain ⟨hjobs, hwait, hfinished, hexited⟩ := ht
  simp only at hjobs hwait hfinished hexited
  cases thread with
  | wait => cases h
  | exited => cases h
  | lock =>
      cases h
      exact ⟨hjobs, nofun, by simpa using hfinished, nofun⟩
  | woken =>
      cases h
      exact ⟨hjobs, nofun, by simpa using hfinished, nofun⟩
  | job j =>
      cases h
      refine ⟨?_, nofun, by simpa using hfinished, nofun⟩
      simpa [current] using hjobs
  | loop =>
      cases state with
      | finished => simp at hfinished
      | running =>
          cases work with
          | nil =>
              cases h
              exact ⟨hjobs, nofun, by simp, nofun⟩
          | cons j work =>
              cases h
              exact ⟨by simpa [current] using hjobs, nofun, by simp, nofun⟩
      | stopped =>
          cases work with
          | nil =>
              cases h
              exact ⟨hjobs, nofun, by simp, fun _ => rfl⟩
          | cons j work =>
              cases h
              exact ⟨by simpa [current] using hjobs, nofun, by simp, nofun⟩
  | test =>
      simp only [T.run] at h
      split_ifs at h with hempty
      · cases h
        rw [Bool.and_eq_true, List.isEmpty_iff, isRunning_iff] at hempty
        exact ⟨hjobs, fun _ => hempty, by simpa using hfinished, nofun⟩
      · cases h
        exact ⟨hjobs, nofun, by simpa using hfinished, nofun⟩

theorem Inv.addWork {t t' : T J} {j : J} (ht : t.Inv) (h : t.addWork j = .ok t') : t'.Inv := by
  unfold T.addWork at h
  split_ifs at h with hrunning
  · cases h
    have hstate := isRunning_iff.mp hrunning
    refine ⟨?_, fun hw => absurd hw (signal_ne_wait _), ?_, ?_⟩
    · simp only [signal_accepted, signal_ran, signal_current, signal_work]
      rw [ht.jobs, List.append_assoc _ _ [j]]
      rfl
    · rw [signal_exited, signal_state]
      exact ht.finished
    · intro hexited
      rw [signal_exited] at hexited
      have hfinished := ht.finished.mpr hexited
      rw [hstate] at hfinished
      cases hfinished

theorem Inv.stop {t : T J} (ht : t.Inv) : t.stop.Inv := by
  unfold T.stop
  split
  · rename_i hstate
    refine ⟨?_, fun hw => absurd hw (signal_ne_wait _), ?_, ?_⟩
    · simp only [signal_accepted, signal_ran, signal_current, signal_work]
      exact ht.jobs
    · rw [signal_exited, signal_state, ← ht.finished, hstate]
      simp
    · rw [signal_exited, signal_work]
      exact ht.exited
  · exact ht
  · exact ht

theorem Inv.step {t t' : T J} (ht : t.Inv) (h : Step t t') : t'.Inv := by
  cases h with
  | run h => exact ht.run h
  | spurious h =>
      have hfinished := ht.finished
      rw [h] at hfinished
      refine ⟨?_, nofun, by simpa using hfinished, nofun⟩
      have hjobs := ht.jobs
      rwa [current, h] at hjobs
  | addWork j hfree h => exact ht.addWork h
  | stop hfree => exact ht.stop

theorem inv_reachable {t : T J} (h : (system J).Reachable t) : t.Inv := by
  refine h.invariant ?_ fun _ _ _ ht hs => ht.step hs
  rintro t rfl
  exact inv_create

/-! ## The thread on its own -/

/-- What a thread that is left alone has still to do, counted in its steps. -/
def size (t : T J) : ℕ :=
  4 * t.work.length +
    match t.thread with
    | .wait | .exited => 0
    | .test => if t.work.isEmpty && t.isRunning then 1 else 3
    | .loop => 2
    | .lock => 3
    | .woken | .job _ => 4

theorem size_run {t t' : T J} (h : t.run = some t') : t'.size < t.size := by
  obtain ⟨work, state, thread, accepted, ran⟩ := t
  cases thread with
  | wait => cases h
  | exited => cases h
  | lock =>
      cases h
      simp [size]
  | woken =>
      cases h
      simp only [size]
      split_ifs <;> omega
  | job j =>
      cases h
      simp [size]
  | loop =>
      cases state with
      | finished =>
          cases h
          simp [size]
      | running =>
          cases work with
          | nil =>
              cases h
              simp [size, isRunning]
          | cons j work =>
              cases h
              simp only [size, List.length_cons]
              omega
      | stopped =>
          cases work with
          | nil =>
              cases h
              simp [size]
          | cons j work =>
              cases h
              simp only [size, List.length_cons]
              omega
  | test =>
      simp only [run] at h
      split_ifs at h with hempty
      · cases h
        simp [size, hempty]
      · cases h
        simp [size, hempty]

theorem run_accepted {t t' : T J} (h : t.run = some t') :
    t'.accepted = t.accepted ∧ (t'.state = .running ↔ t.state = .running) := by
  obtain ⟨work, state, thread, accepted, ran⟩ := t
  cases thread with
  | loop => cases state <;> cases work <;> cases h <;> simp
  | test =>
      simp only [run] at h
      split_ifs at h <;> cases h <;> simp
  | _ => cases h <;> simp

/-- Whatever happens, no job is accepted once the worker has been told to stop. -/
theorem step_stopped {t t' : T J} (h : t.state ≠ .running) (hs : Step t t') :
    t'.state ≠ .running ∧ t'.accepted = t.accepted := by
  cases hs with
  | run hr =>
      have ht := run_accepted hr
      exact ⟨fun h' => h (ht.2.mp h'), ht.1⟩
  | spurious hw => exact ⟨h, rfl⟩
  | addWork j hfree ha =>
      rw [T.addWork, if_neg fun hr => h (isRunning_iff.mp hr)] at ha
      cases ha
  | stop hfree =>
      have hstop : t.stop = t := by
        unfold T.stop
        split
        · contradiction
        · rfl
        · rfl
      rw [hstop]
      exact ⟨h, rfl⟩

theorem run_eq_none {t : T J} (h : t.run = none) : t.thread = .wait ∨ t.thread = .exited := by
  obtain ⟨work, state, thread, accepted, ran⟩ := t
  cases thread with
  | wait => exact Or.inl rfl
  | exited => exact Or.inr rfl
  | loop => cases state <;> cases work <;> cases h
  | test =>
      simp only [run] at h
      split_ifs at h
  | _ => cases h

theorem Inv.idle_wait {t : T J} (ht : t.Inv) (hw : t.thread = .wait) :
    t.ran = t.accepted ∧ t.state = .running := by
  have hjobs := ht.jobs
  rw [current, hw, (ht.wait hw).1, List.append_nil, List.append_nil] at hjobs
  exact ⟨hjobs.symm, (ht.wait hw).2⟩

theorem Inv.idle_exited {t : T J} (ht : t.Inv) (he : t.thread = .exited) :
    t.ran = t.accepted ∧ t.state = .finished := by
  have hjobs := ht.jobs
  rw [current, he, ht.exited he, List.append_nil, List.append_nil] at hjobs
  exact ⟨hjobs.symm, ht.finished.mpr he⟩

theorem Inv.run_alone {t t' : T J} (ht : t.Inv)
    (hrun : Relation.ReflTransGen (fun a b => a.run = some b) t t') :
    t'.Inv ∧ t'.accepted = t.accepted ∧ (t'.state = .running ↔ t.state = .running) := by
  induction hrun with
  | refl => exact ⟨ht, rfl, Iff.rfl⟩
  | tail _ hs ih =>
      have hacc := run_accepted hs
      exact ⟨ih.1.run hs, hacc.1.trans ih.2.1, hacc.2.trans ih.2.2⟩

/-- In every run of a worker, the jobs that were accepted are run one after
the other, each once and in their order, and none is left to a thread that
sleeps or has exited. Left alone, the thread runs all of them, and then waits
for more or, once the worker has been stopped, finishes; a stopped worker
accepts no job any more. -/
theorem jobs_run {t : T J} (h : (system J).Reachable t) :
    t.accepted = t.ran ++ t.current ++ t.work ∧
    (t.thread = .wait → t.ran = t.accepted ∧ t.state = .running) ∧
    (t.thread = .exited → t.ran = t.accepted ∧ t.state = .finished) ∧
    (∃ t', Relation.ReflTransGen (fun a b => a.run = some b) t t' ∧ t'.ran = t.accepted ∧
      (t.state = .running → t'.thread = .wait ∧ t'.state = .running) ∧
      (t.state ≠ .running → t'.thread = .exited ∧ t'.state = .finished)) ∧
    (t.state ≠ .running → ∀ t', Relation.ReflTransGen Step t t' → t'.accepted = t.accepted) := by
  have ht := inv_reachable h
  refine ⟨ht.jobs, ht.idle_wait, ht.idle_exited, ?_, fun hstop t' hrun => ?_⟩
  · obtain ⟨t', hrun, hhalt⟩ := System.exists_halted size (fun _ _ => size_run) t
    obtain ⟨ht', hacc, hstate⟩ := ht.run_alone hrun
    refine ⟨t', hrun, ?_⟩
    rcases run_eq_none hhalt with hw | he
    · have hidle := ht'.idle_wait hw
      exact ⟨hidle.1.trans hacc, fun _ => ⟨hw, hidle.2⟩,
        fun hstop => absurd (hstate.mp hidle.2) hstop⟩
    · have hidle := ht'.idle_exited he
      refine ⟨hidle.1.trans hacc, fun hrunning => ?_, fun _ => ⟨he, hidle.2⟩⟩
      rw [hstate.mpr hrunning] at hidle
      cases hidle.2
  · have hkept := System.persists (S := system J)
      (Q := fun s => s.state ≠ .running ∧ s.accepted = t.accepted)
      (fun _ _ hs hstep => ⟨(step_stopped hs.1 hstep).1, (step_stopped hs.1 hstep).2.trans hs.2⟩)
      ⟨hstop, rfl⟩ hrun
    exact hkept.2

/-- A worker that is stopped with a job in its queue. -/
theorem jobs_run_sample : ∃ t t' : T ℕ, (system ℕ).Reachable t ∧ t.state = .stopped ∧
    t.work = [5] ∧ t'.ran = [5] ∧ t'.thread = .exited := by
  have h₀ : (system ℕ).Reachable create := .init rfl
  have hfree : ¬ (create : T ℕ).Holds := by
    rintro (h | h) <;> cases h
  have h₁ := h₀.step (.addWork 5 hfree rfl)
  have hfree₁ : ¬ ({ (create : T ℕ) with work := [5], accepted := [5] }).Holds := by
    rintro (h | h) <;> cases h
  have h₂ := h₁.step (.stop hfree₁)
  obtain ⟨t', -, hran, -, hexited⟩ := (jobs_run h₂).2.2.2.1
  exact ⟨_, t', h₂, rfl, rfl, hran, (hexited nofun).1⟩

end T

end Csexp.ThreadWorker

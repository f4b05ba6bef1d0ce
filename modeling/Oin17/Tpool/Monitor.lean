import Mathlib.Data.Fintype.Option
import Oin17.Tpool.Workers
import Oin17.Utils.Futex.Calls

namespace Oin17.Tpool
open Dialogue Function Run Utils

/-- Where `thread_main` is. -/
inductive Stage where
  /-- Before `mutex_lock`. -/
  | top
  /-- In `mutex_lock` or `cond_wait`, and then at `0 == th->canrun`. -/
  | testing
  /-- At `th->running = 0`, in the `cond_signal` after it, and before `cond_wait`. -/
  | parking
  | parked
  /-- At `th->running = 1`, in the `cond_signal` after it, and before `mutex_unlock`. -/
  | going
  | gone
  /-- In `mutex_unlock`, and then at `th->pool` of `th->pool->func`. -/
  | calling
  /-- At `func` of pool `p`. -/
  | fetching (p : Nat)
  /-- At `th->pool` of `th->pool->arg`. -/
  | arguing (func : Addr)
  /-- At `arg` of pool `p`. -/
  | loading (func : Addr) (p : Nat)
  | exec (p : Nat) (func arg : Addr)

/-- In `thread_main`, past the lock. -/
def Stage.out : Stage → Bool
  | .gone | .calling | .fetching _ | .arguing _ | .loading _ _ | .exec _ _ _ => true
  | .top | .testing | .parking | .parked | .going => false

/-- Where the controlling thread is: out of the calls, between two requests of a call, or
in a request to thread `t`, of `thread_start` if `b` and of `thread_stop` if not. -/
inductive Phase where
  | idle
  | asking (c : Call) (p : Prog Req Bool Vars Int)
  /-- In `mutex_lock`, and then at `th->canrun = b`. -/
  | locking (c : Call) (t : Nat) (b : Bool) (k : Bool → Prog Req Bool Vars Int)
  /-- In `cond_signal` or `cond_wait`, or in neither, and then at the test of `th->running`. -/
  | testing (c : Call) (t : Nat) (b : Bool) (k : Bool → Prog Req Bool Vars Int)
  /-- In `mutex_unlock`, and then on with the call. -/
  | leaving (c : Call) (t : Nat) (b : Bool) (p : Prog Req Bool Vars Int)

/-- The threads `some t` with the controlling thread `none`, and what they share. The mutex and
the condition variable of thread `t` are number `t`. -/
structure Machine (n : Nat) where
  vars : Vars
  flags : Flags
  stage : Fin n → Stage
  phase : Phase
  fx : Futex.State (Option (Fin n))

/-- A step of the controlling thread or of a thread outside of the futex module, which
accesses a flag at most once, or a step inside of that module. The controlling thread writes
to the variables once it goes on to its next request. -/
inductive Move (n : Nat) where
  | invoke (c : Call)
  | main
  | work (t : Fin n)
  | run (u : Option (Fin n))
  | wake (u : Option (Fin n)) (v : Option (Option (Fin n)))
  | spurious (u : Option (Fin n))

/-- A step inside of the futex module. -/
def Move.futex {n : Nat} : Move n → Option (Futex.Act (Option (Fin n)))
  | .run u => some (.run u)
  | .wake u v => some (.wake u v)
  | .spurious u => some (.spurious u)
  | _ => none

section
variable {n : Nat}

/-- A call of the futex module. -/
def Machine.enter (s : Machine n) (u : Option (Fin n)) (op : Futex.Op) : Option (Machine n) :=
  (Futex.step s.fx (.call u op)).map fun fx => { s with fx := fx }

def Machine.at (s : Machine n) (t : Fin n) (g : Stage) : Machine n :=
  { s with stage := update s.stage t g }

def Machine.setCanrun (s : Machine n) (t : Nat) (b : Bool) : Machine n :=
  { s with flags := { s.flags with canrun := update s.flags.canrun t b } }

def Machine.setRunning (s : Machine n) (t : Nat) (b : Bool) : Machine n :=
  { s with flags := { s.flags with running := update s.flags.running t b } }

/-- The controlling thread goes on to its next request. -/
def Machine.resume (s : Machine n) (c : Call) : Prog Req Bool Vars Int → Option (Machine n)
  | .done r v => some { s with vars := v, phase := .asking c (.done r v) }
  | .crash => none
  | .ask r v k => some { s with vars := v, phase := .asking c (.ask r v k) }

/-- A step of the controlling thread. -/
def Machine.main (s : Machine n) : Option (Machine n) :=
  match s.phase with
  | .idle => none
  | .asking _ (.done _ _) => some { s with phase := .idle }
  | .asking _ .crash => none
  | .asking c (.ask (.running t) _ k) => s.resume c (k (s.flags.running t))
  | .asking c (.ask (.set t b) _ k) => { s with phase := .locking c t b k }.enter none (.lock t)
  | .locking c t b k =>
    let s := { s.setCanrun t b with phase := .testing c t b k }
    if b then s.enter none (.signal t) else some s
  | .testing c t b k =>
    if s.flags.running t = b then { s with phase := .leaving c t b (k b) }.enter none (.unlock t)
    else s.enter none (.wait t t)
  | .leaving c _ _ p => s.resume c p

/-- A step of thread `t`. -/
def Machine.work (s : Machine n) (t : Fin n) : Option (Machine n) :=
  match s.stage t with
  | .top => (s.at t .testing).enter (some t) (.lock t)
  | .testing => some (s.at t (if s.flags.canrun t then .going else .parking))
  | .parking =>
    ((s.setRunning t false).at t .parked).enter (some t) (.signal t)
  | .parked => (s.at t .testing).enter (some t) (.wait t t)
  | .going =>
    ((s.setRunning t true).at t .gone).enter (some t) (.signal t)
  | .gone => (s.at t .calling).enter (some t) (.unlock t)
  | .calling => (s.vars.pool t).map fun p => s.at t (.fetching p)
  | .fetching p => some (s.at t (.arguing (s.vars.pools p).func))
  | .arguing f => (s.vars.pool t).map fun p => s.at t (.loading f p)
  | .loading f p => some (s.at t (.exec p f (s.vars.pools p).arg))
  | .exec _ _ _ => some (s.at t .top)

/-- A thread goes on outside of the futex module once its call of it has returned. -/
def Machine.outside (s : Machine n) (u : Option (Fin n)) : Bool :=
  match s.fx.pc u with
  | .out _ => true
  | _ => false

def Machine.inside (s : Machine n) (a : Futex.Act (Option (Fin n))) : Option (Machine n) :=
  (Futex.step s.fx a).map fun fx => { s with fx := fx }

end

def machineStep (npools : UInt64) (s : Machine npools.toNat) :
    Move npools.toNat → Option (Machine npools.toNat)
  | .invoke c =>
    match s.phase with
    | .idle => s.resume c (c.code npools s.vars)
    | _ => none
  | .main => if s.outside none then s.main else none
  | .work t => if s.outside (some t) then s.work t else none
  | .run u => s.inside (.run u)
  | .wake u v => s.inside (.wake u v)
  | .spurious u => s.inside (.spurious u)

/-- The threads are created and no call has been made. -/
def Machine.init (n : Nat) : Machine n where
  vars := Tpool.init.1
  flags := Tpool.init.2
  stage _ := .top
  phase := .idle
  fx := Futex.init _

/-- The controlling thread waits for the thread that it has started. -/
def asked : List (Move 2) :=
  [.invoke (.start 1 7 8), .main, .main, .run none, .main, .run none, .wake none none, .main] ++
    List.replicate 7 (.run none)

/-- Then both of them go on, and the call returns while the function is called again. -/
def answered : List (Move 2) :=
  [.work 0, .run (some 0), .work 0, .work 0, .run (some 0), .wake (some 0) (some none), .work 0,
    .run (some 0), .run (some 0), .run none, .main, .run none, .run none, .work 0, .work 0,
    .work 0, .work 0, .work 0, .work 0, .run (some 0), .run none, .main, .main]

/-- The thread is stopped after its third call of the function. -/
def halted : List (Move 2) :=
  [.work 0, .work 0, .run (some 0), .wake (some 0) none, .work 0, .run (some 0), .run (some 0),
    .invoke (.stop 0), .main, .run none, .run (some 0), .main, .main, .run none, .run none,
    .run none, .run none, .work 0, .work 0, .work 0, .work 0, .work 0, .work 0, .run (some 0),
    .run none, .run none, .work 0, .work 0, .run (some 0), .wake (some 0) (some none), .run none,
    .work 0, .run (some 0), .run (some 0), .run (some 0), .run (some 0), .run none, .run none,
    .main]

/-- The steps by what happens in them. -/
inductive Turn (npools : UInt64) (s : Machine npools.toNat) :
    Move npools.toNat → Machine npools.toNat → Prop where
  | invoke (hp : s.phase = .idle) (hv : Shows (c.code npools s.vars) v) :
      Turn npools s (.invoke c) { s with vars := v, phase := .asking c (c.code npools s.vars) }
  | ret (hp : s.phase = .asking c (.done r v)) (ho : s.outside none = true) :
      Turn npools s .main { s with phase := .idle }
  | look (hp : s.phase = .asking c (.ask (.running t) v k)) (ho : s.outside none = true)
      (hv : Shows (k (s.flags.running t)) w) :
      Turn npools s .main { s with vars := w, phase := .asking c (k (s.flags.running t)) }
  | lock (hp : s.phase = .asking c (.ask (.set t b) v k))
      (hs : Futex.step s.fx (.call none (.lock t)) = some fx) :
      Turn npools s .main { s with phase := .locking c t b k, fx := fx }
  | start (hp : s.phase = .locking c t true k)
      (hs : Futex.step s.fx (.call none (.signal t)) = some fx) :
      Turn npools s .main { s.setCanrun t true with phase := .testing c t true k, fx := fx }
  | stop (hp : s.phase = .locking c t false k) (ho : s.outside none = true) :
      Turn npools s .main { s.setCanrun t false with phase := .testing c t false k }
  | leave (hp : s.phase = .testing c t b k) (hr : s.flags.running t = b)
      (hs : Futex.step s.fx (.call none (.unlock t)) = some fx) :
      Turn npools s .main { s with phase := .leaving c t b (k b), fx := fx }
  | wait (hp : s.phase = .testing c t b k) (hr : s.flags.running t ≠ b)
      (hs : Futex.step s.fx (.call none (.wait t t)) = some fx) :
      Turn npools s .main { s with fx := fx }
  | resume (hp : s.phase = .leaving c t b p) (ho : s.outside none = true) (hv : Shows p v) :
      Turn npools s .main { s with vars := v, phase := .asking c p }
  | top {t : Fin npools.toNat} (hg : s.stage t = .top)
      (hs : Futex.step s.fx (.call (some t) (.lock t)) = some fx) :
      Turn npools s (.work t) { s.at t .testing with fx := fx }
  | test {t : Fin npools.toNat} (hg : s.stage t = .testing) (ho : s.outside (some t) = true) :
      Turn npools s (.work t) (s.at t (if s.flags.canrun t then .going else .parking))
  | park {t : Fin npools.toNat} (hg : s.stage t = .parking)
      (hs : Futex.step s.fx (.call (some t) (.signal t)) = some fx) :
      Turn npools s (.work t) { (s.setRunning t false).at t .parked with fx := fx }
  | parked {t : Fin npools.toNat} (hg : s.stage t = .parked)
      (hs : Futex.step s.fx (.call (some t) (.wait t t)) = some fx) :
      Turn npools s (.work t) { s.at t .testing with fx := fx }
  | go {t : Fin npools.toNat} (hg : s.stage t = .going)
      (hs : Futex.step s.fx (.call (some t) (.signal t)) = some fx) :
      Turn npools s (.work t) { (s.setRunning t true).at t .gone with fx := fx }
  | gone {t : Fin npools.toNat} (hg : s.stage t = .gone)
      (hs : Futex.step s.fx (.call (some t) (.unlock t)) = some fx) :
      Turn npools s (.work t) { s.at t .calling with fx := fx }
  | call {t : Fin npools.toNat} (hg : s.stage t = .calling) (ho : s.outside (some t) = true)
      (hp : s.vars.pool t = some p) : Turn npools s (.work t) (s.at t (.fetching p))
  | fetch {t : Fin npools.toNat} (hg : s.stage t = .fetching p)
      (ho : s.outside (some t) = true) :
      Turn npools s (.work t) (s.at t (.arguing (s.vars.pools p).func))
  | argue {t : Fin npools.toNat} (hg : s.stage t = .arguing f) (ho : s.outside (some t) = true)
      (hp : s.vars.pool t = some p) : Turn npools s (.work t) (s.at t (.loading f p))
  | load {t : Fin npools.toNat} (hg : s.stage t = .loading f p)
      (ho : s.outside (some t) = true) :
      Turn npools s (.work t) (s.at t (.exec p f (s.vars.pools p).arg))
  | done {t : Fin npools.toNat} (hg : s.stage t = .exec p f a) (ho : s.outside (some t) = true) :
      Turn npools s (.work t) (s.at t .top)
  | inside (hm : m.futex = some a) (hs : Futex.step s.fx a = some fx) :
      Turn npools s m { s with fx := fx }

theorem resume_cases {n : Nat} {s s' : Machine n} {p : Prog Req Bool Vars Int}
    (h : s.resume c p = some s') :
    ∃ v, Shows p v ∧ s' = { s with vars := v, phase := .asking c p } := by
  cases p with
  | crash => cases h
  | done r v =>
    cases h
    exact ⟨v, rfl, rfl⟩
  | ask r v k =>
    cases h
    exact ⟨v, rfl, rfl⟩

theorem enter_some {n : Nat} {s s' : Machine n} {u : Option (Fin n)} {op : Futex.Op}
    (h : s.enter u op = some s') :
    ∃ fx, Futex.step s.fx (.call u op) = some fx ∧ s' = { s with fx := fx } := by
  obtain ⟨fx, hs, rfl⟩ := Option.map_eq_some_iff.mp h
  exact ⟨fx, hs, rfl⟩

section
variable {npools : UInt64} {s s' : Machine npools.toNat}

theorem main_turn (ho : s.outside none = true) (h : s.main = some s') : Turn npools s .main s' := by
  rw [Machine.main] at h
  split at h
  · cases h
  · rename_i hp
    cases h
    exact .ret hp ho
  · cases h
  · rename_i hp
    obtain ⟨w, hw, rfl⟩ := resume_cases h
    exact .look hp ho hw
  · rename_i hp
    obtain ⟨fx, hs, rfl⟩ := enter_some h
    exact .lock hp hs
  · rename_i c t b k hp
    cases b with
    | true =>
      obtain ⟨fx, hs, rfl⟩ := enter_some h
      exact .start hp hs
    | false =>
      cases h
      exact .stop hp ho
  · rename_i hp
    split at h
    · rename_i hr
      obtain ⟨fx, hs, rfl⟩ := enter_some h
      exact .leave hp hr hs
    · rename_i hr
      obtain ⟨fx, hs, rfl⟩ := enter_some h
      exact .wait hp hr hs
  · rename_i hp
    obtain ⟨v, hv, rfl⟩ := resume_cases h
    exact .resume hp ho hv

theorem work_turn {t : Fin npools.toNat} (ho : s.outside (some t) = true)
    (h : s.work t = some s') : Turn npools s (.work t) s' := by
  rw [Machine.work] at h
  split at h
  · rename_i hg
    obtain ⟨fx, hs, rfl⟩ := enter_some h
    exact .top hg hs
  · rename_i hg
    cases h
    exact .test hg ho
  · rename_i hg
    obtain ⟨fx, hs, rfl⟩ := enter_some h
    exact .park hg hs
  · rename_i hg
    obtain ⟨fx, hs, rfl⟩ := enter_some h
    exact .parked hg hs
  · rename_i hg
    obtain ⟨fx, hs, rfl⟩ := enter_some h
    exact .go hg hs
  · rename_i hg
    obtain ⟨fx, hs, rfl⟩ := enter_some h
    exact .gone hg hs
  · rename_i hg
    obtain ⟨p, hp, rfl⟩ := Option.map_eq_some_iff.mp h
    exact .call hg ho hp
  · rename_i hg
    cases h
    exact .fetch hg ho
  · rename_i hg
    obtain ⟨p, hp, rfl⟩ := Option.map_eq_some_iff.mp h
    exact .argue hg ho hp
  · rename_i hg
    cases h
    exact .load hg ho
  · rename_i hg
    cases h
    exact .done hg ho

theorem turn {m : Move npools.toNat} (h : machineStep npools s m = some s') :
    Turn npools s m s' := by
  cases m with
  | invoke c =>
    rw [machineStep] at h
    split at h
    · rename_i hp
      obtain ⟨v, hv, rfl⟩ := resume_cases h
      exact .invoke hp hv
    · cases h
  | main =>
    rw [machineStep] at h
    split at h
    · rename_i ho
      exact main_turn ho h
    · cases h
  | work t =>
    rw [machineStep] at h
    split at h
    · rename_i ho
      exact work_turn ho h
    · cases h
  | run u =>
    obtain ⟨fx, hs, rfl⟩ := Option.map_eq_some_iff.mp h
    exact .inside (a := .run u) rfl hs
  | wake u v =>
    obtain ⟨fx, hs, rfl⟩ := Option.map_eq_some_iff.mp h
    exact .inside (a := .wake u v) rfl hs
  | spurious u =>
    obtain ⟨fx, hs, rfl⟩ := Option.map_eq_some_iff.mp h
    exact .inside (a := .spurious u) rfl hs

end

end Oin17.Tpool

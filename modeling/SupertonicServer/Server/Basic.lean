import SupertonicServer.Pool.Exclusive
import SupertonicServer.Session.Shape

/-!
# The server

One `WorkerPool` and any number of connections, each with its own `Session` and receive loop.
A session that has not been opened yet is one that has taken no step. A step of the server is
a step of one session, which may call the pool, or one of the executor.
-/

namespace SupertonicServer

open Audio (AudioOps)
open Pool
open Lib (run)

variable {F : Type}

structure Server (F : Type) where
  pool : WorkerPool F
  sessions : Nat → Session F

def Server.init (F : Type) (n : ℕ+) : Server F :=
  { pool := WorkerPool.started F n, sessions := fun _ => Session.init F }

inductive ServerAct (F : Type) where
  | sess (sid : Nat) (a : Action)
  | exec (e : ExecAct F)

def Server.step (ops : AudioOps F) (s : Server F) : ServerAct F → Option (Server F)
  | .sess sid a =>
    ((s.sessions sid).step ops s.pool sid a).map fun r =>
      { pool := s.pool.calls r.2, sessions := Function.update s.sessions sid r.1 }
  | .exec e => (s.pool.exec e).map fun p => { s with pool := p }

variable {ops : AudioOps F}

/-- A step of the server, written out. -/
theorem server_step_cases {s s' : Server F} {a : ServerAct F} (h : s.step ops a = some s') :
    (∃ sid act r, a = .sess sid act ∧ (s.sessions sid).step ops s.pool sid act = some r ∧
      s' = { pool := s.pool.calls r.2, sessions := Function.update s.sessions sid r.1 }) ∨
    (∃ e p, a = .exec e ∧ s.pool.exec e = some p ∧ s' = { s with pool := p }) := by
  cases a with
  | sess sid act =>
    obtain ⟨r, hr, rfl⟩ := Option.map_eq_some_iff.mp h
    exact Or.inl ⟨sid, act, r, rfl, hr, rfl⟩
  | exec e =>
    obtain ⟨p, hp, rfl⟩ := Option.map_eq_some_iff.mp h
    exact Or.inr ⟨e, p, rfl, hp, rfl⟩

/-- A step that is not one of the session leaves it as it is. -/
theorem step_idle {s s' : Server F} {a : ServerAct F} {sid : Nat}
    (hidle : ∀ act, a ≠ .sess sid act) (h : s.step ops a = some s') :
    s'.sessions sid = s.sessions sid := by
  rcases server_step_cases h with ⟨sid', act, r, rfl, -, rfl⟩ | ⟨e, p, -, -, rfl⟩
  · refine Function.update_of_ne ?_ ..
    rintro rfl
    exact hidle act rfl
  · rfl

theorem run_idle {s s' : Server F} {acts : List (ServerAct F)} {sid : Nat}
    (hidle : ∀ act, ServerAct.sess sid act ∉ acts)
    (hrun : run (Server.step ops) s acts = some s') : s'.sessions sid = s.sessions sid := by
  induction acts generalizing s with
  | nil =>
    cases hrun
    rfl
  | cons a acts ih =>
    obtain ⟨t, ht, hrest⟩ := Lib.run_cons_some.mp hrun
    rw [ih (fun act hact => hidle act (List.mem_cons_of_mem _ hact)) hrest]
    exact step_idle (fun act ha => hidle act (by rw [ha]; exact List.mem_cons_self)) ht

/-! ## What every server keeps -/

/-- The pool has started and every session is well formed. -/
structure Server.Wf (s : Server F) : Prop where
  ready : s.pool.ready = true
  sessions : ∀ sid, (s.sessions sid).Wf

theorem init_serverWf (n : ℕ+) : (Server.init F n).Wf :=
  ⟨rfl, fun _ => init_wf⟩

/-- A step of a session of the server is a move. -/
theorem server_move {s : Server F} (h : s.Wf) {sid : Nat} {act : Action}
    {r : Session F × List PoolCall} (hr : (s.sessions sid).step ops s.pool sid act = some r) :
    Move ops (fun _ _ _ => True) s.pool sid (s.sessions sid) r.1 r.2 :=
  step_move h.ready (fun _ _ _ _ _ _ _ => trivial) hr

/-- A step of the server is a move of each of its sessions. -/
theorem step_session {s s' : Server F} {a : ServerAct F} (h : s.Wf)
    (hstep : s.step ops a = some s') (sid : Nat) :
    ∃ calls, Move ops (fun _ _ _ => True) s.pool sid (s.sessions sid) (s'.sessions sid) calls := by
  rcases server_step_cases hstep with ⟨sid', act, r, -, hr, rfl⟩ | ⟨e, p, -, -, rfl⟩
  · show ∃ calls, Move ops _ s.pool sid (s.sessions sid)
      (Function.update s.sessions sid' r.1 sid) calls
    by_cases hs : sid = sid'
    · subst hs
      rw [Function.update_self]
      exact ⟨r.2, server_move h hr⟩
    · rw [Function.update_of_ne hs]
      exact ⟨[], .stay⟩
  · exact ⟨[], .stay⟩

theorem step_serverWf {s s' : Server F} {a : ServerAct F} (h : s.Wf)
    (hstep : s.step ops a = some s') : s'.Wf := by
  constructor
  · rcases server_step_cases hstep with ⟨sid, act, r, -, -, rfl⟩ | ⟨e, p, -, he, rfl⟩
    · exact (calls_ready _ _).trans h.ready
    · exact (exec_ready he).trans h.ready
  · intro sid
    obtain ⟨calls, hmove⟩ := step_session h hstep sid
    exact hmove.wf (h.sessions sid)

/-- A closed connection stays closed. -/
theorem step_closed {s s' : Server F} {a : ServerAct F} (hwf : s.Wf)
    (hstep : s.step ops a = some s') {sid : Nat} (hclosed : (s.sessions sid).closed = true) :
    (s'.sessions sid).closed = true := by
  obtain ⟨calls, hmove⟩ := step_session hwf hstep sid
  exact hmove.closed hclosed

end SupertonicServer

import SupertonicServer.Session.Steps

/-!
# Well-formed sessions

What ties the table of a session, its contexts, its history and its receive loop together in
every state it can reach, whatever pool it runs on.
-/

namespace SupertonicServer

open Coalescer (Chunk)
open Wire (IncomingText)
open Audio (AudioOps)
open Pool

variable {F : Type}

/-- What ties the table of a session, its history and its receive loop together. -/
structure Session.Wf (s : Session F) : Prop where
  ids : ∀ c ctx, s.objs c = some ctx → ctx.contextId = c
  table : ∀ c ∈ s.contexts, s.objs c ≠ none
  complete : s.closed = false → ∀ c, s.objs c ≠ none → c ∈ s.contexts
  trace : ∀ e ∈ s.trace, ∀ c, e.contextId? = some c → s.objs c ≠ none
  closes : ∀ c, .closing c ∈ s.trace → s.closed = true
  awaited : ∀ c rest, s.recv = .closing c rest →
    s.closed = true ∧ .closing c ∈ s.trace ∧ ∀ d ∈ c :: rest, s.objs d ≠ none

theorem init_wf : (Session.init F).Wf :=
  { ids := fun c ctx h => absurd h (by simp [Session.init])
    table := fun c hc => absurd hc List.not_mem_nil
    complete := fun _ c hc => absurd rfl hc
    trace := fun e he => absurd he List.not_mem_nil
    closes := fun c hc => absurd hc List.not_mem_nil
    awaited := fun c rest h => absurd h (by simp [Session.init]) }

/-- In an open session the table holds every context there is. -/
theorem get?_eq {s : Session F} (h : s.Wf) (hopen : s.closed = false) (c : String) :
    s.get? c = s.objs c := by
  unfold Session.get?
  split
  next => rfl
  next hc =>
    by_contra hne
    exact hc (h.complete hopen c (fun h => hne h.symm))

theorem objs_of_get? {s : Session F} {c : String} {ctx : Context} (h : s.get? c = some ctx) :
    s.objs c = some ctx := by
  unfold Session.get? at h
  split at h
  next => exact h
  next => exact absurd h (by simp)

theorem withContext_objs_ne_none {s : Session F} {c d : String} (ctx : Context)
    (evs : List (Event F)) (h : s.objs d ≠ none) : (s.withContext c ctx evs).objs d ≠ none := by
  by_cases hd : d = c
  · rw [hd, withContext_objs_self]
    simp
  · rwa [withContext_objs_ne s ctx evs hd]

/-- A context of the session changes or enters the table, and events of its own are
recorded. -/
theorem Session.Wf.withContext {s : Session F} (h : s.Wf) {c : String} {ctx : Context}
    {evs : List (Event F)} {table : List String}
    (htable : ∀ d, d ∈ table ↔ d ∈ s.contexts ∨ (d = c ∧ s.closed = false))
    (hid : ctx.contextId = c) (hevs : ∀ e ∈ evs, e.contextId? = some c)
    (hclosing : ∀ d, .closing d ∈ evs → s.closed = true) :
    (Session.withContext { s with contexts := table } c ctx evs).Wf where
  ids d ctx₁ hd := by
    rcases update_some_cases hd with ⟨rfl, rfl⟩ | ⟨-, hd⟩
    · exact hid
    · exact h.ids d ctx₁ hd
  table d hd := by
    rcases (htable d).mp hd with hd | ⟨rfl, -⟩
    · exact withContext_objs_ne_none ctx evs (h.table d hd)
    · rw [withContext_objs_self]
      simp
  complete hopen d hd := by
    refine (htable d).mpr ?_
    by_cases hdc : d = c
    · exact Or.inr ⟨hdc, hopen⟩
    · rw [withContext_objs_ne _ _ _ hdc] at hd
      exact Or.inl (h.complete hopen d hd)
  trace e he d hd := by
    rcases List.mem_append.mp he with he | he
    · exact withContext_objs_ne_none ctx evs (h.trace e he d hd)
    · obtain rfl : c = d := Option.some.inj ((hevs e he).symm.trans hd)
      rw [withContext_objs_self]
      simp
  closes d hd := (List.mem_append.mp hd).elim (h.closes d) (hclosing d)
  awaited d rest hrecv := by
    obtain ⟨hclosed, hmem, hrest⟩ := h.awaited d rest hrecv
    exact ⟨hclosed, List.mem_append_left _ hmem,
      fun x hx => withContext_objs_ne_none ctx evs (hrest x hx)⟩

/-- The same for a context the session already has. -/
theorem Session.Wf.update {s : Session F} (h : s.Wf) {c : String} {ctx : Context}
    {evs : List (Event F)} (hc : s.objs c ≠ none) (hid : ctx.contextId = c)
    (hevs : ∀ e ∈ evs, e.contextId? = some c)
    (hclosing : ∀ d, .closing d ∈ evs → s.closed = true) : (s.withContext c ctx evs).Wf := by
  refine h.withContext (fun d => ⟨Or.inl, ?_⟩) hid hevs hclosing
  intro hin
  rcases hin with hd | ⟨rfl, hopen⟩
  · exact hd
  · exact h.complete hopen d hc

/-- A receive loop that serves its client has not come to `close`. -/
theorem not_closing_of_serving {recv : RecvPc}
    (h : recv = .listening ∨ ∃ reason, recv = .sendingError reason) :
    (∀ c rest, recv ≠ .closing c rest) ∧ recv ≠ .closed := by
  rcases h with rfl | ⟨reason, rfl⟩ <;> simp

/-- The receive loop moves, and events of no context are recorded. -/
theorem Session.Wf.quiet {s : Session F} (h : s.Wf) {recv : RecvPc} {evs : List (Event F)}
    (hrecv : ∀ c rest, recv ≠ .closing c rest) (hevs : ∀ e ∈ evs, e.contextId? = none) :
    Session.Wf { s with recv := recv, trace := s.trace ++ evs } where
  ids := h.ids
  table := h.table
  complete := h.complete
  trace e he c hc := by
    rcases List.mem_append.mp he with he | he
    · exact h.trace e he c hc
    · exact absurd hc (by rw [hevs e he]; simp)
  closes c hc := by
    rcases List.mem_append.mp hc with hc | hc
    · exact h.closes c hc
    · exact absurd (hevs _ hc) (by simp [Event.contextId?])
  awaited c rest hclosing := absurd hclosing (hrecv c rest)

theorem Session.Wf.markClosed {s : Session F} (h : s.Wf) :
    Session.Wf { s with closed := true } where
  ids := h.ids
  table := h.table
  complete hopen := absurd hopen (by simp)
  trace := h.trace
  closes _ _ := rfl
  awaited c rest hrecv := ⟨rfl, (h.awaited c rest hrecv).2⟩

/-- `close` goes on with the contexts `todo`. -/
theorem Session.Wf.visit {s : Session F} (h : s.Wf) (hclosed : s.closed = true)
    {todo : List String} (htodo : ∀ d ∈ todo, s.objs d ≠ none) : (s.visit todo).1.Wf := by
  cases todo with
  | nil =>
    exact {
      ids := h.ids
      table := fun c hc => absurd hc List.not_mem_nil
      complete := fun hopen => absurd hopen (by simp [Session.visit, hclosed])
      trace := h.trace
      closes := h.closes
      awaited := fun c rest hrecv => absurd hrecv (by simp [Session.visit]) }
  | cons c rest =>
    obtain ⟨ctx, hctx⟩ := Option.ne_none_iff_exists'.mp (htodo c List.mem_cons_self)
    have hupd : (s.withContext c { ctx with queue := ctx.queue ++ [none] }
        [.closing c, .put c none]).Wf :=
      h.update (htodo c List.mem_cons_self) (h.ids c ctx hctx) (by simp [Event.contextId?])
        (fun _ _ => hclosed)
    simp only [Session.visit, hctx]
    exact {
      ids := hupd.ids
      table := hupd.table
      complete := hupd.complete
      trace := hupd.trace
      closes := hupd.closes
      awaited := fun d rest' hrecv => by
        obtain ⟨rfl, rfl⟩ := RecvPc.closing.inj hrecv
        exact ⟨hclosed, by simp, fun x hx => withContext_objs_ne_none _ _ (htodo x hx)⟩ }

theorem textEvents_contextId (ctx : Context) (msg : IncomingText) :
    ∀ e ∈ textEvents (F := F) ctx msg, e.contextId? = some msg.contextId := by
  intro e he
  rcases List.mem_cons.mp he with rfl | he
  · rfl
  · obtain ⟨item, -, rfl⟩ := List.mem_map.mp he
    rfl

theorem closing_notMem_textEvents (ctx : Context) (msg : IncomingText) (c : String) :
    Event.closing c ∉ textEvents (F := F) ctx msg := by
  simp [textEvents]

/-- Every move keeps a session well formed. -/
theorem Move.wf {ops : AudioOps F} {Res : Chunk → String → Outcome F → Prop}
    {p : WorkerPool F} {sid : Nat} {s s' : Session F} {calls : List PoolCall}
    (h : Move ops Res p sid s s' calls) (hwf : s.Wf) : s'.Wf := by
  cases h with
  | stay => exact hwf
  | badFrame reason hopen hrecv =>
    exact hwf.quiet (by simp) (by simp [Event.contextId?])
  | errorSent reason hrecv => exact hwf.quiet (by simp) (by simp [Event.contextId?])
  | text msg hopen hrecv =>
    unfold Session.onText
    rw [get?_eq hwf hopen]
    split
    next hnone =>
      -- the first frame of a context enters it into the table
      refine hwf.withContext ?_ rfl (textEvents_contextId _ msg)
        (fun d hd => absurd hd (closing_notMem_textEvents _ _ d))
      intro d
      simp [hopen]
    next ctx hctx =>
      exact hwf.update (by rw [hctx]; simp) (hwf.ids _ ctx hctx) (textEvents_contextId ctx msg)
        (fun d hd => absurd hd (closing_notMem_textEvents _ _ d))
  | cancel c ctx hopen hrecv hctx =>
    have hobj := objs_of_get? hctx
    exact hwf.update (by rw [hobj]; simp) (hwf.ids c ctx hobj) (by simp [Event.contextId?])
      (by simp)
  | task c ctx eff hctx htask =>
    obtain ⟨q, pc, heff⟩ := htask.keeps
    have hid := hwf.ids c ctx hctx
    refine hwf.update (by rw [hctx]; simp) (by rw [heff]; exact hid) ?_
      (fun d hd => absurd (htask.ofTask _ hd) id)
    rw [← hid]
    exact htask.events_contextId
  | close events hnone hrecv =>
    -- the receive loop is not closing yet when `close` is called
    have hquiet : Session.Wf { s with trace := s.trace ++ events } :=
      Session.Wf.quiet hwf (not_closing_of_serving hrecv).1 hnone
    exact hquiet.markClosed.visit rfl hwf.table
  | closeNext c rest ctx hrecv hctx hfinished =>
    obtain ⟨hclosed, -, hrest⟩ := hwf.awaited c rest hrecv
    exact hwf.visit hclosed fun d hd => hrest d (List.mem_cons_of_mem _ hd)

/-- `close` flags the context it goes on with. -/
theorem visit_calls (s : Session F) (todo : List String) :
    (s.visit todo).2 = todo.head?.toList.map PoolCall.cancel := by
  cases todo with
  | nil => rfl
  | cons c rest =>
    unfold Session.visit
    dsimp only
    split <;> rfl

theorem visit_closed (s : Session F) (todo : List String) : (s.visit todo).1.closed = s.closed := by
  cases todo with
  | nil => rfl
  | cons c rest =>
    unfold Session.visit
    dsimp only
    split <;> rfl

theorem onText_closed (s : Session F) (msg : IncomingText) :
    (s.onText msg).closed = s.closed := by
  unfold Session.onText
  split <;> rfl

/-- A closed session stays closed. -/
theorem Move.closed {ops : AudioOps F} {Res : Chunk → String → Outcome F → Prop}
    {p : WorkerPool F} {sid : Nat} {s s' : Session F} {calls : List PoolCall}
    (h : Move ops Res p sid s s' calls) (hclosed : s.closed = true) : s'.closed = true := by
  cases h with
  | stay | badFrame | errorSent | cancel | task => exact hclosed
  | text msg => rw [onText_closed, hclosed]
  | close events =>
    unfold Session.close
    rw [visit_closed]
  | closeNext c rest => rw [visit_closed, hclosed]

end SupertonicServer

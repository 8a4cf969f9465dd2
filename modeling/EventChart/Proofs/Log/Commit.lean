import EventChart.Proofs.Log.Run
/-!
# Committing a scan to an index

`Index.commit` is written with mutable variables and loops.  `Index.commit_eq`
writes it as the composition of its steps, each a fold that later proofs
can take apart:

* `Index.takeEvents`: the re-read last event takes the old one's place
  (`Index.replaceLast`) and the other events are appended
  (`Index.appendEvents`), each at its position and in the given epoch;
* `Index.addModules`, `Index.noteSimBegin`, `Index.addParseErrorsFrom`: the
  records, the simulation's begin if none was known, and the unreadable
  lines from the re-read offset on.

The consequences map lists, for each event number, the edges that leave it
in the order of the events they lead to (`Index.Linked`):
`Index.consequencesOf_register` and `Index.consequencesOf_unregister` say what
registering and forgetting an event's edges do to it.
-/

namespace EventChart

namespace Event

/-- The event as the index keeps it: in epoch `epoch`, at position `i`. -/
def placed (e : Event) (epoch i : Nat) : Event := { e with epoch := epoch, index := i }

@[simp] theorem strip_placed (e : Event) (epoch i : Nat) : (e.placed epoch i).strip = e.strip := rfl
@[simp] theorem causes_placed (e : Event) (epoch i : Nat) : (e.placed epoch i).causes = e.causes := rfl
@[simp] theorem number_placed (e : Event) (epoch i : Nat) : (e.placed epoch i).number = e.number := rfl
@[simp] theorem time_placed (e : Event) (epoch i : Nat) : (e.placed epoch i).time = e.time := rfl
@[simp] theorem index_placed (e : Event) (epoch i : Nat) : (e.placed epoch i).index = i := rfl
@[simp] theorem epoch_placed (e : Event) (epoch i : Nat) : (e.placed epoch i).epoch = epoch := rfl

end Event

namespace Index

/-! ## The steps of a commit -/

/-- Appends scanned events in epoch `epoch`, each at its position, with the
edges that lead to it. -/
def appendEvents (x : Index) (epoch : Nat) (es : List Event) : Index :=
  es.foldl (fun x e =>
    let e := e.placed epoch x.events.size
    ({ x with events := x.events.push e } : Index).register e) x

/-- Adds module records in order. -/
def addModules (x : Index) (ms : List ModuleCreated) : Index := ms.foldl addModule x

/-- Counts the unreadable lines from offset `reread` on. -/
def addParseErrorsFrom (x : Index) (reread : Int) (pes : List LineError) : Index :=
  pes.foldl (fun x pe => if pe.offset ≥ reread then x.addParseError pe else x) x

/-- Keeps the simulation's begin, or takes `sb` if none is known. -/
def noteSimBegin (x : Index) (sb : Option Entry) : Index :=
  if x.simBegin.isNone then { x with simBegin := sb } else x

/-- Puts the re-read `first` in the place of the index's `last` event, which
keeps its identity, with the edges that lead to it. -/
def replaceLast (x : Index) (last first : Event) : Index :=
  let x := x.unregister last
  let last' := last.adopt first
  ({ x with events := x.events.set! last.index last' } : Index).register last'

/-- What a scan's events do to the index, and the offset from which its
unreadable lines are new. -/
def takeEvents (x : Index) (s : Scan) (epoch : Nat) : Index × Int :=
  match s.replacesLast, s.events.toList, x.last? with
  | true, first :: rest, some last => ((x.replaceLast last first).appendEvents epoch rest, last.endOffset)
  | _, _, _ => (x.appendEvents epoch s.events.toList, 0)

private theorem ite_yield {c : Prop} [Decidable c] (a b : Index) :
    (if c then (pure (ForInStep.yield a) : Id (ForInStep Index)) else pure (ForInStep.yield b)) =
      pure (ForInStep.yield (if c then a else b)) := by
  split <;> rfl

/-- A commit is its steps, one after another. -/
theorem commit_eq (x : Index) (s : Scan) (epoch : Nat) (next : Position) :
    x.commit s epoch next =
      { (((x.takeEvents s epoch).1.addModules s.modules.toList).noteSimBegin s.simBegin).addParseErrorsFrom
          (x.takeEvents s epoch).2 s.parseErrors.toList with scanned := next } := by
  unfold commit takeEvents
  cases s.replacesLast
  · simp [Id.run, appendEvents, Event.placed, addModules, noteSimBegin, addParseErrorsFrom,
      ← Array.foldl_toList, ite_yield]
    split <;> rfl
  · rcases s.events.toList with _ | ⟨first, rest⟩ <;> rcases hl : x.last? with _ | last <;>
      simp [hl, Id.run, appendEvents, Event.placed, addModules, noteSimBegin, addParseErrorsFrom, replaceLast,
        ← Array.foldl_toList, ite_yield] <;> split <;> rfl

/-! ## What each step changes -/

/-- Appending events changes only the events and the consequences map. -/
theorem appendEvents_frame (x : Index) (epoch : Nat) (es : List Event) :
    ∃ evs cs, x.appendEvents epoch es = { x with events := evs, consequences := cs } := by
  induction es generalizing x with
  | nil => exact ⟨x.events, x.consequences, rfl⟩
  | cons e es ih =>
    obtain ⟨evs, cs, h⟩ := ih (({ x with events := x.events.push (e.placed epoch x.events.size) } : Index).register
      (e.placed epoch x.events.size))
    exact ⟨evs, cs, h⟩

/-- Replacing the last event changes only the events and the consequences
map. -/
theorem replaceLast_frame (x : Index) (last first : Event) :
    ∃ evs cs, x.replaceLast last first = { x with events := evs, consequences := cs } :=
  ⟨_, _, rfl⟩

/-- Adding module records changes only the modules. -/
theorem addModules_frame (x : Index) (ms : List ModuleCreated) :
    ∃ mods, x.addModules ms = { x with modules := mods } := by
  induction ms generalizing x with
  | nil => exact ⟨x.modules, rfl⟩
  | cons mc ms ih =>
    obtain ⟨mods, h⟩ := ih (x.addModule mc)
    refine ⟨mods, ?_⟩
    rw [addModules, List.foldl_cons, ← addModules, h]
    unfold addModule
    split <;> rfl

/-- Counting unreadable lines changes only the kept ones and their count. -/
theorem addParseErrorsFrom_frame (x : Index) (reread : Int) (pes : List LineError) :
    ∃ kept n, x.addParseErrorsFrom reread pes = { x with parseErrors := kept, numParseErrors := n } := by
  induction pes generalizing x with
  | nil => exact ⟨x.parseErrors, x.numParseErrors, rfl⟩
  | cons pe pes ih =>
    obtain ⟨kept, n, h⟩ := ih (if pe.offset ≥ reread then x.addParseError pe else x)
    refine ⟨kept, n, ?_⟩
    rw [addParseErrorsFrom, List.foldl_cons, ← addParseErrorsFrom, h]
    split <;> rfl

theorem noteSimBegin_eq (x : Index) (sb : Option Entry) :
    x.noteSimBegin sb = { x with simBegin := x.simBegin.or sb } := by
  unfold noteSimBegin
  cases h : x.simBegin with
  | none => simp
  | some v =>
    simp only [Option.isNone_some, Bool.false_eq_true, if_false, Option.some_or]
    rw [← h]

section frame

variable (x : Index) (epoch : Nat) (es : List Event) (last first : Event) (ms : List ModuleCreated)
  (sb : Option Entry) (reread : Int) (pes : List LineError)

@[simp] theorem modules_appendEvents : (x.appendEvents epoch es).modules = x.modules := by
  obtain ⟨_, _, h⟩ := appendEvents_frame x epoch es; rw [h]
@[simp] theorem simBegin_appendEvents : (x.appendEvents epoch es).simBegin = x.simBegin := by
  obtain ⟨_, _, h⟩ := appendEvents_frame x epoch es; rw [h]
@[simp] theorem parseErrors_appendEvents : (x.appendEvents epoch es).parseErrors = x.parseErrors := by
  obtain ⟨_, _, h⟩ := appendEvents_frame x epoch es; rw [h]
@[simp] theorem numParseErrors_appendEvents :
    (x.appendEvents epoch es).numParseErrors = x.numParseErrors := by
  obtain ⟨_, _, h⟩ := appendEvents_frame x epoch es; rw [h]

@[simp] theorem modules_replaceLast : (x.replaceLast last first).modules = x.modules := rfl
@[simp] theorem simBegin_replaceLast : (x.replaceLast last first).simBegin = x.simBegin := rfl
@[simp] theorem parseErrors_replaceLast : (x.replaceLast last first).parseErrors = x.parseErrors := rfl
@[simp] theorem numParseErrors_replaceLast :
    (x.replaceLast last first).numParseErrors = x.numParseErrors := rfl

@[simp] theorem events_addModules : (x.addModules ms).events = x.events := by
  obtain ⟨_, h⟩ := addModules_frame x ms; rw [h]
@[simp] theorem consequences_addModules : (x.addModules ms).consequences = x.consequences := by
  obtain ⟨_, h⟩ := addModules_frame x ms; rw [h]
@[simp] theorem simBegin_addModules : (x.addModules ms).simBegin = x.simBegin := by
  obtain ⟨_, h⟩ := addModules_frame x ms; rw [h]
@[simp] theorem parseErrors_addModules : (x.addModules ms).parseErrors = x.parseErrors := by
  obtain ⟨_, h⟩ := addModules_frame x ms; rw [h]
@[simp] theorem numParseErrors_addModules : (x.addModules ms).numParseErrors = x.numParseErrors := by
  obtain ⟨_, h⟩ := addModules_frame x ms; rw [h]

@[simp] theorem events_noteSimBegin : (x.noteSimBegin sb).events = x.events := by rw [noteSimBegin_eq]
@[simp] theorem consequences_noteSimBegin : (x.noteSimBegin sb).consequences = x.consequences := by
  rw [noteSimBegin_eq]
@[simp] theorem modules_noteSimBegin : (x.noteSimBegin sb).modules = x.modules := by rw [noteSimBegin_eq]
@[simp] theorem simBegin_noteSimBegin : (x.noteSimBegin sb).simBegin = x.simBegin.or sb := by
  rw [noteSimBegin_eq]
@[simp] theorem parseErrors_noteSimBegin : (x.noteSimBegin sb).parseErrors = x.parseErrors := by
  rw [noteSimBegin_eq]
@[simp] theorem numParseErrors_noteSimBegin : (x.noteSimBegin sb).numParseErrors = x.numParseErrors := by
  rw [noteSimBegin_eq]

@[simp] theorem events_addParseErrorsFrom : (x.addParseErrorsFrom reread pes).events = x.events := by
  obtain ⟨_, _, h⟩ := addParseErrorsFrom_frame x reread pes; rw [h]
@[simp] theorem consequences_addParseErrorsFrom :
    (x.addParseErrorsFrom reread pes).consequences = x.consequences := by
  obtain ⟨_, _, h⟩ := addParseErrorsFrom_frame x reread pes; rw [h]
@[simp] theorem modules_addParseErrorsFrom : (x.addParseErrorsFrom reread pes).modules = x.modules := by
  obtain ⟨_, _, h⟩ := addParseErrorsFrom_frame x reread pes; rw [h]
@[simp] theorem simBegin_addParseErrorsFrom : (x.addParseErrorsFrom reread pes).simBegin = x.simBegin := by
  obtain ⟨_, _, h⟩ := addParseErrorsFrom_frame x reread pes; rw [h]

end frame

/-! ## Events -/

@[simp] theorem events_register (x : Index) (e : Event) : (x.register e).events = x.events := rfl
@[simp] theorem events_unregister (x : Index) (e : Event) : (x.unregister e).events = x.events := rfl

/-- Appended events follow the old ones, each placed at its position. -/
theorem events_appendEvents (x : Index) (epoch : Nat) (es : List Event) :
    (x.appendEvents epoch es).events.toList =
      x.events.toList ++ es.mapIdx fun i e => e.placed epoch (x.events.size + i) := by
  induction es generalizing x with
  | nil => simp [appendEvents]
  | cons e es ih =>
    have hstep := ih (({ x with events := x.events.push (e.placed epoch x.events.size) } : Index).register
      (e.placed epoch x.events.size))
    simp only [appendEvents, List.foldl_cons] at hstep ⊢
    rw [hstep, List.mapIdx_cons]
    simp only [events_register, Array.toList_push, Array.size_push, List.append_assoc, List.cons_append,
      List.nil_append, Nat.add_zero]
    congr 3
    funext i e
    rw [Nat.add_assoc, Nat.add_comm 1 i]

theorem strip_appendEvents (x : Index) (epoch : Nat) (es : List Event) :
    (x.appendEvents epoch es).events.toList.map Event.strip =
      x.events.toList.map Event.strip ++ es.map Event.strip := by
  rw [events_appendEvents, List.map_append]
  congr 1
  apply List.ext_getElem
  · simp
  · intro i h₁ h₂
    simp

/-! ## Consequences -/

/-- The consequences map lists, for each event number, the edges that leave
it, in the order of the events they lead to. -/
def Linked (x : Index) : Prop :=
  ∀ n, x.consequencesOf n = (x.events.toList.flatMap Event.causes).filter (·.cause == n)

/-- Registering an event's edges appends them to the lists of their causes. -/
theorem consequencesOf_register (x : Index) (e : Event) (n : Int) :
    (x.register e).consequencesOf n = x.consequencesOf n ++ e.causes.filter (·.cause == n) := by
  unfold register consequencesOf
  dsimp only
  generalize x.consequences = m
  generalize e.causes = ds
  induction ds generalizing m with
  | nil => simp
  | cons d ds ih =>
    rw [List.foldl_cons, ih, Std.HashMap.getD_insert]
    by_cases h : d.cause = n
    · simp [h]
    · simp [h]

/-- Forgetting an event's edges drops the edges leading to it from the lists
of its causes. -/
theorem consequencesOf_unregister (x : Index) (e : Event) (n : Int) :
    (x.unregister e).consequencesOf n =
      if e.causes.any (·.cause == n) then (x.consequencesOf n).filter (·.consequence != e.number)
      else x.consequencesOf n := by
  unfold unregister consequencesOf
  dsimp only
  generalize x.consequences = m
  generalize e.causes = ds
  induction ds generalizing m with
  | nil => simp
  | cons d ds ih =>
    rw [List.foldl_cons, ih]
    have hstep : ((if ((m.getD d.cause #[]).filter (·.consequence != e.number)).isEmpty then
          m.erase d.cause
        else m.insert d.cause ((m.getD d.cause #[]).filter (·.consequence != e.number))).getD n #[]).toList =
        if d.cause = n then (m.getD n #[]).toList.filter (·.consequence != e.number)
        else (m.getD n #[]).toList := by
      split
      · rename_i hempty
        rw [Std.HashMap.getD_erase]
        by_cases h : d.cause = n
        · subst h
          simp only [beq_self_eq_true, if_true]
          rw [Array.isEmpty_iff] at hempty
          rw [← Array.toList_filter, hempty]
        · simp [h]
      · rw [Std.HashMap.getD_insert]
        by_cases h : d.cause = n
        · subst h
          simp
        · simp [h]
    rw [hstep]
    by_cases h : d.cause = n
    · simp [h]
    · simp [h]

end Index

end EventChart

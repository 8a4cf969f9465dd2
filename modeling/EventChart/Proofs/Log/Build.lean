import EventChart.Proofs.Log.ModuleRecords
/-!
# What an index built by scans holds

An index is built by committing scans in one epoch: a scan of the whole file
into the empty index, then scans that re-read the last event and go on.
`Index.Models x epoch E M S P` says what such an index holds in terms of what
the scans read: the events `E`, the module records `M`, the simulation begin
`S` and the unreadable lines `P`.

* Its events are those of `E`, each placed at its position in the epoch.
* It lists, for each event number, the edges leaving that event in the order
  of the events they lead to (`Index.Linked`).
* Its modules are the last record of each id (`latestRecords M`).
* It keeps the first hundred unreadable lines and counts them all.

The empty index models nothing read (`Index.models_empty`).  A commit of a
scan that re-reads nothing appends what the scan read
(`Index.Models.commit_append`); a commit of a scan that re-read the last event
puts the re-read event in its place and counts only the unreadable lines
after the old end (`Index.Models.commit_replace`).  Two indexes that model the
same reading agree on every query (`Index.Models.agrees`).
-/

namespace EventChart

namespace Event

/-- A re-read event that takes the place of an indexed one with its number is
the re-read event placed where the indexed one was. -/
theorem adopt_eq_placed {e o : Event} (hn : e.number = o.number) (ho : o.entries = none) :
    e.adopt o = o.placed e.epoch e.index := by
  cases o
  simp only at hn ho
  subst hn ho
  rfl

@[simp] theorem endOffset_placed (e : Event) (epoch i : Nat) : (e.placed epoch i).endOffset = e.endOffset := rfl

/-- The edges through which an event was caused lead to it, when its reuse
edges do. -/
theorem consequence_of_mem_causes {e : Event} (h : ∀ d ∈ e.reuses, d.consequence = e.number) {d : Dependency}
    (hd : d ∈ e.causes) : d.consequence = e.number := by
  unfold causes cause? at hd
  rcases List.mem_append.mp hd with hd | hd
  · split at hd
    · cases hd
    · simp only [Option.toList_some, List.mem_singleton] at hd
      rw [hd]
      rfl
  · exact h d hd

end Event

/-- Placing events keeps what does not depend on the place. -/
theorem map_placed {β : Type} (f : Event → β) (hf : ∀ e epoch i, f (e.placed epoch i) = f e) (es : List Event)
    (epoch : Nat) (g : Nat → Nat) : (es.mapIdx fun i e => e.placed epoch (g i)).map f = es.map f := by
  apply List.ext_getElem
  · simp
  · intro i h₁ h₂
    simp [hf]

theorem flatMap_causes_placed (es : List Event) (epoch : Nat) (g : Nat → Nat) :
    (es.mapIdx fun i e => e.placed epoch (g i)).flatMap Event.causes = es.flatMap Event.causes := by
  rw [List.flatMap_def, List.flatMap_def, map_placed _ (fun _ _ _ => rfl)]

/-- Events placed one after another from position `k` on. -/
theorem mapIdx_placed_append (E F : List Event) (epoch : Nat) :
    (E ++ F).mapIdx (fun i e => e.placed epoch i) =
      E.mapIdx (fun i e => e.placed epoch i) ++ F.mapIdx fun i e => e.placed epoch (E.length + i) := by
  rw [List.mapIdx_append]
  congr 2
  funext i e
  rw [Nat.add_comm]

namespace Index

/-! ## Consequences -/

theorem consequencesOf_appendEvents (x : Index) (epoch : Nat) (es : List Event) (n : Int) :
    (x.appendEvents epoch es).consequencesOf n =
      x.consequencesOf n ++ (es.flatMap Event.causes).filter (·.cause == n) := by
  induction es generalizing x with
  | nil => simp [appendEvents]
  | cons e es ih =>
    have hstep := ih (({ x with events := x.events.push (e.placed epoch x.events.size) } : Index).register
      (e.placed epoch x.events.size))
    simp only [appendEvents, List.foldl_cons] at hstep ⊢
    rw [hstep, consequencesOf_register]
    simp only [Event.causes_placed, List.flatMap_cons, List.filter_append, List.append_assoc]
    rfl

theorem Linked.appendEvents {x : Index} (h : x.Linked) (epoch : Nat) (es : List Event) :
    (x.appendEvents epoch es).Linked := by
  intro n
  rw [consequencesOf_appendEvents, h n, events_appendEvents, List.flatMap_append, flatMap_causes_placed,
    List.filter_append]

/-- Putting `first` in the place of the last event `c`: forgetting the edges
that lead to `c` leaves those of the events before it, since every edge leads
to its own event and the numbers differ. -/
theorem consequencesOf_replaceLast {x : Index} (hx : x.Linked) {E : List Event} {c first : Event}
    {epoch i : Nat} (hev : x.events.toList.flatMap Event.causes = E.flatMap Event.causes ++ c.causes)
    (hfirst : first.number = c.number) (hE : ∀ g ∈ E, ∀ d ∈ g.causes, d.consequence ≠ c.number)
    (hc : ∀ d ∈ c.causes, d.consequence = c.number) (n : Int) :
    (x.replaceLast (c.placed epoch i) first).consequencesOf n =
      ((E ++ [first]).flatMap Event.causes).filter (·.cause == n) := by
  have hcauses : ((c.placed epoch i).adopt first).causes = first.causes := by
    unfold Event.adopt Event.causes Event.cause?
    rw [Event.number_placed, ← hfirst]
  -- the edges of the events before `c` stay, those leading to `c` go
  have hkept : ((E.flatMap Event.causes).filter (·.cause == n)).filter (·.consequence != c.number) =
      (E.flatMap Event.causes).filter (·.cause == n) := by
    apply List.filter_eq_self.mpr
    intro d hd
    obtain ⟨g, hg, hdg⟩ := List.mem_flatMap.mp (List.mem_filter.mp hd).1
    simpa using hE g hg d hdg
  have hgone : (c.causes.filter (·.cause == n)).filter (·.consequence != c.number) = [] := by
    apply List.filter_eq_nil_iff.mpr
    intro d hd
    simp [hc d (List.mem_filter.mp hd).1]
  have hforget : (x.unregister (c.placed epoch i)).consequencesOf n =
      (E.flatMap Event.causes).filter (·.cause == n) := by
    rw [consequencesOf_unregister, hx n, hev, List.filter_append, Event.causes_placed, Event.number_placed]
    split
    · rw [List.filter_append, hkept, hgone, List.append_nil]
    · rename_i hany
      have hnone : c.causes.filter (·.cause == n) = [] := by
        apply List.filter_eq_nil_iff.mpr
        intro d hd hdn
        exact hany (List.any_eq_true.mpr ⟨d, hd, hdn⟩)
      rw [hnone, List.append_nil]
  unfold replaceLast
  rw [consequencesOf_register]
  change (x.unregister (c.placed epoch i)).consequencesOf n ++ _ = _
  rw [hforget, hcauses, List.flatMap_append, List.filter_append, List.flatMap_singleton]

/-! ## Events -/

theorem last?_eq {x : Index} {epoch : Nat} {E : List Event} {c : Event}
    (h : x.events.toList = (E ++ [c]).mapIdx fun i e => e.placed epoch i) :
    x.last? = some (c.placed epoch E.length) := by
  rw [last?, ← Array.getLast?_toList, h, List.mapIdx_concat, List.getLast?_concat]

/-- The re-read event takes the place of the last one. -/
theorem events_replaceLast {x : Index} {epoch : Nat} {E : List Event} {c first : Event}
    (h : x.events.toList = (E ++ [c]).mapIdx fun i e => e.placed epoch i)
    (hn : first.number = c.number) (he : first.entries = none) :
    (x.replaceLast (c.placed epoch E.length) first).events.toList =
      (E ++ [first]).mapIdx fun i e => e.placed epoch i := by
  have hadopt : (c.placed epoch E.length).adopt first = first.placed epoch E.length :=
    Event.adopt_eq_placed (by rw [Event.number_placed, hn]) he
  unfold replaceLast
  simp only [events_register, events_unregister, Array.set!_eq_setIfInBounds, Array.toList_setIfInBounds,
    h, hadopt, Event.index_placed, List.mapIdx_concat]
  rw [List.set_append_right _ _ (by simp)]
  simp

/-! ## Unreadable lines -/

/-- An index keeps the first unreadable lines it counts. -/
theorem addParseError_kept {x : Index} {P : List LineError} (hp : x.parseErrors.toList = P.take keptParseErrors)
    (pe : LineError) : (x.addParseError pe).parseErrors.toList = (P ++ [pe]).take keptParseErrors := by
  have hsize : x.parseErrors.size = min keptParseErrors P.length := by
    simpa using congrArg List.length hp
  unfold addParseError
  dsimp only
  split
  · -- fewer than kept so far: all of them are kept, and the new one too
    rename_i hlt
    rw [Array.toList_push, hp, List.take_of_length_le (by omega), List.take_of_length_le (by simp; omega)]
  · rename_i hge
    rw [hp, List.take_append_of_le_length (by omega)]

/-- Counting the unreadable lines from offset `reread` on keeps the first of
all lines counted and counts them. -/
theorem addParseErrorsFrom_kept {x : Index} {P : List LineError}
    (hp : x.parseErrors.toList = P.take keptParseErrors) (hn : x.numParseErrors = P.length) (reread : Int)
    (pes : List LineError) :
    (x.addParseErrorsFrom reread pes).parseErrors.toList =
        (P ++ pes.filter fun pe => reread ≤ pe.offset).take keptParseErrors ∧
      (x.addParseErrorsFrom reread pes).numParseErrors = (P ++ pes.filter fun pe => reread ≤ pe.offset).length := by
  induction pes generalizing x P with
  | nil => simp [addParseErrorsFrom, hp, hn]
  | cons pe pes ih =>
    rw [addParseErrorsFrom, List.foldl_cons, ← addParseErrorsFrom]
    by_cases hpe : reread ≤ pe.offset
    · -- a new unreadable line is counted
      have hn' : (x.addParseError pe).numParseErrors = (P ++ [pe]).length := by
        simp [addParseError, hn]
      rw [if_pos hpe, List.filter_cons_of_pos (by simpa using hpe), ← List.singleton_append,
        ← List.append_assoc]
      exact ih (addParseError_kept hp pe) hn'
    · rw [if_neg hpe, List.filter_cons_of_neg (by simpa using hpe)]
      exact ih hp hn

/-! ## Indexes built by scans -/

/-- What an index built in epoch `epoch` holds after reading the events `E`,
the module records `M`, the simulation begin `S` and the unreadable lines
`P`. -/
structure Models (x : Index) (epoch : Nat) (E : List Event) (M : List ModuleCreated) (S : Option Entry)
    (P : List LineError) : Prop where
  events : x.events.toList = E.mapIdx fun i e => e.placed epoch i
  linked : x.Linked
  modules : x.modules.toList = latestRecords M
  simBegin : x.simBegin = S
  parseErrors : x.parseErrors.toList = P.take keptParseErrors
  numParseErrors : x.numParseErrors = P.length

theorem models_empty (epoch : Nat) : Index.empty.Models epoch [] [] none [] where
  events := rfl
  linked n := by simp [consequencesOf, Index.empty]
  modules := rfl
  simBegin := rfl
  parseErrors := rfl
  numParseErrors := rfl

@[simp] theorem scanned_commit (x : Index) (s : Scan) (epoch : Nat) (next : Position) :
    (x.commit s epoch next).scanned = next := by
  rw [commit_eq]

section commit

variable {x : Index} {epoch : Nat} {E : List Event} {M : List ModuleCreated} {S : Option Entry}
  {P : List LineError} {s : Scan}

theorem Models.length_events (hx : x.Models epoch E M S P) : x.events.size = E.length := by
  simpa using congrArg List.length hx.events

/-- The records a commit takes after its events: the modules, the simulation
begin if none is known, and the unreadable lines from `reread` on. -/
private theorem models_records {y : Index} {E' : List Event} (hy : y.Models epoch E' M S P) (s : Scan)
    (reread : Int) (next : Position) :
    ({ ((y.addModules s.modules.toList).noteSimBegin s.simBegin).addParseErrorsFrom reread s.parseErrors.toList with
        scanned := next } : Index).Models epoch E' (M ++ s.modules.toList) (S.or s.simBegin)
      (P ++ s.parseErrors.toList.filter fun pe => reread ≤ pe.offset) := by
  obtain ⟨hpe, hnum⟩ := addParseErrorsFrom_kept
    (x := (y.addModules s.modules.toList).noteSimBegin s.simBegin) (P := P)
    (by simp [hy.parseErrors]) (by simp [hy.numParseErrors]) reread s.parseErrors.toList
  refine ⟨by simp [hy.events], fun n => ?_, ?_, by simp [hy.simBegin], hpe, hnum⟩
  · have h := hy.linked n
    unfold consequencesOf at h ⊢
    simpa using h
  · simp only [modules_addParseErrorsFrom, modules_noteSimBegin]
    exact modules_addModules hy.modules _

/-- A commit of a scan that re-reads nothing appends what it read. -/
theorem Models.commit_append (hx : x.Models epoch E M S P) (hs : s.replacesLast = false)
    (hoff : ∀ pe ∈ s.parseErrors.toList, 0 ≤ pe.offset) (next : Position) :
    (x.commit s epoch next).Models epoch (E ++ s.events.toList) (M ++ s.modules.toList) (S.or s.simBegin)
      (P ++ s.parseErrors.toList) := by
  have hT : x.takeEvents s epoch = (x.appendEvents epoch s.events.toList, 0) := by
    simp only [takeEvents, hs]
  have hy : (x.appendEvents epoch s.events.toList).Models epoch (E ++ s.events.toList) M S P := by
    refine ⟨?_, hx.linked.appendEvents epoch _, by rw [modules_appendEvents]; exact hx.modules,
      by rw [simBegin_appendEvents]; exact hx.simBegin, by rw [parseErrors_appendEvents]; exact hx.parseErrors,
      by rw [numParseErrors_appendEvents]; exact hx.numParseErrors⟩
    rw [events_appendEvents, hx.events, mapIdx_placed_append, hx.length_events]
  have hfilter : (s.parseErrors.toList.filter fun pe => (0 : Int) ≤ pe.offset) = s.parseErrors.toList :=
    List.filter_eq_self.mpr (by simpa using hoff)
  have h := models_records hy s 0 next
  rw [hfilter] at h
  rw [commit_eq, hT]
  exact h

/-- A commit of a scan that re-read the last event `c` puts the re-read event
in its place and counts the unreadable lines after the old end. -/
theorem Models.commit_replace {c first : Event} {rest : List Event} (hx : x.Models epoch (E ++ [c]) M S P)
    (hs : s.replacesLast = true) (hev : s.events.toList = first :: rest) (hn : first.number = c.number)
    (he : first.entries = none) (hE : ∀ g ∈ E, ∀ d ∈ g.causes, d.consequence ≠ c.number)
    (hc : ∀ d ∈ c.causes, d.consequence = c.number) (next : Position) :
    (x.commit s epoch next).Models epoch (E ++ s.events.toList) (M ++ s.modules.toList) (S.or s.simBegin)
      (P ++ s.parseErrors.toList.filter fun pe => c.endOffset ≤ pe.offset) := by
  have hT : x.takeEvents s epoch =
      ((x.replaceLast (c.placed epoch E.length) first).appendEvents epoch rest, c.endOffset) := by
    simp only [takeEvents, hs, hev, last?_eq hx.events, Event.endOffset_placed]
  -- the re-read event in the place of the last one
  have hr : (x.replaceLast (c.placed epoch E.length) first).Models epoch (E ++ [first]) M S P := by
    have hflat : x.events.toList.flatMap Event.causes = E.flatMap Event.causes ++ c.causes := by
      rw [hx.events, flatMap_causes_placed, List.flatMap_append, List.flatMap_singleton]
    refine ⟨events_replaceLast hx.events hn he, fun n => ?_, hx.modules, hx.simBegin, hx.parseErrors,
      hx.numParseErrors⟩
    rw [consequencesOf_replaceLast hx.linked hflat hn hE hc, events_replaceLast hx.events hn he,
      flatMap_causes_placed]
  -- then the events after it
  have hy : ((x.replaceLast (c.placed epoch E.length) first).appendEvents epoch rest).Models epoch
      (E ++ s.events.toList) M S P := by
    refine ⟨?_, hr.linked.appendEvents epoch _, by rw [modules_appendEvents]; exact hr.modules,
      by rw [simBegin_appendEvents]; exact hr.simBegin, by rw [parseErrors_appendEvents]; exact hr.parseErrors,
      by rw [numParseErrors_appendEvents]; exact hr.numParseErrors⟩
    rw [events_appendEvents, hr.events, hr.length_events, ← mapIdx_placed_append, hev, List.append_assoc,
      List.singleton_append]
  rw [commit_eq, hT]
  exact models_records hy s c.endOffset next

end commit

/-! ## The events of a built index -/

theorem inOrder_placed {E : List Event} (epoch : Nat) :
    InOrder (E.mapIdx fun i e => e.placed epoch i) ↔ InOrder E := by
  rw [← inOrder_map_strip, map_placed _ (fun _ _ _ => rfl), inOrder_map_strip]

/-- The `i`-th event of a built index is the `i`-th event read, in the
index's epoch and at position `i`. -/
theorem Models.getElem? {x : Index} {epoch : Nat} {E : List Event} {M : List ModuleCreated}
    {S : Option Entry} {P : List LineError} (hx : x.Models epoch E M S P) (i : Nat) (h : i < E.length) :
    x.events[i]? = some (E[i].placed epoch i) := by
  rw [← Array.getElem?_toList, hx.events, List.getElem?_mapIdx, List.getElem?_eq_getElem h]
  rfl

/-- An index models any reading with the same events, last module records,
simulation begin and unreadable lines. -/
theorem Models.congr {x : Index} {epoch : Nat} {E E' : List Event} {M M' : List ModuleCreated}
    {S S' : Option Entry} {P P' : List LineError} (hx : x.Models epoch E M S P) (hE : E = E')
    (hM : latestRecords M = latestRecords M') (hS : S = S') (hP : P = P') : x.Models epoch E' M' S' P' :=
  ⟨hE ▸ hx.events, hx.linked, hM ▸ hx.modules, hS ▸ hx.simBegin, hP ▸ hx.parseErrors, hP ▸ hx.numParseErrors⟩

/-- Two indexes that answer every query alike: the same events, the same
edges leaving each event in the same order, the same module records,
simulation begin and unreadable lines, and the same resume position. -/
structure Agrees (x y : Index) : Prop where
  events : x.events = y.events
  consequences : ∀ n, x.consequencesOf n = y.consequencesOf n
  modules : x.modules = y.modules
  simBegin : x.simBegin = y.simBegin
  parseErrors : x.parseErrors = y.parseErrors
  numParseErrors : x.numParseErrors = y.numParseErrors
  scanned : x.scanned = y.scanned

/-- Indexes that model the same reading agree on every query. -/
theorem Models.agrees {x y : Index} {epoch : Nat} {E : List Event} {M M' : List ModuleCreated}
    {S : Option Entry} {P : List LineError} (hx : x.Models epoch E M S P) (hy : y.Models epoch E M' S P)
    (hM : latestRecords M = latestRecords M') (hq : x.scanned = y.scanned) : x.Agrees y := by
  have hev : x.events = y.events := Array.toList_inj.mp (hx.events.trans hy.events.symm)
  refine ⟨hev, fun n => ?_, Array.toList_inj.mp (by rw [hx.modules, hy.modules, hM]),
    hx.simBegin.trans hy.simBegin.symm, Array.toList_inj.mp (hx.parseErrors.trans hy.parseErrors.symm),
    hx.numParseErrors.trans hy.numParseErrors.symm, hq⟩
  rw [hx.linked n, hy.linked n, hev]

end Index

end EventChart

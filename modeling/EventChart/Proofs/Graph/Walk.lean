import EventChart.Graph.Collect
import Mathlib
/-!
# Walks that cannot fail

A walk over the dependency graph fails in one way only: it is canceled.  Its
other steps look events up through its view, and ask its visitor whether to go
on; when neither of those can fail, neither can the walk.  `Total m` says that
a computation over a state never fails, from any state, and it is closed under
`pure` and `bind` (`total_pure`, `Total.bind`).

* `pushEdges_total`: following the edges of a visited event never fails, by
  induction over the edges.
* `walkLoop_total`: a walk that is not canceled never fails, by induction over
  its fuel.
* `collect_total`: so collecting what an event reaches never fails when not
  canceled.  A filtered view collects its trace so, and this is what makes its
  first preparation succeed.

A filtered view also walks to the nearest events it shows, asking its own
cached verdicts on the way, and so changes its state as it walks.  `Sim I P m
m'` says that `m`, run from any state of an invariant `I`, answers what a
computation `m'` without state answers, keeps `I`, and that the answer has
the property `P`.  It too is closed under `pure` and `bind`.

* `walkLoop_sim`: a walk whose view and visitor answer as those of a walk
  without state walks as that walk, by induction over its fuel; its log holds
  each event visited with the visitor's answer (`Walk.LoggedBy`).
* `nearest_sim`: so the dependencies to the nearest accepted events are those
  found without state, and each links the origin to an accepted event.
-/

namespace EventChart

/-- A computation over a state that never fails. -/
def Total {σ α : Type} (m : StateT σ (Except Fault) α) : Prop := ∀ s, ∃ a s', m.run s = .ok (a, s')

section
variable {σ : Type}

theorem total_pure {α : Type} (a : α) : Total (pure a : StateT σ (Except Fault) α) :=
  fun s => ⟨a, s, rfl⟩

theorem Total.bind {α β : Type} {m : StateT σ (Except Fault) α} {k : α → StateT σ (Except Fault) β}
    (hm : Total m) (hk : ∀ a, Total (k a)) : Total (m >>= k) := by
  intro s
  obtain ⟨a, s1, h1⟩ := hm s
  obtain ⟨b, s2, h2⟩ := hk a s1
  exact ⟨b, s2, by rw [StateT.run_bind, h1]; exact h2⟩

variable {view : WalkView σ} {dir : Direction} {lim : Limits}

theorem pushEdges_total (hfind : ∀ n, Total (view.find n)) (it : Reached) :
    ∀ (ds : List Dependency) (w : Walk), Total (pushEdges view dir lim it ds w) := by
  intro ds
  induction ds with
  | nil => intro w; exact total_pure w
  | cons d ds ih =>
    intro w
    unfold pushEdges
    dsimp only
    split_ifs
    · exact ih w
    · exact ih w
    · exact total_pure _
    -- the item pushed differs for the origin, the argument does not
    all_goals
      refine (hfind _).bind fun e => ?_
      split
      · exact ih w
      · split_ifs
        · exact ih w
        · exact ih _

theorem walkLoop_total (hfind : ∀ n, Total (view.find n)) {visit : Reached → StateT σ (Except Fault) Bool}
    (hvisit : ∀ it, Total (visit it)) :
    ∀ (fuel : Nat) (w : Walk), Total (walkLoop view dir lim false visit fuel w) := by
  intro fuel
  induction fuel with
  | zero => intro w; exact total_pure w
  | succ fuel ih =>
    intro w
    unfold walkLoop
    split
    · exact total_pure _
    · -- not canceled: the visit is cut short by a limit, or goes on to the next one
      rw [if_neg (by simp)]
      dsimp only
      split_ifs
      · exact total_pure _
      · exact (pushEdges_total hfind _ _ _).bind fun w' => ih w'
      · exact total_pure _
      · refine (hvisit _).bind fun expand => ?_
        split_ifs
        · exact (pushEdges_total hfind _ _ _).bind fun w' => ih w'
        · exact ih _

theorem collect_total (hfind : ∀ n, Total (view.find n)) (size : Nat) (origin : Event) (dir : Direction)
    (lim : Limits) (clock : Clock) : Total (collect view size origin dir lim clock false) :=
  (walkLoop_total hfind (fun _ => total_pure true) _ _).bind fun _ => total_pure _

theorem nearest_total (hfind : ∀ n, Total (view.find n)) (size : Nat) (origin : Event) (dir : Direction)
    (lim : Limits) (clock : Clock) {accept : Event → StateT σ (Except Fault) Bool}
    (haccept : ∀ c, Total (accept c)) : Total (nearest view size origin dir lim clock false accept) :=
  (walkLoop_total hfind (fun it => (haccept it.event).bind fun _ => total_pure _) _ _).bind
    fun _ => total_pure _

end

/-! ## Walks that answer as walks without state -/

section
variable {σ : Type}

/-- Run from any state of an invariant, a computation answers what a
computation without state answers, a value with property `P`, and keeps the
invariant. -/
def Sim {α : Type} (I : σ → Prop) (P : α → Prop) (m : StateT σ (Except Fault) α)
    (m' : StateT Unit (Except Fault) α) : Prop :=
  ∀ a, m'.run' () = .ok a → P a ∧ ∀ s, I s → ∃ s', m.run s = .ok (a, s') ∧ I s'

variable {I : σ → Prop}

theorem sim_pure {α : Type} {P : α → Prop} {a : α} (h : P a) : Sim I P (pure a) (pure a) := by
  intro b hb
  cases hb
  exact ⟨h, fun s hs => ⟨s, rfl, hs⟩⟩

theorem Sim.bind {α β : Type} {P : α → Prop} {R : β → Prop} {m : StateT σ (Except Fault) α}
    {m' : StateT Unit (Except Fault) α} {k : α → StateT σ (Except Fault) β} {k' : α → StateT Unit (Except Fault) β}
    (hm : Sim I P m m') (hk : ∀ a, P a → Sim I R (k a) (k' a)) : Sim I R (m >>= k) (m' >>= k') := by
  intro b hb
  -- the stateless run splits at the bind, as the run with state does
  cases hrun : m'.run () with
  | error e =>
    rw [StateT.run'_eq, StateT.run_bind, hrun] at hb
    cases hb
  | ok p =>
    obtain ⟨a, u⟩ := p
    have hk' : (k' a).run' () = .ok b := by
      rw [StateT.run'_eq, StateT.run_bind, hrun] at hb
      exact hb
    have hm' : m'.run' () = .ok a := by rw [StateT.run'_eq, hrun]; rfl
    obtain ⟨hPa, hmrun⟩ := hm a hm'
    obtain ⟨hRb, hkrun⟩ := hk a hPa b hk'
    refine ⟨hRb, fun s hs => ?_⟩
    obtain ⟨s1, h1, hs1⟩ := hmrun s hs
    obtain ⟨s2, h2, hs2⟩ := hkrun s1 hs1
    exact ⟨s2, by rw [StateT.run_bind, h1]; exact h2, hs2⟩

theorem sim_ite {α : Type} {P : α → Prop} {c : Prop} [Decidable c] {m k : StateT σ (Except Fault) α}
    {m' k' : StateT Unit (Except Fault) α} (hm : Sim I P m m') (hk : Sim I P k k') :
    Sim I P (if c then m else k) (if c then m' else k') := by
  split_ifs
  · exact hm
  · exact hk

end

/-- The item a walk takes next is one of its frontier, and the rest are the others. -/
theorem pickNearest_mem {dir : Direction} :
    ∀ {rs : List Reached} {b : Reached} {rest : List Reached}, pickNearest dir rs = some (b, rest) →
      b ∈ rs ∧ ∀ r ∈ rest, r ∈ rs
  | [], _, _, h => by simp [pickNearest] at h
  | r :: rs, b, rest, h => by
    unfold pickNearest at h
    split at h
    · cases h
      simp
    · rename_i b' others hrec
      obtain ⟨hb', hothers⟩ := pickNearest_mem hrec
      dsimp only at h
      split_ifs at h
      · cases h
        exact ⟨List.mem_cons_of_mem _ hb', by
          intro x hx
          rcases List.mem_cons.mp hx with rfl | hx
          · exact List.mem_cons_self
          · exact List.mem_cons_of_mem _ (hothers x hx)⟩
      · cases h
        exact ⟨List.mem_cons_self, fun x hx => List.mem_cons_of_mem _ hx⟩

/-- The events of the frontier of a walk have a property. -/
def Walk.FrontIn (Q : Event → Prop) (w : Walk) : Prop := ∀ r ∈ w.frontier, Q r.event

/-- The visited events of a walk have a property, and each was expanded as
`vf` says. -/
def Walk.LoggedBy (Q : Event → Prop) (vf : Reached → Bool) (w : Walk) : Prop :=
  ∀ p ∈ w.log.toList, Q p.1.event ∧ p.2 = vf p.1

/-- A visit logged as `vf` says keeps the log so. -/
theorem Walk.LoggedBy.push {Q : Event → Prop} {vf : Reached → Bool} {w : Walk} (hl : w.LoggedBy Q vf)
    {it : Reached} {e : Bool} (hq : Q it.event) (he : e = vf it) (w' : Walk) (hlog : w'.log = w.log.push (it, e)) :
    w'.LoggedBy Q vf := by
  intro p hp
  rw [hlog, Array.toList_push, List.mem_append, List.mem_singleton] at hp
  rcases hp with hp | rfl
  · exact hl p hp
  · exact ⟨hq, he⟩

theorem Walk.LoggedBy.of_log {Q : Event → Prop} {vf : Reached → Bool} {w w' : Walk} (hl : w.LoggedBy Q vf)
    (h : w'.log = w.log) : w'.LoggedBy Q vf := by
  intro p hp
  rw [h] at hp
  exact hl p hp

/-- A dependency that a walk from `origin` in a direction records at `c`:
`c` is its cause when walking to causes, its consequence otherwise. -/
def Dependency.Links (d : Dependency) (dir : Direction) (origin c : Event) : Prop :=
  match dir with
  | .causes => d.cause = c.number ∧ d.consequence = origin.number
  | .consequences => d.cause = origin.number ∧ d.consequence = c.number

theorem DepCollector.mem_addAll {d : Dependency} :
    ∀ (ds : List Dependency) (c : DepCollector), d ∈ (c.addAll ds).deps → d ∈ c.deps ∨ d ∈ ds := by
  intro ds
  induction ds with
  | nil => intro c h; exact .inl h
  | cons d' ds ih =>
    intro c h
    rcases ih (c.add d') h with h | h
    · unfold DepCollector.add at h
      split at h
      · exact .inl h
      · rcases Array.mem_push.mp h with h | rfl
        · exact .inl h
        · exact .inr List.mem_cons_self
    · exact .inr (List.mem_cons_of_mem _ h)

theorem DepCollector.addAll_append (c : DepCollector) (xs ys : List Dependency) :
    c.addAll (xs ++ ys) = (c.addAll xs).addAll ys :=
  List.foldl_append

section
variable {σ : Type} {I : σ → Prop} {view : WalkView σ} {pview : WalkView Unit} {dir : Direction}
  {lim : Limits} {Q : Event → Prop}

/-- Following the edges of a visited event pushes only events the view finds. -/
theorem pushEdges_sim (hfind : ∀ n, Sim I (fun r => ∀ e, r = some e → Q e) (view.find n) (pview.find n))
    (it : Reached) : ∀ (ds : List Dependency) (w : Walk), w.FrontIn Q →
      Sim I (fun w' => w'.FrontIn Q ∧ w'.log = w.log) (pushEdges view dir lim it ds w)
        (pushEdges pview dir lim it ds w) := by
  intro ds
  induction ds with
  | nil => intro w hw; exact sim_pure ⟨hw, rfl⟩
  | cons d ds ih =>
    intro w hw
    unfold pushEdges
    dsimp only
    split_ifs
    · exact ih w hw
    · exact ih w hw
    · exact sim_pure ⟨hw, rfl⟩
    -- the item pushed differs for the origin, the argument does not
    all_goals
      refine (hfind _).bind fun e he => ?_
      cases e with
      | none => exact ih w hw
      | some e =>
        dsimp only
        split_ifs
        · exact ih w hw
        · -- the event pushed was found, so it has the property
          refine ih _ ?_
          intro r hr
          rcases List.mem_cons.mp hr with rfl | hr
          · exact he e rfl
          · exact hw r hr

/-- A walk whose view finds what a view without state finds, and whose visitor
answers as `vf`, walks as the walk over that view, and logs each visit as `vf`
says. -/
theorem walkLoop_sim (hfind : ∀ n, Sim I (fun r => ∀ e, r = some e → Q e) (view.find n) (pview.find n))
    (hcons : view.consequences = pview.consequences) {visit : Reached → StateT σ (Except Fault) Bool}
    {pvisit : Reached → StateT Unit (Except Fault) Bool} {vf : Reached → Bool}
    (hvisit : ∀ it, Q it.event → Sim I (fun b => b = vf it) (visit it) (pvisit it)) :
    ∀ (fuel : Nat) (w : Walk), w.FrontIn Q → w.LoggedBy Q vf →
      Sim I (Walk.LoggedBy Q vf) (walkLoop view dir lim false visit fuel w)
        (walkLoop pview dir lim false pvisit fuel w) := by
  -- both walks follow the same edges
  have hedges : ∀ it, walkLoop.edgesOf view dir it = walkLoop.edgesOf pview dir it := by
    intro it
    cases dir <;> simp [walkLoop.edgesOf, hcons]
  intro fuel
  induction fuel with
  | zero => intro w _ hl; exact sim_pure hl
  | succ fuel ih =>
    intro w hw hl
    unfold walkLoop
    split
    · exact sim_pure hl
    · rename_i it rest hpick
      obtain ⟨hit, hrest⟩ := pickNearest_mem hpick
      rw [if_neg (by simp), if_neg (by simp)]
      -- reading the clock, or not, leaves the frontier and the log as they were
      cases w.deadline <;> dsimp only <;> refine sim_ite (sim_pure hl) ?_
      all_goals
        have hfront : ∀ r ∈ rest, Q r.event := fun r hr => hw r (hrest r hr)
        split_ifs
        · rw [hedges]
          refine (pushEdges_sim hfind it _ _ ?_).bind fun w' hw' => ih w' hw'.1 (hl.of_log hw'.2)
          exact hfront
        · exact sim_pure hl
        · refine (hvisit it (hw it hit)).bind fun expand hexp => ?_
          split_ifs
          · rw [hedges]
            refine (pushEdges_sim hfind it _ _ ?_).bind fun w' hw' =>
              ih w' hw'.1 (hl.push (hw it hit) hexp w' hw'.2)
            exact hfront
          · exact ih _ hfront (hl.push (hw it hit) hexp _ rfl)

/-- The dependencies to the nearest accepted events are those of the walk
without state, and each links the origin to an event found and accepted. -/
theorem nearest_sim (hfind : ∀ n, Sim I (fun r => ∀ e, r = some e → Q e) (view.find n) (pview.find n))
    (hcons : view.consequences = pview.consequences) {accept : Event → StateT σ (Except Fault) Bool}
    {paccept : Event → StateT Unit (Except Fault) Bool} {acc : Event → Bool}
    (haccept : ∀ c, Q c → Sim I (fun b => b = acc c) (accept c) (paccept c)) {origin : Event} (horigin : Q origin)
    (size : Nat) (clock : Clock) :
    Sim I (fun r : DepSet => ∀ d ∈ r.deps, ∃ c, Q c ∧ acc c = true ∧ d.Links dir origin c)
      (nearest view size origin dir lim clock false accept) (nearest pview size origin dir lim clock false paccept) := by
  have hvisit : ∀ it : Reached, Q it.event →
      Sim I (fun b => b = !acc it.event) (do return !(← accept it.event)) (do return !(← paccept it.event)) :=
    fun it hq => (haccept it.event hq).bind fun b hb => sim_pure (by rw [hb])
  unfold nearest walk
  refine (walkLoop_sim hfind hcons hvisit _ _ ?_ ?_).bind fun w hw => sim_pure ?_
  · intro r hr
    rw [List.mem_singleton.mp hr]
    exact horigin
  · intro p hp
    simp at hp
  · -- a dependency is recorded at each visit that was not expanded, that is, accepted
    intro d hd
    rw [DepCollector.sorted, Dependency.sort, List.mem_mergeSort, Array.mem_toList_iff] at hd
    rcases DepCollector.mem_addAll _ _ hd with hd | hd
    · simp [DepCollector.empty] at hd
    · obtain ⟨⟨it, e⟩, hp, hmk⟩ := List.mem_filterMap.mp hd
      obtain ⟨hq, he⟩ := hw _ hp
      cases e with
      | true => simp at hmk
      | false =>
        refine ⟨it.event, hq, by simpa using he, ?_⟩
        cases dir <;> simp at hmk <;> rw [← hmk] <;> exact ⟨rfl, rfl⟩

end

end EventChart

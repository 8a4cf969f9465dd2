import EventChart.Chart.Mapper
import EventChart.Proofs.Graph.Collection
/-!
# Timeline coordinates of the full log

A mapper of the full log keeps, for the step and nonlinear modes, the
coordinates of a contiguous stretch of the log around its origin, filled by
walking outward from the origin one event at a time.  This file proves that
the cache is transparent: in every state a chart can reach by its queries,
the coordinate of an event is the one its definition gives, whatever queries
filled the cache before.

* `Mapper.Triple` is a Hoare triple for mapper computations, which keep
  their state when they fail: a precondition, a postcondition of the result,
  and one of the state a failure leaves.
* `Mapper.Stretch` is the invariant of the cache: the origin at position
  `k`, the walked stretch from `b` to `f`, and for the number of each event
  of the stretch its outward coordinate `Mapper.outward`, the gaps between
  consecutive events summed outward from the origin.
* `walk_go_forward` and `walk_go_backward` extend the stretch by one event
  per step; `coordinateOf_stretch` reads a coordinate off the stretch after
  walking to it.
* `Mapper.Reached` is every state a chart reaches from a new mapper by its
  queries, and `Reached.walked` the invariant of all of them.
* `Mapper.chartAt` places a new chart on an event in a given mode, a state
  it reaches (`reached_chartAt`).

In event-number mode the coordinate is the difference of the event numbers
wrapped to 64 bits (`Mapper.reference`), so it is the difference itself
only while that fits: on `wrapEnv`, whose two events are numbered -2⁶³ and
0, the later event has the smaller coordinate.
-/

namespace EventChart

namespace Mapper

/-! ## Triples for mapper computations -/

/-- The result and the state of a mapper computation run from `m`. -/
def exec {α : Type} (x : MapperM α) (m : Mapper) : Except Fault α × Mapper := x.run.run m

/-- How a run ends: `Q` of the result and the state when it returns, `R` of
the state when it fails. -/
def Ends {α : Type} (Q : α → Mapper → Prop) (R : Mapper → Prop) : Except Fault α × Mapper → Prop
  | (.ok a, m) => Q a m
  | (.error _, m) => R m

/-- From every state where `P` holds, `x` ends as `Q` and `R` say. -/
def Triple {α : Type} (P : Mapper → Prop) (x : MapperM α) (Q : α → Mapper → Prop) (R : Mapper → Prop) :
    Prop :=
  ∀ m, P m → Ends Q R (exec x m)

section Triple

variable {α β : Type} {P P' R R' : Mapper → Prop} {Q Q' : α → Mapper → Prop} {S : β → Mapper → Prop}

theorem triple_pure {a : α} (h : ∀ m, P m → Q a m) : Triple P (pure a) Q R := h

theorem triple_throw {e : Fault} (h : ∀ m, P m → R m) : Triple P (throw e : MapperM α) Q R := h

theorem triple_get {G : Mapper → Mapper → Prop} (h : ∀ m, P m → G m m) : Triple P get G R := h

theorem triple_set {U : PUnit → Mapper → Prop} {m' : Mapper} (h : ∀ m, P m → U () m') :
    Triple P (set m' : MapperM PUnit) U R :=
  fun m hm => h m hm

theorem triple_modify {U : PUnit → Mapper → Prop} {g : Mapper → Mapper} (h : ∀ m, P m → U () (g m)) :
    Triple P (modify g : MapperM PUnit) U R :=
  fun m hm => h m hm

theorem Triple.bind {x : MapperM α} {f : α → MapperM β} (hx : Triple P x Q R)
    (hf : ∀ a, Triple (Q a) (f a) S R) : Triple P (x >>= f) S R := by
  intro m hm
  have h := hx m hm
  unfold exec at h ⊢
  simp only [ExceptT.run_bind, StateT.run_bind]
  revert h
  rcases x.run.run m with ⟨r, m'⟩
  cases r with
  | error e => exact id
  | ok a => exact hf a m'

theorem Triple.mono {x : MapperM α} (hx : Triple P x Q R) (hP : ∀ m, P' m → P m)
    (hQ : ∀ a m, Q a m → Q' a m) (hR : ∀ m, R m → R' m) : Triple P' x Q' R' := by
  intro m hm
  have h := hx m (hP m hm)
  revert h
  rcases exec x m with ⟨r, m'⟩
  cases r with
  | error e => exact hR m'
  | ok a => exact hQ a m'

/-- A fact in the precondition may be taken out of it. -/
theorem Triple.of_pure {φ : Prop} {x : MapperM α} (h : φ → Triple P x Q R) : Triple (fun m => φ ∧ P m) x Q R :=
  fun m hm => h hm.1 m hm.2

/-- A triple whose precondition is a disjunction holds case by case. -/
theorem Triple.or {x : MapperM α} (h₁ : Triple P x Q R) (h₂ : Triple P' x Q R) :
    Triple (fun m => P m ∨ P' m) x Q R := by
  rintro m (hm | hm)
  · exact h₁ m hm
  · exact h₂ m hm

/-- A triple with an existential precondition holds for each witness. -/
theorem Triple.exists {γ : Type} {Pγ : γ → Mapper → Prop} {x : MapperM α}
    (h : ∀ g, Triple (Pγ g) x Q R) : Triple (fun m => ∃ g, Pγ g m) x Q R := by
  rintro m ⟨g, hm⟩
  exact h g m hm

end Triple

/-- From every state where `P` holds, `x` ends, whether it returns or
fails, in a state where `P` holds. -/
def Keeps {α : Type} (P : Mapper → Prop) (x : MapperM α) : Prop := ∀ m, P m → P (exec x m).2

section Keeps

variable {α β : Type} {P : Mapper → Prop}

theorem keeps_pure (a : α) : Keeps P (pure a) := fun _ h => h

theorem keeps_throw (e : Fault) : Keeps P (throw e : MapperM α) := fun _ h => h

theorem keeps_throw_bind (e : Fault) (f : α → MapperM β) : Keeps P (throw e >>= f) := fun _ h => h

theorem Keeps.bind {x : MapperM α} {f : α → MapperM β} (hx : Keeps P x) (hf : ∀ a, Keeps P (f a)) :
    Keeps P (x >>= f) := by
  intro m hm
  have h := hx m hm
  unfold exec at h ⊢
  simp only [ExceptT.run_bind, StateT.run_bind]
  revert h
  rcases x.run.run m with ⟨r, m'⟩
  cases r with
  | error e => exact id
  | ok a => exact hf a m'

/-- A computation that reads the state keeps `P` when what follows keeps it
from the state read. -/
theorem keeps_get_bind {f : Mapper → MapperM β} (h : ∀ m, P m → P (exec (f m) m).2) : Keeps P (get >>= f) :=
  fun m hm => h m hm

end Keeps

end Mapper

/-! ## Positions of the full log -/

namespace ChartEnv

variable {c : ChartEnv}

/-- The reference of the event at position `i` of the base. -/
def refAt (c : ChartEnv) (i : Nat) : EventRef := ⟨c.base.id, c.base.epoch, i⟩

/-- The number of the event at position `i` of the base, as the mapper
reads it. -/
def numberAt (c : ChartEnv) (i : Nat) : Int := c.numberOf (c.refAt i)

theorem event?_refAt (i : Nat) : c.event? (c.refAt i) = c.base.index.events[i]? := by
  simp [event?, refAt, EventLog.event?]

theorem numberAt_eq {i : Nat} (hi : i < c.base.length) : c.numberAt i = c.base.index.events[i].number := by
  simp [numberAt, numberOf, event?_refAt, Array.getElem?_eq_getElem (show i < c.base.index.events.size from hi)]
  rfl

theorem timeOf_refAt {i : Nat} (hi : i < c.base.length) :
    c.timeOf (c.refAt i) = c.base.index.events[i].time := by
  simp [timeOf, event?_refAt, Array.getElem?_eq_getElem (show i < c.base.index.events.size from hi)]
  rfl

theorem numberOf_refAt (i : Nat) : c.numberOf (c.refAt i) = c.numberAt i := rfl

@[simp] theorem refAt_canceled (canceled : Bool) : ({ c with canceled := canceled }).refAt = c.refAt := rfl

@[simp] theorem numberAt_canceled (canceled : Bool) : ({ c with canceled := canceled }).numberAt = c.numberAt :=
  rfl

@[simp] theorem timeOf_canceled (canceled : Bool) : ({ c with canceled := canceled }).timeOf = c.timeOf := rfl

@[simp] theorem isValid_refAt (i : Nat) : c.isValid (c.refAt i) = true := by
  simp [isValid, refAt]

/-- The reference of the event at a position is the one the log gives it. -/
theorem refOf_getElem (hl : c.base.Inv) {i : Nat} (hi : i < c.base.length) :
    c.base.refOf c.base.index.events[i] = c.refAt i := by
  obtain ⟨hidx, hepoch⟩ := Index.Placed.getElem hl i hi
  simp [EventLog.refOf, refAt, hidx, hepoch]

/-- Numbers grow along the log. -/
theorem numberAt_lt (hl : c.base.Inv) {i j : Nat} (hij : i < j) (hj : j < c.base.length) :
    c.numberAt i < c.numberAt j := by
  rw [numberAt_eq (by omega), numberAt_eq hj]
  have hord := Index.Placed.inOrder hl
  have hj' : j < c.base.index.events.size := hj
  have h := List.pairwise_iff_getElem.mp hord i j (by simp; omega) (by simpa using hj') hij
  simp only [Array.getElem_toList] at h
  exact h.1

theorem numberAt_lt_iff (hl : c.base.Inv) {i j : Nat} (hi : i < c.base.length) (hj : j < c.base.length) :
    c.numberAt i < c.numberAt j ↔ i < j := by
  constructor
  · intro h
    by_contra hji
    rcases Nat.lt_or_eq_of_le (Nat.le_of_not_lt hji) with hji | rfl
    · exact absurd (numberAt_lt hl hji hi) (by omega)
    · omega
  · intro h
    exact numberAt_lt hl h hj

theorem numberAt_inj (hl : c.base.Inv) {i j : Nat} (hi : i < c.base.length) (hj : j < c.base.length)
    (h : c.numberAt i = c.numberAt j) : i = j := by
  rcases Nat.lt_trichotomy i j with hij | hij | hij
  · exact absurd (numberAt_lt hl hij hj) (by omega)
  · exact hij
  · exact absurd (numberAt_lt hl hij hi) (by omega)

/-- The event at a position of the log, and none outside. -/
theorem eventAt_eq (hl : c.base.Inv) (j : Int) :
    c.base.eventAt j = if 0 ≤ j ∧ j < c.base.length then some (c.refAt j.toNat) else none := by
  have hsize : c.base.length = c.base.index.events.size := rfl
  unfold EventLog.eventAt
  by_cases hneg : j < 0
  · rw [if_pos hneg, if_neg (by omega)]
  · rw [if_neg hneg]
    by_cases hin : j < c.base.length
    · have hj : j.toNat < c.base.index.events.size := by omega
      rw [if_pos ⟨by omega, hin⟩, Array.getElem?_eq_getElem hj, Option.map_some, refOf_getElem hl hj]
    · rw [if_neg (by omega), Array.getElem?_eq_none (by omega), Option.map_none]

/-- Stepping from an event of the log moves by positions. -/
theorem neighbour_refAt (hl : c.base.Inv) {i : Nat} (hi : i < c.base.length) (d : Int) :
    c.base.neighbour (some (c.refAt i)) d = .ok (c.base.eventAt (i + d)) := by
  have hcheck : c.base.check (some (c.refAt i)) = .ok c.base.index.events[i] := by
    rw [← refOf_getElem hl hi]
    exact EventLog.check_refOf hl (Array.getElem_mem_toList hi)
  simp only [EventLog.neighbour, hcheck, bind, Except.bind, pure, Except.pure, (Index.Placed.getElem hl i hi).1]

theorem with_canceled_eq_self (hc : c.canceled = false) : ({ c with canceled := false } : ChartEnv) = c := by
  cases c
  simp_all

end ChartEnv

namespace Mapper

/-! ## The full view -/

variable {c : ChartEnv} {m : Mapper} {α : Type}

@[simp] theorem exec_pure (a : α) : exec (pure a : MapperM α) m = (.ok a, m) := rfl

@[simp] theorem exec_get : exec (get : MapperM Mapper) m = (.ok m, m) := rfl

@[simp] theorem exec_set (m' : Mapper) : exec (set m' : MapperM PUnit) m = (.ok (), m') := rfl

@[simp] theorem exec_modify (g : Mapper → Mapper) : exec (modify g : MapperM PUnit) m = (.ok (), g m) := rfl

@[simp] theorem exec_throw (e : Fault) : exec (throw e : MapperM α) m = (.error e, m) := rfl

theorem exec_bind_ok {β : Type} {x : MapperM α} {g : α → MapperM β} {a : α} {m' : Mapper}
    (h : exec x m = (.ok a, m')) : exec (x >>= g) m = exec (g a) m' := by
  unfold exec at h ⊢
  simp only [ExceptT.run_bind, StateT.run_bind, h]
  rfl

theorem exec_bind_error {β : Type} {x : MapperM α} {g : α → MapperM β} {e : Fault} {m' : Mapper}
    (h : exec x m = (.error e, m')) : exec (x >>= g) m = (.error e, m') := by
  unfold exec at h ⊢
  simp only [ExceptT.run_bind, StateT.run_bind, h]
  rfl

/-- A query of the full view answers without touching the mapper. -/
theorem exec_onView_through (hm : m.view = .full) (o : Except Fault α) (k : FilterM α) :
    exec (onView (LogView.through o k)) m = (o, m) := by
  obtain ⟨view, mode, minDelta, focusOption, epoch, origin, focus, coords, forward, backward⟩ := m
  subst hm
  cases o <;> rfl

end Mapper

/-! ## Outward coordinates -/

namespace Mapper

variable {c : ChartEnv} {m : Mapper}

/-- The distance, in step or nonlinear mode, between the events at positions
`i` and `i + 1` of the base. -/
def gap (c : ChartEnv) (m : Mapper) (i : Nat) : Float := delta c m (c.refAt i) (c.refAt (i + 1))

/-- The coordinate `n` events after the origin at position `k`, for the
gaps `g`. -/
def above (g : Nat → Float) (k : Nat) : Nat → Float
  | 0 => 0
  | n + 1 => above g k n + g (k + n)

/-- The coordinate `n` events before the origin at position `k`, for the
gaps `g`. -/
def below (g : Nat → Float) (k : Nat) : Nat → Float
  | 0 => 0
  | n + 1 => below g k n - g (k - (n + 1))

/-- The coordinate of position `j` for the origin at position `k`: the gaps
between consecutive events, summed outward from the origin one event at a
time. -/
def outward (g : Nat → Float) (k j : Nat) : Float :=
  if k ≤ j then above g k (j - k) else below g k (k - j)

variable {g : Nat → Float}

@[simp] theorem outward_self (k : Nat) : outward g k k = 0 := by
  simp [outward, above]

theorem outward_succ {k f : Nat} (hkf : k ≤ f) : outward g k (f + 1) = outward g k f + g f := by
  rw [outward, if_pos (by omega), outward, if_pos hkf, show f + 1 - k = (f - k) + 1 by omega, above,
    show k + (f - k) = f by omega]

theorem outward_pred {k b : Nat} (hbk : b ≤ k) (hb : 0 < b) :
    outward g k (b - 1) = outward g k b - g (b - 1) := by
  rcases Nat.lt_or_eq_of_le hbk with hbk | rfl
  · rw [outward, if_neg (by omega), outward, if_neg (by omega), show k - (b - 1) = (k - b) + 1 by omega, below,
      show k - (k - b + 1) = b - 1 by omega]
  · rw [outward, if_neg (by omega), show b - (b - 1) = 0 + 1 by omega, below, outward_self, below,
      show b - (0 + 1) = b - 1 by omega]

/-! ## The walked stretch -/

/-- A mapper of the full view of the base whose origin is at position `k`,
which has walked back to position `b` and forward to position `f`, and
which keeps for the number of each event of that stretch its outward
coordinate, and nothing else. -/
structure Stretch (c : ChartEnv) (m : Mapper) (b k f : Nat) : Prop where
  full : m.view = .full
  epoch : m.epoch = c.base.epoch
  le_origin : b ≤ k
  origin_le : k ≤ f
  lt_length : f < c.base.length
  origin : m.origin = some (c.refAt k)
  backward : m.backward = some (c.refAt b)
  forward : m.forward = some (c.refAt f)
  coord : ∀ i, b ≤ i → i ≤ f → m.coords[c.numberAt i]? = some (outward (gap c m) k i)
  walked : ∀ n, (m.coords[n]?).isSome → ∃ i, b ≤ i ∧ i ≤ f ∧ c.numberAt i = n

/-- The mapper after the forward walk moves on from position `f`. -/
def extendForward (m : Mapper) (c : ChartEnv) (f : Nat) : Mapper :=
  { m with coords := m.coords.insert (c.numberAt (f + 1)) (m.coords.getD (c.numberAt f) 0 + gap c m f),
           forward := some (c.refAt (f + 1)) }

/-- The mapper after the backward walk moves on from position `b`. -/
def extendBackward (m : Mapper) (c : ChartEnv) (b : Nat) : Mapper :=
  { m with coords := m.coords.insert (c.numberAt (b - 1)) (m.coords.getD (c.numberAt b) 0 - gap c m (b - 1)),
           backward := some (c.refAt (b - 1)) }

@[simp] theorem gap_extendForward (f : Nat) : gap c (m.extendForward c f) = gap c m := rfl

@[simp] theorem gap_extendBackward (b : Nat) : gap c (m.extendBackward c b) = gap c m := rfl

theorem getD_coord {b k f : Nat} (h : Stretch c m b k f) {i : Nat} (hbi : b ≤ i) (hif : i ≤ f) :
    m.coords.getD (c.numberAt i) 0 = outward (gap c m) k i := by
  rw [Std.HashMap.getD_eq_getD_getElem?, h.coord i hbi hif, Option.getD_some]

/-- Walking forward one event extends the stretch by it. -/
theorem Stretch.extendForward (hl : c.base.Inv) {b k f : Nat} (h : Stretch c m b k f)
    (hf : f + 1 < c.base.length) : Stretch c (m.extendForward c f) b k (f + 1) where
  full := h.full
  epoch := h.epoch
  le_origin := h.le_origin
  origin_le := by have := h.origin_le; omega
  lt_length := hf
  origin := h.origin
  backward := h.backward
  forward := rfl
  coord i hbi hif := by
    rw [gap_extendForward]
    simp only [Mapper.extendForward, Std.HashMap.getElem?_insert, beq_iff_eq]
    rcases Nat.lt_or_eq_of_le hif with hif | rfl
    · rw [if_neg fun he => absurd (ChartEnv.numberAt_inj hl hf (by omega) he) (by omega)]
      exact h.coord i hbi (by omega)
    · rw [if_pos rfl, getD_coord h (by have := h.le_origin; have := h.origin_le; omega) le_rfl,
        outward_succ h.origin_le]
  walked n hn := by
    simp only [Mapper.extendForward, Std.HashMap.getElem?_insert, beq_iff_eq] at hn
    split_ifs at hn with he
    · exact ⟨f + 1, by have := h.le_origin; have := h.origin_le; omega, le_rfl, he⟩
    · obtain ⟨i, hbi, hif, hi⟩ := h.walked n hn
      exact ⟨i, hbi, by omega, hi⟩

/-- Walking backward one event extends the stretch by it. -/
theorem Stretch.extendBackward (hl : c.base.Inv) {b k f : Nat} (h : Stretch c m b k f) (hb : 0 < b) :
    Stretch c (m.extendBackward c b) (b - 1) k f where
  full := h.full
  epoch := h.epoch
  le_origin := by have := h.le_origin; omega
  origin_le := h.origin_le
  lt_length := h.lt_length
  origin := h.origin
  backward := rfl
  forward := h.forward
  coord i hbi hif := by
    have hf := h.lt_length
    rw [gap_extendBackward]
    simp only [Mapper.extendBackward, Std.HashMap.getElem?_insert, beq_iff_eq]
    rcases Nat.lt_or_eq_of_le hbi with hbi | rfl
    · rw [if_neg fun he => absurd (ChartEnv.numberAt_inj hl (by omega) (by omega) he) (by omega)]
      exact h.coord i (by omega) hif
    · rw [if_pos rfl, getD_coord h le_rfl (by have := h.le_origin; have := h.origin_le; omega),
        outward_pred h.le_origin hb]
  walked n hn := by
    simp only [Mapper.extendBackward, Std.HashMap.getElem?_insert, beq_iff_eq] at hn
    split_ifs at hn with he
    · exact ⟨b - 1, le_rfl, by have := h.le_origin; have := h.origin_le; omega, he⟩
    · obtain ⟨i, hbi, hif, hi⟩ := h.walked n hn
      exact ⟨i, by omega, hif, hi⟩

end Mapper

/-! ## Walking the stretch -/

namespace Mapper

variable {c : ChartEnv} {m : Mapper}

theorem exec_neighbour (hl : c.base.Inv) (hm : m.view = .full) {i : Nat} (hi : i < c.base.length) (d : Int) :
    exec (onView (LogView.neighbour c.base c.canceled (some (c.refAt i)) d)) m = (.ok (c.base.eventAt (i + d)), m) := by
  rw [LogView.neighbour, exec_onView_through hm, ChartEnv.neighbour_refAt hl hi]

/-- One step of the forward walk from position `f`: it stops once it has
reached the target's number, fails when canceled at a check, stops at the
end of the log, and otherwise moves the forward end on to position
`f + 1`. -/
theorem exec_go_forward (hl : c.base.Inv) (hm : m.view = .full) {f : Nat} (hf : f < c.base.length)
    (target : Int) (fuel steps : Nat) :
    exec (walk.go c target 1 (fuel + 1) steps (c.refAt f)) m =
      if target ≤ c.numberAt f then (.ok (), m)
      else if steps % mapperCancelInterval = 0 ∧ c.canceled = true then (.error .canceled, m)
      else if f + 1 < c.base.length then
        exec (walk.go c target 1 fuel (steps + 1) (c.refAt (f + 1))) (m.extendForward c f)
      else (.ok (), m) := by
  rw [walk.go]
  dsimp only
  have hstop : ((1 : Int) > 0 ∧ c.numberOf (c.refAt f) ≥ target ∨ (1 : Int) < 0 ∧ c.numberOf (c.refAt f) ≤ target) ↔
      target ≤ c.numberAt f := by
    unfold ChartEnv.numberAt
    omega
  by_cases h1 : target ≤ c.numberAt f
  · rw [if_pos (hstop.mpr h1), if_pos h1]
    rfl
  rw [if_neg (mt hstop.mp h1), if_neg h1]
  by_cases hcancel : steps % mapperCancelInterval = 0 ∧ c.canceled = true
  · rw [if_pos hcancel, if_pos hcancel]
    exact exec_bind_error rfl
  rw [if_neg hcancel, if_neg hcancel, exec_bind_ok (exec_neighbour hl hm hf 1), ChartEnv.eventAt_eq hl]
  by_cases hnext : f + 1 < c.base.length
  · have hpos : ((f : Int) + 1).toNat = f + 1 := by omega
    rw [if_pos (by omega), if_pos hnext, hpos]
    dsimp only
    rw [exec_bind_ok exec_get, if_pos (by decide), exec_bind_ok (exec_set _)]
    rfl
  · rw [if_neg (by omega), if_neg hnext]
    rfl

/-- One step of the backward walk from position `b`: it stops once it has
reached the target's number, fails when canceled at a check, stops at the
start of the log, and otherwise moves the backward end on to position
`b - 1`. -/
theorem exec_go_backward (hl : c.base.Inv) (hm : m.view = .full) {b : Nat} (hb : b < c.base.length)
    (target : Int) (fuel steps : Nat) :
    exec (walk.go c target (-1) (fuel + 1) steps (c.refAt b)) m =
      if c.numberAt b ≤ target then (.ok (), m)
      else if steps % mapperCancelInterval = 0 ∧ c.canceled = true then (.error .canceled, m)
      else if 0 < b then
        exec (walk.go c target (-1) fuel (steps + 1) (c.refAt (b - 1))) (m.extendBackward c b)
      else (.ok (), m) := by
  rw [walk.go]
  dsimp only
  have hstop : ((-1 : Int) > 0 ∧ c.numberOf (c.refAt b) ≥ target ∨ (-1 : Int) < 0 ∧ c.numberOf (c.refAt b) ≤ target) ↔
      c.numberAt b ≤ target := by
    unfold ChartEnv.numberAt
    omega
  by_cases h1 : c.numberAt b ≤ target
  · rw [if_pos (hstop.mpr h1), if_pos h1]
    rfl
  rw [if_neg (mt hstop.mp h1), if_neg h1]
  by_cases hcancel : steps % mapperCancelInterval = 0 ∧ c.canceled = true
  · rw [if_pos hcancel, if_pos hcancel]
    exact exec_bind_error rfl
  rw [if_neg hcancel, if_neg hcancel, exec_bind_ok (exec_neighbour hl hm hb (-1)), ChartEnv.eventAt_eq hl]
  by_cases hprev : 0 < b
  · have hpos : ((b : Int) + -1).toNat = b - 1 := by omega
    rw [if_pos (by omega), if_pos hprev, hpos]
    dsimp only
    rw [exec_bind_ok exec_get, if_neg (by decide), exec_bind_ok (exec_set _), Mapper.extendBackward, gap,
      Nat.sub_add_cancel hprev]
    rfl
  · rw [if_neg (by omega), if_neg hprev]
    rfl


theorem exec_go_zero (target dir : Int) (steps : Nat) (cur : EventRef) :
    exec (walk.go c target dir 0 steps cur) m = (.ok (), m) := by
  rw [walk.go]
  rfl

section
variable (hl : c.base.Inv) {b k : Nat}
include hl

/-- Whatever its target and however it ends, the forward walk keeps a
stretch around the origin. -/
theorem go_forward_stretch (target : Int) :
    ∀ (fuel steps f : Nat) (m : Mapper), Stretch c m b k f →
      ∃ f', Stretch c (exec (walk.go c target 1 fuel steps (c.refAt f)) m).2 b k f'
  | 0, _, f, m, h => ⟨f, by rw [exec_go_zero]; exact h⟩
  | fuel + 1, steps, f, m, h => by
    rw [exec_go_forward hl h.full h.lt_length]
    split_ifs with hstop hcancel hnext
    · exact ⟨f, h⟩
    · exact ⟨f, h⟩
    · exact go_forward_stretch target fuel (steps + 1) (f + 1) _ (h.extendForward hl hnext)
    · exact ⟨f, h⟩

/-- Whatever its target and however it ends, the backward walk keeps a
stretch around the origin. -/
theorem go_backward_stretch (target : Int) {f : Nat} :
    ∀ (fuel steps b : Nat) (m : Mapper), Stretch c m b k f →
      ∃ b', Stretch c (exec (walk.go c target (-1) fuel steps (c.refAt b)) m).2 b' k f
  | 0, _, b, m, h => ⟨b, by rw [exec_go_zero]; exact h⟩
  | fuel + 1, steps, b, m, h => by
    rw [exec_go_backward hl h.full (by have := h.le_origin; have := h.origin_le; have := h.lt_length; omega)]
    split_ifs with hstop hcancel hprev
    · exact ⟨b, h⟩
    · exact ⟨b, h⟩
    · exact go_backward_stretch target fuel (steps + 1) (b - 1) _ (h.extendBackward hl hprev)
    · exact ⟨b, h⟩

/-- Unless canceled, the forward walk to the number of a later event, with
fuel for every event on the way, stops at that event. -/
theorem go_forward_reaches (hc : c.canceled = false) {j : Nat} (hj : j < c.base.length) :
    ∀ (fuel steps f : Nat) (m : Mapper), Stretch c m b k f → f ≤ j → j - f < fuel →
      ∃ m', exec (walk.go c (c.numberAt j) 1 fuel steps (c.refAt f)) m = (.ok (), m') ∧ Stretch c m' b k j ∧
        gap c m' = gap c m ∧ m'.mode = m.mode
  | 0, _, _, _, _, _, hfuel => absurd hfuel (Nat.not_lt_zero _)
  | fuel + 1, steps, f, m, h, hfj, hfuel => by
    rw [exec_go_forward hl h.full h.lt_length]
    rcases Nat.lt_or_eq_of_le hfj with hfj | rfl
    · have hlt := ChartEnv.numberAt_lt hl hfj hj
      rw [if_neg (by omega), if_neg (by simp [hc]), if_pos (by omega)]
      exact go_forward_reaches hc hj fuel (steps + 1) (f + 1) _ (h.extendForward hl (by omega)) hfj (by omega)
    · exact ⟨m, by rw [if_pos le_rfl], h, rfl, rfl⟩

/-- Unless canceled, the backward walk to the number of an earlier event,
with fuel for every event on the way, stops at that event. -/
theorem go_backward_reaches (hc : c.canceled = false) {j f : Nat} :
    ∀ (fuel steps b : Nat) (m : Mapper), Stretch c m b k f → j ≤ b → b - j < fuel →
      ∃ m', exec (walk.go c (c.numberAt j) (-1) fuel steps (c.refAt b)) m = (.ok (), m') ∧ Stretch c m' j k f ∧
        gap c m' = gap c m ∧ m'.mode = m.mode
  | 0, _, _, _, _, _, hfuel => absurd hfuel (Nat.not_lt_zero _)
  | fuel + 1, steps, b, m, h, hjb, hfuel => by
    have hb : b < c.base.length := by have := h.le_origin; have := h.origin_le; have := h.lt_length; omega
    rw [exec_go_backward hl h.full hb]
    rcases Nat.lt_or_eq_of_le hjb with hjb | rfl
    · have hlt := ChartEnv.numberAt_lt hl hjb hb
      rw [if_neg (by omega), if_neg (by simp [hc]), if_pos (by omega)]
      exact go_backward_reaches hc fuel (steps + 1) (b - 1) _ (h.extendBackward hl (by omega)) (by omega)
        (by omega)
    · exact ⟨m, by rw [if_pos le_rfl], h, rfl, rfl⟩

end

theorem exec_walk_forward {r : EventRef} (h : m.forward = some r) (target : Int) :
    exec (walk c target 1) m = exec (walk.go c target 1 (c.base.length + 2) 0 r) m := by
  unfold walk
  rw [exec_bind_ok exec_get]
  simp [h]

theorem exec_walk_backward {r : EventRef} (h : m.backward = some r) (target : Int) :
    exec (walk c target (-1)) m = exec (walk.go c target (-1) (c.base.length + 2) 0 r) m := by
  unfold walk
  rw [exec_bind_ok exec_get]
  simp [h]

end Mapper

/-! ## Reading a coordinate -/

namespace Mapper

variable {c : ChartEnv} {m : Mapper}

/-- A mapper of the full view with its origin at position `k` and some
walked stretch around it. -/
def StretchAt (c : ChartEnv) (k : Nat) (m : Mapper) : Prop := ∃ b f, Stretch c m b k f

/-- A mapper with a stretch answers its origin at once. -/
theorem exec_sync {b k f : Nat} (h : Stretch c m b k f) : exec (sync c) m = (.ok (c.refAt k), m) := by
  unfold sync
  rw [exec_bind_ok exec_get]
  simp only [h.origin, h.epoch, ChartEnv.isValid_refAt, bne_self_eq_false, Bool.not_true, Bool.or_false,
    Bool.false_eq_true, if_false]
  rw [exec_bind_ok exec_get, h.origin]
  rfl

/-- A mapper without an origin answers that it has none. -/
theorem exec_sync_none (he : m.epoch = c.base.epoch) (ho : m.origin = none) :
    exec (sync c) m = (.error .noOrigin, m) := by
  unfold sync
  rw [exec_bind_ok exec_get]
  simp only [ho, he, bne_self_eq_false, Bool.or_false, Bool.false_eq_true, if_false]
  rw [exec_bind_ok exec_get, ho]
  rfl


theorem walk_forward_keeps (hl : c.base.Inv) {k : Nat} (target : Int) :
    Keeps (StretchAt c k) (walk c target 1) := by
  rintro m ⟨b, f, h⟩
  rw [exec_walk_forward h.forward]
  obtain ⟨f', h'⟩ := go_forward_stretch hl target (c.base.length + 2) 0 f m h
  exact ⟨b, f', h'⟩

theorem walk_backward_keeps (hl : c.base.Inv) {k : Nat} (target : Int) :
    Keeps (StretchAt c k) (walk c target (-1)) := by
  rintro m ⟨b, f, h⟩
  rw [exec_walk_backward h.backward]
  obtain ⟨b', h'⟩ := go_backward_stretch hl target (c.base.length + 2) 0 b m h
  exact ⟨b', f, h'⟩

/-- Reading a coordinate keeps a stretch around the origin, whatever the
event and however the reading ends. -/
theorem coordinateOf_keeps (hl : c.base.Inv) {k : Nat} (o e : EventRef) :
    Keeps (StretchAt c k) (coordinateOf c o e) := by
  unfold coordinateOf
  refine keeps_get_bind fun m hm => ?_
  dsimp only
  split
  · exact hm
  · exact hm
  · split
    · exact hm
    · -- after a walk, the cache is read once more, which keeps the state
      split_ifs
      · exact (Keeps.bind (walk_forward_keeps hl _) fun _ => keeps_get_bind fun m' hm' => by
          split <;> exact hm') m hm
      · exact (Keeps.bind (walk_backward_keeps hl _) fun _ => keeps_get_bind fun m' hm' => by
          split <;> exact hm') m hm
      · refine keeps_get_bind (fun m' hm' => ?_) m hm
        split <;> exact hm'

/-- The coordinate of the event at position `j` of the base for the origin
at position `k`, by the definition of the mode: the time since the origin in
seconds, the difference of the event numbers wrapped to 64 bits, or in step
and nonlinear modes the outward sum of the gaps. -/
def reference (c : ChartEnv) (m : Mapper) (k j : Nat) : Float :=
  match m.mode with
  | .simulationTime => (c.timeOf (c.refAt j) - c.timeOf (c.refAt k)).toFloat
  | .eventNumber => Float.ofInt ((c.numberAt j - c.numberAt k).bmod (2 ^ 64))
  | .step => outward (gap c m) k j
  | .nonlinear => outward (gap c m) k j

/-- Zero, written with any exponent, is the float zero. -/
theorem ofScientific_zero (s : Bool) (n : Nat) : Float.ofScientific 0 s n = 0 := by
  unfold Float.ofScientific
  split
  · -- the exactly representable powers of ten: one evaluation each
    rename_i h
    obtain ⟨-, hn⟩ := h
    interval_cases n <;> cases s <;> decide +kernel +revert
  · unfold Float.Model.ofScientific Float.Model.UnpackedFloat.ofScientific
    dsimp only
    rw [dif_pos rfl]
    decide +kernel

/-- A time less itself is zero seconds. -/
theorem toFloat_sub_self (t : SimTime) : (t - t).toFloat = 0 := by
  show (SimTime.sub t t).toFloat = 0
  simp only [SimTime.sub, SimTime.toFloat, min_self, Int.sub_self, Int.natAbs_zero, ofScientific_zero]
  rfl

/-- The reference coordinates depend on the mode and the gaps only. -/
theorem reference_congr {m' : Mapper} (hmode : m'.mode = m.mode) (hgap : gap c m' = gap c m) (k : Nat) :
    reference c m' k = reference c m k := by
  funext j
  unfold reference
  rw [hmode, hgap]

/-- The origin's reference coordinate is 0 in every mode. -/
theorem reference_self (k : Nat) : reference c m k k = 0 := by
  unfold reference
  split
  · exact toFloat_sub_self _
  · simp only [Int.sub_self]
    rfl
  · exact outward_self k
  · exact outward_self k

/-- Unless canceled, the coordinate read for an event of the base is its
reference coordinate, walking the stretch out to it when it is not cached;
the reference coordinates stay as they were. -/
theorem coordinateOf_stretch (hl : c.base.Inv) (hc : c.canceled = false) {b k f : Nat} (h : Stretch c m b k f)
    {j : Nat} (hj : j < c.base.length) :
    ∃ m', exec (coordinateOf c (c.refAt k) (c.refAt j)) m = (.ok (reference c m k j), m') ∧ StretchAt c k m' ∧
      reference c m' k = reference c m k := by
  unfold coordinateOf
  rw [exec_bind_ok exec_get]
  dsimp only
  split
  · rename_i hmode
    exact ⟨m, by simp [reference, hmode], ⟨b, f, h⟩, rfl⟩
  · rename_i hmode
    exact ⟨m, by simp [reference, hmode, ChartEnv.numberAt, Int64.toInt_sub, Int64.toInt_ofInt], ⟨b, f, h⟩, rfl⟩
  · rename_i mode hsim hnum
    have href : reference c m k j = outward (gap c m) k j := by
      unfold reference
      split <;> simp_all
    have hf := h.lt_length
    have hbk := h.le_origin
    have hkf := h.origin_le
    rw [href]
    simp only [ChartEnv.numberOf_refAt, Std.HashMap.get?_eq_getElem?, h.forward, h.backward, Option.map_some,
      Option.getD_some]
    split
    · -- a cached coordinate is the one of its event
      rename_i x hx
      obtain ⟨i, hbi, hif, hi⟩ := h.walked _ (by rw [hx]; rfl)
      obtain rfl := ChartEnv.numberAt_inj hl (by omega) hj hi
      rw [h.coord i hbi hif] at hx
      cases hx
      exact ⟨m, rfl, ⟨b, f, h⟩, rfl⟩
    · rename_i hnone
      split_ifs with hgt hlt
      · -- a later event: walk forward to it
        have hfj : f < j := (ChartEnv.numberAt_lt_iff hl hf hj).mp hgt
        obtain ⟨m', hrun, h', hgap, hmode⟩ := go_forward_reaches hl hc hj (c.base.length + 2) 0 f m h hfj.le (by omega)
        rw [exec_bind_ok ((exec_walk_forward h.forward _).trans hrun), exec_bind_ok exec_get]
        simp only [h'.coord j (by omega) le_rfl, hgap]
        exact ⟨m', rfl, ⟨b, j, h'⟩, reference_congr hmode hgap k⟩
      · -- an earlier event: walk backward to it
        have hjb : j < b := (ChartEnv.numberAt_lt_iff hl hj (by omega)).mp hlt
        obtain ⟨m', hrun, h', hgap, hmode⟩ := go_backward_reaches hl hc (c.base.length + 2) 0 b m h hjb.le (by omega)
        rw [exec_bind_ok ((exec_walk_backward h.backward _).trans hrun), exec_bind_ok exec_get]
        simp only [h'.coord j le_rfl (by omega), hgap]
        exact ⟨m', rfl, ⟨j, f, h'⟩, reference_congr hmode hgap k⟩
      · -- an event of the stretch is cached
        have hbj : b ≤ j := by
          by_contra hjb
          exact hlt ((ChartEnv.numberAt_lt_iff hl hj (by omega)).mpr (by omega))
        have hjf : j ≤ f := by
          by_contra hfj
          exact hgt ((ChartEnv.numberAt_lt_iff hl hf hj).mpr (by omega))
        exact absurd (h.coord j hbj hjf) (hnone _)


/-! ## Queries keep the stretch -/

section Queries

variable (hl : c.base.Inv) {k : Nat}
include hl

omit hl in
theorem keeps_onView {α : Type} (o : Except Fault α) (q : FilterM α) :
    Keeps (StretchAt c k) (onView (LogView.through o q)) := by
  rintro m ⟨b, f, h⟩
  rw [exec_onView_through h.full]
  exact ⟨b, f, h⟩

omit hl in
theorem keeps_liftExcept {α : Type} {P : Mapper → Prop} (r : Except Fault α) : Keeps P (liftExcept r) := by
  unfold liftExcept
  split
  · exact keeps_pure _
  · exact keeps_throw _

omit hl in
theorem start_keeps (o : EventRef) (x : Float) : Keeps (StretchAt c k) (start c o x) := by
  unfold start
  refine keeps_get_bind fun m hm => ?_
  dsimp only
  split
  · refine (Keeps.bind (keeps_liftExcept _) fun d => Keeps.bind (keeps_onView _ _) fun r => ?_) m hm
    split
    · exact keeps_pure _
    · exact keeps_onView _ _
  · split
    · split_ifs <;> exact hm
    · exact hm
  · split_ifs <;> exact hm

theorem lastAtMost_go_keeps (o : EventRef) (x : Float) :
    ∀ (fuel steps : Nat) (e : EventRef) (ce : Float), Keeps (StretchAt c k) (lastAtMost.go c o x fuel steps e ce)
  | 0, _, _, _ => by
    rw [lastAtMost.go]
    exact keeps_pure _
  | fuel + 1, steps, e, ce => by
    rw [lastAtMost.go]
    dsimp only
    generalize (if ce > x then (-1 : Int) else 1) = dir
    by_cases hcancel : steps % mapperCancelInterval = 0 ∧ c.canceled = true
    · rw [if_pos hcancel]
      exact keeps_throw_bind _ _
    · rw [if_neg hcancel]
      refine Keeps.bind (keeps_onView _ _) fun r => ?_
      split
      · exact keeps_pure _
      · refine Keeps.bind (coordinateOf_keeps hl _ _) fun cn => ?_
        split_ifs
        · exact keeps_pure _
        · exact keeps_pure _
        · exact lastAtMost_go_keeps o x fuel (steps + 1) _ cn

theorem lastAtMost_keeps (o : EventRef) (x : Float) : Keeps (StretchAt c k) (lastAtMost c o x) := by
  unfold lastAtMost
  refine Keeps.bind (start_keeps o x) fun r => ?_
  split
  · exact keeps_pure _
  · exact Keeps.bind (coordinateOf_keeps hl _ _) fun ce => lastAtMost_go_keeps hl o x _ _ _ ce

theorem firstOfRun_go_keeps (o : EventRef) (x : Float) :
    ∀ (fuel : Nat) (e : EventRef), Keeps (StretchAt c k) (firstOfRun.go c o x fuel e)
  | 0, _ => by
    rw [firstOfRun.go]
    exact keeps_pure _
  | fuel + 1, e => by
    rw [firstOfRun.go]
    refine Keeps.bind (keeps_onView _ _) fun r => ?_
    split
    · exact keeps_pure _
    · refine Keeps.bind (coordinateOf_keeps hl _ _) fun cp => ?_
      split_ifs
      · exact keeps_pure _
      · exact firstOfRun_go_keeps o x fuel _

theorem firstOfRun_keeps (o e : EventRef) (x : Float) : Keeps (StretchAt c k) (firstOfRun c o e x) :=
  firstOfRun_go_keeps hl o x _ e

end Queries


/-! ## Every query keeps the mapper walked -/

/-- The states of a mapper of the full view of the base in the base's
epoch: without an origin, or with a walked stretch around one. -/
def Walked (c : ChartEnv) (m : Mapper) : Prop :=
  (m.view = .full ∧ m.epoch = c.base.epoch ∧ m.origin = none) ∨ ∃ k, StretchAt c k m

theorem Walked.full {m : Mapper} (h : Walked c m) : m.view = .full := by
  rcases h with ⟨hv, -⟩ | ⟨k, b, f, h⟩
  · exact hv
  · exact h.full

theorem Walked.epoch {m : Mapper} (h : Walked c m) : m.epoch = c.base.epoch := by
  rcases h with ⟨-, he, -⟩ | ⟨k, b, f, h⟩
  · exact he
  · exact h.epoch

/-- A query that starts by asking for the origin keeps the mapper walked
when what follows keeps each stretch: without an origin it fails at once. -/
theorem keeps_after_sync {α : Type} {g : EventRef → MapperM α} (hg : ∀ k, Keeps (StretchAt c k) (g (c.refAt k))) :
    Keeps (Walked c) (sync c >>= g) := by
  rintro m (⟨hv, he, ho⟩ | ⟨k, b, f, h⟩)
  · rw [exec_bind_error (exec_sync_none he ho)]
    exact .inl ⟨hv, he, ho⟩
  · rw [exec_bind_ok (exec_sync h)]
    exact .inr ⟨k, hg k m ⟨b, f, h⟩⟩

section Queries

variable (hl : c.base.Inv)
include hl

theorem coordinate_keeps (e : Option EventRef) : Keeps (Walked c) (coordinate c e) := by
  refine keeps_after_sync fun k => ?_
  split
  · exact keeps_throw _
  · dsimp only
    split_ifs
    · exact keeps_throw_bind _ _
    · exact coordinateOf_keeps hl _ _

theorem lastNotAfter_keeps (x : Float) : Keeps (Walked c) (lastNotAfter c x) :=
  keeps_after_sync fun _ => lastAtMost_keeps hl _ x

theorem firstNotBefore_keeps (x : Float) : Keeps (Walked c) (firstNotBefore c x) := by
  refine keeps_after_sync fun k => Keeps.bind (lastAtMost_keeps hl _ x) fun lo => ?_
  split
  · exact keeps_onView _ _
  · refine Keeps.bind (coordinateOf_keeps hl _ _) fun cl => ?_
    split_ifs
    · exact Keeps.bind (firstOfRun_keeps hl _ _ x) fun _ => keeps_pure _
    · exact keeps_onView _ _

theorem coordinateAt_keeps (t : SimTime) (upper : Bool) : Keeps (Walked c) (coordinateAt c t upper) := by
  refine keeps_after_sync fun k => keeps_get_bind fun m hm => ?_
  by_cases hmode : m.mode = .simulationTime
  · rw [if_pos hmode]
    exact hm
  rw [if_neg hmode]
  refine (Keeps.bind (keeps_onView _ _) fun lo => Keeps.bind (keeps_onView _ _) fun hi => ?_) m hm
  split
  · exact keeps_pure _
  · exact coordinateOf_keeps hl _ _
  · exact coordinateOf_keeps hl _ _
  · split
    · split
      · exact coordinateOf_keeps hl _ _
      · exact coordinateOf_keeps hl _ _
    · exact Keeps.bind (coordinateOf_keeps hl _ _) fun _ =>
        Keeps.bind (coordinateOf_keeps hl _ _) fun _ => keeps_pure _

theorem timeAt_keeps (x : Float) (upper : Bool) : Keeps (Walked c) (timeAt c x upper) := by
  refine keeps_after_sync fun k => Keeps.bind (lastAtMost_keeps hl _ x) fun lo => ?_
  -- the time is read off the events at and after the coordinate, and
  -- interpolated between their coordinates
  cases lo with
  | none =>
    dsimp only
    refine Keeps.bind (keeps_onView _ _) fun hi =>
      Keeps.bind (keeps_liftExcept _) fun d => keeps_get_bind fun m hm => ?_
    cases hi with
    | none => exact hm
    | some h =>
      dsimp only
      split_ifs <;> exact hm
  | some l =>
    dsimp only
    refine Keeps.bind (coordinateOf_keeps hl _ _) fun cl => ?_
    by_cases hcl : (cl == x) = true
    · rw [if_pos hcl]
      split
      · exact keeps_pure _
      · exact Keeps.bind (firstOfRun_keeps hl _ _ x) fun _ => keeps_pure _
    rw [if_neg hcl]
    refine Keeps.bind (keeps_onView _ _) fun hi =>
      Keeps.bind (keeps_liftExcept _) fun d => keeps_get_bind fun m hm => ?_
    cases hi with
    | none =>
      dsimp only
      split_ifs <;> exact hm
    | some h =>
      dsimp only
      by_cases hmode : m.mode = .simulationTime
      · rw [if_pos hmode]
        exact hm
      rw [if_neg hmode]
      exact (Keeps.bind (coordinateOf_keeps hl _ _) fun _ => Keeps.bind (keeps_liftExcept _) fun _ =>
        keeps_pure _) m hm

end Queries


/-! ## Moving the origin -/

/-- An origin that is none or an event of the base. -/
def OnBase (c : ChartEnv) (o : Option EventRef) : Prop := ∀ r, o = some r → ∃ k < c.base.length, r = c.refAt k

/-- Moving the origin to none or to an event of the base leaves the mapper
walked: an origin alone is a stretch of one event. -/
theorem relocate_walked {m : Mapper} (hv : m.view = .full) (he : m.epoch = c.base.epoch) {o : Option EventRef}
    (ho : OnBase c o) : Walked c (exec (relocate c o) m).2 := by
  unfold relocate
  rw [exec_modify]
  cases o with
  | none => exact .inl ⟨hv, he, rfl⟩
  | some r =>
    obtain ⟨k, hk, rfl⟩ := ho r rfl
    refine .inr ⟨k, k, k, ⟨hv, he, le_rfl, le_rfl, hk, rfl, rfl, rfl, fun i hki hik => ?_, fun n hn => ?_⟩⟩
    · obtain rfl : i = k := by omega
      simp [ChartEnv.numberOf_refAt]
    · refine ⟨k, le_rfl, le_rfl, ?_⟩
      simp only [Std.HashMap.getElem?_insert, Std.HashMap.getElem?_empty, beq_iff_eq] at hn
      split_ifs at hn with h
      · exact h
      · cases hn

theorem setMode_keeps (mode : Mode) : Keeps (Walked c) (setMode c mode) := by
  unfold setMode
  refine keeps_get_bind fun m hm => ?_
  split_ifs
  · exact hm
  rw [exec_bind_ok (exec_set _)]
  refine relocate_walked (m := { m with mode := mode }) hm.full hm.epoch fun r hr => ?_
  rcases hm with ⟨-, -, ho⟩ | ⟨k, b, f, h⟩
  · rw [ho] at hr
    cases hr
  · rw [h.origin] at hr
    cases hr
    exact ⟨k, by have := h.origin_le; have := h.lt_length; omega, rfl⟩

theorem relocateOrigin_keeps (hl : c.base.Inv) {e : Event} (he : e ∈ c.base.index.events.toList) :
    Keeps (Walked c) (relocateOrigin c (some (c.base.refOf e))) := by
  obtain ⟨i, hi, rfl⟩ := List.getElem_of_mem he
  have href : c.base.refOf c.base.index.events.toList[i] = c.refAt i := by
    rw [Array.getElem_toList]
    exact ChartEnv.refOf_getElem hl _
  have hi' : i < c.base.length := by
    simp only [Array.length_toList] at hi
    exact hi
  intro m hm
  rw [href]
  unfold relocateOrigin
  dsimp only
  rw [ChartEnv.isValid_refAt, Bool.not_true, if_neg Bool.false_ne_true]
  exact relocate_walked hm.full hm.epoch fun r hr => ⟨i, hi', (Option.some.inj hr).symm⟩

theorem relocate_none_keeps : Keeps (Walked c) (relocate c none) :=
  fun _ hm => relocate_walked hm.full hm.epoch fun _ hr => by cases hr


theorem onBase_first (hl : c.base.Inv) : OnBase c c.base.first := by
  intro r hr
  unfold EventLog.first at hr
  rw [ChartEnv.eventAt_eq hl] at hr
  split_ifs at hr with h
  obtain rfl := Option.some.inj hr
  exact ⟨0, by omega, rfl⟩

theorem onBase_eventForNumber (hl : c.base.Inv) (n : Int) : OnBase c (c.base.eventForNumber n) := by
  intro r hr
  unfold EventLog.eventForNumber at hr
  obtain ⟨e, hfind, rfl⟩ := Option.map_eq_some_iff.mp hr
  obtain ⟨i, hi, rfl⟩ := List.getElem_of_mem (EventLog.mem_of_find? hl hfind)
  have href : c.base.refOf c.base.index.events.toList[i] = c.refAt i := by
    rw [Array.getElem_toList]
    exact ChartEnv.refOf_getElem hl _
  have hi' : i < c.base.length := by
    simp only [Array.length_toList] at hi
    exact hi
  exact ⟨i, hi', href⟩

theorem OnBase.orElse {a b : Option EventRef} (ha : OnBase c a) (hb : OnBase c b) : OnBase c (a <|> b) := by
  cases a with
  | none => exact hb
  | some r => exact ha

/-- A query of the full view that answers `a` keeps any state of the full
view. -/
theorem triple_onView_ok {α : Type} {E : Mapper → Prop} {R : Mapper → Prop} (hE : ∀ m, E m → m.view = .full)
    (a : α) (q : FilterM α) :
    Triple E (onView (LogView.through (.ok a) q)) (fun a' m => a' = a ∧ E m) R := by
  intro m hm
  rw [exec_onView_through (hE m hm)]
  exact ⟨rfl, hm⟩

theorem triple_relocate {E R : Mapper → Prop} (hE : ∀ m, E m → m.view = .full ∧ m.epoch = c.base.epoch)
    {o : Option EventRef} (ho : OnBase c o) : Triple E (relocate c o) (fun _ => Walked c) R :=
  fun m hm => relocate_walked (hE m hm).1 (hE m hm).2 ho

/-- A reset of a mapper of the full view never fails, and leaves it walked:
the origin is found again by its number, or becomes the first event. -/
theorem reset_walked (hl : c.base.Inv) :
    Triple (fun m => m.view = .full) (reset c) (fun _ => Walked c) (fun _ => False) := by
  unfold reset
  dsimp only
  -- from the first step on, the mapper is in the base's epoch
  refine Triple.bind (Q := fun _ m => m.view = .full ∧ m.epoch = c.base.epoch)
    (triple_modify fun m hm => ⟨hm, rfl⟩) fun _ => ?_
  refine Triple.bind (triple_onView_ok (fun m hm => hm.1) _ _) fun first => Triple.of_pure fun hfirst => ?_
  refine Triple.bind (triple_onView_ok (fun m hm => hm.1) _ _) fun last => Triple.of_pure fun _ => ?_
  refine Triple.bind (triple_get (G := fun _ m => m.view = .full ∧ m.epoch = c.base.epoch) fun m hm => hm)
    fun m0 => ?_
  split_ifs
  on_goal 1 => refine Triple.bind (triple_onView_ok (fun m hm => hm.1) _ _) fun n => Triple.of_pure fun _ => ?_
  -- the focus is set, and the origin found again by its number
  all_goals
    refine Triple.bind (triple_pure (Q := fun _ m => m.view = .full ∧ m.epoch = c.base.epoch) fun m hm => hm)
      fun focus => ?_
    refine Triple.bind (triple_modify (U := fun _ m => m.view = .full ∧ m.epoch = c.base.epoch) fun m hm => hm)
      fun _ => ?_
    refine Triple.bind (triple_get (G := fun _ m => m.view = .full ∧ m.epoch = c.base.epoch) fun m hm => hm)
      fun m1 => ?_
    split
    · refine Triple.bind (triple_onView_ok (fun m hm => hm.1) _ _) fun o => Triple.of_pure fun ho => ?_
      rw [ho, hfirst]
      exact triple_relocate (fun m hm => hm) ((onBase_eventForNumber hl _).orElse (onBase_first hl))
    · refine Triple.bind (triple_pure (Q := fun o m => o = none ∧ (m.view = .full ∧ m.epoch = c.base.epoch))
        fun m hm => ⟨rfl, hm⟩) fun o => Triple.of_pure fun ho => ?_
      rw [ho, hfirst]
      exact triple_relocate (fun m hm => hm) (OnBase.orElse (fun _ h => by cases h) (onBase_first hl))


theorem walked_of_reset (hl : c.base.Inv) {m₀ m' : Mapper} (hv : m₀.view = .full)
    (h : exec (reset c) m₀ = (.ok (), m')) : Walked c m' := by
  have hr := reset_walked hl m₀ hv
  rw [h] at hr
  exact hr

theorem create_walked (hl : c.base.Inv) {mode : Mode} {minDelta focus : Float} {m : Mapper}
    (h : create c .full mode minDelta focus = .ok m) : Walked c m := by
  unfold create at h
  dsimp only at h
  split at h
  · rename_i m' hrun
    cases h
    exact walked_of_reset hl rfl hrun
  · cases h


theorem reset_keeps (hl : c.base.Inv) : Keeps (Walked c) (reset c) := by
  intro m hm
  have hr := reset_walked hl m hm.full
  revert hr
  rcases exec (reset c) m with ⟨r, m'⟩
  cases r with
  | ok u => exact id
  | error e => exact False.elim

/-! ## Every reachable state -/

theorem gap_canceled (canceled : Bool) : gap { c with canceled := canceled } m = gap c m := by
  funext i
  simp only [gap, delta, ChartEnv.timeOf_canceled, ChartEnv.refAt_canceled]

/-- A stretch does not depend on whether the chart gave up. -/
theorem stretch_canceled {b k f : Nat} (canceled : Bool) :
    Stretch { c with canceled := canceled } m b k f ↔ Stretch c m b k f := by
  constructor
  · intro h
    refine ⟨h.full, h.epoch, h.le_origin, h.origin_le, h.lt_length, ?_, ?_, ?_, fun i hbi hif => ?_, fun n hn => ?_⟩
    · simpa using h.origin
    · simpa using h.backward
    · simpa using h.forward
    · simpa [gap_canceled] using h.coord i hbi hif
    · simpa using h.walked n hn
  · intro h
    refine ⟨h.full, h.epoch, h.le_origin, h.origin_le, h.lt_length, ?_, ?_, ?_, fun i hbi hif => ?_, fun n hn => ?_⟩
    · simpa using h.origin
    · simpa using h.backward
    · simpa using h.forward
    · simpa [gap_canceled] using h.coord i hbi hif
    · simpa using h.walked n hn

theorem walked_canceled (canceled : Bool) : Walked { c with canceled := canceled } m ↔ Walked c m := by
  constructor
  · rintro (h | ⟨k, b, f, h⟩)
    · exact .inl h
    · exact .inr ⟨k, b, f, (stretch_canceled _).mp h⟩
  · rintro (h | ⟨k, b, f, h⟩)
    · exact .inl h
    · exact .inr ⟨k, b, f, (stretch_canceled canceled).mpr h⟩

/-- The states a chart reaches from a new mapper of the full view of the
base by its queries, each of them canceled or not: coordinates of events,
the last and first events around a coordinate, the time at a coordinate,
the coordinate of a time, a new mode, a new origin among the base's events,
no origin, and a reset. -/
inductive Reached (c : ChartEnv) : Mapper → Prop
  | created {canceled : Bool} {mode : Mode} {minDelta focus : Float} {m : Mapper} :
      Mapper.create { c with canceled := canceled } .full mode minDelta focus = .ok m → Reached c m
  | coordinate {m : Mapper} (canceled : Bool) (e : Option EventRef) :
      Reached c m → Reached c (exec (Mapper.coordinate { c with canceled := canceled } e) m).2
  | lastNotAfter {m : Mapper} (canceled : Bool) (x : Float) :
      Reached c m → Reached c (exec (Mapper.lastNotAfter { c with canceled := canceled } x) m).2
  | firstNotBefore {m : Mapper} (canceled : Bool) (x : Float) :
      Reached c m → Reached c (exec (Mapper.firstNotBefore { c with canceled := canceled } x) m).2
  | timeAt {m : Mapper} (canceled : Bool) (x : Float) (upper : Bool) :
      Reached c m → Reached c (exec (Mapper.timeAt { c with canceled := canceled } x upper) m).2
  | coordinateAt {m : Mapper} (canceled : Bool) (t : SimTime) (upper : Bool) :
      Reached c m → Reached c (exec (Mapper.coordinateAt { c with canceled := canceled } t upper) m).2
  | setMode {m : Mapper} (canceled : Bool) (mode : Mode) :
      Reached c m → Reached c (exec (Mapper.setMode { c with canceled := canceled } mode) m).2
  | relocateOrigin {m : Mapper} (canceled : Bool) {e : Event} (he : e ∈ c.base.index.events.toList) :
      Reached c m →
        Reached c (exec (Mapper.relocateOrigin { c with canceled := canceled } (some (c.base.refOf e))) m).2
  | undefine {m : Mapper} : Reached c m → Reached c (exec (Mapper.relocate c none) m).2
  | reset {m : Mapper} (canceled : Bool) :
      Reached c m → Reached c (exec (Mapper.reset { c with canceled := canceled }) m).2

/-- Every state a chart reaches is walked: its cache holds the outward
coordinates of a stretch around its origin, and nothing else. -/
theorem Reached.walked (hl : c.base.Inv) (h : Reached c m) : Walked c m := by
  induction h with
  | @created canceled mode minDelta focus m hc =>
    exact (walked_canceled canceled).mp (create_walked (c := { c with canceled := canceled }) hl hc)
  | coordinate canceled e _ ih =>
    exact (walked_canceled canceled).mp
      (coordinate_keeps (c := { c with canceled := canceled }) hl e _ ((walked_canceled canceled).mpr ih))
  | lastNotAfter canceled x _ ih =>
    exact (walked_canceled canceled).mp
      (lastNotAfter_keeps (c := { c with canceled := canceled }) hl x _ ((walked_canceled canceled).mpr ih))
  | firstNotBefore canceled x _ ih =>
    exact (walked_canceled canceled).mp
      (firstNotBefore_keeps (c := { c with canceled := canceled }) hl x _ ((walked_canceled canceled).mpr ih))
  | timeAt canceled x upper _ ih =>
    exact (walked_canceled canceled).mp
      (timeAt_keeps (c := { c with canceled := canceled }) hl x upper _ ((walked_canceled canceled).mpr ih))
  | coordinateAt canceled t upper _ ih =>
    exact (walked_canceled canceled).mp
      (coordinateAt_keeps (c := { c with canceled := canceled }) hl t upper _ ((walked_canceled canceled).mpr ih))
  | setMode canceled mode _ ih =>
    exact (walked_canceled canceled).mp
      (setMode_keeps (c := { c with canceled := canceled }) mode _ ((walked_canceled canceled).mpr ih))
  | relocateOrigin canceled he _ ih =>
    exact (walked_canceled canceled).mp
      (relocateOrigin_keeps (c := { c with canceled := canceled }) hl he _ ((walked_canceled canceled).mpr ih))
  | undefine _ ih => exact relocate_none_keeps _ ih
  | reset canceled _ ih =>
    exact (walked_canceled canceled).mp
      (reset_keeps (c := { c with canceled := canceled }) hl _ ((walked_canceled canceled).mpr ih))

/-- Unless canceled, asking for the coordinate of an event of the base from a
stretch answers its reference coordinate. -/
theorem exec_coordinate (hl : c.base.Inv) (hc : c.canceled = false) {b k f : Nat} (h : Stretch c m b k f)
    {j : Nat} (hj : j < c.base.length) :
    (exec (coordinate c (some (c.refAt j))) m).1 = .ok (reference c m k j) := by
  unfold coordinate
  rw [exec_bind_ok (exec_sync h)]
  dsimp only
  rw [ChartEnv.isValid_refAt, Bool.not_true, if_neg Bool.false_ne_true]
  obtain ⟨m', hrun, -⟩ := coordinateOf_stretch hl hc h hj
  rw [hrun]

/-! ## A chart placed on an event -/

/-- A reset of the full view never fails. -/
theorem exec_reset_ok (hl : c.base.Inv) (hv : m.view = .full) : ∃ m', exec (reset c) m = (.ok (), m') := by
  have hr := reset_walked hl m hv
  revert hr
  rcases exec (reset c) m with ⟨r, m'⟩
  cases r with
  | ok u => exact fun _ => ⟨m', rfl⟩
  | error e => exact False.elim

/-- Creating a chart of the full view never fails. -/
theorem create_ok (hl : c.base.Inv) (mode : Mode) (minDelta focus : Float) :
    ∃ m, create c .full mode minDelta focus = .ok m := by
  obtain ⟨m', hrun⟩ := exec_reset_ok hl
    (m := ⟨.full, mode, if minDelta ≤ 0 ∨ minDelta > 1 then defaultMinimumDelta else minDelta, focus, 0,
      none, 0, {}, none, none⟩) rfl
  refine ⟨m', ?_⟩
  unfold create
  dsimp only
  rw [show (reset c).run _ = (.ok (), m') from hrun]

/-- `setMode` leaves the chart in the mode it is given. -/
theorem mode_setMode (mode : Mode) : (exec (setMode c mode) m).2.mode = mode := by
  unfold setMode
  rw [exec_bind_ok exec_get]
  by_cases h : mode = m.mode
  · rw [if_pos h]
    exact h.symm
  · rw [if_neg h]
    rfl

/-- Moving the origin to a position of the base puts it there and keeps
the mode. -/
theorem exec_relocateOrigin_refAt (k : Nat) :
    (exec (relocateOrigin c (some (c.refAt k))) m).2.origin = some (c.refAt k) ∧
      (exec (relocateOrigin c (some (c.refAt k))) m).2.mode = m.mode := by
  simp [relocateOrigin, relocate]

/-- The chart of `c` in `mode` with its origin at position `k`: created on
the full view, set to `mode`, and its origin moved to the event. -/
def chartAt (c : ChartEnv) (mode : Mode) (k : Nat) : Mapper :=
  let m₀ := match create c .full mode defaultMinimumDelta 1 with
    | .ok m => m
    | .error _ => default
  (exec (relocateOrigin c (some (c.refAt k))) (exec (setMode c mode) m₀).2).2

theorem origin_chartAt (mode : Mode) (k : Nat) : (chartAt c mode k).origin = some (c.refAt k) :=
  (exec_relocateOrigin_refAt k).1

theorem mode_chartAt (mode : Mode) (k : Nat) : (chartAt c mode k).mode = mode := by
  rw [chartAt, (exec_relocateOrigin_refAt k).2, mode_setMode]

/-- A chart placed on an event of the base is a state the chart reaches. -/
theorem reached_chartAt (hl : c.base.Inv) (hc : c.canceled = false) (mode : Mode) {k : Nat}
    (hk : k < c.base.length) : Reached c (chartAt c mode k) := by
  have hcc := ChartEnv.with_canceled_eq_self hc
  obtain ⟨m₀, h₀⟩ := create_ok hl mode defaultMinimumDelta 1
  have h₀' : create { c with canceled := false } .full mode defaultMinimumDelta 1 = .ok m₀ := by
    rw [hcc]
    exact h₀
  have hk' : k < c.base.index.events.size := hk
  have hr := ((Reached.created (c := c) h₀').setMode false mode).relocateOrigin false (Array.getElem_mem_toList hk')
  rw [ChartEnv.refOf_getElem hl hk', hcc] at hr
  unfold chartAt
  rw [h₀]
  exact hr

/-- In step mode every gap is one. -/
theorem reference_step (h : m.mode = .step) (k : Nat) : reference c m k = outward (fun _ => 1) k := by
  have hg : gap c m = fun _ => 1 := by
    funext i
    simp [gap, delta, h]
  funext j
  simp [reference, h, hg]

theorem reference_eventNumber (h : m.mode = .eventNumber) (k j : Nat) :
    reference c m k j = Float.ofInt ((c.numberAt j - c.numberAt k).bmod (2 ^ 64)) := by
  simp [reference, h]

end Mapper

/-! ## A log whose numbers wrap -/

/-- A log of two events numbered -2⁶³ and 0, at times 0 and 1: the
difference of their numbers does not fit in 64 bits. -/
def wrapStore : Store :=
  ⟨[("log", 0)], #[("E # -9223372036854775808 t 0 m 1\n" ++ "E # 0 t 1 m 1\n").toUTF8]⟩

/-- The log opened on `wrapStore`. -/
def wrapLog : EventLog :=
  match (EventLog.openFile wrapStore 0 "log" ⟨0, 0, false⟩ false).2 with
  | .ok l => l
  | .error _ => default

/-- The charts of `wrapLog`, with no other log open. -/
def wrapEnv : ChartEnv := ⟨#[], wrapLog, false⟩

/-- What the kernel reads off `wrapStore`: the file opens into two events
numbered -2⁶³ and 0, at times 0 and 1. -/
theorem wrapLog_read :
    (EventLog.openFile wrapStore 0 "log" ⟨0, 0, false⟩ false).2.toBool = true ∧ wrapEnv.base.length = 2 ∧
      wrapEnv.numberAt 0 = -2 ^ 63 ∧ wrapEnv.numberAt 1 = 0 ∧
      wrapEnv.timeOf (wrapEnv.refAt 0) = SimTime.zero ∧ wrapEnv.timeOf (wrapEnv.refAt 1) = ⟨1, 0⟩ := by
  decide +kernel

theorem openFile_wrapStore : (EventLog.openFile wrapStore 0 "log" ⟨0, 0, false⟩ false).2 = .ok wrapLog := by
  have hb := wrapLog_read.1
  unfold wrapLog
  revert hb
  cases (EventLog.openFile wrapStore 0 "log" ⟨0, 0, false⟩ false).2 <;> simp [Except.toBool]

theorem inv_wrapEnv : wrapEnv.base.Inv := EventLog.inv_openFile openFile_wrapStore

namespace Mapper

variable {c : ChartEnv} {m : Mapper}

/-- In step mode on `wrapEnv`, from the first event, the coordinates are 0
and 1. -/
theorem reference_stepChart_mono : ∀ i j, i ≤ j → j < wrapEnv.base.length →
    reference wrapEnv (chartAt wrapEnv .step 0) 0 i ≤ reference wrapEnv (chartAt wrapEnv .step 0) 0 j := by
  rw [reference_step (mode_chartAt .step 0), wrapLog_read.2.1]
  intro i j hij hj
  interval_cases j <;> interval_cases i <;> decide +kernel

/-- In event-number mode on `wrapEnv`, from the first event, the second
event is 2⁶³ numbers on: the difference wraps to -2⁶³. -/
theorem reference_numberChart :
    reference wrapEnv (chartAt wrapEnv .eventNumber 0) 0 0 = Float.ofInt 0 ∧
      reference wrapEnv (chartAt wrapEnv .eventNumber 0) 0 1 = Float.ofInt (-2 ^ 63) := by
  obtain ⟨-, -, hn₀, hn₁, -⟩ := wrapLog_read
  have hm := mode_chartAt (c := wrapEnv) .eventNumber 0
  have hwrap : ((0 : Int) - -2 ^ 63).bmod (2 ^ 64) = -2 ^ 63 := by decide
  constructor
  · rw [reference_eventNumber hm, sub_self]
    rfl
  · rw [reference_eventNumber hm, hn₀, hn₁, hwrap]

end Mapper

end EventChart

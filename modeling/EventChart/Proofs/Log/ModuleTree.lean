import Mathlib
import EventChart.Proofs.Log.ModuleRecords
/-!
# The module tree

`ModuleTree.build` turns module records into a forest.  The last record of
an id defines its module, and the module's parent is the parent id of that
record when it names another recorded module (`parentLink`).  `Rooted
created id d` says that module `id` hangs `d` parent links below a module
without a parent.  A module on a cycle of parents hangs below no root.

* `descend` is the traversal behind both the full paths and the walk.
  `mem_descend` says which modules it reaches, and with what value, in
  terms of `Descends`; `pairwise_descend` says that below a rooted module it
  lists each module once, none before its parent and siblings in the order
  of their parent's children (`InWalkOrder`).
* The rooted modules form a forest of bounded height: a module has one
  depth (`Rooted.depth_unique`) and a chain of parents is shorter than the
  list of ids (`Rooted.depth_lt`), so descending that many levels from the
  roots reaches every rooted module.
* `build_forest` collects what the tree is: one module per id, from the
  id's last record; roots in the order of the ids' first records; parents
  and children as the records name them; full paths joined down the forest
  and empty off it; and a walk that visits exactly the rooted modules, each
  once and at its depth.
-/

namespace EventChart

/-- The fields of a module that come from its record. -/
def Module.toRecord (m : Module) : ModuleCreated :=
  ⟨m.id, m.className, m.typeName, m.parentId, m.name, m.compound⟩

namespace ModuleTree

open List

/-! ## The forest the records describe -/

/-- The record module `id` is built from: the last one with that id. -/
def lastRecord (created : List ModuleCreated) (id : Int) : Option ModuleCreated :=
  created.reverse.find? (·.id == id)

/-- The parent of module `id`: the parent id of its record, when that is
another id some record has. -/
def parentLink (created : List ModuleCreated) (id : Int) : Option Int :=
  (lastRecord created id).bind fun mc =>
    if mc.parentId ≠ id ∧ mc.parentId ∈ created.map (·.id) then some mc.parentId else none

/-- `Rooted created id d`: module `id` hangs `d` parent links below a module
without a parent. -/
inductive Rooted (created : List ModuleCreated) : Int → Nat → Prop
  | root {id : Int} : id ∈ created.map (·.id) → parentLink created id = none → Rooted created id 0
  | child {id p : Int} {d : Nat} : parentLink created id = some p → Rooted created p d →
      Rooted created id (d + 1)

/-- `Descends created next c a k x b`: module `x` lies `k` parent links below
`c`, and `next`, handed down from `a` at `c`, gives `b` at `x`. -/
inductive Descends {α : Type} (created : List ModuleCreated) (next : α → Int → α) (c : Int) (a : α) :
    Nat → Int → α → Prop
  | refl : Descends created next c a 0 c a
  | step {k : Nat} {p x : Int} {b : α} : Descends created next c a k p b →
      parentLink created x = some p → Descends created next c a (k + 1) x (next b x)

section forest

variable {created : List ModuleCreated}

theorem lastRecord_isSome_iff {id : Int} :
    (lastRecord created id).isSome ↔ id ∈ created.map (·.id) := by
  simp [lastRecord, List.find?_isSome]

theorem parentLink_eq_some {c p : Int} (h : parentLink created c = some p) :
    c ∈ created.map (·.id) ∧ p ∈ created.map (·.id) ∧ p ≠ c := by
  obtain ⟨mc, hmc, hp⟩ := Option.bind_eq_some_iff.1 h
  have hc : c ∈ created.map (·.id) := lastRecord_isSome_iff.1 (by rw [hmc]; rfl)
  split at hp
  · rename_i hcond
    cases hp
    exact ⟨hc, hcond.2, hcond.1⟩
  · cases hp

/-- A rooted module has one depth. -/
theorem Rooted.depth_unique {id : Int} {d e : Nat} (hd : Rooted created id d)
    (he : Rooted created id e) : d = e := by
  induction hd generalizing e with
  | root _ hnone =>
    cases he with
    | root => rfl
    | child hp _ => simp [hnone] at hp
  | child hp _ ih =>
    cases he with
    | root _ hnone => simp [hp] at hnone
    | child hp' he' =>
      rw [hp] at hp'
      cases hp'
      rw [ih he']

/-- The parent of a rooted module is rooted one level up. -/
theorem Rooted.parent {c p : Int} {d : Nat} (hc : Rooted created c d)
    (hp : parentLink created c = some p) : ∃ e, d = e + 1 ∧ Rooted created p e := by
  cases hc with
  | root _ hnone => simp [hnone] at hp
  | child hp' he =>
    rw [hp] at hp'
    cases hp'
    exact ⟨_, rfl, he⟩

theorem Rooted.mem {c : Int} {d : Nat} (hc : Rooted created c d) : c ∈ created.map (·.id) := by
  cases hc with
  | root hmem _ => exact hmem
  | child hp _ => exact (parentLink_eq_some hp).1

/-- The chain of parents above a rooted module: `d + 1` distinct modules,
each rooted at most as deep. -/
theorem Rooted.chain {c : Int} {d : Nat} (hc : Rooted created c d) :
    ∃ l : List Int, l.length = d + 1 ∧ l.Nodup ∧
      ∀ x ∈ l, x ∈ created.map (·.id) ∧ ∃ e ≤ d, Rooted created x e := by
  induction hc with
  | @root x hmem hnone =>
    refine ⟨[x], rfl, nodup_singleton x, ?_⟩
    intro y hy
    rw [mem_singleton] at hy
    subst hy
    exact ⟨hmem, 0, le_refl 0, .root hmem hnone⟩
  | @child c p d hp hpd ih =>
    obtain ⟨l, hlen, hnd, hl⟩ := ih
    have hcd : Rooted created c (d + 1) := .child hp hpd
    refine ⟨c :: l, by simp [hlen], nodup_cons.2 ⟨fun hmem => ?_, hnd⟩, ?_⟩
    · obtain ⟨-, e, hle, he⟩ := hl c hmem
      have := hcd.depth_unique he
      omega
    · intro x hx
      rcases mem_cons.1 hx with rfl | hx
      · exact ⟨hcd.mem, d + 1, le_refl _, hcd⟩
      · obtain ⟨hm, e, hle, he⟩ := hl x hx
        exact ⟨hm, e, by omega, he⟩

/-- A chain of parents is shorter than the list of ids. -/
theorem Rooted.depth_lt {c : Int} {d : Nat} (hc : Rooted created c d) :
    d < (moduleIds [] created).length := by
  obtain ⟨l, hlen, hnd, hl⟩ := hc.chain
  have hsub : l ⊆ moduleIds [] created := fun x hx => by
    obtain ⟨mc, hmc, rfl⟩ := List.mem_map.1 (hl x hx).1
    exact mem_moduleIds.2 (.inr ⟨mc, hmc, rfl⟩)
  have := (hnd.subperm hsub).length_le
  omega

end forest

/-! ## Descending from a module -/

section descend

variable {α : Type} {created : List ModuleCreated} {next : α → Int → α}

theorem descends_zero_iff {c x : Int} {a b : α} :
    Descends created next c a 0 x b ↔ x = c ∧ b = a := by
  constructor
  · rintro ⟨⟩
    exact ⟨rfl, rfl⟩
  · rintro ⟨rfl, rfl⟩
    exact .refl

/-- The last link of a descent. -/
theorem descends_succ_iff {c x : Int} {a b : α} {k : Nat} :
    Descends created next c a (k + 1) x b ↔
      ∃ p bp, Descends created next c a k p bp ∧ parentLink created x = some p ∧ b = next bp x := by
  constructor
  · rintro (_ | ⟨hk, hp⟩)
    exact ⟨_, _, hk, hp, rfl⟩
  · rintro ⟨p, bp, hk, hp, rfl⟩
    exact .step hk hp

/-- The first link of a descent: a child of `c` that the rest descends
from. -/
theorem descends_succ_iff_head {c x : Int} {a b : α} {k : Nat} :
    Descends created next c a (k + 1) x b ↔
      ∃ c', parentLink created c' = some c ∧ Descends created next c' (next a c') k x b := by
  induction k generalizing x b with
  | zero =>
    rw [descends_succ_iff]
    simp only [descends_zero_iff]
    constructor
    · rintro ⟨p, bp, ⟨rfl, rfl⟩, hp, rfl⟩
      exact ⟨x, hp, rfl, rfl⟩
    · rintro ⟨c', hc', rfl, rfl⟩
      exact ⟨c, a, ⟨rfl, rfl⟩, hc', rfl⟩
  | succ k ih =>
    rw [descends_succ_iff]
    constructor
    · rintro ⟨p, bp, hk, hp, rfl⟩
      obtain ⟨c', hc', hrest⟩ := ih.1 hk
      exact ⟨c', hc', .step hrest hp⟩
    · rintro ⟨c', hc', hrest⟩
      obtain ⟨p, bp, hk, hp, rfl⟩ := descends_succ_iff.1 hrest
      exact ⟨p, bp, ih.2 ⟨c', hc', hk⟩, hp, rfl⟩

/-- A module below a rooted one is rooted as many levels further down. -/
theorem Descends.rooted {c x : Int} {a b : α} {k d : Nat} (h : Descends created next c a k x b)
    (hc : Rooted created c d) : Rooted created x (d + k) := by
  induction h with
  | refl => exact hc
  | step _ hp ih => exact .child hp ih

/-- Two descents of one length to one module start at one module. -/
theorem Descends.start_unique {c c' x : Int} {a a' b b' : α} {k : Nat}
    (h : Descends created next c a k x b) (h' : Descends created next c' a' k x b') : c = c' := by
  induction h generalizing b' with
  | refl => exact (descends_zero_iff.1 h').1
  | step _ hp ih =>
    obtain ⟨p', bp', hk', hp', -⟩ := descends_succ_iff.1 h'
    rw [hp] at hp'
    cases hp'
    exact ih hk'

/-- Every rooted module descends from a module without a parent, by its
depth. -/
theorem Rooted.descends_root {c : Int} {d : Nat} (hc : Rooted created c d) (f : Int → α) :
    ∃ r b, Rooted created r 0 ∧ Descends created next r (f r) d c b := by
  induction hc with
  | root hmem hnone => exact ⟨_, _, .root hmem hnone, .refl⟩
  | child hp _ ih =>
    obtain ⟨r, b, hr, hd⟩ := ih
    exact ⟨r, _, hr, .step hd hp⟩

variable {kids : Int → List Int}

/-- `descend` reaches exactly the modules fewer than `h` links below its
start, each with the value handed down to it. -/
theorem mem_descend (hk : ∀ p c, c ∈ kids p ↔ parentLink created c = some p) {h : Nat} {c x : Int}
    {a b : α} : (x, b) ∈ descend kids next h c a ↔ ∃ k < h, Descends created next c a k x b := by
  induction h generalizing c a with
  | zero => simp [descend]
  | succ h ih =>
    simp only [descend, mem_cons, Prod.mk.injEq, mem_flatMap, ih, hk]
    constructor
    · rintro (⟨rfl, rfl⟩ | ⟨c', hc', k, hkh, hd⟩)
      · exact ⟨0, by omega, .refl⟩
      · exact ⟨k + 1, by omega, descends_succ_iff_head.2 ⟨c', hc', hd⟩⟩
    · rintro ⟨_ | k, hkh, hd⟩
      · obtain ⟨rfl, rfl⟩ := descends_zero_iff.1 hd
        exact .inl ⟨rfl, rfl⟩
      · obtain ⟨c', hc', hd'⟩ := descends_succ_iff_head.1 hd
        exact .inr ⟨c', hc', k, by omega, hd'⟩

end descend

/-! ## The order of a descent -/

/-- The order of a walk on two of its modules, `x` before `y`: they differ,
`y` is not the parent of `x`, and siblings come by ascending id. -/
def InWalkOrder (created : List ModuleCreated) (x y : Int) : Prop :=
  x ≠ y ∧ parentLink created x ≠ some y ∧
    ∀ p, parentLink created x = some p → parentLink created y = some p → x < y

section order

variable {α : Type} {created : List ModuleCreated} {next : α → Int → α}

/-- A rooted module comes in walk order before any deeper one. -/
theorem inWalkOrder_of_lt {x y : Int} {dx dy : Nat} (hx : Rooted created x dx)
    (hy : Rooted created y dy) (hlt : dx < dy) : InWalkOrder created x y := by
  refine ⟨?_, fun hp => ?_, fun p hpx hpy => ?_⟩
  · rintro rfl
    have := hx.depth_unique hy
    omega
  · obtain ⟨e, rfl, he⟩ := hx.parent hp
    have := he.depth_unique hy
    omega
  · obtain ⟨e, rfl, he⟩ := hx.parent hpx
    obtain ⟨e', rfl, he'⟩ := hy.parent hpy
    have := he.depth_unique he'
    omega

/-- Modules below two different rooted modules of one depth are in walk
order when those two are. -/
theorem inWalkOrder_of_apart {c₁ c₂ x y : Int} {a₁ a₂ b₁ b₂ : α} {d k₁ k₂ : Nat} (hne : c₁ ≠ c₂)
    (hsib : ∀ p, parentLink created c₁ = some p → parentLink created c₂ = some p → c₁ < c₂)
    (hc₁ : Rooted created c₁ d) (hc₂ : Rooted created c₂ d)
    (hx : Descends created next c₁ a₁ k₁ x b₁) (hy : Descends created next c₂ a₂ k₂ y b₂) :
    InWalkOrder created x y := by
  have hxd := hx.rooted hc₁
  have hyd := hy.rooted hc₂
  refine ⟨?_, fun hp => ?_, fun p hpx hpy => ?_⟩
  · -- one module below both has one depth, so both descents have one length
    rintro rfl
    have hk : k₁ = k₂ := by
      have := hxd.depth_unique hyd
      omega
    subst hk
    exact hne (hx.start_unique hy)
  · -- the parent of `x` is the parent of `c₁`, above `y`, or lies below `c₁`
    cases k₁ with
    | zero =>
      obtain ⟨rfl, -⟩ := descends_zero_iff.1 hx
      obtain ⟨e, rfl, he⟩ := hc₁.parent hp
      have := he.depth_unique hyd
      omega
    | succ j =>
      obtain ⟨p, bp, hj, hpx, -⟩ := descends_succ_iff.1 hx
      rw [hp] at hpx
      cases hpx
      have hk : j = k₂ := by
        have := (hj.rooted hc₁).depth_unique hyd
        omega
      subst hk
      exact hne (hj.start_unique hy)
  · -- siblings have one depth: both are the starts, or their parent lies below both
    have hk : k₁ = k₂ := by
      obtain ⟨e, he1, hpe⟩ := hxd.parent hpx
      obtain ⟨e', he2, hpe'⟩ := hyd.parent hpy
      have := hpe.depth_unique hpe'
      omega
    subst hk
    cases k₁ with
    | zero =>
      obtain ⟨rfl, -⟩ := descends_zero_iff.1 hx
      obtain ⟨rfl, -⟩ := descends_zero_iff.1 hy
      exact hsib p hpx hpy
    | succ j =>
      obtain ⟨p₁, _, hj₁, hp₁, -⟩ := descends_succ_iff.1 hx
      obtain ⟨p₂, _, hj₂, hp₂, -⟩ := descends_succ_iff.1 hy
      rw [hpx] at hp₁
      rw [hpy] at hp₂
      obtain rfl : p = p₁ := Option.some.inj hp₁
      obtain rfl : p = p₂ := Option.some.inj hp₂
      exact absurd (hj₁.start_unique hj₂) hne

variable {kids : Int → List Int}

/-- Descending from rooted modules of one depth, listed in walk order, lists
modules in walk order, given that each descent does. -/
theorem pairwise_flatMap_descend (hk : ∀ p c, c ∈ kids p ↔ parentLink created c = some p)
    {l : List Int} {d h : Nat} {f : Int → α}
    (hl : l.Pairwise fun c₁ c₂ =>
      c₁ ≠ c₂ ∧ ∀ p, parentLink created c₁ = some p → parentLink created c₂ = some p → c₁ < c₂)
    (hd : ∀ c ∈ l, Rooted created c d)
    (hblock : ∀ c ∈ l, (descend kids next h c (f c)).Pairwise fun e e' => InWalkOrder created e.1 e'.1) :
    (l.flatMap fun c => descend kids next h c (f c)).Pairwise fun e e' => InWalkOrder created e.1 e'.1 := by
  refine pairwise_flatMap.2 ⟨hblock, hl.imp_of_mem fun hc₁ hc₂ ⟨hne, hsib⟩ => ?_⟩
  rintro ⟨x, b₁⟩ hx ⟨y, b₂⟩ hy
  obtain ⟨k₁, -, hx⟩ := (mem_descend hk).1 hx
  obtain ⟨k₂, -, hy⟩ := (mem_descend hk).1 hy
  exact inWalkOrder_of_apart hne hsib (hd _ hc₁) (hd _ hc₂) hx hy

/-- Below a rooted module whose descendants list their children by
ascending id, `descend` lists modules in walk order. -/
theorem pairwise_descend (hk : ∀ p c, c ∈ kids p ↔ parentLink created c = some p)
    (hsort : ∀ p d, Rooted created p d → (kids p).Pairwise (· < ·)) {h d : Nat} {c : Int} {a : α}
    (hc : Rooted created c d) :
    (descend kids next h c a).Pairwise fun e e' => InWalkOrder created e.1 e'.1 := by
  induction h generalizing c a d with
  | zero => simp [descend]
  | succ h ih =>
    have hkid : ∀ c' ∈ kids c, Rooted created c' (d + 1) := fun c' hc' => .child ((hk c c').1 hc') hc
    refine pairwise_cons.2 ⟨?_, ?_⟩
    · -- everything below `c` is deeper than `c`
      rintro ⟨x, b⟩ hx
      obtain ⟨c', hc', hx'⟩ := mem_flatMap.1 hx
      obtain ⟨k, -, hd⟩ := (mem_descend hk).1 hx'
      exact inWalkOrder_of_lt hc (hd.rooted (hkid c' hc')) (by omega)
    · exact pairwise_flatMap_descend hk ((hsort c d hc).imp fun hlt => ⟨hlt.ne, fun _ _ _ => hlt⟩) hkid
        fun c' hc' => ih (hkid c' hc')

end order

/-! ## The records of the tree -/

section records

variable {created : List ModuleCreated}

/-- A kept record is the last record of its id. -/
theorem lastRecord_of_mem {mc : ModuleCreated} (h : mc ∈ latestRecords created) :
    lastRecord created mc.id = some mc := by
  obtain ⟨j, hj, rfl⟩ := List.getElem_of_mem h
  rw [lastRecord, ← find?_latestRecords]
  exact find?_id_getElem (nodup_latestRecords created) j hj

theorem mem_of_lastRecord {id : Int} {mc : ModuleCreated} (h : lastRecord created id = some mc) :
    mc ∈ latestRecords created ∧ mc.id = id := by
  rw [lastRecord, ← find?_latestRecords] at h
  exact ⟨List.mem_of_find?_eq_some h, by simpa using List.find?_some h⟩

theorem mem_moduleIds_nil {id : Int} : id ∈ moduleIds [] created ↔ id ∈ created.map (·.id) := by
  simp [mem_moduleIds]

theorem parentIn_eq {mc : ModuleCreated} (h : mc ∈ latestRecords created) :
    parentIn (latestRecords created) mc = parentLink created mc.id := by
  have hany : (latestRecords created).any (·.id == mc.parentId) ↔ mc.parentId ∈ created.map (·.id) := by
    rw [← mem_moduleIds_nil, ← ids_latestRecords]
    simp
  simp only [parentIn, parentLink, lastRecord_of_mem h, Option.bind_some, hany]
  by_cases hp : mc.parentId ∈ created.map (·.id) <;> by_cases hc : mc.parentId = mc.id <;> simp [hp, hc]

theorem mem_childrenIn {p c : Int} :
    c ∈ childrenIn (latestRecords created) p ↔ parentLink created c = some p := by
  simp only [childrenIn, mem_map, mem_filter, beq_iff_eq]
  constructor
  · rintro ⟨mc, ⟨hmc, hp⟩, rfl⟩
    rwa [parentIn_eq hmc] at hp
  · intro hp
    obtain ⟨mc, hmc⟩ := Option.isSome_iff_exists.1 (lastRecord_isSome_iff.2 (parentLink_eq_some hp).1)
    obtain ⟨hmem, rfl⟩ := mem_of_lastRecord hmc
    exact ⟨mc, ⟨hmem, by rw [parentIn_eq hmem]; exact hp⟩, rfl⟩

theorem nodup_childrenIn {p : Int} : (childrenIn (latestRecords created) p).Nodup :=
  (nodup_latestRecords created).sublist (filter_sublist.map _)

theorem mem_sortedChildrenIn {p c : Int} :
    c ∈ sortedChildrenIn (latestRecords created) p ↔ parentLink created c = some p :=
  mem_mergeSort.trans mem_childrenIn

/-- Sorted children come by strictly ascending id. -/
theorem sortedChildrenIn_ascending {p : Int} :
    (sortedChildrenIn (latestRecords created) p).Pairwise (· < ·) := by
  have hle := @pairwise_mergeSort Int (fun a b => decide (a ≤ b))
    (fun a b c hab hbc => by simp only [decide_eq_true_eq] at *; omega)
    (fun a b => by simp only [Bool.or_eq_true, decide_eq_true_eq]; omega) (childrenIn (latestRecords created) p)
  have hnd := (mergeSort_perm (childrenIn (latestRecords created) p) fun a b => decide (a ≤ b)).nodup_iff.2
    nodup_childrenIn
  exact (hle.and hnd).imp fun ⟨h₁, h₂⟩ => lt_of_le_of_ne (by simpa using h₁) h₂

/-- The roots are the ids without a parent, in the order of their first
records. -/
theorem rootsIn_eq :
    rootsIn (latestRecords created) = (moduleIds [] created).filter fun id => parentLink created id = none := by
  rw [← ids_latestRecords, filter_map, rootsIn]
  congr 1
  apply filter_congr
  intro mc hmc
  rw [Function.comp_apply, parentIn_eq hmc]
  cases parentLink created mc.id <;> rfl

theorem mem_rootsIn {r : Int} : r ∈ rootsIn (latestRecords created) ↔ Rooted created r 0 := by
  rw [rootsIn_eq, mem_filter, mem_moduleIds_nil, decide_eq_true_iff]
  constructor
  · rintro ⟨hmem, hnone⟩
    exact .root hmem hnone
  · rintro (⟨hmem, hnone⟩)
    exact ⟨hmem, hnone⟩

/-- Roots are distinct and have no parent. -/
theorem rootsIn_apart :
    (rootsIn (latestRecords created)).Pairwise fun c₁ c₂ =>
      c₁ ≠ c₂ ∧ ∀ p, parentLink created c₁ = some p → parentLink created c₂ = some p → c₁ < c₂ := by
  have hnd : (rootsIn (latestRecords created)).Nodup := by
    rw [rootsIn_eq]
    exact (nodup_moduleIds nodup_nil created).filter _
  refine hnd.imp_of_mem fun hc₁ _ hne => ⟨hne, fun p hp _ => ?_⟩
  rw [rootsIn_eq, mem_filter, decide_eq_true_iff] at hc₁
  simp [hc₁.2] at hp

theorem length_latestRecords : (latestRecords created).length = (moduleIds [] created).length := by
  rw [← ids_latestRecords, length_map]

end records

/-! ## Descending from the roots -/

section roots

variable {α : Type} {created : List ModuleCreated} {next : α → Int → α} {kids : Int → List Int}

/-- Descending from every root as many levels as there are ids reaches
exactly the rooted modules, each with the value handed down from its
root's. -/
theorem mem_descend_roots (hk : ∀ p c, c ∈ kids p ↔ parentLink created c = some p) {f : Int → α}
    {x : Int} {b : α} :
    (x, b) ∈ (rootsIn (latestRecords created)).flatMap
        (fun r => descend kids next (moduleIds [] created).length r (f r)) ↔
      ∃ r d, Rooted created r 0 ∧ Descends created next r (f r) d x b := by
  simp only [mem_flatMap, mem_rootsIn, mem_descend hk]
  constructor
  · rintro ⟨r, hr, d, -, hd⟩
    exact ⟨r, d, hr, hd⟩
  · rintro ⟨r, d, hr, hd⟩
    have hlt := (hd.rooted hr).depth_lt
    exact ⟨r, hr, d, by omega, hd⟩

theorem exists_mem_descend_roots (hk : ∀ p c, c ∈ kids p ↔ parentLink created c = some p)
    {f : Int → α} {x : Int} :
    (∃ b, (x, b) ∈ (rootsIn (latestRecords created)).flatMap
        (fun r => descend kids next (moduleIds [] created).length r (f r))) ↔ ∃ d, Rooted created x d := by
  simp only [mem_descend_roots hk]
  constructor
  · rintro ⟨b, r, d, hr, hd⟩
    exact ⟨0 + d, hd.rooted hr⟩
  · rintro ⟨d, hx⟩
    obtain ⟨r, b, hr, hd⟩ := hx.descends_root f
    exact ⟨b, r, d, hr, hd⟩

/-- Descending from the roots lists modules in walk order. -/
theorem pairwise_descend_roots (hk : ∀ p c, c ∈ kids p ↔ parentLink created c = some p)
    (hsort : ∀ p d, Rooted created p d → (kids p).Pairwise (· < ·)) {h : Nat} {f : Int → α} :
    ((rootsIn (latestRecords created)).flatMap fun r => descend kids next h r (f r)).Pairwise
      fun e e' => InWalkOrder created e.1 e'.1 :=
  pairwise_flatMap_descend hk rootsIn_apart (fun _ hr => mem_rootsIn.1 hr)
    fun _ hr => pairwise_descend hk hsort (mem_rootsIn.1 hr)

end roots

/-! ## Full paths -/

section paths

variable {created : List ModuleCreated}

theorem pathsIn_eq :
    pathsIn (latestRecords created) = (rootsIn (latestRecords created)).flatMap fun r =>
      descend (sortedChildrenIn (latestRecords created))
        (fun pre c => joinPath pre (nameIn (latestRecords created) c)) (moduleIds [] created).length r
        (nameIn (latestRecords created) r) := by
  rw [pathsIn, length_latestRecords]

theorem pairwise_pathsIn :
    (pathsIn (latestRecords created)).Pairwise fun e e' => InWalkOrder created e.1 e'.1 := by
  rw [pathsIn_eq]
  exact pairwise_descend_roots (fun _ _ => mem_sortedChildrenIn) fun _ _ _ => sortedChildrenIn_ascending

/-- A module has one path: a search by id finds the path it has. -/
theorem find?_pathsIn {x : Int} {q : String} (h : (x, q) ∈ pathsIn (latestRecords created)) :
    (pathsIn (latestRecords created)).find? (·.1 == x) = some (x, q) := by
  have hnd : ((pathsIn (latestRecords created)).map Prod.fst).Nodup :=
    pairwise_map.2 (pairwise_pathsIn.imp fun h => h.1)
  have hsome : ((pathsIn (latestRecords created)).find? (·.1 == x)).isSome :=
    find?_isSome.2 ⟨(x, q), h, by simp⟩
  obtain ⟨e, he⟩ := Option.isSome_iff_exists.1 hsome
  have hex : e.1 = x := by simpa using find?_some he
  rw [he, inj_on_of_nodup_map hnd (mem_of_find?_eq_some he) h hex]

theorem exists_mem_pathsIn {x : Int} :
    (∃ q, (x, q) ∈ pathsIn (latestRecords created)) ↔ ∃ d, Rooted created x d := by
  rw [pathsIn_eq]
  exact exists_mem_descend_roots fun _ _ => mem_sortedChildrenIn

theorem find?_pathsIn_eq_none {x : Int} (h : ¬∃ d, Rooted created x d) :
    (pathsIn (latestRecords created)).find? (·.1 == x) = none := by
  rw [find?_eq_none]
  rintro ⟨y, q⟩ hy hyx
  obtain rfl : y = x := by simpa using hyx
  exact h (exists_mem_pathsIn.1 ⟨q, hy⟩)

/-- A path is the name of a root, or the path of the parent joined with the
name. -/
theorem mem_pathsIn_cases {x : Int} {q : String} (h : (x, q) ∈ pathsIn (latestRecords created)) :
    (parentLink created x = none ∧ q = nameIn (latestRecords created) x) ∨
      ∃ p qp, (p, qp) ∈ pathsIn (latestRecords created) ∧ parentLink created x = some p ∧
        q = joinPath qp (nameIn (latestRecords created) x) := by
  rw [pathsIn_eq, mem_descend_roots fun _ _ => mem_sortedChildrenIn] at h
  obtain ⟨r, d, hr, hd⟩ := h
  cases d with
  | zero =>
    obtain ⟨rfl, rfl⟩ := descends_zero_iff.1 hd
    cases hr with
    | root _ hnone => exact .inl ⟨hnone, rfl⟩
  | succ j =>
    obtain ⟨p, qp, hj, hp, rfl⟩ := descends_succ_iff.1 hd
    refine .inr ⟨p, qp, ?_, hp, rfl⟩
    rw [pathsIn_eq, mem_descend_roots fun _ _ => mem_sortedChildrenIn]
    exact ⟨r, j, hr, hj⟩

theorem nameIn_eq {id : Int} {mc : ModuleCreated} (h : lastRecord created id = some mc) :
    nameIn (latestRecords created) id = mc.fullName := by
  rw [nameIn, find?_latestRecords, ← lastRecord, h]
  rfl

end paths

/-! ## The modules of the tree -/

section modules

variable {created : List ModuleCreated}

theorem moduleIn_id (recs : List ModuleCreated) (paths : List (Int × String)) (mc : ModuleCreated) :
    (moduleIn recs paths mc).id = mc.id := by
  unfold moduleIn
  split <;> rfl

theorem moduleIn_toRecord (recs : List ModuleCreated) (paths : List (Int × String)) (mc : ModuleCreated) :
    (moduleIn recs paths mc).toRecord = mc := by
  unfold moduleIn
  split <;> rfl

theorem moduleIn_parent (recs : List ModuleCreated) (paths : List (Int × String)) (mc : ModuleCreated) :
    (moduleIn recs paths mc).parent = parentIn recs mc := by
  unfold moduleIn
  split <;> rfl

/-- A module reached from a root has its path and its children by id. -/
theorem moduleIn_of_mem {mc : ModuleCreated} {q : String} (h : (mc.id, q) ∈ pathsIn (latestRecords created)) :
    moduleIn (latestRecords created) (pathsIn (latestRecords created)) mc =
      ⟨mc.id, mc.parentId, mc.fullName, q, mc.className, mc.typeName, mc.compound,
        parentIn (latestRecords created) mc, sortedChildrenIn (latestRecords created) mc.id⟩ := by
  rw [moduleIn, find?_pathsIn h]

/-- Any other module has the empty path and its children in record order. -/
theorem moduleIn_of_not_placed {mc : ModuleCreated} (h : ¬∃ d, Rooted created mc.id d) :
    moduleIn (latestRecords created) (pathsIn (latestRecords created)) mc =
      ⟨mc.id, mc.parentId, mc.fullName, "", mc.className, mc.typeName, mc.compound,
        parentIn (latestRecords created) mc, childrenIn (latestRecords created) mc.id⟩ := by
  rw [moduleIn, find?_pathsIn_eq_none h]

theorem modules_build_ids : (build created).modules.map (·.id) = moduleIds [] created := by
  simp only [build, map_map]
  rw [← ids_latestRecords]
  congr 1
  funext mc
  exact moduleIn_id _ _ mc

theorem size_build : (build created).size = (created.map (·.id)).toFinset.card := by
  have hset : (moduleIds [] created).toFinset = (created.map (·.id)).toFinset := by
    ext id
    simp only [mem_toFinset, mem_moduleIds_nil]
  rw [← hset, toFinset_card_of_nodup (nodup_moduleIds nodup_nil created), ← modules_build_ids, length_map]
  rfl

/-- The tree finds the module built from the last record of an id. -/
theorem find?_build (id : Int) :
    (build created).find? id =
      (lastRecord created id).map (moduleIn (latestRecords created) (pathsIn (latestRecords created))) := by
  have hid : ((·.id == id) ∘ moduleIn (latestRecords created) (pathsIn (latestRecords created))) =
      (·.id == id) := by
    funext mc
    simp [moduleIn_id]
  simp only [build, ModuleTree.find?, find?_map]
  rw [hid, find?_latestRecords]
  rfl

theorem find?_build_eq_some {id : Int} {m : Module} (h : (build created).find? id = some m) :
    ∃ mc, lastRecord created id = some mc ∧ mc ∈ latestRecords created ∧ mc.id = id ∧
      moduleIn (latestRecords created) (pathsIn (latestRecords created)) mc = m := by
  rw [find?_build] at h
  obtain ⟨mc, hmc, rfl⟩ := Option.map_eq_some_iff.1 h
  obtain ⟨hmem, hid⟩ := mem_of_lastRecord hmc
  exact ⟨mc, hmc, hmem, hid, rfl⟩

theorem find?_build_isSome {id : Int} :
    ((build created).find? id).isSome ↔ id ∈ created.map (·.id) := by
  rw [find?_build, Option.isSome_map, lastRecord_isSome_iff]

/-- A module's children are the modules that name it as parent. -/
theorem mem_children_of_find?_build {id c : Int} {m : Module} (h : (build created).find? id = some m) :
    c ∈ m.children ↔ parentLink created c = some id := by
  obtain ⟨mc, -, -, rfl, rfl⟩ := find?_build_eq_some h
  by_cases hp : ∃ d, Rooted created mc.id d
  · obtain ⟨q, hq⟩ := exists_mem_pathsIn.2 hp
    rw [moduleIn_of_mem hq]
    exact mem_sortedChildrenIn
  · rw [moduleIn_of_not_placed hp]
    exact mem_childrenIn

/-- A rooted module lists its children by ascending id, and its path is the
one the descent from its root hands down. -/
theorem placed_of_find?_build {id : Int} {m : Module} (h : (build created).find? id = some m)
    (hp : ∃ d, Rooted created id d) :
    m.children.Pairwise (· < ·) ∧ (id, m.fullPath) ∈ pathsIn (latestRecords created) := by
  obtain ⟨mc, -, -, rfl, rfl⟩ := find?_build_eq_some h
  obtain ⟨q, hq⟩ := exists_mem_pathsIn.2 hp
  rw [moduleIn_of_mem hq]
  exact ⟨sortedChildrenIn_ascending, hq⟩

theorem fullPath_of_find?_build {id : Int} {m : Module} (h : (build created).find? id = some m)
    (hp : ¬∃ d, Rooted created id d) : m.fullPath = "" := by
  obtain ⟨mc, -, -, rfl, rfl⟩ := find?_build_eq_some h
  rw [moduleIn_of_not_placed hp]

/-- The path of a rooted module: its name for a root, and otherwise its name
joined to the path of its parent. -/
theorem fullPath_placed {id : Int} {m : Module} (h : (build created).find? id = some m)
    (hp : ∃ d, Rooted created id d) :
    (parentLink created id = none → m.fullPath = m.name) ∧
      ∀ p, parentLink created id = some p →
        ∃ pm, (build created).find? p = some pm ∧ m.fullPath = joinPath pm.fullPath m.name := by
  obtain ⟨mc, hmc, -, hid, hm⟩ := find?_build_eq_some h
  have hname : nameIn (latestRecords created) id = m.name := by
    have hrec : m.toRecord = mc := hm ▸ moduleIn_toRecord _ _ mc
    rw [nameIn_eq hmc, ← hrec]
    rfl
  rcases mem_pathsIn_cases (placed_of_find?_build h hp).2 with ⟨hnone, hq⟩ | ⟨p, qp, hpq, hpar, hq⟩
  · refine ⟨fun _ => hq.trans hname, fun p hpar => ?_⟩
    rw [hnone] at hpar
    cases hpar
  · refine ⟨fun hnone => ?_, fun p' hpar' => ?_⟩
    · rw [hpar] at hnone
      cases hnone
    · rw [hpar] at hpar'
      obtain rfl := Option.some.inj hpar'
      obtain ⟨pm, hpm⟩ := Option.isSome_iff_exists.1
        (find?_build_isSome.2 (parentLink_eq_some hpar).2.1)
      have hpp : ∃ d, Rooted created p d := exists_mem_pathsIn.1 ⟨qp, hpq⟩
      have hqp : qp = pm.fullPath := by
        have h₁ := find?_pathsIn hpq
        have h₂ := find?_pathsIn (placed_of_find?_build hpm hpp).2
        rw [h₁] at h₂
        exact (Prod.mk.inj (Option.some.inj h₂)).2
      exact ⟨pm, hpm, by rw [hq, hname, hqp]⟩

theorem toRecord_of_find?_build {id : Int} {m : Module} (h : (build created).find? id = some m) :
    lastRecord created id = some m.toRecord := by
  obtain ⟨mc, hmc, -, -, rfl⟩ := find?_build_eq_some h
  rw [moduleIn_toRecord, hmc]

theorem parent_of_find?_build {id : Int} {m : Module} (h : (build created).find? id = some m) :
    m.parent = parentLink created id := by
  obtain ⟨mc, -, hmem, rfl, rfl⟩ := find?_build_eq_some h
  rw [moduleIn_parent, parentIn_eq hmem]

end modules


/-! ## The walk -/

section walk

variable {created : List ModuleCreated}

/-- Handing depths down adds one per link. -/
theorem Descends.depth_eq {c x : Int} {a b k : Nat} (h : Descends created (fun d _ => d + 1) c a k x b) :
    b = a + k := by
  induction h with
  | refl => rfl
  | step _ _ ih => omega

/-- Depths handed down from `a` are at least `a`. -/
theorem le_of_mem_descend {kids : Int → List Int} {h : Nat} {c x : Int} {a b : Nat}
    (hx : (x, b) ∈ descend kids (fun d _ => d + 1) h c a) : a ≤ b := by
  induction h generalizing c a with
  | zero => simp [descend] at hx
  | succ h ih =>
    simp only [descend, mem_cons, Prod.mk.injEq, mem_flatMap] at hx
    rcases hx with ⟨-, rfl⟩ | ⟨c', -, hx⟩
    · exact Nat.le_refl _
    · have := ih hx
      omega

theorem mem_children_build {p c : Int} :
    c ∈ (build created).children p ↔ parentLink created c = some p := by
  rw [ModuleTree.children]
  rcases hp : (build created).find? p with _ | m
  · have hnot : p ∉ created.map (·.id) := fun hmem => by
      have := find?_build_isSome.2 hmem
      rw [hp] at this
      cases this
    simp only [Option.map_none, Option.getD_none, not_mem_nil, false_iff]
    exact fun h => hnot (parentLink_eq_some h).2.1
  · exact mem_children_of_find?_build hp

theorem children_build_ascending {p : Int} {d : Nat} (hp : Rooted created p d) :
    ((build created).children p).Pairwise (· < ·) := by
  obtain ⟨m, hm⟩ := Option.isSome_iff_exists.1 (find?_build_isSome.2 hp.mem)
  rw [ModuleTree.children, hm]
  exact (placed_of_find?_build hm ⟨d, hp⟩).1

theorem walk_build_eq :
    (build created).walk = (rootsIn (latestRecords created)).flatMap fun r =>
      descend (build created).children (fun d _ => d + 1) (moduleIds [] created).length r 0 := by
  have hlen : (build created).modules.length = (moduleIds [] created).length := by
    rw [← modules_build_ids, length_map]
  rw [ModuleTree.walk, hlen]
  rfl

/-- The walk visits exactly the rooted modules, each at its depth. -/
theorem mem_walk_build {x : Int} {d : Nat} : (x, d) ∈ (build created).walk ↔ Rooted created x d := by
  rw [walk_build_eq, mem_descend_roots fun _ _ => mem_children_build]
  constructor
  · rintro ⟨r, k, hr, hd⟩
    have hx := hd.rooted hr
    rwa [Nat.zero_add, ← Nat.zero_add k, ← hd.depth_eq] at hx
  · intro hx
    obtain ⟨r, b, hr, hd⟩ := hx.descends_root fun _ => 0
    have hb := hd.depth_eq
    rw [Nat.zero_add] at hb
    subst hb
    exact ⟨r, b, hr, hd⟩

theorem walk_build_pairwise : (build created).walk.Pairwise fun e e' => InWalkOrder created e.1 e'.1 := by
  rw [walk_build_eq]
  exact pairwise_descend_roots (fun _ _ => mem_children_build) fun _ _ hp => children_build_ascending hp

/-- The modules at depth zero of the walk are the roots, in order. -/
theorem walk_build_roots :
    ((build created).walk.filter fun e => e.2 = 0).map Prod.fst = (build created).roots := by
  have hroot : ∀ r ∈ rootsIn (latestRecords created),
      ((descend (build created).children (fun d _ => d + 1) (moduleIds [] created).length r 0).filter
        fun e => e.2 = 0) = [(r, 0)] := by
    intro r hr
    obtain ⟨h, hn⟩ : ∃ h, (moduleIds [] created).length = h + 1 :=
      ⟨_, (Nat.succ_pred_eq_of_pos (mem_rootsIn.1 hr).depth_lt).symm⟩
    rw [hn, descend, filter_cons_of_pos (by simp), filter_eq_nil_iff.2]
    rintro ⟨x, b⟩ hx
    obtain ⟨c', -, hx⟩ := mem_flatMap.1 hx
    have := le_of_mem_descend hx
    simp only [decide_eq_true_eq]
    omega
  rw [walk_build_eq, filter_flatMap, flatMap_congr hroot]
  show _ = rootsIn (latestRecords created)
  simp [map_flatMap]

end walk

/-- What `ModuleTree.build` makes of any list of records.  It holds one
module per id, in the order of the ids' first records, built from each id's
last record, so as many modules as distinct ids.  The roots are the ids
without a parent, in that order.  Each module has the parent its record
names and, as children, the modules naming it as parent.  A rooted module
lists its children by ascending id and has its name as path, joined to its
parent's path below a parent; any other module has the empty path.  The walk
visits exactly the rooted modules, each once and at its depth, none before
its parent, siblings by ascending id and the roots in order.  A module on a
cycle of parents hangs below no root, so the walk passes it by. -/
theorem build_forest (created : List ModuleCreated) :
    let t := build created
    t.modules.map (·.id) = moduleIds [] created ∧
      t.size = (created.map (·.id)).toFinset.card ∧
      t.roots = (moduleIds [] created).filter (fun id => parentLink created id = none) ∧
      (∀ id m, t.find? id = some m →
        lastRecord created id = some m.toRecord ∧
          m.parent = parentLink created id ∧
          (∀ c, c ∈ m.children ↔ parentLink created c = some id) ∧
          ((∃ d, Rooted created id d) →
            m.children.Pairwise (· < ·) ∧
              (parentLink created id = none → m.fullPath = m.name) ∧
              ∀ p, parentLink created id = some p →
                ∃ pm, t.find? p = some pm ∧ m.fullPath = joinPath pm.fullPath m.name) ∧
          ((¬∃ d, Rooted created id d) → m.fullPath = "")) ∧
      (∀ x d, (x, d) ∈ t.walk ↔ Rooted created x d) ∧
      (t.walk.map Prod.fst).Nodup ∧
      t.walk.Pairwise (fun e f => parentLink created e.1 ≠ some f.1) ∧
      t.walk.Pairwise (fun e f =>
        ∀ p, parentLink created e.1 = some p → parentLink created f.1 = some p → e.1 < f.1) ∧
      (t.walk.filter fun e => e.2 = 0).map Prod.fst = t.roots := by
  intro t
  have hpw := @walk_build_pairwise created
  refine ⟨modules_build_ids, size_build, rootsIn_eq, fun id m h => ?_, fun x d => mem_walk_build,
    pairwise_map.2 (hpw.imp fun h => h.1), hpw.imp fun h => h.2.1, hpw.imp fun h => h.2.2, walk_build_roots⟩
  exact ⟨toRecord_of_find?_build h, parent_of_find?_build h, fun c => mem_children_of_find?_build h,
    fun hp => ⟨(placed_of_find?_build h hp).1, fullPath_placed h hp⟩, fullPath_of_find?_build h⟩

/-- Two modules that name each other as parent count among the modules, but
the walk passes them by. -/
theorem parent_cycle_not_walked :
    (build [⟨1, "A", "a", 2, "x", false⟩, ⟨2, "B", "b", 1, "y", false⟩,
        ⟨3, "C", "c", -1, "r", false⟩]).size = 3 ∧
      (build [⟨1, "A", "a", 2, "x", false⟩, ⟨2, "B", "b", 1, "y", false⟩,
        ⟨3, "C", "c", -1, "r", false⟩]).walk = [(3, 0)] := by
  decide +kernel

end ModuleTree

end EventChart

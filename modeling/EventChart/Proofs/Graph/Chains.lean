import EventChart.Graph.Chains
import EventChart.Proofs.Log.Crossing
/-!
# Chains are the connected components of the dependencies

`chains` folds the dependencies into blocks of events with
`joinComponents`, one dependency at a time, and then sorts each block,
gives it the dependencies whose cause it holds, orders the blocks and
numbers them.  This file proves that the chains are the connected
components of the undirected graph the dependencies form.

* `Partitions deps comps` is the invariant of the fold: nonempty blocks, no
  event twice, exactly the ends of `deps`, every dependency inside one
  block, and any two events of a block joined by dependencies taken either
  way.  `Partitions.join` is the step lemma and `partitions_components` the
  run.
* `Partitions.mem_iff_joined`: the block of an event holds exactly the
  events joined to it, since the blocks are disjoint and each dependency
  lies inside one.
* `chainsOf` is `chains` after the fold, for any list of blocks
  (`chains_eq`).  `chainsOf_sameBlocks`: it gives the same chains when the
  blocks, and the events in each, come in another order, as when they are
  read off a map.
* `chains_partition` assembles what the chains are.
-/

namespace EventChart

/-! ## Dependencies as an undirected graph -/

namespace Dependency

/-- Some dependency of `deps` leads from `x` to `y`. -/
def Joins (deps : List Dependency) (x y : Int) : Prop := ∃ d ∈ deps, d.cause = x ∧ d.consequence = y

/-- `x` is an end of some dependency of `deps`. -/
def IsEnd (deps : List Dependency) (x : Int) : Prop := ∃ d ∈ deps, d.cause = x ∨ d.consequence = x

theorem joins_append_left {deps : List Dependency} (ds : List Dependency) :
    Joins deps ≤ Joins (deps ++ ds) := by
  rintro x y ⟨d, hd, hx, hy⟩
  exact ⟨d, List.mem_append_left _ hd, hx, hy⟩

theorem isEnd_append_singleton {deps : List Dependency} {d : Dependency} {x : Int} :
    IsEnd (deps ++ [d]) x ↔ IsEnd deps x ∨ x = d.cause ∨ x = d.consequence := by
  simp only [IsEnd, List.mem_append, List.mem_singleton]
  constructor
  · rintro ⟨d', hd' | rfl, h⟩
    · exact .inl ⟨d', hd', h⟩
    · rcases h with h | h
      · exact .inr (.inl h.symm)
      · exact .inr (.inr h.symm)
  · rintro (⟨d', hd', h⟩ | h | h)
    · exact ⟨d', .inl hd', h⟩
    · exact ⟨d, .inr rfl, .inl h.symm⟩
    · exact ⟨d, .inr rfl, .inr h.symm⟩

end Dependency

/-! ## Joining two blocks -/

/-- The blocks `chains` builds, one dependency after another. -/
def components (deps : List Dependency) : List (List Int) :=
  deps.foldl (fun cs d => joinComponents cs d.cause d.consequence) []

/-- The block `joinComponents` makes of `a`, `b` and the blocks that hold
either. -/
def joinedBlock (comps : List (List Int)) (a b : Int) : List Int :=
  let merged := (comps.filter fun c => c.contains a || c.contains b).flatten
  let merged := (if merged.contains a then [] else [a]) ++ merged
  merged ++ (if merged.contains b then [] else [b])

theorem joinComponents_eq (comps : List (List Int)) (a b : Int) :
    joinComponents comps a b =
      comps.filter (fun c => !(c.contains a || c.contains b)) ++ [joinedBlock comps a b] := by
  simp only [joinComponents, joinedBlock, List.partition_eq_filter_filter, Function.comp_def]

section Join
variable {comps : List (List Int)} {a b : Int}

/-- The ends added to the merged blocks: each unless they hold it already. -/
theorem mem_addEnds {M : List Int} {x : Int} :
    x ∈ (((if M.contains a then [] else [a]) ++ M) ++
        if ((if M.contains a then [] else [a]) ++ M).contains b then [] else [b]) ↔
      x = a ∨ x = b ∨ x ∈ M := by
  by_cases ha : a ∈ M <;> by_cases hb : b ∈ M <;> by_cases hab : b = a <;> simp [ha, hb, hab] <;> grind

theorem nodup_addEnds {M : List Int} (h : M.Nodup) :
    (((if M.contains a then [] else [a]) ++ M) ++
        if ((if M.contains a then [] else [a]) ++ M).contains b then [] else [b]).Nodup := by
  by_cases ha : a ∈ M <;> by_cases hb : b ∈ M <;> by_cases hab : b = a <;>
    simp [ha, hb, hab, h, List.nodup_append] <;> grind

theorem mem_joinedBlock {x : Int} :
    x ∈ joinedBlock comps a b ↔ x = a ∨ x = b ∨ ∃ c ∈ comps, (a ∈ c ∨ b ∈ c) ∧ x ∈ c := by
  have hflat : x ∈ (comps.filter fun c => c.contains a || c.contains b).flatten ↔
      ∃ c ∈ comps, (a ∈ c ∨ b ∈ c) ∧ x ∈ c := by
    simp only [List.mem_flatten, List.mem_filter, Bool.or_eq_true, List.contains_iff_mem]
    constructor
    · rintro ⟨c, ⟨hc, hab⟩, hx⟩
      exact ⟨c, hc, hab, hx⟩
    · rintro ⟨c, hc, hab, hx⟩
      exact ⟨c, ⟨hc, hab⟩, hx⟩
  rw [← hflat]
  exact mem_addEnds

theorem nodup_joinedBlock (h : (comps.filter fun c => c.contains a || c.contains b).flatten.Nodup) :
    (joinedBlock comps a b).Nodup :=
  nodup_addEnds h

end Join

/-! ## The invariant of the fold -/

/-- The blocks `comps` partition the ends of `deps` into its connected
components: every block is nonempty, no event is in two places, the blocks
hold exactly the ends of the dependencies, every dependency lies inside a
block, and any two events of a block are joined. -/
structure Partitions (deps : List Dependency) (comps : List (List Int)) : Prop where
  nonempty : ∀ c ∈ comps, c ≠ []
  nodup : comps.flatten.Nodup
  ends : ∀ x, (∃ c ∈ comps, x ∈ c) ↔ Dependency.IsEnd deps x
  inside : ∀ d ∈ deps, ∃ c ∈ comps, d.cause ∈ c ∧ d.consequence ∈ c
  joined : ∀ c ∈ comps, ∀ x ∈ c, ∀ y ∈ c, Relation.EqvGen (Dependency.Joins deps) x y

theorem partitions_nil : Partitions [] [] :=
  ⟨by simp, by simp, by simp [Dependency.IsEnd], by simp, by simp⟩

section
variable {deps : List Dependency} {comps : List (List Int)}

/-- Joining the blocks of the ends of one more dependency keeps the
partition: the blocks that hold neither end stay, and the others become one
block with both ends. -/
theorem Partitions.join (h : Partitions deps comps) (d : Dependency) :
    Partitions (deps ++ [d]) (joinComponents comps d.cause d.consequence) := by
  set p : List Int → Bool := fun c => c.contains d.cause || c.contains d.consequence with hp
  have hsplit : (comps.filter p ++ comps.filter fun c => !p c).flatten.Nodup :=
    (List.Perm.flatten (List.filter_append_perm p comps)).nodup_iff.mpr h.nodup
  rw [List.flatten_append, List.nodup_append] at hsplit
  obtain ⟨htouched, hrest, hdisj⟩ := hsplit
  have hmemp : ∀ c, p c = true ↔ d.cause ∈ c ∨ d.consequence ∈ c := by
    intro c
    simp [hp]
  rw [joinComponents_eq]
  have hmem : ∀ c, c ∈ comps.filter (fun c => !p c) ++ [joinedBlock comps d.cause d.consequence] ↔
      (c ∈ comps ∧ d.cause ∉ c ∧ d.consequence ∉ c) ∨ c = joinedBlock comps d.cause d.consequence := by
    intro c
    simp only [List.mem_append, List.mem_filter, List.mem_singleton, Bool.not_eq_true', ← Bool.not_eq_true,
      hmemp]
    tauto
  -- every event of the new block is joined to the first end
  have hjoin : ∀ x ∈ joinedBlock comps d.cause d.consequence,
      Relation.EqvGen (Dependency.Joins (deps ++ [d])) x d.cause := by
    have hd : Relation.EqvGen (Dependency.Joins (deps ++ [d])) d.consequence d.cause :=
      .symm _ _ (.rel _ _ ⟨d, by simp, rfl, rfl⟩)
    intro x hx
    rcases mem_joinedBlock.mp hx with rfl | rfl | ⟨c, hc, hab | hab, hxc⟩
    · exact .refl _
    · exact hd
    · exact Relation.EqvGen.mono (Dependency.joins_append_left [d]) _ _ (h.joined c hc x hxc _ hab)
    · exact .trans _ _ _
        (Relation.EqvGen.mono (Dependency.joins_append_left [d]) _ _ (h.joined c hc x hxc _ hab)) hd
  refine ⟨fun c hc => ?_, ?_, fun x => ?_, fun d' hd' => ?_, fun c hc x hx y hy => ?_⟩
  · rcases (hmem c).mp hc with ⟨hc, -⟩ | rfl
    · exact h.nonempty c hc
    · exact List.ne_nil_of_mem (mem_joinedBlock.mpr (.inl rfl))
  · rw [List.flatten_append, List.flatten_singleton, List.nodup_append]
    refine ⟨hrest, nodup_joinedBlock htouched, fun x hx y hy hxy => ?_⟩
    subst hxy
    obtain ⟨c, hc, hxc⟩ := List.mem_flatten.mp hx
    obtain ⟨hcomps, hnp⟩ := List.mem_filter.mp hc
    rcases mem_joinedBlock.mp hy with rfl | rfl | ⟨c', hc', hab, hxc'⟩
    · exact Bool.false_ne_true ((Bool.not_eq_true' _).mp hnp ▸ (hmemp c).mpr (.inl hxc))
    · exact Bool.false_ne_true ((Bool.not_eq_true' _).mp hnp ▸ (hmemp c).mpr (.inr hxc))
    · exact hdisj x (List.mem_flatten.mpr ⟨c', List.mem_filter.mpr ⟨hc', (hmemp c').mpr hab⟩, hxc'⟩) x hx rfl
  · rw [Dependency.isEnd_append_singleton, ← h.ends]
    constructor
    · rintro ⟨c, hc, hxc⟩
      rcases (hmem c).mp hc with ⟨hc, -⟩ | rfl
      · exact .inl ⟨c, hc, hxc⟩
      · rcases mem_joinedBlock.mp hxc with rfl | rfl | ⟨c', hc', -, hxc'⟩
        · exact .inr (.inl rfl)
        · exact .inr (.inr rfl)
        · exact .inl ⟨c', hc', hxc'⟩
    · have hnew : joinedBlock comps d.cause d.consequence ∈
          comps.filter (fun c => !p c) ++ [joinedBlock comps d.cause d.consequence] := by simp
      rintro (⟨c, hc, hxc⟩ | rfl | rfl)
      · by_cases hab : d.cause ∈ c ∨ d.consequence ∈ c
        · exact ⟨_, hnew, mem_joinedBlock.mpr (.inr (.inr ⟨c, hc, hab, hxc⟩))⟩
        · exact ⟨c, (hmem c).mpr (.inl ⟨hc, not_or.mp hab⟩), hxc⟩
      · exact ⟨_, hnew, mem_joinedBlock.mpr (.inl rfl)⟩
      · exact ⟨_, hnew, mem_joinedBlock.mpr (.inr (.inl rfl))⟩
  · rcases List.mem_append.mp hd' with hd' | hd'
    · obtain ⟨c, hc, hca, hcb⟩ := h.inside d' hd'
      by_cases hab : d.cause ∈ c ∨ d.consequence ∈ c
      · exact ⟨joinedBlock comps d.cause d.consequence, by simp, mem_joinedBlock.mpr (.inr (.inr ⟨c, hc, hab, hca⟩)),
          mem_joinedBlock.mpr (.inr (.inr ⟨c, hc, hab, hcb⟩))⟩
      · exact ⟨c, (hmem c).mpr (.inl ⟨hc, not_or.mp hab⟩), hca, hcb⟩
    · rw [List.mem_singleton] at hd'
      subst hd'
      exact ⟨joinedBlock comps d'.cause d'.consequence, by simp, mem_joinedBlock.mpr (.inl rfl),
        mem_joinedBlock.mpr (.inr (.inl rfl))⟩
  · rcases (hmem c).mp hc with ⟨hc, -⟩ | rfl
    · exact Relation.EqvGen.mono (Dependency.joins_append_left [d]) _ _ (h.joined c hc x hx y hy)
    · exact .trans _ _ _ (hjoin x hx) (.symm _ _ (hjoin y hy))

end

/-- Folding in more dependencies keeps the partition. -/
theorem Partitions.foldl : ∀ (ds : List Dependency) {deps : List Dependency} {comps : List (List Int)},
    Partitions deps comps →
      Partitions (deps ++ ds) (ds.foldl (fun cs d => joinComponents cs d.cause d.consequence) comps)
  | [], _, _, h => by simpa using h
  | d :: ds, deps, _, h => by
    rw [List.foldl_cons, show deps ++ d :: ds = (deps ++ [d]) ++ ds by simp]
    exact Partitions.foldl ds (h.join d)

/-- The blocks `chains` builds partition the ends of the dependencies into
connected components. -/
theorem partitions_components (deps : List Dependency) : Partitions deps (components deps) := by
  have h := partitions_nil.foldl deps
  rwa [List.nil_append] at h

/-! ## Blocks and joined events -/

section
variable {deps : List Dependency} {comps : List (List Int)}

/-- Two blocks that share an event are one. -/
theorem Partitions.eq_of_mem (h : Partitions deps comps) {c c' : List Int} (hc : c ∈ comps) (hc' : c' ∈ comps)
    {x : Int} (hx : x ∈ c) (hx' : x ∈ c') : c = c' := by
  by_contra hne
  let _ : Std.Symm (@List.Disjoint Int) := ⟨fun _ _ h => h.symm⟩
  exact (List.nodup_flatten.mp h.nodup).2.forall hc hc' hne hx hx'

/-- The block of an event holds exactly the events joined to it. -/
theorem Partitions.mem_iff_joined (h : Partitions deps comps) {c : List Int} (hc : c ∈ comps) {x : Int}
    (hx : x ∈ c) (y : Int) : y ∈ c ↔ Relation.EqvGen (Dependency.Joins deps) x y := by
  refine ⟨h.joined c hc x hx y, fun hxy => ?_⟩
  -- joined events lie in the same blocks, since each dependency lies inside one
  have hsame : ∀ a b, Relation.EqvGen (Dependency.Joins deps) a b → ∀ c ∈ comps, (a ∈ c ↔ b ∈ c) := by
    intro a b hab
    induction hab with
    | rel a b hj =>
      obtain ⟨d, hd, rfl, rfl⟩ := hj
      obtain ⟨c', hc', hca, hcb⟩ := h.inside d hd
      intro c hc
      constructor
      · intro hac
        rw [h.eq_of_mem hc hc' hac hca]
        exact hcb
      · intro hbc
        rw [h.eq_of_mem hc hc' hbc hcb]
        exact hca
    | refl a => exact fun _ _ => Iff.rfl
    | symm a b _ ih => exact fun c hc => (ih c hc).symm
    | trans a b e _ _ ih₁ ih₂ => exact fun c hc => (ih₁ c hc).trans (ih₂ c hc)
  exact (hsame x y hxy c hc).mp hx

end

/-! ## From blocks to chains -/

/-- A block in ascending order, with the dependencies whose cause it holds
in listing order. -/
def sortedBlock (deps : List Dependency) (c : List Int) : List Int × List Dependency :=
  (c.mergeSort (· ≤ ·), Dependency.sort (deps.filter ((c.mergeSort (· ≤ ·)).contains ·.cause)))

/-- Larger chains first, then the chain with the smaller first event. -/
def chainBefore (a b : List Int × List Dependency) : Bool :=
  if a.1.length ≠ b.1.length then decide (a.1.length > b.1.length)
  else decide (a.1.head?.getD 0 ≤ b.1.head?.getD 0)

/-- The chains `chains` makes of the blocks `comps` of `deps`. -/
def chainsOf (deps : List Dependency) (comps : List (List Int)) : List Chain :=
  (((comps.map (sortedBlock deps)).mergeSort chainBefore).zipIdx).map fun ((ms, ds), i) => ⟨i, ms, ds⟩

theorem chains_eq (deps : List Dependency) : chains deps = chainsOf deps (components deps) := by
  simp only [chains, chainsOf, components, List.map_map]
  rfl

theorem chainBefore_iff (a b : List Int × List Dependency) :
    chainBefore a b = true ↔
      b.1.length < a.1.length ∨ a.1.length = b.1.length ∧ a.1.head?.getD 0 ≤ b.1.head?.getD 0 := by
  unfold chainBefore
  split_ifs <;> simp <;> omega

theorem pairwise_chainBefore (l : List (List Int × List Dependency)) :
    (l.mergeSort chainBefore).Pairwise fun a b => chainBefore a b = true :=
  List.pairwise_mergeSort (fun a b c hab hbc => by rw [chainBefore_iff] at *; omega)
    (fun a b => by rw [Bool.or_eq_true, chainBefore_iff, chainBefore_iff]; omega) l

section
variable {deps : List Dependency} {comps : List (List Int)}

/-- The events and dependencies of the chains are the sorted blocks, in
chain order. -/
theorem map_chainsOf (deps : List Dependency) (comps : List (List Int)) :
    (chainsOf deps comps).map (fun ch => (ch.events, ch.deps)) = (comps.map (sortedBlock deps)).mergeSort chainBefore := by
  simp only [chainsOf, List.map_map]
  conv_rhs => rw [← List.zipIdx_map_fst 0 ((comps.map (sortedBlock deps)).mergeSort chainBefore)]
  rfl

/-- Each chain is numbered by its position. -/
theorem id_chainsOf (deps : List Dependency) (comps : List (List Int)) (i : Nat) (h : i < (chainsOf deps comps).length) :
    (chainsOf deps comps)[i].id = i := by
  simp [chainsOf, List.getElem_zipIdx]

/-- The chains are the sorted blocks. -/
theorem mem_chainsOf {e : List Int} {ds : List Dependency} :
    (∃ ch ∈ chainsOf deps comps, ch.events = e ∧ ch.deps = ds) ↔ ∃ c ∈ comps, sortedBlock deps c = (e, ds) := by
  have h := congrArg (fun l => (e, ds) ∈ l) (map_chainsOf deps comps)
  simp only [List.mem_map, List.mem_mergeSort, Prod.mk.injEq] at h
  exact Iff.of_eq h

theorem sortedBlock_fst_perm (deps : List Dependency) (c : List Int) : (sortedBlock deps c).1.Perm c :=
  List.mergeSort_perm _ _

theorem mem_sortedBlock_fst (deps : List Dependency) {c : List Int} {x : Int} : x ∈ (sortedBlock deps c).1 ↔ x ∈ c :=
  (sortedBlock_fst_perm deps c).mem_iff

/-- A block with no event twice is strictly ascending once sorted. -/
theorem sortedBlock_lt (deps : List Dependency) {c : List Int} (h : c.Nodup) :
    (sortedBlock deps c).1.Pairwise (· < ·) := by
  have hle : (sortedBlock deps c).1.Pairwise fun a b => decide (a ≤ b) = true :=
    List.pairwise_mergeSort (fun a b c hab hbc => by simp at *; omega) (fun a b => by simp; omega) c
  exact (hle.and ((sortedBlock_fst_perm deps c).nodup_iff.mpr h)).imp fun hab => lt_of_le_of_ne (by simpa using hab.1) hab.2

theorem sortedBlock_snd_perm (c : List Int) :
    (sortedBlock deps c).2.Perm (deps.filter fun d => d.cause ∈ c) := by
  refine (List.mergeSort_perm _ _).trans (List.Perm.of_eq (List.filter_congr fun d _ => ?_))
  rw [Bool.eq_iff_iff, List.contains_iff_mem, decide_eq_true_iff]
  exact mem_sortedBlock_fst deps

end

/-! ## Dependencies shared out among disjoint blocks -/

/-- Filters by two predicates that never both hold make, together, the
filter by either. -/
theorem filter_append_filter_perm {α : Type} {p q : α → Bool} :
    ∀ (l : List α), (∀ x ∈ l, ¬ (p x = true ∧ q x = true)) →
      (l.filter p ++ l.filter q).Perm (l.filter fun x => p x || q x)
  | [], _ => by simp
  | x :: l, h => by
    have ih := filter_append_filter_perm l fun y hy => h y (List.mem_cons_of_mem x hy)
    have hx := h x List.mem_cons_self
    cases hp : p x <;> cases hq : q x <;> simp only [List.filter_cons, hp, hq] at hx ⊢
    · simpa using ih
    · simpa using List.perm_middle.trans (ih.cons x)
    · simpa using ih.cons x
    · simp at hx

/-- Blocks with no event in common share out the dependencies whose cause
they hold. -/
theorem flatten_filter_blocks_perm (ds : List Dependency) :
    ∀ (blocks : List (List Int)), blocks.Pairwise List.Disjoint →
      ((blocks.map fun c => ds.filter fun d => d.cause ∈ c).flatten).Perm
        (ds.filter fun d => ∃ c ∈ blocks, d.cause ∈ c)
  | [], _ => by simp
  | c :: blocks, h => by
    rw [List.pairwise_cons] at h
    rw [List.map_cons, List.flatten_cons]
    refine ((flatten_filter_blocks_perm ds blocks h.2).append_left _).trans ?_
    refine (filter_append_filter_perm ds fun d _ hd => ?_).trans (List.Perm.of_eq (List.filter_congr fun d _ => ?_))
    · obtain ⟨c', hc', hdc'⟩ := by simpa using hd.2
      exact h.1 c' hc' (by simpa using hd.1) hdc'
    · simp

/-! ## What the chains are -/

section
variable {deps : List Dependency} {comps : List (List Int)}

/-- Every chain of a partition is a nonempty block in strictly ascending
order, with, in listing order, exactly the dependencies whose cause it holds,
and their consequences too. -/
theorem Partitions.chain (h : Partitions deps comps) {ch : Chain} (hch : ch ∈ chainsOf deps comps) :
    ch.events ≠ [] ∧ ch.events.Pairwise (· < ·) ∧ ch.deps.Perm (deps.filter fun d => d.cause ∈ ch.events) ∧
      (∀ d ∈ ch.deps, d.consequence ∈ ch.events) ∧ ch.deps.Pairwise fun a b => a.le b = true := by
  obtain ⟨c, hc, hcb⟩ := mem_chainsOf.mp ⟨ch, hch, rfl, rfl⟩
  obtain ⟨he, hd⟩ := Prod.mk.inj hcb
  have hmem : ∀ x, x ∈ ch.events ↔ x ∈ c := fun x => by rw [← he]; exact mem_sortedBlock_fst deps
  have hperm : ch.deps.Perm (deps.filter fun d => d.cause ∈ ch.events) := by
    rw [← hd]
    refine (sortedBlock_snd_perm c).trans (List.Perm.of_eq (List.filter_congr fun d _ => ?_))
    simp [hmem]
  refine ⟨?_, ?_, hperm, fun d hdm => ?_, ?_⟩
  · rw [← he]
    intro hnil
    have hp : (c.mergeSort fun x1 x2 => decide (x1 ≤ x2)).Perm c := List.mergeSort_perm _ _
    rw [hnil] at hp
    exact h.nonempty c hc (List.Perm.nil_eq hp).symm
  · rw [← he]
    exact sortedBlock_lt deps (List.nodup_flatten.mp h.nodup |>.1 c hc)
  · -- the dependency lies inside one block, which holds its cause, so it is this one
    obtain ⟨hdeps, hcause⟩ := List.mem_filter.mp (hperm.subset hdm)
    obtain ⟨c', hc', hca, hcb⟩ := h.inside d hdeps
    rw [decide_eq_true_iff, hmem] at hcause
    rw [hmem]
    rw [h.eq_of_mem hc hc' hcause hca]
    exact hcb
  · rw [← hd]
    exact Dependency.pairwise_sort _

/-- A block of a partition, sorted, starts with one of its events. -/
theorem Partitions.exists_head (h : Partitions deps comps) {c : List Int} (hc : c ∈ comps) :
    ∃ x ∈ c, (sortedBlock deps c).1.head? = some x := by
  have hne : (sortedBlock deps c).1 ≠ [] := by
    intro hnil
    have hp := sortedBlock_fst_perm deps c
    rw [hnil] at hp
    exact h.nonempty c hc (List.Perm.nil_eq hp).symm
  obtain ⟨x, t, hxt⟩ := List.exists_cons_of_ne_nil hne
  refine ⟨x, (mem_sortedBlock_fst deps).mp ?_, by rw [hxt]; rfl⟩
  rw [hxt]
  exact List.mem_cons_self

/-- No event is in two chains. -/
theorem Partitions.pairwise_disjoint_chainsOf (h : Partitions deps comps) :
    (chainsOf deps comps).Pairwise fun a b => ∀ x ∈ a.events, x ∉ b.events := by
  have hevents : (chainsOf deps comps).map (·.events) = ((comps.map (sortedBlock deps)).mergeSort chainBefore).map Prod.fst := by
    rw [← map_chainsOf, List.map_map]
    rfl
  have hblocks : ((comps.map (sortedBlock deps)).map Prod.fst).Pairwise List.Disjoint := by
    rw [List.map_map, List.pairwise_map]
    exact (List.nodup_flatten.mp h.nodup).2.imp fun hd _ hx hy =>
      hd ((mem_sortedBlock_fst deps).mp hx) ((mem_sortedBlock_fst deps).mp hy)
  have hchains := (((List.mergeSort_perm _ chainBefore).map Prod.fst).pairwise_iff (fun hd => hd.symm)).mpr hblocks
  rw [← hevents, List.pairwise_map] at hchains
  exact hchains.imp fun hd x hx hy => hd hx hy

/-- The chains hold exactly the ends of the dependencies. -/
theorem Partitions.mem_chainsOf_events (h : Partitions deps comps) (x : Int) :
    (∃ ch ∈ chainsOf deps comps, x ∈ ch.events) ↔ Dependency.IsEnd deps x := by
  rw [← h.ends]
  constructor
  · rintro ⟨ch, hch, hx⟩
    obtain ⟨c, hc, hcb⟩ := mem_chainsOf.mp ⟨ch, hch, rfl, rfl⟩
    refine ⟨c, hc, (mem_sortedBlock_fst deps).mp ?_⟩
    rw [hcb]
    exact hx
  · rintro ⟨c, hc, hx⟩
    obtain ⟨ch, hch, he, -⟩ := mem_chainsOf.mpr ⟨c, hc, rfl⟩
    exact ⟨ch, hch, he ▸ (mem_sortedBlock_fst deps).mpr hx⟩

/-- The chain of an event holds exactly the events joined to it. -/
theorem Partitions.mem_chain_iff_joined (h : Partitions deps comps) {ch : Chain} (hch : ch ∈ chainsOf deps comps)
    {x : Int} (hx : x ∈ ch.events) (y : Int) : y ∈ ch.events ↔ Relation.EqvGen (Dependency.Joins deps) x y := by
  obtain ⟨c, hc, hcb⟩ := mem_chainsOf.mp ⟨ch, hch, rfl, rfl⟩
  have hmem : ∀ z, z ∈ ch.events ↔ z ∈ c := fun z => by
    rw [← (Prod.mk.inj hcb).1]
    exact mem_sortedBlock_fst deps
  rw [hmem]
  exact h.mem_iff_joined hc ((hmem x).mp hx) y

/-- Each dependency is in exactly one chain. -/
theorem Partitions.flatMap_deps_chainsOf (h : Partitions deps comps) :
    ((chainsOf deps comps).flatMap (·.deps)).Perm deps := by
  have hdeps : (chainsOf deps comps).flatMap (·.deps) =
      ((comps.map (sortedBlock deps)).mergeSort chainBefore).flatMap Prod.snd := by
    rw [← map_chainsOf, List.flatMap_map]
  rw [hdeps]
  refine ((List.mergeSort_perm _ chainBefore).flatMap_right Prod.snd).trans ?_
  rw [List.flatMap_map]
  refine (List.Perm.flatMap_left comps fun c _ => sortedBlock_snd_perm c).trans ?_
  rw [List.flatMap_def]
  refine (flatten_filter_blocks_perm deps comps (List.nodup_flatten.mp h.nodup).2).trans (List.Perm.of_eq ?_)
  -- every cause lies in some block
  refine List.filter_eq_self.mpr fun d hd => ?_
  obtain ⟨c, hc, hca, -⟩ := h.inside d hd
  exact decide_eq_true ⟨c, hc, hca⟩

/-- Larger chains come first, and of two chains of one size the one whose
first event is smaller. -/
theorem Partitions.pairwise_order_chainsOf (h : Partitions deps comps) :
    (chainsOf deps comps).Pairwise fun a b => b.events.length < a.events.length ∨
      a.events.length = b.events.length ∧ ∀ x ∈ a.events.head?, ∀ y ∈ b.events.head?, x < y := by
  have hord : (chainsOf deps comps).Pairwise fun a b => chainBefore (a.events, a.deps) (b.events, b.deps) = true := by
    have h := pairwise_chainBefore (comps.map (sortedBlock deps))
    rwa [← map_chainsOf, List.pairwise_map] at h
  refine (hord.and h.pairwise_disjoint_chainsOf).imp fun hab => ?_
  obtain ⟨hbefore, hdis⟩ := hab
  rw [chainBefore_iff] at hbefore
  rcases hbefore with hlt | ⟨hlen, hhead⟩
  · exact .inl hlt
  · refine .inr ⟨hlen, fun x hx y hy => ?_⟩
    -- the first events of two chains differ, since no event is in both
    have hne : x ≠ y := fun hxy => hdis x (List.mem_of_mem_head? hx) (hxy ▸ List.mem_of_mem_head? hy)
    simp only [Option.mem_def] at hx hy
    simp only [hx, hy, Option.getD_some] at hhead
    omega

/-! ## Chains do not depend on the order of the blocks -/

/-- Two lists of blocks that differ only in the order of the blocks and of
the events in each, as when they are read off a map. -/
def SameBlocks (xs ys : List (List Int)) : Prop := ∃ zs, xs.Perm zs ∧ List.Forall₂ List.Perm zs ys

theorem mergeSort_le_eq_of_perm {c c' : List Int} (h : c.Perm c') :
    c.mergeSort (fun a b => decide (a ≤ b)) = c'.mergeSort (fun a b => decide (a ≤ b)) := by
  have hsorted : ∀ l : List Int, (l.mergeSort fun a b => decide (a ≤ b)).Pairwise fun a b => decide (a ≤ b) = true :=
    List.pairwise_mergeSort (fun a b c hab hbc => by simp at *; omega) (fun a b => by simp; omega)
  exact List.Perm.eq_of_pairwise (fun a b _ _ h₁ h₂ => le_antisymm (by simpa using h₁) (by simpa using h₂))
    (hsorted c) (hsorted c') ((List.mergeSort_perm _ _).trans (h.trans (List.mergeSort_perm _ _).symm))

theorem map_sortedBlock_eq {zs ys : List (List Int)} (h : List.Forall₂ List.Perm zs ys) :
    zs.map (sortedBlock deps) = ys.map (sortedBlock deps) := by
  induction h with
  | nil => rfl
  | cons hp _ ih => simp only [List.map_cons, sortedBlock, mergeSort_le_eq_of_perm hp, ih]

/-- The chains of a partition are the same whatever order its blocks, and
the events in each, come in. -/
theorem Partitions.chainsOf_sameBlocks (h : Partitions deps comps) {xs : List (List Int)} (hs : SameBlocks xs comps) :
    chainsOf deps xs = chainsOf deps comps := by
  obtain ⟨zs, hxz, hzy⟩ := hs
  have hperm : (xs.map (sortedBlock deps)).Perm (comps.map (sortedBlock deps)) := by
    rw [← map_sortedBlock_eq hzy]
    exact hxz.map _
  have hsort : (xs.map (sortedBlock deps)).mergeSort chainBefore = (comps.map (sortedBlock deps)).mergeSort chainBefore := by
    refine List.Perm.eq_of_pairwise (fun a b ha hb hab hba => ?_) (pairwise_chainBefore _) (pairwise_chainBefore _)
      ((List.mergeSort_perm _ _).trans (hperm.trans (List.mergeSort_perm _ _).symm))
    -- two blocks each before the other start with one event, so they are one block
    rw [List.mem_mergeSort] at ha hb
    obtain ⟨c, hc, rfl⟩ := List.mem_map.mp (hperm.subset ha)
    obtain ⟨c', hc', rfl⟩ := List.mem_map.mp hb
    rw [chainBefore_iff] at hab hba
    obtain ⟨x, hx, hcx⟩ := h.exists_head hc
    obtain ⟨y, hy, hcy⟩ := h.exists_head hc'
    rw [hcx, hcy, Option.getD_some, Option.getD_some] at hab hba
    have hxy : x = y := by omega
    subst hxy
    rw [h.eq_of_mem hc hc' hx hy]
  unfold chainsOf
  rw [hsort]

end

end EventChart

import EventChart.Proofs.Log.Commit
/-!
# Module records in an index

An index keeps one module record per id: a later record takes the place of
the first one with its id, a record with a new id goes to the end
(`Index.addModule`).  So from an empty index the records `ms` leave exactly
`latestRecords ms`, the last record of each id in the order of the ids'
first records, which is what the module tree is built from.

* A list of records with distinct ids is known by its ids and by what a
  search by id finds (`eq_of_ids_find?`).
* `latestRecords` has the ids of `moduleIds` and finds the last record of
  an id (`ids_latestRecords`, `find?_latestRecords`).
* `modules_addModules` says that adding records to the records of `A` gives
  the records of `A` followed by them, and `latestRecords_absorb` that
  records read twice in a row count once.
-/

namespace EventChart

/-- The ids of module records in the order of their first records, after
those of `acc`. -/
def moduleIds (acc : List Int) (ms : List ModuleCreated) : List Int :=
  ms.foldl (fun acc mc => if acc.contains mc.id then acc else acc ++ [mc.id]) acc

theorem latestRecords_eq (ms : List ModuleCreated) :
    latestRecords ms = (moduleIds [] ms).filterMap fun id => ms.reverse.find? (·.id == id) := rfl

theorem moduleIds_append (acc : List Int) (ms ns : List ModuleCreated) :
    moduleIds acc (ms ++ ns) = moduleIds (moduleIds acc ms) ns := List.foldl_append

theorem moduleIds_concat (acc : List Int) (ms : List ModuleCreated) (mc : ModuleCreated) :
    moduleIds acc (ms ++ [mc]) =
      if mc.id ∈ moduleIds acc ms then moduleIds acc ms else moduleIds acc ms ++ [mc.id] := by
  rw [moduleIds_append]
  simp [moduleIds]

theorem mem_moduleIds {acc : List Int} {ms : List ModuleCreated} {k : Int} :
    k ∈ moduleIds acc ms ↔ k ∈ acc ∨ ∃ mc ∈ ms, mc.id = k := by
  induction ms generalizing acc with
  | nil => simp [moduleIds]
  | cons mc ms ih =>
    have hstep : k ∈ (if acc.contains mc.id then acc else acc ++ [mc.id]) ↔ k ∈ acc ∨ mc.id = k := by
      split
      · rename_i hmem
        rw [List.contains_iff_mem] at hmem
        constructor
        · exact .inl
        · rintro (h' | rfl)
          · exact h'
          · exact hmem
      · simp [eq_comm]
    rw [show moduleIds acc (mc :: ms) = moduleIds (if acc.contains mc.id then acc else acc ++ [mc.id]) ms
      from rfl, ih, hstep]
    simp only [List.mem_cons, exists_eq_or_imp, or_assoc]

theorem nodup_moduleIds {acc : List Int} (h : acc.Nodup) (ms : List ModuleCreated) :
    (moduleIds acc ms).Nodup := by
  induction ms generalizing acc with
  | nil => exact h
  | cons mc ms ih =>
    apply ih
    dsimp only
    split
    · exact h
    · rename_i hmem
      rw [List.contains_iff_mem] at hmem
      exact List.nodup_append.mpr ⟨h, List.nodup_singleton _, by simpa using fun a ha => (ne_of_mem_of_not_mem ha hmem)⟩

/-- Records whose ids are all known add no id. -/
theorem moduleIds_of_mem {acc : List Int} {ms : List ModuleCreated} (h : ∀ mc ∈ ms, mc.id ∈ acc) :
    moduleIds acc ms = acc := by
  induction ms with
  | nil => rfl
  | cons mc ms ih =>
    have hmc : acc.contains mc.id = true := List.contains_iff_mem.mpr (h mc (List.mem_cons_self ..))
    show moduleIds (if acc.contains mc.id then acc else acc ++ [mc.id]) ms = acc
    rw [if_pos hmc]
    exact ih fun m hm => h m (List.mem_cons_of_mem _ hm)

/-! ## Lists of records with distinct ids -/

section distinct

variable {l l₁ l₂ : List ModuleCreated}

/-- In a list with distinct ids, a search by the id of an entry finds it. -/
theorem find?_id_getElem (hl : (l.map (·.id)).Nodup) (j : Nat) (hj : j < l.length) :
    l.find? (·.id == l[j].id) = some l[j] := by
  rw [List.find?_eq_some_iff_getElem]
  refine ⟨by simp, j, hj, rfl, fun i hi => ?_⟩
  have hi' : i < (l.map (·.id)).length := by simp; omega
  have hj' : j < (l.map (·.id)).length := by simp; omega
  have hne : (l.map (·.id))[i] ≠ (l.map (·.id))[j] := fun heq =>
    absurd ((List.Nodup.getElem_inj_iff hl).mp heq) (by omega)
  simpa using hne

/-- A list of records with distinct ids is known by its ids and what a search
by id finds. -/
theorem eq_of_ids_find? (h₁ : (l₁.map (·.id)).Nodup) (h₂ : (l₂.map (·.id)).Nodup)
    (hids : l₁.map (·.id) = l₂.map (·.id)) (hfind : ∀ k, l₁.find? (·.id == k) = l₂.find? (·.id == k)) :
    l₁ = l₂ := by
  have hlen : l₁.length = l₂.length := by simpa using congrArg List.length hids
  apply List.ext_getElem hlen
  intro j hj₁ hj₂
  have hid : l₁[j].id = l₂[j].id := by
    have h := List.getElem_of_eq hids (by simpa using hj₁)
    rwa [List.getElem_map, List.getElem_map] at h
  have h := hfind l₁[j].id
  rw [find?_id_getElem h₁ j hj₁, hid, find?_id_getElem h₂ j hj₂] at h
  exact Option.some.inj h

end distinct

/-! ## The last records -/

/-- Only a record with id `k` is found by id `k`. -/
theorem id_of_find?_reverse {ms : List ModuleCreated} {k : Int} {mc : ModuleCreated}
    (h : ms.reverse.find? (·.id == k) = some mc) : mc.id = k := by
  simpa using List.find?_some h

private theorem latest_isSome {ms : List ModuleCreated} {k : Int} (h : k ∈ moduleIds [] ms) :
    (ms.reverse.find? (·.id == k)).isSome := by
  obtain ⟨mc, hmc, rfl⟩ := (mem_moduleIds.mp h).resolve_left (List.not_mem_nil)
  rw [List.find?_isSome]
  exact ⟨mc, List.mem_reverse.mpr hmc, by simp⟩

private theorem ids_filterMap {ms : List ModuleCreated} :
    ∀ {ids : List Int}, (∀ k ∈ ids, (ms.reverse.find? (·.id == k)).isSome) →
      (ids.filterMap fun id => ms.reverse.find? (·.id == id)).map (·.id) = ids
  | [], _ => rfl
  | k :: ids, h => by
    obtain ⟨mc, hmc⟩ := Option.isSome_iff_exists.mp (h k (List.mem_cons_self ..))
    rw [List.filterMap_cons, hmc]
    simp only [List.map_cons, id_of_find?_reverse hmc]
    rw [ids_filterMap fun k' hk' => h k' (List.mem_cons_of_mem _ hk')]

theorem ids_latestRecords (ms : List ModuleCreated) : (latestRecords ms).map (·.id) = moduleIds [] ms := by
  rw [latestRecords_eq]
  exact ids_filterMap fun k hk => latest_isSome hk

theorem nodup_latestRecords (ms : List ModuleCreated) : ((latestRecords ms).map (·.id)).Nodup := by
  rw [ids_latestRecords]
  exact nodup_moduleIds List.nodup_nil ms

private theorem find?_filterMap_none {ms : List ModuleCreated} {k : Int} {ids : List Int}
    (hk : ms.reverse.find? (·.id == k) = none) :
    (ids.filterMap fun id => ms.reverse.find? (·.id == id)).find? (·.id == k) = none := by
  rw [List.find?_eq_none]
  intro mc hmc heq
  obtain ⟨a, -, ha⟩ := List.mem_filterMap.mp hmc
  have hid : mc.id = a := id_of_find?_reverse ha
  have hka : a = k := by simpa [hid] using heq
  rw [hka, hk] at ha
  cases ha

private theorem find?_filterMap {ms : List ModuleCreated} {k : Int} :
    ∀ {ids : List Int}, k ∈ ids →
      (ids.filterMap fun id => ms.reverse.find? (·.id == id)).find? (·.id == k) = ms.reverse.find? (·.id == k)
  | [], h => absurd h List.not_mem_nil
  | k' :: ids, h => by
    rw [List.filterMap_cons]
    by_cases hkk : k' = k
    · subst hkk
      rcases hk' : ms.reverse.find? (·.id == k') with _ | mc
      · rw [hk']
        exact find?_filterMap_none hk'
      · rw [hk']
        dsimp only
        rw [List.find?_cons, id_of_find?_reverse hk']
        simp
    · have hrest : (ids.filterMap fun id => ms.reverse.find? (·.id == id)).find? (·.id == k) = _ :=
        find?_filterMap ((List.mem_cons.mp h).resolve_left (Ne.symm hkk))
      rcases hk' : ms.reverse.find? (·.id == k') with _ | mc
      · rw [hk']
        exact hrest
      · rw [hk']
        dsimp only
        have hne : (k' == k) = false := by simpa using hkk
        rw [List.find?_cons, id_of_find?_reverse hk', hne]
        exact hrest

/-- A search by id among the last records finds the last record with that
id. -/
theorem find?_latestRecords (ms : List ModuleCreated) (k : Int) :
    (latestRecords ms).find? (·.id == k) = ms.reverse.find? (·.id == k) := by
  rw [latestRecords_eq]
  by_cases hk : k ∈ moduleIds [] ms
  · exact find?_filterMap hk
  · have hnone : ms.reverse.find? (·.id == k) = none := by
      rw [List.find?_eq_none]
      intro mc hmc heq
      exact hk (mem_moduleIds.mpr (.inr ⟨mc, List.mem_reverse.mp hmc, by simpa using heq⟩))
    rw [hnone]
    exact find?_filterMap_none hnone

/-! ## Adding records -/

/-- Setting an entry that a search does not find, to a value it does not
find, leaves what the search finds. -/
theorem find?_set_of_not {α : Type} {p : α → Bool} {a : α} :
    ∀ {l : List α} {i : Nat} (hi : i < l.length), p l[i] = false → p a = false →
      (l.set i a).find? p = l.find? p
  | x :: l, 0, _, hx, ha => by
    simp only [List.getElem_cons_zero] at hx
    simp [hx, ha]
  | x :: l, i + 1, hi, hx, ha => by
    simp only [List.getElem_cons_succ] at hx
    simp only [List.set_cons_succ, List.find?_cons]
    rw [find?_set_of_not (by simpa using hi) hx ha]

/-- The last records of `A` followed by `mc`: `mc` takes the place of the
record with its id, or goes to the end. -/
theorem latestRecords_concat (A : List ModuleCreated) (mc : ModuleCreated) (k : Int) :
    (latestRecords (A ++ [mc])).find? (·.id == k) =
      if mc.id = k then some mc else (latestRecords A).find? (·.id == k) := by
  rw [find?_latestRecords, find?_latestRecords, List.reverse_append]
  by_cases h : mc.id = k <;> simp [h]

theorem modules_addModule {x : Index} {A : List ModuleCreated} (h : x.modules.toList = latestRecords A)
    (mc : ModuleCreated) : (x.addModule mc).modules.toList = latestRecords (A ++ [mc]) := by
  unfold Index.addModule
  split
  · rename_i i hi
    obtain ⟨hlt, hid, -⟩ := Array.findIdx?_eq_some_iff_getElem.mp hi
    have hlt' : i < (latestRecords A).length := by rw [← h]; simpa using hlt
    have hid' : (latestRecords A)[i].id = mc.id := by
      have hlt₀ : i < x.modules.toList.length := by simpa using hlt
      have hget : x.modules.toList[i] = (latestRecords A)[i] := List.getElem_of_eq h _
      rw [Array.getElem_toList] at hget
      simpa [hget] using hid
    have hmem : mc.id ∈ moduleIds [] A := by
      rw [← ids_latestRecords, ← hid']
      exact List.mem_map_of_mem (List.getElem_mem hlt')
    have hids : ((latestRecords A).set i mc).map (·.id) = moduleIds [] (A ++ [mc]) := by
      have hlt₁ : i < ((latestRecords A).map (·.id)).length := by simpa using hlt'
      have hget : ((latestRecords A).map (·.id))[i] = (latestRecords A)[i].id :=
        List.getElem_map ..
      rw [List.map_set, ← hid', moduleIds_concat, if_pos hmem, ← ids_latestRecords, ← hget,
        List.set_getElem_self]
    simp only [Array.set!_eq_setIfInBounds, Array.toList_setIfInBounds, h]
    apply eq_of_ids_find? (by rw [hids]; exact nodup_moduleIds List.nodup_nil _) (nodup_latestRecords _)
      (by rw [hids, ids_latestRecords])
    intro k
    rw [latestRecords_concat]
    by_cases hk : mc.id = k
    · subst hk
      have hlt₂ : i < ((latestRecords A).set i mc).length := by simpa using hlt'
      have hget : ((latestRecords A).set i mc)[i] = mc := by simp
      have hfind := find?_id_getElem (by rw [hids]; exact nodup_moduleIds List.nodup_nil _) i
        (by simpa using hlt')
      rw [hget] at hfind
      simpa using hfind
    · rw [if_neg hk]
      exact find?_set_of_not hlt' (by simpa [hid'] using hk) (by simpa using hk)
  · rename_i hnone
    have hnot : mc.id ∉ moduleIds [] A := by
      rw [← ids_latestRecords, ← h]
      intro hmem
      obtain ⟨m, hm, hmid⟩ := List.mem_map.mp hmem
      have := Array.findIdx?_eq_none_iff.mp hnone m (Array.mem_toList_iff.mp hm)
      simp [hmid] at this
    have hids : (latestRecords A ++ [mc]).map (·.id) = moduleIds [] (A ++ [mc]) := by
      rw [moduleIds_concat, if_neg hnot, List.map_append, ids_latestRecords]
      rfl
    simp only [Array.toList_push, h]
    apply eq_of_ids_find? (by rw [hids]; exact nodup_moduleIds List.nodup_nil _) (nodup_latestRecords _)
      (by rw [hids, ids_latestRecords])
    intro k
    rw [latestRecords_concat, List.find?_append]
    by_cases hk : mc.id = k
    · subst hk
      have hno : (latestRecords A).find? (·.id == mc.id) = none := by
        rw [find?_latestRecords, List.find?_eq_none]
        intro m hm heq
        exact hnot (mem_moduleIds.mpr (.inr ⟨m, List.mem_reverse.mp hm, by simpa using heq⟩))
      simp [hno]
    · simp [hk]

/-- Records added to the last records of `A` give the last records of `A`
followed by them. -/
theorem modules_addModules {x : Index} {A : List ModuleCreated} (h : x.modules.toList = latestRecords A)
    (B : List ModuleCreated) : (x.addModules B).modules.toList = latestRecords (A ++ B) := by
  induction B generalizing x A with
  | nil => simpa [Index.addModules] using h
  | cons mc B ih =>
    have hstep := ih (modules_addModule h mc)
    rwa [List.append_assoc, List.singleton_append] at hstep

/-- Records read twice in a row count once. -/
theorem latestRecords_absorb (A R N : List ModuleCreated) :
    latestRecords (A ++ R ++ R ++ N) = latestRecords (A ++ R ++ N) := by
  apply eq_of_ids_find? (nodup_latestRecords _) (nodup_latestRecords _)
  · have hR : ∀ mc ∈ R, mc.id ∈ moduleIds [] (A ++ R) := fun mc hmc =>
      mem_moduleIds.mpr (.inr ⟨mc, List.mem_append_right A hmc, rfl⟩)
    rw [ids_latestRecords, ids_latestRecords, moduleIds_append, moduleIds_append _ (A ++ R),
      moduleIds_of_mem hR, ← moduleIds_append]
  · intro k
    rw [find?_latestRecords, find?_latestRecords]
    simp only [List.reverse_append, List.find?_append]
    cases (R.reverse.find? (·.id == k)) <;> rfl

end EventChart

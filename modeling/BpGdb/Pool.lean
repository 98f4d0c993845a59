import BpGdb.List
import Mathlib

/-!
# Pool trees

`for_each_recursive_pool` lists a pool and then, depth first, the pools of
its `children` list; `pool_recursive_sizes` adds up `pool_sizes` over the same
recursion, in code of its own. Wherever the walk ends, the aggregate ends if
and only if `pool_sizes` does on every listed pool, and it is their sum
counted with multiplicity: what `bp_dump_pool_stats` prints accounts for
exactly the pools `bp_pool_tree` lists.

`bp_dump_pool_recycler` walks a chain of linear areas in a loop of its own,
adding sizes as a gdb value: it agrees with `pool_sizes`' loop modulo `2 ^ 64`.
-/

namespace BpGdb

def poolSize (m : Mem) (pool : Addr) : Nat := (m.load pool .nettoSize).toNat

def linearBruttoSize (m : Mem) : Nat → Addr → Nat → Option Nat
  | 0, _, _ => none
  | fuel + 1, area, bruttoSize =>
    if area ≠ 0 then linearBruttoSize m fuel (m.load area .prev) (bruttoSize + (m.load area .size).toNat)
    else some bruttoSize

def poolSizes (m : Mem) (fuel : Nat) (pool : Addr) : Option (Nat × Nat) :=
  let nettoSize := poolSize m pool
  if m.load pool .type = 2 then
    (linearBruttoSize m fuel (m.load pool .currentAreaLinear) 0).map fun bruttoSize => (bruttoSize, nettoSize)
  else some (nettoSize, nettoSize)

def forEachRecursivePool (m : Mem) : Nat → Addr → Option (List Addr)
  | 0, _ => none
  | fuel + 1, pool => do
    let children ← (forEachIntrusiveListItem m none (m.children pool)).run fuel
    let below ← children.mapM (forEachRecursivePool m fuel)
    pure (pool :: below.flatten)

def poolRecursiveSizes (m : Mem) : Nat → Addr → Option (Nat × Nat)
  | 0, _ => none
  | fuel + 1, pool => do
    let sizes ← poolSizes m fuel pool
    let children ← (forEachIntrusiveListItem m none (m.children pool)).run fuel
    children.foldlM (fun (bruttoSize, nettoSize) child => do
      let (childBrutto, childNetto) ← poolRecursiveSizes m fuel child
      pure (bruttoSize + childBrutto, nettoSize + childNetto)) sizes

/-! ## Folds of optional sizes -/

section
variable {α : Type} {g : α → Option (Nat × Nat)}

theorem foldlM_add_of (w : α → Nat × Nat) : ∀ {l : List α} (a : Nat × Nat),
    (∀ x ∈ l, g x = some (w x)) → l.foldlM (fun acc x => (g x).map (acc + ·)) a = some (a + (l.map w).sum)
  | [], a, _ => by simp
  | x :: l, a, h => by
    rw [List.foldlM_cons, h x (List.mem_cons_self _ _)]
    simp only [Option.map_some', Option.bind_eq_bind, Option.some_bind]
    rw [foldlM_add_of w _ fun y hy => h y (List.mem_cons_of_mem _ hy)]
    simp [add_assoc]

theorem foldlM_add_inv : ∀ {l : List α} {a r : Nat × Nat},
    l.foldlM (fun acc x => (g x).map (acc + ·)) a = some r →
      (∀ x ∈ l, g x = some ((g x).getD 0)) ∧ r = a + (l.map fun x => (g x).getD 0).sum
  | [], a, r, h => ⟨fun _ hx => absurd hx (List.not_mem_nil _), by simpa [eq_comm] using h⟩
  | x :: l, a, r, h => by
    rw [List.foldlM_cons] at h
    cases hx : g x with
    | none => simp [hx] at h
    | some b =>
      simp only [hx, Option.map_some', Option.bind_eq_bind, Option.some_bind] at h
      obtain ⟨hl, rfl⟩ := foldlM_add_inv h
      refine ⟨fun y hy => ?_, by simp [hx, add_assoc]⟩
      rcases List.mem_cons.1 hy with rfl | hy
      · simp [hx]
      · exact hl y hy

end

/-! ## Step lemmas -/

section
variable {m : Mem}

theorem forEachRecursivePool_succ {fuel : Nat} {pool : Addr} {l : List Addr} :
    forEachRecursivePool m (fuel + 1) pool = some l ↔
      ∃ cs, (forEachIntrusiveListItem m none (m.children pool)).run fuel = some cs ∧
        ∃ below, cs.mapM (forEachRecursivePool m fuel) = some below ∧ l = pool :: below.flatten := by
  simp only [forEachRecursivePool, Option.bind_eq_bind, Option.bind_eq_some, Option.pure_def,
    Option.some.injEq]
  exact exists_congr fun _ => and_congr_right fun _ => exists_congr fun _ => and_congr_right fun _ => eq_comm

theorem poolRecursiveSizes_succ {fuel : Nat} {pool : Addr} {r : Nat × Nat} :
    poolRecursiveSizes m (fuel + 1) pool = some r ↔
      ∃ sizes, poolSizes m fuel pool = some sizes ∧
        ∃ cs, (forEachIntrusiveListItem m none (m.children pool)).run fuel = some cs ∧
          cs.foldlM (fun acc child => (poolRecursiveSizes m fuel child).map (acc + ·)) sizes = some r := by
  have body : (fun (acc : Nat × Nat) child => (poolRecursiveSizes m fuel child).bind fun d =>
      pure (acc.1 + d.1, acc.2 + d.2)) = fun acc child => (poolRecursiveSizes m fuel child).map (acc + ·) := by
    funext acc child
    cases poolRecursiveSizes m fuel child <;> rfl
  simp only [poolRecursiveSizes, Option.bind_eq_bind, Option.bind_eq_some]
  rw [body]

theorem linearBruttoSize_mono : ∀ {n n' : Nat} {area : Addr} {b r : Nat},
    linearBruttoSize m n area b = some r → n ≤ n' → linearBruttoSize m n' area b = some r
  | 0, _, _, _, _, h, _ => nomatch h
  | _ + 1, 0, _, _, _, _, hle => absurd hle (by omega)
  | n + 1, n' + 1, area, b, r, h, hle => by
    unfold linearBruttoSize at h ⊢
    split_ifs at h ⊢
    · exact linearBruttoSize_mono h (by omega)
    · exact h

theorem poolSizes_mono {n n' : Nat} {pool : Addr} {s : Nat × Nat} (h : poolSizes m n pool = some s)
    (hle : n ≤ n') : poolSizes m n' pool = some s := by
  unfold poolSizes at h ⊢
  split_ifs at h ⊢
  · obtain ⟨b, hb, rfl⟩ := Option.map_eq_some'.1 h
    rw [linearBruttoSize_mono hb hle]
    rfl
  · exact h

theorem sum_walk (v : Addr → Nat × Nat) (p : Addr) (cs : List Addr) (walks : Addr → List Addr) :
    ((p :: (cs.map walks).flatten).map v).sum = v p + (cs.map fun c => ((walks c).map v).sum).sum := by
  simp [List.map_flatten, List.sum_flatten, List.map_map, Function.comp_def]

theorem poolRecursiveSizes_of_walk : ∀ (fuel : Nat) (p : Addr) (L : List Addr),
    forEachRecursivePool m fuel p = some L → ∀ (k : Nat) (v : Addr → Nat × Nat),
      (∀ x ∈ L, poolSizes m k x = some (v x)) → poolRecursiveSizes m (fuel + k) p = some (L.map v).sum
  | 0, _, _, h, _, _, _ => nomatch h
  | f + 1, p, L, h, k, v, hv => by
    obtain ⟨cs, hcs, below, hbelow, rfl⟩ := forEachRecursivePool_succ.1 h
    obtain ⟨hsub, rfl⟩ := eq_map_of_mapM_some [] hbelow
    rw [show f + 1 + k = f + k + 1 by omega, sum_walk]
    refine poolRecursiveSizes_succ.2 ⟨v p, poolSizes_mono (hv p (List.mem_cons_self _ _)) (by omega),
      cs, Gen.runFrom_mono hcs (by omega), foldlM_add_of _ _ fun c hc => ?_⟩
    exact poolRecursiveSizes_of_walk f c _ (hsub c hc) k v fun x hx =>
      hv x (List.mem_cons_of_mem _ (List.mem_flatten.2 ⟨_, List.mem_map_of_mem _ hc, hx⟩))

theorem sizes_of_poolRecursiveSizes : ∀ (fuel : Nat) (p : Addr) (L : List Addr),
    forEachRecursivePool m fuel p = some L → ∀ (k : Nat) (r : Nat × Nat),
      poolRecursiveSizes m k p = some r →
        ∃ v : Addr → Nat × Nat, (∀ x ∈ L, poolSizes m k x = some (v x)) ∧ r = (L.map v).sum
  | 0, _, _, h, _, _, _ => nomatch h
  | _ + 1, _, _, _, 0, _, hr => nomatch hr
  | f + 1, p, L, h, k + 1, r, hr => by
    obtain ⟨cs, hcs, below, hbelow, rfl⟩ := forEachRecursivePool_succ.1 h
    obtain ⟨hsub, rfl⟩ := eq_map_of_mapM_some [] hbelow
    obtain ⟨sizes, hs, cs', hcs', hfold⟩ := poolRecursiveSizes_succ.1 hr
    obtain rfl : cs = cs' := (Gen.yieldsFrom_of_runFrom hcs).unique (Gen.yieldsFrom_of_runFrom hcs')
    obtain ⟨hch, rfl⟩ := foldlM_add_inv hfold
    let V x := (poolSizes m (k + 1) x).getD 0
    have child : ∀ c ∈ cs, (∀ x ∈ (forEachRecursivePool m f c).getD [], poolSizes m (k + 1) x = some (V x)) ∧
        (poolRecursiveSizes m k c).getD 0 = (((forEachRecursivePool m f c).getD []).map V).sum := by
      intro c hc
      obtain ⟨w, hw, e⟩ := sizes_of_poolRecursiveSizes f c _ (hsub c hc) k _ (hch c hc)
      have hV : ∀ x ∈ (forEachRecursivePool m f c).getD [], poolSizes m (k + 1) x = some (w x) :=
        fun x hx => poolSizes_mono (hw x hx) (by omega)
      refine ⟨fun x hx => by simp [V, hV x hx], e.trans (congrArg List.sum (List.map_congr_left fun x hx => ?_))⟩
      simp [V, hV x hx]
    have hp : poolSizes m (k + 1) p = some sizes := poolSizes_mono hs (by omega)
    refine ⟨V, fun x hx => ?_, ?_⟩
    · rcases List.mem_cons.1 hx with rfl | hx
      · simp [V, hp]
      · obtain ⟨_, hl, hx⟩ := List.mem_flatten.1 hx
        obtain ⟨c, hc, rfl⟩ := List.mem_map.1 hl
        exact (child c hc).1 x hx
    · rw [sum_walk]
      simp only [V, hp, Option.getD_some]
      exact congrArg (sizes + ·) (congrArg List.sum (List.map_congr_left fun c hc => (child c hc).2))

end

theorem poolRecursiveSizes_eq_sum (m : Mem) (p : Addr) (fuel : Nat) (L : List Addr)
    (hwalk : forEachRecursivePool m fuel p = some L) :
    (∀ k S, L.mapM (poolSizes m k) = some S → poolRecursiveSizes m (fuel + k) p = some S.sum) ∧
    (∀ k r, poolRecursiveSizes m k p = some r → ∃ S, L.mapM (poolSizes m k) = some S ∧ r = S.sum) := by
  refine ⟨fun k S hS => ?_, fun k r hr => ?_⟩
  · obtain ⟨hL, rfl⟩ := eq_map_of_mapM_some 0 hS
    exact poolRecursiveSizes_of_walk fuel p L hwalk k _ hL
  · obtain ⟨v, hv, rfl⟩ := sizes_of_poolRecursiveSizes fuel p L hwalk k r hr
    exact ⟨L.map v, mapM_some_of v hv, rfl⟩

def twoPools : Mem where
  load a f := match f with
    | .next_ => if a = 100 then 2 else if a = 2 then 100 else 200
    | .nettoSize => if a = 1 then 10 else 5
    | _ => 0
  children p := if p = 1 then 100 else 200

theorem twoPools_recursiveSizes : poolRecursiveSizes twoPools 3 1 = some (15, 15) :=
  (poolRecursiveSizes_eq_sum twoPools 1 3 [1, 2] (by decide)).1 0 [(10, 10), (5, 5)] (by decide)

/-! ## The recycler -/

/-- The `while not is_null(area):` loop of `DumpPoolRecycler.invoke`: it counts the areas
along `prev` and adds up their `size` as a gdb value, modulo `2 ^ 64`. -/
def recyclerAreas (m : Mem) : Nat → Addr → Nat → BitVec 64 → Option (Nat × BitVec 64)
  | 0, _, _, _ => none
  | fuel + 1, area, nAreas, totalSize =>
    if ¬isNull area then
      recyclerAreas m fuel (m.load area .prev) (nAreas + 1) (totalSize + m.load area .size)
    else some (nAreas, totalSize)

structure RecyclerStats where
  nPools : Nat
  numLinearAreas : Nat
  nAreas : Nat
  areaTotalSize : BitVec 64

/-- `DumpPoolRecycler.invoke`, from the fields of `recycler` it reads: the header of
`pools.list`, `linear_areas` and `num_linear_areas`. -/
def DumpPoolRecycler.invoke (m : Mem) (pools linearAreas : Addr) (numLinearAreas fuel : Nat) :
    Option RecyclerStats := do
  let items ← (forEachIntrusiveListItem m none pools).run fuel
  let (nAreas, totalSize) ← recyclerAreas m fuel linearAreas 0 0
  pure ⟨items.length, numLinearAreas, nAreas, totalSize⟩

def DumpLeaks.invoke (m : Mem) (leaks : Addr) (fuel : Nat) : Option (List Addr) :=
  (forEachIntrusiveListItem m none leaks).run fuel

section
variable {m : Mem}

def areaSizes (m : Mem) (areas : List Addr) : Nat := (areas.map fun a => (m.load a .size).toNat).sum

theorem recyclerAreas_chain : ∀ {fuel : Nat} {area : Addr} {k n : Nat} {t t' : BitVec 64},
    recyclerAreas m fuel area k t = some (n, t') →
      ∃ areas, Path (m.load · .prev) area areas 0 ∧ 0 ∉ areas ∧ areas.length < fuel ∧
        n = k + areas.length ∧ t' = t + BitVec.ofNat 64 (areaSizes m areas)
  | 0, _, _, _, _, _, h => nomatch h
  | fuel + 1, area, k, n, t, t', h => by
    rw [recyclerAreas] at h
    by_cases hnull : isNull area
    · rw [if_neg (not_not.2 hnull)] at h
      obtain ⟨rfl, rfl⟩ := Prod.mk.inj (Option.some.inj h)
      refine ⟨[], ?_, List.not_mem_nil _, Nat.succ_pos _, rfl, by simp [areaSizes]⟩
      rw [show area = 0 from hnull]
      exact .nil _
    · rw [if_pos hnull] at h
      obtain ⟨areas, hp, hz, hlen, rfl, rfl⟩ := recyclerAreas_chain h
      refine ⟨area :: areas, .cons hp, List.not_mem_cons_of_ne_of_not_mem (fun h => hnull h.symm) hz,
        Nat.succ_lt_succ hlen, by rw [List.length_cons]; omega, ?_⟩
      simp only [areaSizes, List.map_cons, List.sum_cons]
      apply BitVec.eq_of_toNat_eq
      simp only [BitVec.toNat_add, BitVec.toNat_ofNat]
      omega

theorem linearBruttoSize_of_chain : ∀ {areas : List Addr} {area : Addr},
    Path (m.load · .prev) area areas 0 → 0 ∉ areas → ∀ (fuel b : Nat), areas.length < fuel →
      linearBruttoSize m fuel area b = some (b + areaSizes m areas)
  | [], _, hp, _, fuel + 1, b, _ => by
    cases hp
    simp [linearBruttoSize, areaSizes]
  | a :: areas, _, hp, hz, fuel + 1, b, hlen => by
    cases hp with
    | cons hp =>
    have ha : a ≠ 0 := fun h => hz (h ▸ List.mem_cons_self _ _)
    rw [linearBruttoSize, if_pos ha, linearBruttoSize_of_chain hp (fun h => hz (List.mem_cons_of_mem _ h))
      fuel _ (Nat.lt_of_succ_lt_succ hlen)]
    simp [areaSizes, Nat.add_assoc]

end

/-- Where `bp_dump_pool_recycler`'s area loop ends, `n_areas` is the number of linear areas
along `prev` up to null, and `area_total_size` is, modulo `2 ^ 64`, their total size, the
brutto size that `pool_sizes`' own loop computes from the same area. -/
theorem recyclerAreas_eq_linearBruttoSize (m : Mem) (fuel : Nat) (area : Addr) {nAreas : Nat}
    {totalSize : BitVec 64} (h : recyclerAreas m fuel area 0 0 = some (nAreas, totalSize)) :
    ∃ areas : List Addr, Path (m.load · .prev) area areas 0 ∧ 0 ∉ areas ∧ nAreas = areas.length ∧
      linearBruttoSize m fuel area 0 = some (areaSizes m areas) ∧
      totalSize = BitVec.ofNat 64 (areaSizes m areas) := by
  obtain ⟨areas, hp, hz, hlen, rfl, rfl⟩ := recyclerAreas_chain h
  refine ⟨areas, hp, hz, Nat.zero_add _, ?_, BitVec.zero_add _⟩
  rw [linearBruttoSize_of_chain hp hz fuel 0 hlen, Nat.zero_add]

def twoLinearAreas : Mem where
  load a f := match f with
    | .prev => if a = 1 then 2 else 0
    | .size => if a = 1 then 10 else 20
    | _ => 0
  children _ := 0

theorem twoLinearAreas_recycler :
    ∃ areas : List Addr, Path (twoLinearAreas.load · .prev) 1 areas 0 ∧ 0 ∉ areas ∧ 2 = areas.length ∧
      linearBruttoSize twoLinearAreas 3 1 0 = some (areaSizes twoLinearAreas areas) ∧
      (30 : BitVec 64) = BitVec.ofNat 64 (areaSizes twoLinearAreas areas) :=
  recyclerAreas_eq_linearBruttoSize twoLinearAreas 3 1 (by decide)

end BpGdb

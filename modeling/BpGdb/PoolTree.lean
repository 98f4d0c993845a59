import BpGdb.Pool

/-!
# Pool trees in memory

A tree of pools as the program lays it out: each pool's `children` list holds,
in order, the roots of its subtrees. On such a tree `for_each_recursive_pool`
ends once its fuel exceeds the tree's size, with the tree's pools in preorder,
and `pool_recursive_sizes` adds up `pool_sizes` over exactly those pools.

A node has one `next_`, so two children lists that share a node reach each
other's header. Where distinct pools have distinct list headers and no header
is itself a pool, no pool has two parents, and no pool is listed twice.
-/

namespace BpGdb

inductive PoolNode
  | node (pool : Addr) (children : List PoolNode)

namespace PoolNode

def root : PoolNode → Addr
  | .node pool _ => pool

mutual
def preorder : PoolNode → List Addr
  | .node pool children => pool :: preorderList children

def preorderList : List PoolNode → List Addr
  | [] => []
  | t :: ts => t.preorder ++ preorderList ts
end

mutual
def size : PoolNode → Nat
  | .node _ children => sizeList children + 1

def sizeList : List PoolNode → Nat
  | [] => 0
  | t :: ts => t.size + sizeList ts
end

inductive Reaches (t : PoolNode) : PoolNode → Prop
  | refl : Reaches t t
  | child {pool : Addr} {cs : List PoolNode} {c : PoolNode} :
      Reaches t (.node pool cs) → c ∈ cs → Reaches t c

end PoolNode

open PoolNode

mutual
/-- `Lays m t`: the tree `t` is laid out in `m`: walking each pool's `children`
list along `next_` from its header back to the header passes the roots of its
subtrees, in order. -/
inductive Lays (m : Mem) : PoolNode → Prop
  | node {pool : Addr} {cs : List PoolNode} :
      Path (m.load · .next_) (m.load (m.children pool) .next_) (cs.map root) (m.children pool) →
      m.children pool ∉ cs.map root → LaysAll m cs → Lays m (.node pool cs)

inductive LaysAll (m : Mem) : List PoolNode → Prop
  | nil : LaysAll m []
  | cons {t : PoolNode} {ts : List PoolNode} : Lays m t → LaysAll m ts → LaysAll m (t :: ts)
end

/-! ## Sizes and preorder -/

namespace PoolNode

theorem preorderList_eq : ∀ cs : List PoolNode, preorderList cs = (cs.map preorder).flatten
  | [] => rfl
  | t :: ts => by rw [preorderList, preorderList_eq ts]; rfl

theorem size_le_sizeList : ∀ {cs : List PoolNode} {c : PoolNode}, c ∈ cs → c.size ≤ sizeList cs
  | t :: ts, c, h => by
    rw [sizeList]
    rcases List.mem_cons.1 h with rfl | h
    · omega
    · exact (size_le_sizeList h).trans (Nat.le_add_left _ _)

theorem length_le_sizeList : ∀ cs : List PoolNode, cs.length ≤ sizeList cs
  | [] => le_rfl
  | .node _ _ :: ts => by
    simp only [List.length_cons, sizeList, size]
    have := length_le_sizeList ts
    omega

theorem preorder_subset_preorderList {cs : List PoolNode} {c : PoolNode} (h : c ∈ cs) :
    c.preorder ⊆ preorderList cs := by
  rw [preorderList_eq]
  intro x hx
  exact List.mem_flatten.2 ⟨c.preorder, List.mem_map_of_mem _ h, hx⟩

theorem Reaches.trans {t c u : PoolNode} (h : t.Reaches c) (h' : c.Reaches u) : t.Reaches u := by
  induction h' with
  | refl => exact h
  | child _ hc ih => exact .child ih hc

theorem Reaches.size_le {t u : PoolNode} (h : t.Reaches u) : u.size ≤ t.size := by
  induction h with
  | refl => exact le_rfl
  | child _ hc ih => exact (size_le_sizeList hc).trans (Nat.le_of_succ_le ih)

theorem Reaches.preorder_subset {t u : PoolNode} (h : t.Reaches u) : u.preorder ⊆ t.preorder := by
  induction h with
  | refl => exact List.Subset.refl _
  | child _ hc ih => exact (preorder_subset_preorderList hc).trans ((List.subset_cons_self _ _).trans ih)

theorem Reaches.root_mem {t u : PoolNode} (h : t.Reaches u) : u.root ∈ t.preorder := by
  obtain ⟨pool, cs⟩ := u
  exact h.preorder_subset (List.mem_cons_self _ _)

mutual
theorem exists_reaches_of_mem : ∀ {t : PoolNode} {x : Addr}, x ∈ t.preorder →
    ∃ u, t.Reaches u ∧ u.root = x
  | .node pool cs, x, h => by
    rcases List.mem_cons.1 h with rfl | h
    · exact ⟨_, .refl, rfl⟩
    · obtain ⟨c, hc, u, hu, rfl⟩ := exists_reaches_of_mem_list h
      exact ⟨u, Reaches.trans (.child .refl hc) hu, rfl⟩

theorem exists_reaches_of_mem_list : ∀ {cs : List PoolNode} {x : Addr}, x ∈ preorderList cs →
    ∃ c ∈ cs, ∃ u, c.Reaches u ∧ u.root = x
  | c :: cs, x, h => by
    rcases List.mem_append.1 h with h | h
    · exact ⟨c, List.mem_cons_self _ _, exists_reaches_of_mem h⟩
    · obtain ⟨c', hc', hu⟩ := exists_reaches_of_mem_list h
      exact ⟨c', List.mem_cons_of_mem _ hc', hu⟩
end

end PoolNode

/-! ## The walk over a laid-out tree -/

section Walk

variable {m : Mem}

theorem forEachIntrusiveListItem_run_of_path {header : Addr} {cs : List Addr}
    (hp : Path (m.load · .next_) (m.load header .next_) cs header) (hh : header ∉ cs)
    (fuel : Nat) (hf : cs.length < fuel) : (forEachIntrusiveListItem m none header).run fuel = some cs := by
  have hw : (BoostIntrusiveContainerType.iterNodes m header).YieldsFrom (m.load header .next_) cs :=
    walk_yieldsFrom_iff.2 ⟨hp, hh⟩
  have h := (hw.map (nodeToValue none)).runFrom fuel (by simpa using hf)
  rwa [show cs.map (nodeToValue none) = cs from List.map_id' cs] at h

theorem LaysAll.of_mem : ∀ {cs : List PoolNode} {c : PoolNode}, LaysAll m cs → c ∈ cs → Lays m c
  | _ :: _, _, .cons ht hts, h => by
    rcases List.mem_cons.1 h with rfl | h
    exacts [ht, hts.of_mem h]

theorem Lays.reaches {t u : PoolNode} (ht : Lays m t) (h : t.Reaches u) : Lays m u := by
  induction h with
  | refl => exact ht
  | child _ hc ih =>
    cases ih with
    | node _ _ hall => exact hall.of_mem hc

mutual
theorem Lays.walk : ∀ {t : PoolNode}, Lays m t → ∀ fuel, t.size < fuel →
    forEachRecursivePool m fuel t.root = some t.preorder
  | .node pool cs, .node hp hh hall, fuel + 1, hf => by
    have hs : sizeList cs < fuel := by simpa [size] using hf
    refine forEachRecursivePool_succ.2 ⟨cs.map root, forEachIntrusiveListItem_run_of_path hp hh fuel
      (by simpa using (length_le_sizeList cs).trans_lt hs), cs.map preorder, hall.walk fuel hs, ?_⟩
    rw [preorder, preorderList_eq]
    rfl
  | .node _ _, _, 0, hf => absurd hf (Nat.not_lt_zero _)

theorem LaysAll.walk : ∀ {cs : List PoolNode}, LaysAll m cs → ∀ fuel, sizeList cs < fuel →
    (cs.map root).mapM (forEachRecursivePool m fuel) = some (cs.map preorder)
  | [], .nil, _, _ => rfl
  | t :: ts, .cons ht hts, fuel, hf => by
    rw [sizeList] at hf
    rw [List.map_cons, List.mapM_cons, ht.walk fuel (by omega), hts.walk fuel (by omega)]
    rfl
end

end Walk

/-- On a pool tree laid out in memory, `bp_pool_tree` lists the tree's pools in
preorder, and the recursive size of `bp_dump_pool_stats` adds up `pool_sizes`
over them; both end once the fuel exceeds the tree's size. -/
theorem forEachRecursivePool_preorder (m : Mem) {t : PoolNode} (ht : Lays m t) (fuel : Nat)
    (hf : t.size < fuel) :
    forEachRecursivePool m fuel t.root = some t.preorder ∧
      ∀ (k : Nat) (v : Addr → Nat × Nat), (∀ p ∈ t.preorder, poolSizes m k p = some (v p)) →
        poolRecursiveSizes m (fuel + k) t.root = some (t.preorder.map v).sum :=
  ⟨ht.walk fuel hf, fun k v hv => poolRecursiveSizes_of_walk fuel _ _ (ht.walk fuel hf) k v hv⟩

theorem twoPools_lays : Lays twoPools (.node 1 [.node 2 []]) :=
  .node (.cons (.nil _)) (by decide) (.cons (.node (.nil _) (by decide) .nil) .nil)

theorem twoPools_preorder :
    forEachRecursivePool twoPools 3 1 = some [1, 2] ∧
      ∀ (k : Nat) (v : Addr → Nat × Nat), (∀ p ∈ [(1 : Addr), 2], poolSizes twoPools k p = some (v p)) →
        poolRecursiveSizes twoPools (3 + k) 1 = some ([(1 : Addr), 2].map v).sum :=
  forEachRecursivePool_preorder twoPools twoPools_lays 3 (by decide)

/-! ## No pool listed twice -/

section Distinct

variable {m : Mem}

mutual
theorem Lays.unique : ∀ {s s' : PoolNode}, Lays m s → Lays m s' → s.root = s'.root → s = s'
  | .node p cs, .node p' cs', .node hp hh hall, .node hp' hh' hall', h => by
    obtain rfl : p = p' := h
    rw [hall.unique hall' (Path.eq_of_not_mem hp hp' hh hh')]

theorem LaysAll.unique : ∀ {cs cs' : List PoolNode}, LaysAll m cs → LaysAll m cs' →
    cs.map root = cs'.map root → cs = cs'
  | [], [], _, _, _ => rfl
  | _ :: _, _ :: _, .cons hc hcs, .cons hc' hcs', h => by
    rw [List.map_cons, List.map_cons, List.cons.injEq] at h
    rw [hc.unique hc' h.1, hcs.unique hcs' h.2]
end

theorem Lays.parent_unique {p p' x : Addr} {cs cs' : List PoolNode} (h : Lays m (.node p cs))
    (h' : Lays m (.node p' cs')) (hx : x ∈ cs.map root) (hx' : x ∈ cs'.map root)
    (hinj : m.children p = m.children p' → p = p') (hh : m.children p ∉ cs'.map root)
    (hh' : m.children p' ∉ cs.map root) : p = p' := by
  cases h with
  | node hp hn _ =>
  cases h' with
  | node hp' hn' _ =>
  obtain ⟨l₁, l₂, hl, hq⟩ := hp.exists_suffix hx
  obtain ⟨l₁', l₂', hl', hq'⟩ := hp'.exists_suffix hx'
  have sub : x :: l₂ ⊆ cs.map root := hl ▸ List.subset_append_right _ _
  have sub' : x :: l₂' ⊆ cs'.map root := hl' ▸ List.subset_append_right _ _
  rcases hq.mem_or_mem hq' (fun h => hn (sub h)) (fun h => hn' (sub' h)) with e | e | e
  · exact hinj e
  · exact absurd (sub' e) hh
  · exact absurd (sub e) hh'

variable {T : PoolNode} (hT : Lays m T)

include hT in
theorem root_not_mem_child {p : Addr} {cs : List PoolNode} (hu : T.Reaches (.node p cs))
    {c : PoolNode} (hc : c ∈ cs) : p ∉ c.preorder := fun hp => by
  obtain ⟨w, hw, rfl⟩ := exists_reaches_of_mem hp
  have e := (hT.reaches (hu.trans (Reaches.trans (.child .refl hc) hw))).unique (hT.reaches hu) rfl
  have h1 := hw.size_le
  have h2 := size_le_sizeList hc
  rw [e, size] at h1
  omega

variable (hinj : ∀ p ∈ T.preorder, ∀ p' ∈ T.preorder, m.children p = m.children p' → p = p')
  (hhdr : ∀ p ∈ T.preorder, m.children p ∉ T.preorder)

theorem PoolNode.Reaches.child_mem {p x : Addr} {cs : List PoolNode} (hu : T.Reaches (.node p cs))
    (hx : x ∈ cs.map root) : x ∈ T.preorder := by
  obtain ⟨c, hc, rfl⟩ := List.mem_map.1 hx
  exact (Reaches.child hu hc).root_mem

include hT hinj hhdr in
theorem parent_unique_of_reaches {p p' x : Addr} {cs cs' : List PoolNode}
    (hu : T.Reaches (.node p cs)) (hu' : T.Reaches (.node p' cs')) (hx : x ∈ cs.map root)
    (hx' : x ∈ cs'.map root) : p = p' :=
  (hT.reaches hu).parent_unique (hT.reaches hu') hx hx' (hinj p hu.root_mem p' hu'.root_mem)
    (fun h => hhdr p hu.root_mem (hu'.child_mem h)) (fun h => hhdr p' hu'.root_mem (hu.child_mem h))

include hT hinj hhdr in
theorem root_not_mem_sibling {p : Addr} {cs : List PoolNode} (hu : T.Reaches (.node p cs))
    {c d : PoolNode} (hc : c ∈ cs) (hd : d ∈ cs) (hcd : c.root ≠ d.root) {u : PoolNode}
    (hcu : c.Reaches u) : u.root ∉ d.preorder := by
  have hTc : T.Reaches c := .child hu hc
  have hTd : T.Reaches d := .child hu hd
  induction hcu with
  | refl =>
    intro hm
    obtain ⟨w, hw, hwr⟩ := exists_reaches_of_mem hm
    cases hw with
    | refl => exact hcd hwr.symm
    | child hv hwv =>
      have e := parent_unique_of_reaches hT hinj hhdr hu (hTd.trans hv) (List.mem_map_of_mem _ hc)
        (hwr ▸ List.mem_map_of_mem _ hwv)
      exact root_not_mem_child hT hu hd (e ▸ hv.root_mem)
  | child hv hu' ih =>
    intro hm
    obtain ⟨w, hw, hwr⟩ := exists_reaches_of_mem hm
    cases hw with
    | refl =>
      have e := parent_unique_of_reaches hT hinj hhdr hu (hTc.trans hv) (List.mem_map_of_mem _ hd)
        (hwr ▸ List.mem_map_of_mem _ hu')
      exact root_not_mem_child hT hu hc (e ▸ hv.root_mem)
    | child hv' hwv =>
      have e := parent_unique_of_reaches hT hinj hhdr (hTc.trans hv) (hTd.trans hv')
        (List.mem_map_of_mem _ hu') (hwr ▸ List.mem_map_of_mem _ hwv)
      exact ih (e ▸ hv'.root_mem)

include hT hinj hhdr in
theorem preorder_nodup_of_reaches : ∀ (n : Nat) {u : PoolNode}, T.Reaches u → u.size ≤ n →
    u.preorder.Nodup
  | 0, .node _ _, _, hn => absurd hn (by simp [size])
  | n + 1, .node p cs, hu, hn => by
    have hroots : (cs.map root).Nodup := by
      cases hT.reaches hu with
      | node hp hh _ => exact hp.nodup hh
    rw [preorder, preorderList_eq, List.nodup_cons, List.nodup_flatten, List.pairwise_map]
    refine ⟨fun h => ?_, fun l hl => ?_, ?_⟩
    · obtain ⟨_, hl, hp⟩ := List.mem_flatten.1 h
      obtain ⟨c, hc, rfl⟩ := List.mem_map.1 hl
      exact root_not_mem_child hT hu hc hp
    · obtain ⟨c, hc, rfl⟩ := List.mem_map.1 hl
      have := size_le_sizeList hc
      exact preorder_nodup_of_reaches n (.child hu hc) (by rw [size] at hn; omega)
    · refine (List.pairwise_map.1 hroots).imp_of_mem fun hc hd hcd x hx hx' => ?_
      obtain ⟨u, hcu, rfl⟩ := exists_reaches_of_mem hx
      exact root_not_mem_sibling hT hinj hhdr hu hc hd hcd hcu hx'

end Distinct

/-- Where distinct pools of a laid-out tree have distinct `children` headers
and no header is itself one of its pools, `bp_pool_tree` lists no pool twice. -/
theorem forEachRecursivePool_nodup (m : Mem) {t : PoolNode} (ht : Lays m t)
    (hinj : ∀ p ∈ t.preorder, ∀ p' ∈ t.preorder, m.children p = m.children p' → p = p')
    (hhdr : ∀ p ∈ t.preorder, m.children p ∉ t.preorder) (fuel : Nat) (hf : t.size < fuel) :
    ∃ L, forEachRecursivePool m fuel t.root = some L ∧ L.Nodup :=
  ⟨_, ht.walk fuel hf, preorder_nodup_of_reaches ht hinj hhdr _ .refl le_rfl⟩

theorem twoPools_nodup : ∃ L, forEachRecursivePool twoPools 3 1 = some L ∧ L.Nodup :=
  forEachRecursivePool_nodup twoPools twoPools_lays
    (by simp [twoPools, PoolNode.preorder, PoolNode.preorderList])
    (by simp [twoPools, PoolNode.preorder, PoolNode.preorderList]) 3 (by decide)

/-! ## Commands over pool trees -/

inductive PoolLine
  | usage (text : String)
  | pool (address : Option Addr) (name : String)
  | found (address : Addr)
  deriving DecidableEq, Repr

/-- `PoolTree.invoke`: `eval` gives the value of `gdb.parse_and_eval`, and
`evalAddress` its `address`. The first pool printed is that pointer, whose
`address` is the pointer's own (`None` if it is no lvalue); the others are the
children, dereferenced. -/
def PoolTree.invoke (m : Mem) (name : Addr → String) (eval : String → Addr)
    (evalAddress : String → Option Addr) (args : List String) (fuel : Nat) : Option (List PoolLine) :=
  match args with
  | [pool] => (forEachRecursivePool m fuel (eval pool)).map fun pools =>
      pools.enum.map fun (k, x) => .pool (if k = 0 then evalAddress pool else some x) (name x)
  | _ => some [.usage "usage: bp_pool_tree pool"]

def PoolChildren.invoke (m : Mem) (name : Addr → String) (eval : String → Addr) (args : List String)
    (fuel : Nat) : Option (List PoolLine) :=
  match args with
  | [pool] => ((forEachIntrusiveListItem m none (m.children (eval pool))).run fuel).map
      fun children => children.map fun child => .pool (some child) (name child)
  | _ => some [.usage "usage: bp_pool_children pool"]

/-- `FindPool.invoke`: `print(x, x.dereference())` for each pool named as the
second argument; only the first pool is a pointer, and `dereference()` of a
child raises. -/
def FindPool.invoke (m : Mem) (name : Addr → String) (eval : String → Addr) (args : List String)
    (fuel : Nat) : Option (Run PoolLine) :=
  match args with
  | [pool, target] => (forEachRecursivePool m fuel (eval pool)).map fun pools =>
      Run.forEach (fun (k, x) => if k = 0 then .ok (PoolLine.found x) else .error .notAPointer)
        (pools.enum.filter fun (_, x) => name x = target)
  | _ => some (Run.print [.usage "usage: bp_find_pool pool name"])

inductive PoolType
  | pool | slicePool | other
  deriving DecidableEq, Repr

structure SlicePoolFields where
  sliceSize : Nat
  areaSize : Nat
  slicesPerArea : Nat
  areas : Addr

inductive StatsLine
  | pool (name : String) (type : Nat)
  | size (sizes : Nat × Nat)
  | recursiveSize (sizes : Nat × Nat)
  | slicePool (address : Option Addr)
  | field (name : String) (value : Nat)
  | area (address : Addr) (allocated : Nat)
  | sliceSize (bruttoSize nettoSize : BitVec 64)
  | nAllocated (n : BitVec 64)
  | unrecognized (arg : String)
  deriving DecidableEq, Repr

/-- The `areas` loop of the `SlicePool` branch: `n_allocated`, `brutto_size`
and `netto_size`. Adding a field to a Python `0` makes each a 64-bit gdb
integer. -/
def slicePoolTotals (s : SlicePoolFields) (allocatedCount : Addr → Nat) (areas : List Addr) :
    BitVec 64 × BitVec 64 × BitVec 64 :=
  areas.foldl (fun (nAllocated, bruttoSize, nettoSize) area =>
    (nAllocated + BitVec.ofNat 64 (allocatedCount area), bruttoSize + BitVec.ofNat 64 s.areaSize,
      nettoSize + BitVec.ofNat 64 (allocatedCount area * s.sliceSize))) (0, 0, 0)

/-- `DumpPoolStats.invoke` on the value `pool` of the argument `arg`, of type
`poolType`, whose own `address` is `address`. -/
def DumpPoolStats.invoke (m : Mem) (name : Addr → String) (slicePool : Addr → SlicePoolFields)
    (allocatedCount : Addr → Nat) (poolType : PoolType) (pool : Addr) (address : Option Addr)
    (arg : String) (fuel : Nat) : Option (List StatsLine) :=
  match poolType with
  | .pool => do
    let sizes ← poolSizes m fuel pool
    let recursiveSizes ← poolRecursiveSizes m fuel pool
    pure [.pool (name pool) (m.load pool .type).toNat, .size sizes, .recursiveSize recursiveSizes]
  | .slicePool => do
    let s := slicePool pool
    let areas ← (forEachIntrusiveListItem m none s.areas).run fuel
    let (nAllocated, bruttoSize, nettoSize) := slicePoolTotals s allocatedCount areas
    pure ([.slicePool address, .field "slice_size" s.sliceSize, .field "area_size" s.areaSize,
        .field "slices_per_area" s.slicesPerArea] ++ areas.map (fun area => .area area (allocatedCount area)) ++
      [.sliceSize bruttoSize nettoSize, .nAllocated nAllocated])
  | .other => some [.unrecognized arg]

end BpGdb

import BpGdb.List
import Mathlib

/-!
# Slice pool areas

`bp_dump_slice_pool_areas` walks each area's free list from `free_head`
along the slots' `next` indices until `END_OF_LIST`, marking every slot it
passes and aborting at an index outside the area, and then prints every
unmarked slot with the address `get_slice` computes for it.

The walk has no cycle check: it ends within `slices_per_area + 1` rounds or
never. The command never gets as far as the walk: `SlicePool.areas` hands
`SliceArea` a dereferenced area where `assert_gdb_type` wants a pointer, so
it raises at the first area. Nor would the report print a slot: Python 3's
`/` makes `get_slice`'s page index a float, which gdb does not add to a
pointer.
-/

namespace BpGdb

def endOfList : Nat := 2 ^ 32 - 2

structure SlicePool where
  sliceSize : Nat
  headerPages : Nat
  slicesPerArea : Nat
  slicesPerPage : Nat
  pagesPerSlice : Nat
  deriving DecidableEq, Repr

def SlicePool.pageSize : Nat := 4096

/-- An area as `invoke` reads it: its address, `allocated_count`, `free_head`,
and the `next` index of each slot. -/
structure SliceArea where
  area : Addr
  allocatedCount : Nat
  freeHead : Nat
  next : Nat → Nat

def SlicePool.init (poolType : String) (pool : SlicePool) : Except PyError SlicePool := do
  assertGdbType poolType "SlicePool *"
  pure pool

def SliceArea.init (areaType : String) (a : SliceArea) : Except PyError SliceArea := do
  assertGdbType areaType "SliceArea *"
  pure a

/-- The type of what `for_each_intrusive_list_item(pool['areas'])` yields: a
dereferenced node, of the list's value type. -/
def listedAreaType : String := "SliceArea"

/-! ## Slot addresses -/

/-- A Python number: an `int`, or a `float`, whose value is kept exact. -/
inductive PyNum
  | int (n : Int)
  | float (x : ℚ)

namespace PyNum

def toRat : PyNum → ℚ
  | int n => n
  | float x => x

def add : PyNum → PyNum → PyNum
  | int a, int b => int (a + b)
  | a, b => float (a.toRat + b.toRat)

def mul : PyNum → PyNum → PyNum
  | int a, int b => int (a * b)
  | a, b => float (a.toRat * b.toRat)

@[simp] theorem add_float (a : PyNum) (x : ℚ) : a.add (float x) = float (a.toRat + x) := by
  cases a <;> rfl

@[simp] theorem float_mul (x : ℚ) (b : PyNum) : (float x).mul b = float (x * b.toRat) := by
  cases b <;> rfl

end PyNum

def pyTrueDiv (x y : Nat) : Except PyError PyNum :=
  if y = 0 then .error .zeroDivision else .ok (.float ((x : ℚ) / y))

def pyMod (x y : Nat) : Except PyError Nat :=
  if y = 0 then .error .zeroDivision else .ok (x % y)

namespace SliceArea

/-- `get_page`: the area as a `uint8_t *` plus the byte offset; gdb adds an
`int` to a pointer and refuses a `float`. -/
def getPage (a : SliceArea) (pool : SlicePool) (pageIndex offset : PyNum) : Except PyError Addr :=
  match offset.add (((PyNum.int pool.headerPages).add pageIndex).mul (.int SlicePool.pageSize)) with
  | .int n => .ok (a.area + BitVec.ofInt 64 n)
  | .float _ => .error .pointerPlusFloat

def getSlice (a : SliceArea) (pool : SlicePool) (sliceIndex : Nat) : Except PyError Addr := do
  let pageIndex := (← pyTrueDiv sliceIndex pool.slicesPerPage).mul (.int pool.pagesPerSlice)
  let sliceIndex ← pyMod sliceIndex pool.slicesPerPage
  a.getPage pool pageIndex (.int (sliceIndex * pool.sliceSize))

theorem getPage_float (a : SliceArea) (pool : SlicePool) (x : ℚ) (offset : PyNum) :
    a.getPage pool (.float x) offset = .error .pointerPlusFloat := by
  simp [getPage]

theorem getSlice_of_zero (a : SliceArea) {pool : SlicePool} (h : pool.slicesPerPage = 0) (i : Nat) :
    a.getSlice pool i = .error .zeroDivision := by
  simp only [getSlice, pyTrueDiv, if_pos h]
  rfl

theorem getSlice_of_pos (a : SliceArea) {pool : SlicePool} (h : 0 < pool.slicesPerPage) (i : Nat) :
    a.getSlice pool i = a.getPage pool (.float ((i : ℚ) / pool.slicesPerPage * pool.pagesPerSlice))
      (.int ((i % pool.slicesPerPage : Nat) * pool.sliceSize)) := by
  simp [getSlice, pyTrueDiv, pyMod, Nat.pos_iff_ne_zero.1 h, PyNum.toRat]
  rfl

/-- `get_slice` forms no address: with `slices_per_page = 0` its `/` raises
`ZeroDivisionError`, and otherwise the page index it passes to `get_page` is
a float, which gdb does not add to the area's `uint8_t *`. -/
theorem getSlice_raises (a : SliceArea) (pool : SlicePool) (i : Nat) :
    a.getSlice pool i = .error (if pool.slicesPerPage = 0 then .zeroDivision else .pointerPlusFloat) := by
  by_cases h : pool.slicesPerPage = 0
  · rw [getSlice_of_zero a h, if_pos h]
  · rw [getSlice_of_pos a (Nat.pos_of_ne_zero h), getPage_float, if_neg h]

end SliceArea

/-! ## The dump -/

inductive Line
  | area (area : Addr) (allocatedCount freeHead : Nat)
  | outOfRange (i : Nat) (previous : Int)
  | slice (i : Nat) (data : Addr)
  deriving DecidableEq, Repr

/-- The free-list loop of `invoke`, one round per unit of fuel: the marks it
leaves, and the index and predecessor it printed if it left the area. -/
def walkFreeList (n : Nat) (next : Nat → Nat) :
    Nat → Nat → Int → List Bool → Option (Option (Nat × Int) × List Bool)
  | 0, _, _, _ => none
  | fuel + 1, i, previous, freeList =>
    if i = endOfList then some (none, freeList)
    else if (i : Int) < 0 ∨ n ≤ i then some (some (i, previous), freeList)
    else walkFreeList n next fuel (next i) i (freeList.set i true)

def reportAllocated (a : SliceArea) (pool : SlicePool) (freeList : List Bool) : Run Line :=
  Run.forEach (fun i => (a.getSlice pool i).map (Line.slice i))
    ((List.range pool.slicesPerArea).filter fun i => !freeList.getD i false)

def dumpArea (pool : SlicePool) (a : SliceArea) (fuel : Nat) : Option (Run Line) :=
  let header := Line.area a.area a.allocatedCount a.freeHead
  if 0 < a.allocatedCount then do
    let (outOfRange, freeList) ← walkFreeList pool.slicesPerArea a.next fuel a.freeHead (-1)
      (List.replicate pool.slicesPerArea false)
    pure ((Run.print (header :: (outOfRange.map fun (i, previous) => Line.outOfRange i previous).toList)).andThen
      (reportAllocated a pool freeList))
  else pure (Run.print [header])

def SlicePool.areas (m : Mem) (read : Addr → SliceArea) (areas : Addr) : Gen Addr (Except PyError SliceArea) :=
  (forEachIntrusiveListItem m none areas).map fun area => SliceArea.init listedAreaType (read area)

def dumpAreasFrom {σ : Type} (g : Gen σ (Except PyError SliceArea)) (pool : SlicePool) (walkFuel : Nat) :
    Nat → σ → Option (Run Line)
  | 0, _ => none
  | fuel + 1, s =>
    match g.next s with
    | none => some (Run.print [])
    | some (.error e, _) => some ⟨[], some e⟩
    | some (.ok a, s') => do
      let r ← dumpArea pool a walkFuel
      match r.raised with
      | some _ => pure r
      | none => (dumpAreasFrom g pool walkFuel fuel s').map r.andThen

/-- `DumpSlicePoolAreas.invoke`: `poolType` is the type of the evaluated
argument, `areas` the header of its `areas` list, and `read` reads an area. -/
def DumpSlicePoolAreas.invoke (m : Mem) (read : Addr → SliceArea) (poolType : String) (pool : SlicePool)
    (areas : Addr) (fuel : Nat) : Option (Run Line) :=
  match SlicePool.init poolType pool with
  | .error e => some ⟨[], some e⟩
  | .ok pool => dumpAreasFrom (SlicePool.areas m read areas) pool fuel fuel (SlicePool.areas m read areas).start

/-- `bp_dump_slice_pool_areas` prints no line. Given a `SlicePool *`, it ends
at once on an empty `areas` list, and otherwise raises at the first area:
`for_each_intrusive_list_item` yields the area dereferenced, and `SliceArea`
asserts a pointer. -/
theorem DumpSlicePoolAreas.invoke_raises_at_first_area (m : Mem) (read : Addr → SliceArea)
    (poolType : String) (pool : SlicePool) (areas : Addr) (fuel : Nat) :
    DumpSlicePoolAreas.invoke m read poolType pool areas (fuel + 1) =
      some ⟨[], if poolType ≠ "SlicePool *" then
          some (.gdbError ("Expected 'SlicePool *', got '" ++ poolType ++ "'"))
        else if m.load areas .next_ = areas then none
        else some (.gdbError "Expected 'SliceArea *', got 'SliceArea'")⟩ := by
  by_cases hp : poolType = "SlicePool *"
  · by_cases he : m.load areas .next_ = areas <;>
      simp [DumpSlicePoolAreas.invoke, SlicePool.init, assertGdbType, hp, he, dumpAreasFrom, SlicePool.areas,
        forEachIntrusiveListItem, BoostIntrusiveContainerType.iterNodes, iterNodesBy, walk, Gen.map, Run.print,
        SliceArea.init, listedAreaType]
  · simp [DumpSlicePoolAreas.invoke, SlicePool.init, assertGdbType, hp]

/-! ## The free-list walk -/

section Walk

variable {n : Nat} {next : Nat → Nat}

theorem walkFreeList_end {fuel i : Nat} (previous : Int) (freeList : List Bool)
    (hi : i = endOfList) : walkFreeList n next (fuel + 1) i previous freeList = some (none, freeList) := by
  rw [walkFreeList, if_pos hi]

theorem walkFreeList_out {fuel i : Nat} (previous : Int) (freeList : List Bool)
    (hi : i ≠ endOfList) (hn : n ≤ i) :
    walkFreeList n next (fuel + 1) i previous freeList = some (some (i, previous), freeList) := by
  rw [walkFreeList, if_neg hi, if_pos (Or.inr hn)]

theorem walkFreeList_step {fuel i : Nat} (previous : Int) (freeList : List Bool)
    (hi : i ≠ endOfList) (hn : i < n) :
    walkFreeList n next (fuel + 1) i previous freeList =
      walkFreeList n next fuel (next i) i (freeList.set i true) := by
  rw [walkFreeList, if_neg hi, if_neg (by omega)]

theorem walkFreeList_eq_none_iff : ∀ {fuel i : Nat} {previous : Int} {freeList : List Bool},
    walkFreeList n next fuel i previous freeList = none ↔
      ∀ k < fuel, next^[k] i ≠ endOfList ∧ next^[k] i < n
  | 0, _, _, _ => by simp [walkFreeList]
  | fuel + 1, i, previous, freeList => by
    by_cases hi : i = endOfList
    · rw [walkFreeList_end previous freeList hi]
      exact ⟨nofun, fun h => absurd hi (h 0 (Nat.succ_pos _)).1⟩
    by_cases hn : n ≤ i
    · rw [walkFreeList_out previous freeList hi hn]
      exact ⟨nofun, fun h => absurd (h 0 (Nat.succ_pos _)).2 (not_lt.2 hn)⟩
    rw [walkFreeList_step previous freeList hi (not_le.1 hn), walkFreeList_eq_none_iff]
    constructor
    · intro h k hk
      cases k with
      | zero => exact ⟨hi, not_le.1 hn⟩
      | succ k => exact h k (by omega)
    · exact fun h k hk => h (k + 1) (by omega)

/-- Without a cycle check, the walk ends within `n + 1` rounds or never: if
it runs `n + 1` rounds, two of the indices it passed coincide and it cycles. -/
theorem walkFreeList_ends_or_loops (n : Nat) (next : Nat → Nat) (i : Nat) (previous : Int)
    (freeList : List Bool) :
    (walkFreeList n next (n + 1) i previous freeList).isSome ∨
      ∀ fuel, walkFreeList n next fuel i previous freeList = none := by
  cases h : walkFreeList n next (n + 1) i previous freeList with
  | some r => exact Or.inl rfl
  | none =>
    have horbit := walkFreeList_eq_none_iff.1 h
    have loops : ∀ {a b}, a < b → b < n + 1 → next^[a] i = next^[b] i →
        ∀ fuel, walkFreeList n next fuel i previous freeList = none :=
      fun hab hb heq _ => walkFreeList_eq_none_iff.2 fun k _ => by
        obtain ⟨k', hk', hk⟩ := iterate_eq_of_cycle hab heq k
        exact hk ▸ horbit k' (by omega)
    obtain ⟨a, ha, b, hb, hab, heq⟩ := Finset.exists_ne_map_eq_of_card_lt_of_maps_to
      (by simp : (Finset.range n).card < (Finset.range (n + 1)).card)
      (fun k hk => Finset.mem_range.2 (horbit k (Finset.mem_range.1 hk)).2 :
        ∀ k ∈ Finset.range (n + 1), next^[k] i ∈ Finset.range n)
    rw [Finset.mem_range] at ha hb
    rcases Nat.lt_or_gt_of_ne hab with hlt | hlt
    exacts [Or.inr (loops hlt hb heq), Or.inr (loops hlt ha heq.symm)]

theorem walkFreeList_cycle_runs :
    walkFreeList 1 (fun _ => 0) (1 + 1) 0 (-1) (List.replicate 1 false) = none := by
  decide

theorem getD_set_true {l : List Bool} {i : Nat} (hi : i < l.length) (k : Nat) :
    (l.set i true).getD k false = true ↔ k = i ∨ l.getD k false = true := by
  by_cases hk : k = i
  · subst hk; simp [List.getD_eq_getElem?_getD, hi]
  · simp [List.getD_eq_getElem?_getD, List.getElem?_set_ne (Ne.symm hk), hk]

theorem marks_cons {marks freeList : List Bool} {x : Nat} {F : List Nat} (hx : x < freeList.length)
    (hm : ∀ k, marks.getD k false = true ↔ k ∈ F ∨ (freeList.set x true).getD k false = true) (k : Nat) :
    marks.getD k false = true ↔ k ∈ x :: F ∨ freeList.getD k false = true := by
  rw [hm, getD_set_true hx, List.mem_cons]
  exact or_left_comm.trans or_assoc.symm

/-- The `XXX` line names an index outside the area, and as predecessor the
slot whose `next` held it, or the starting `previous` when the walk's first
index was already outside. -/
theorem walkFreeList_outOfRange_line : ∀ {fuel i : Nat} {previous : Int} {freeList : List Bool}
    {j : Nat} {previous' : Int} {marks : List Bool},
    walkFreeList n next fuel i previous freeList = some (some (j, previous'), marks) →
      n ≤ j ∧ (previous' = previous ∧ j = i ∨ ∃ p : Nat, previous' = p ∧ p < n ∧ next p = j)
  | 0, _, _, _, _, _, _, h => nomatch h
  | fuel + 1, i, previous, freeList, j, previous', marks, h => by
    by_cases hi : i = endOfList
    · rw [walkFreeList_end previous freeList hi] at h
      exact nomatch h
    by_cases hn : n ≤ i
    · rw [walkFreeList_out previous freeList hi hn] at h
      simp only [Option.some.injEq, Prod.mk.injEq] at h
      obtain ⟨⟨rfl, rfl⟩, -⟩ := h
      exact ⟨hn, .inl ⟨rfl, rfl⟩⟩
    rw [walkFreeList_step previous freeList hi (not_le.1 hn)] at h
    obtain ⟨hj, ⟨rfl, rfl⟩ | hp⟩ := walkFreeList_outOfRange_line h
    · exact ⟨hj, .inr ⟨i, rfl, not_le.1 hn, rfl⟩⟩
    · exact ⟨hj, .inr hp⟩

theorem walkFreeList_slot99_line :
    walkFreeList 1 (fun _ => 99) 3 0 (-1) [false] = some (some (99, 0), [true]) ∧
      1 ≤ 99 ∧ ((0 : Int) = -1 ∧ 99 = 0 ∨ ∃ p : Nat, (0 : Int) = p ∧ p < 1 ∧ (fun _ => 99) p = 99) :=
  have h : walkFreeList 1 (fun _ => 99) 3 0 (-1) [false] = some (some (99, 0), [true]) := by decide
  ⟨h, walkFreeList_outOfRange_line h⟩

theorem walkFreeList_visits : ∀ {fuel i : Nat} {previous : Int} {freeList : List Bool}
    {r : Option (Nat × Int)} {marks : List Bool},
    walkFreeList n next fuel i previous freeList = some (r, marks) → freeList.length = n →
      ∃ (F : List Nat) (j : Nat), Path next i F j ∧ (∀ k ∈ F, k < n) ∧
        (r = none ∧ j = endOfList ∨ ∃ previous', r = some (j, previous')) ∧
        ∀ k, marks.getD k false = true ↔ k ∈ F ∨ freeList.getD k false = true
  | 0, _, _, _, _, _, h, _ => nomatch h
  | fuel + 1, i, previous, freeList, r, marks, h, hlen => by
    by_cases hi : i = endOfList
    · rw [walkFreeList_end previous freeList hi, Option.some.injEq, Prod.mk.injEq] at h
      obtain ⟨rfl, rfl⟩ := h
      exact ⟨[], i, .nil i, nofun, .inl ⟨rfl, hi⟩, by simp⟩
    by_cases hn : n ≤ i
    · rw [walkFreeList_out previous freeList hi hn, Option.some.injEq, Prod.mk.injEq] at h
      obtain ⟨rfl, rfl⟩ := h
      exact ⟨[], i, .nil i, nofun, .inr ⟨previous, rfl⟩, by simp⟩
    rw [walkFreeList_step previous freeList hi (not_le.1 hn)] at h
    obtain ⟨F, j, hF, hrange, hr, hm⟩ := walkFreeList_visits h (by rw [List.length_set, hlen])
    exact ⟨i :: F, j, .cons hF, List.forall_mem_cons.2 ⟨not_le.1 hn, hrange⟩, hr,
      marks_cons (hlen ▸ not_le.1 hn) hm⟩

end Walk

/-! ## What an area's dump prints -/

theorem getD_replicate_false (n k : Nat) : (List.replicate n false).getD k false = false := by
  simp only [List.getD_eq_getElem?_getD, List.getElem?_replicate]
  split <;> rfl

theorem unmarked_isEmpty {n : Nat} {F : List Nat} {marks : List Bool}
    (hm : ∀ k, marks.getD k false = true ↔ k ∈ F ∨ (List.replicate n false).getD k false = true) :
    ((List.range n).filter fun i => !marks.getD i false).isEmpty = decide (∀ i < n, i ∈ F) := by
  have hunmarked : ∀ i, (!marks.getD i false) = true ↔ i ∉ F := fun i => by
    simpa [getD_replicate_false] using (hm i).not
  rw [Bool.eq_iff_iff, List.isEmpty_iff, List.filter_eq_nil_iff, decide_eq_true_iff]
  simp only [List.mem_range, hunmarked, not_not]

/-- Wherever the free-list walk of an area with allocations ends, the area's
dump prints its header and, if the walk left the area, the `XXX` line, and
nothing more: it ends when the walk passed every slot of the area, and
otherwise raises at `get_slice` of the first slot it did not pass. -/
theorem dumpArea_prints_no_slice (pool : SlicePool) (a : SliceArea) (fuel : Nat)
    (hcount : 0 < a.allocatedCount) {r : Option (Nat × Int)} {marks : List Bool}
    (hw : walkFreeList pool.slicesPerArea a.next fuel a.freeHead (-1)
      (List.replicate pool.slicesPerArea false) = some (r, marks)) :
    ∃ (F : List Nat) (j : Nat), Path a.next a.freeHead F j ∧ (∀ k ∈ F, k < pool.slicesPerArea) ∧
      (r = none ∧ j = endOfList ∨ ∃ previous, r = some (j, previous)) ∧
      dumpArea pool a fuel = some ⟨.area a.area a.allocatedCount a.freeHead ::
          (r.map fun (i, previous) => Line.outOfRange i previous).toList,
        if ∀ i < pool.slicesPerArea, i ∈ F then none
        else some (if pool.slicesPerPage = 0 then .zeroDivision else .pointerPlusFloat)⟩ := by
  obtain ⟨F, j, hF, hrange, hr, hm⟩ := walkFreeList_visits hw (List.length_replicate _ _)
  have herr : ∀ i, (a.getSlice pool i).map (Line.slice i) =
      .error (if pool.slicesPerPage = 0 then .zeroDivision else .pointerPlusFloat) := fun i => by
    by_cases h : pool.slicesPerPage = 0
    · rw [SliceArea.getSlice_of_zero a h, if_pos h]; rfl
    · rw [SliceArea.getSlice_of_pos a (Nat.pos_of_ne_zero h), SliceArea.getPage_float, if_neg h]; rfl
  refine ⟨F, j, hF, hrange, hr, ?_⟩
  simp only [dumpArea, if_pos hcount, hw, reportAllocated, Run.forEach_of_error herr, unmarked_isEmpty hm,
    Option.bind_eq_bind, Option.some_bind, Run.print, Run.andThen, List.append_nil, decide_eq_true_iff]
  rfl

def eightSlots : SliceArea := ⟨0, 5, 3, fun i => if i = 3 then 1 else if i = 1 then 4 else endOfList⟩

def eightSlotPool : SlicePool := ⟨256, 1, 8, 16, 1⟩

theorem eightSlots_dump :
    ∃ (F : List Nat) (j : Nat), Path eightSlots.next 3 F j ∧ (∀ k ∈ F, k < 8) ∧
      ((none : Option (Nat × Int)) = none ∧ j = endOfList ∨ ∃ previous, (none : Option (Nat × Int)) = some (j, previous)) ∧
      dumpArea eightSlotPool eightSlots 4 = some ⟨[.area 0 5 3],
        if ∀ i < (8 : Nat), i ∈ F then none else some (if 16 = 0 then .zeroDivision else .pointerPlusFloat)⟩ :=
  dumpArea_prints_no_slice eightSlotPool eightSlots 4 (by decide)
    (by decide : walkFreeList 8 eightSlots.next 4 3 (-1) (List.replicate 8 false) =
      some (none, [false, true, false, true, true, false, false, false]))

end BpGdb

import BpGdb.Memory
import BpGdb.Gen

/-!
# Intrusive lists

`IntrusiveContainerType` (members `next`, `prev`) and
`BoostIntrusiveContainerType` (`next_`, `prev_`) walk a circular list from
its header until they are back at it. A walk that comes back visits no node
twice and never the header; where `prev` undoes `next`, the reverse walk
yields the same nodes in reverse. The pretty printers' iterators are the
same walk, resumed one value at a time. A list is given by its header, the
object `get_header` returns.
-/

namespace BpGdb

/-- `node = start; while node != stop: yield node; node = node[f]` -/
def walk (m : Mem) (f : Field) (stop start : Addr) : Gen Addr Addr where
  next node := if node = stop then none else some (node, m.load node f)
  start := start

def iterNodesBy (m : Mem) (f : Field) (root : Addr) : Gen Addr Addr :=
  walk m f root (m.load root f)

namespace IntrusiveContainerType

def iterNodes (m : Mem) (root : Addr) : Gen Addr Addr := iterNodesBy m .next root

def iterNodesReverse (m : Mem) (root : Addr) : Gen Addr Addr := iterNodesBy m .prev root

end IntrusiveContainerType

namespace BoostIntrusiveContainerType

def iterNodes (m : Mem) (root : Addr) : Gen Addr Addr := iterNodesBy m .next_ root

def iterNodesReverse (m : Mem) (root : Addr) : Gen Addr Addr := iterNodesBy m .prev_ root

end BoostIntrusiveContainerType

def forEachIntrusiveListItem (m : Mem) (memberHook : Option MemberHook) (root : Addr) :
    Gen Addr Addr :=
  (BoostIntrusiveContainerType.iterNodes m root).map (nodeToValue memberHook)

def forEachIntrusiveListItemReverse (m : Mem) (memberHook : Option MemberHook) (root : Addr) :
    Gen Addr Addr :=
  (BoostIntrusiveContainerType.iterNodesReverse m root).map (nodeToValue memberHook)

/-! ## Walks that come back -/

theorem walk_yieldsFrom_iff {m : Mem} {f : Field} {stop start x : Addr} {l : List Addr} :
    (walk m f stop start).YieldsFrom x l ↔ Path (m.load · f) x l stop ∧ stop ∉ l := by
  constructor
  · intro h
    induction h with
    | @stop x hs =>
      have : x = stop := by by_contra hx; simp [walk, hx] at hs
      exact ⟨this ▸ .nil x, List.not_mem_nil _⟩
    | @yield x a s' l hs _ ih =>
      by_cases hx : x = stop
      · simp [walk, hx] at hs
      · simp only [walk, hx, if_false, Option.some.injEq, Prod.mk.injEq] at hs
        obtain ⟨rfl, rfl⟩ := hs
        exact ⟨.cons ih.1, by simp [Ne.symm hx, ih.2]⟩
  · rintro ⟨h, hstop⟩
    induction h with
    | nil x => exact .stop (by simp [walk])
    | @cons x l y _ ih =>
      have hx : x ≠ y := fun e => hstop (e ▸ List.mem_cons_self _ _)
      exact .yield (by simp [walk, hx]) (ih fun e => hstop (List.mem_cons_of_mem _ e))

theorem iterNodesBy_nodup {m : Mem} {f : Field} {root : Addr} {l : List Addr}
    (h : (iterNodesBy m f root).Yields l) : l.Nodup ∧ root ∉ l :=
  have hp := walk_yieldsFrom_iff.1 h
  ⟨hp.1.nodup hp.2, hp.2⟩

theorem iterNodesBy_reverse {m : Mem} {f g : Field} {root : Addr} {l : List Addr}
    (h : (iterNodesBy m f root).Yields l) :
    l.Nodup ∧ root ∉ l ∧
      ((∀ a ∈ root :: l, m.load (m.load a f) g = a) → (iterNodesBy m g root).Yields l.reverse) := by
  obtain ⟨hp, hroot⟩ := walk_yieldsFrom_iff.1 h
  refine ⟨(iterNodesBy_nodup h).1, hroot, fun hg => walk_yieldsFrom_iff.2 ⟨?_, by simpa using hroot⟩⟩
  have back := hp.reverse (m.load · g) fun a ha => hg a (List.mem_cons_of_mem _ ha)
  simpa only [iterNodesBy, walk, hg root (List.mem_cons_self _ _)] using back

theorem iterNodesReverse_eq_reverse (m : Mem) (root : Addr) (memberHook : Option MemberHook) :
    (∀ l, (BoostIntrusiveContainerType.iterNodes m root).Yields l →
      l.Nodup ∧ root ∉ l ∧ ((∀ a ∈ root :: l, m.load (m.load a .next_) .prev_ = a) →
        (BoostIntrusiveContainerType.iterNodesReverse m root).Yields l.reverse ∧
        (forEachIntrusiveListItem m memberHook root).Yields (l.map (nodeToValue memberHook)) ∧
        (forEachIntrusiveListItemReverse m memberHook root).Yields
          (l.map (nodeToValue memberHook)).reverse)) ∧
    (∀ l, (IntrusiveContainerType.iterNodes m root).Yields l →
      l.Nodup ∧ root ∉ l ∧ ((∀ a ∈ root :: l, m.load (m.load a .next) .prev = a) →
        (IntrusiveContainerType.iterNodesReverse m root).Yields l.reverse)) := by
  refine ⟨fun l h => ?_, fun l h => iterNodesBy_reverse h⟩
  obtain ⟨hn, hr, hrev⟩ := iterNodesBy_reverse h
  refine ⟨hn, hr, fun hg => ⟨hrev hg, h.map _, ?_⟩⟩
  simpa [List.map_reverse] using (hrev hg).map (nodeToValue memberHook)

def twoNodeRing : Mem where
  load a f := match f with
    | .next_ => if a = 1 then 2 else if a = 2 then 3 else 1
    | .prev_ => if a = 1 then 3 else if a = 3 then 2 else 1
    | _ => 0
  children _ := 0

theorem twoNodeRing_reverse :
    (BoostIntrusiveContainerType.iterNodesReverse twoNodeRing 1).Yields [3, 2] :=
  (((iterNodesReverse_eq_reverse twoNodeRing 1 none).1 [2, 3]
    (.yield rfl (.yield rfl (.stop rfl)))).2.2 (by simp [twoNodeRing])).1

/-! ## The pretty printers' iterators -/

structure ListIterator where
  headAddress : Addr
  i : Addr

/-- `__next__` of both printers' iterators, over the member `f`; `children()` starts one at the
header `head`. -/
def listIteratorBy (m : Mem) (f : Field) (head : Addr) : Gen ListIterator (String × Addr) where
  next it := if it.i = it.headAddress then none
    else some (("", nodeToValue none it.i), { it with i := m.load it.i f })
  start := { headAddress := head, i := m.load head f }

namespace IntrusiveListPrinter

def children (m : Mem) (head : Addr) : Gen ListIterator (String × Addr) := listIteratorBy m .next head

end IntrusiveListPrinter

namespace BoostIntrusiveListPrinter

def children (m : Mem) (head : Addr) : Gen ListIterator (String × Addr) :=
  listIteratorBy m .next_ head

end BoostIntrusiveListPrinter

theorem listIteratorBy_take (m : Mem) (f : Field) (head : Addr) (k : Nat) :
    (listIteratorBy m f head).take k =
      ((iterNodesBy m f head).take k).map fun node => ("", nodeToValue none node) := by
  refine Gen.takeFrom_sim _ (fun it node => it.headAddress = head ∧ it.i = node)
    (fun it node hr => ?_) k _ _ ⟨rfl, rfl⟩
  obtain ⟨h, i⟩ := it
  obtain ⟨rfl, rfl⟩ := hr
  by_cases hi : i = h
  · simp [listIteratorBy, iterNodesBy, walk, hi]
  · exact .inr ⟨i, ⟨h, m.load i f⟩, m.load i f, by simp [listIteratorBy, hi],
      by simp [iterNodesBy, walk, hi], rfl, rfl⟩

theorem printer_children_eq_walk (m : Mem) (head : Addr) :
    (∀ k, (BoostIntrusiveListPrinter.children m head).take k =
      ((forEachIntrusiveListItem m none head).take k).map ("", ·)) ∧
    (∀ k, (IntrusiveListPrinter.children m head).take k =
      ((IntrusiveContainerType.iterNodes m head).take k).map fun node =>
        ("", nodeToValue none node)) := by
  refine ⟨fun k => ?_, listIteratorBy_take m .next head⟩
  rw [BoostIntrusiveListPrinter.children, listIteratorBy_take, forEachIntrusiveListItem,
    Gen.take_map, List.map_map]
  rfl

end BpGdb

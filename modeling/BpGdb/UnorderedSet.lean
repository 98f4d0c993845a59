import BpGdb.List
import Mathlib.Data.List.Nodup
import Mathlib.Tactic.IntervalCases

/-!
# Unordered sets

`BoostIntrusiveUnorderedSetType.iter_nodes` runs through the bucket array in
index order and, in each bucket, along `next_` from the bucket's header
until it is back at it. On every snapshot that is the concatenation of the
buckets' list walks; where each bucket's chain comes back and the chains are
disjoint, every node is yielded once, and so is every owner.
-/

namespace BpGdb

/-- An unordered set's `bucket_traits_` (`buckets_`, `buckets_len_`), with the bucket type's
layout: its size, and the offset of `data_.root_plus_size_.header_holder_` in it. -/
structure BucketTraits where
  buckets : Addr
  bucketsLen : Nat
  bucketSize : Nat
  headerOffset : Nat

def BucketTraits.header (b : BucketTraits) (i : Nat) : Addr :=
  b.buckets + BitVec.ofNat 64 (i * b.bucketSize + b.headerOffset)

namespace BoostIntrusiveUnorderedSetType

/-- Resume `iter_nodes` in bucket `i` at `node`: `node = node['next_']`; back at the header,
break to bucket `i + 1` with `node = root`, else yield `node`. `k` counts the buckets from `i`
on. -/
def resume (m : Mem) (b : BucketTraits) : Nat → Nat → Addr → Option (Addr × (Nat × Addr))
  | 0, _, _ => none
  | k + 1, i, node =>
    let node := m.load node .next_
    if node = b.header i then resume m b k (i + 1) (b.header (i + 1)) else some (node, (i, node))

def iterNodes (m : Mem) (b : BucketTraits) : Gen (Nat × Addr) Addr where
  next p := resume m b (b.bucketsLen - p.1) p.1 p.2
  start := (0, b.header 0)

def iterValues (m : Mem) (memberHook : Option MemberHook) (b : BucketTraits) :
    Gen (Nat × Addr) Addr :=
  (iterNodes m b).map (nodeToValue memberHook)

def bucketWalk (m : Mem) (b : BucketTraits) (i : Nat) : Gen Addr Addr :=
  BoostIntrusiveContainerType.iterNodes m (b.header i)

theorem resume_sim (m : Mem) (b : BucketTraits) : ∀ k i node,
    (resume m b k i node = none ∧ Gen.seqNext (bucketWalk m b) k i (m.load node .next_) = none) ∨
    ∃ a s t, resume m b k i node = some (a, s) ∧
      Gen.seqNext (bucketWalk m b) k i (m.load node .next_) = some (a, t) ∧
      s.1 = t.1 ∧ t.2 = m.load s.2 .next_
  | 0, _, _ => .inl ⟨rfl, rfl⟩
  | k + 1, i, node => by
    by_cases hn : m.load node .next_ = b.header i
    · have e1 : resume m b (k + 1) i node = resume m b k (i + 1) (b.header (i + 1)) := by
        simp [resume, hn]
      have e2 : Gen.seqNext (bucketWalk m b) (k + 1) i (m.load node .next_) =
          Gen.seqNext (bucketWalk m b) k (i + 1) (m.load (b.header (i + 1)) .next_) := by
        simp [Gen.seqNext, bucketWalk, BoostIntrusiveContainerType.iterNodes, iterNodesBy, walk, hn]
      rw [e1, e2]
      exact resume_sim m b k (i + 1) (b.header (i + 1))
    · refine .inr ⟨m.load node .next_, (i, m.load node .next_), (i, m.load (m.load node .next_) .next_),
        ?_, ?_, rfl, rfl⟩
      · simp [resume, hn]
      · simp [Gen.seqNext, bucketWalk, BoostIntrusiveContainerType.iterNodes, iterNodesBy, walk, hn]

theorem iterNodes_take (m : Mem) (b : BucketTraits) (k : Nat) :
    (iterNodes m b).take k = (Gen.seq (bucketWalk m b) b.bucketsLen).take k := by
  have := @Gen.takeFrom_sim _ _ _ _ (iterNodes m b) (Gen.seq (bucketWalk m b) b.bucketsLen) id
    (fun p q => p.1 = q.1 ∧ q.2 = m.load p.2 .next_) ?_ k (iterNodes m b).start
    (Gen.seq (bucketWalk m b) b.bucketsLen).start ⟨rfl, rfl⟩
  · simpa using this
  rintro ⟨i, node⟩ ⟨j, t⟩ ⟨rfl, rfl⟩
  simpa [iterNodes, Gen.seq] using resume_sim m b (b.bucketsLen - i) i node

theorem iterNodes_eq_concat_buckets (m : Mem) (b : BucketTraits) (memberHook : Option MemberHook) :
    (∀ k, (iterNodes m b).take k = (Gen.seq (bucketWalk m b) b.bucketsLen).take k) ∧
    ∀ ls : Nat → List Addr, (∀ i < b.bucketsLen, (bucketWalk m b i).Yields (ls i)) →
      (∀ i < b.bucketsLen, ∀ j < b.bucketsLen, i ≠ j → (ls i).Disjoint (ls j)) →
      (iterNodes m b).Yields ((List.range b.bucketsLen).flatMap ls) ∧
      ((List.range b.bucketsLen).flatMap ls).Nodup ∧
      ((List.range b.bucketsLen).flatMap ls).length =
        ((List.range b.bucketsLen).map fun i => (ls i).length).sum ∧
      (iterValues m memberHook b).Yields
        (((List.range b.bucketsLen).flatMap ls).map (nodeToValue memberHook)) ∧
      (((List.range b.bucketsLen).flatMap ls).map (nodeToValue memberHook)).Nodup := by
  refine ⟨iterNodes_take m b, fun ls hls hdis => ?_⟩
  have hy : (iterNodes m b).Yields ((List.range b.bucketsLen).flatMap ls) :=
    Gen.yields_of_take_eq (iterNodes_take m b) (Gen.seq_yields hls)
  have hnd : ((List.range b.bucketsLen).flatMap ls).Nodup := by
    refine List.nodup_flatMap.2 ⟨fun i hi => (iterNodesBy_nodup (hls i (List.mem_range.1 hi))).1, ?_⟩
    exact (List.nodup_range _).pairwise_of_forall_ne fun i hi j hj hij =>
      hdis i (List.mem_range.1 hi) j (List.mem_range.1 hj) hij
  refine ⟨hy, hnd, ?_, hy.map _, hnd.map (nodeToValue_injective _)⟩
  simp [List.flatMap, List.length_flatten, List.map_map, Function.comp_def]

def twoBuckets : Mem where
  load a f := match f with
    | .next_ => if a = 16 then 1 else if a = 1 then 16 else if a = 24 then 2 else if a = 2 then 3 else 24
    | _ => 0
  children _ := 0

theorem twoBuckets_iterNodes : (iterNodes twoBuckets ⟨16, 2, 8, 0⟩).Yields [1, 2, 3] :=
  ((iterNodes_eq_concat_buckets twoBuckets ⟨16, 2, 8, 0⟩ none).2 (fun i => if i = 0 then [1] else [2, 3])
    (fun i hi => match i, hi with
      | 0, _ => .yield rfl (.stop rfl)
      | 1, _ => .yield rfl (.yield rfl (.stop rfl)))
    (by intro i hi j hj hij; interval_cases i <;> interval_cases j <;> simp_all)).1

end BoostIntrusiveUnorderedSetType

def BoostIntrusiveUnorderedSetPrinter.children (m : Mem) (b : BucketTraits) (fuel : Nat) :
    Option (List (String × Addr)) :=
  ((BoostIntrusiveUnorderedSetType.iterValues m none b).run fuel).map fun items => items.map fun item => ("", item)

end BpGdb

import BpGdb.Gen
import BpGdb.Tree

/-!
# The ordered-set walker

`BoostIntrusiveSetType.iter_nodes` walks a Boost rbtree with no stack: from
the header's `left_` it steps to `_next_node` until it reaches the header.
`_next_node` takes the leftmost node of the right subtree, or climbs while it
is a right child; the last test of `_next_node` catches the climb that
passes through the header, when the maximum is the root. On every tree the
snapshot encodes, `_next_node` returns the in-order successor, the header
after the maximum, and the walk yields the in-order sequence.
-/

namespace BpGdb

namespace BoostIntrusiveSetType

def minimum (m : Mem) : Nat → Addr → Option Addr
  | 0, _ => none
  | fuel + 1, node =>
    let left := m.load node .left_
    if isNull left then some node else minimum m fuel left

/-- The loop of `_next_node`: climb while `node` is its parent's right child; where it stops. -/
def climb (m : Mem) : Nat → Addr → Option (Addr × Addr)
  | 0, _ => none
  | fuel + 1, node =>
    let parent := m.load node .parent_
    if node ≠ m.load parent .right_ then some (node, parent) else climb m fuel parent

def nextNodeEnd (m : Mem) (stop : Addr × Addr) : Addr :=
  if m.load stop.1 .right_ = stop.2 then stop.1 else stop.2

def nextNode (m : Mem) (fuel : Nat) (node : Addr) : Option Addr :=
  let right := m.load node .right_
  if ¬isNull right then minimum m fuel right else (climb m fuel node).map (nextNodeEnd m)

def iterFrom (m : Mem) (header : Addr) : Nat → Addr → Option (List Addr)
  | 0, _ => none
  | fuel + 1, i =>
    if i = header then some []
    else (nextNode m fuel i).bind fun j => (iterFrom m header fuel j).map (i :: ·)

def iterNodes (m : Mem) (header : Addr) (fuel : Nat) : Option (List Addr) :=
  iterFrom m header fuel (m.load header .left_)

end BoostIntrusiveSetType

def forEachIntrusiveSetItem (m : Mem) (memberHook : Option MemberHook) (header : Addr)
    (fuel : Nat) : Option (List Addr) :=
  (BoostIntrusiveSetType.iterNodes m header fuel).map (·.map (nodeToValue memberHook))

/-! ## In-order lists -/

theorem headD_append_cons (xs ys : List Addr) (y d : Addr) : (xs ++ y :: ys).headD d = xs.headD y := by
  cases xs <;> rfl

theorem getLastD_append_cons : ∀ (xs ys : List Addr) (y d : Addr),
    (xs ++ y :: ys).getLastD d = ys.getLastD y
  | [], ys, y, d => List.getLastD_cons d y ys
  | x :: xs, ys, y, d => (List.getLastD_cons d x _).trans (getLastD_append_cons xs ys y x)

theorem getLastD_mem : ∀ {l : List Addr} (d : Addr), l ≠ [] → l.getLastD d ∈ l
  | b :: l, d, _ => by rw [List.getLastD_cons]; exact List.getLastD_mem_cons l b

theorem suffix_eq_of_nodup : ∀ {pre pre' post post' : List Addr} {x : Addr},
    (pre ++ x :: post).Nodup → pre ++ x :: post = pre' ++ x :: post' → post = post'
  | [], [], _, _, _, _, e => by simpa using e
  | [], y :: pre', post, post', x, hn, e => by
    simp only [List.nil_append, List.cons_append, List.cons.injEq] at e
    obtain ⟨rfl, rfl⟩ := e
    exact absurd (by simp) (List.nodup_cons.1 hn).1
  | a :: pre, [], post, post', x, hn, e => by
    simp only [List.nil_append, List.cons_append, List.cons.injEq] at e
    obtain ⟨rfl, rfl⟩ := e
    exact absurd (by simp) (List.nodup_cons.1 hn).1
  | a :: pre, b :: pre', post, post', x, hn, e => by
    simp only [List.cons_append, List.cons.injEq] at e
    exact suffix_eq_of_nodup (List.nodup_cons.1 hn).2 e.2

/-! ## Facts an encoding gives at a position -/

section
variable {m : Mem} {h : Addr} {c : Ctx} {t : BinTree}

theorem Encodes.ne_null (E : Encodes m h t) {a : Addr} (ha : a ∈ t.inorder) : a ≠ 0 :=
  fun e => E.null_not_mem (e ▸ ha)

theorem mem_plug_mid {a : Addr} (ha : a ∈ t.inorder) : a ∈ (c.plug t).inorder := by
  simp [Ctx.inorder_plug, ha]

theorem mem_plug_after {a : Addr} (ha : a ∈ c.after) : a ∈ (c.plug t).inorder := by
  simp [Ctx.inorder_plug, ha]

theorem Encodes.mid_ne_after (E : Encodes m h (c.plug t)) {a b : Addr} (ha : a ∈ t.inorder)
    (hb : b ∈ c.after) : a ≠ b := by
  have hn := E.nodup
  rw [Ctx.inorder_plug] at hn
  rintro rfl
  exact (List.nodup_append.1 hn).2.2 (List.mem_append_right _ ha) hb

theorem Encodes.plug_of_split (E : Encodes m h t) {pre post : List Addr} {x : Addr}
    (hx : t.inorder = pre ++ x :: post) :
    ∃ (c : Ctx) (l r : BinTree), t = c.plug (.node l x r) ∧ post = r.inorder ++ c.after := by
  obtain ⟨c, l, r, rfl⟩ := Ctx.exists_plug x t .top (by simp [hx])
  have hx' := hx
  rw [Ctx.inorder_plug, BinTree.inorder] at hx'
  have hsplit : c.before ++ (l.inorder ++ x :: r.inorder) ++ c.after =
      (c.before ++ l.inorder) ++ x :: (r.inorder ++ c.after) := by simp
  exact ⟨c, l, r, rfl, suffix_eq_of_nodup (hx ▸ E.nodup) (hx'.symm.trans hsplit)⟩

end

/-! ## `_next_node` -/

namespace BoostIntrusiveSetType

theorem minimum_eq {m : Mem} {p a : Addr} {l r : BinTree} (hl : Links m p (.node l a r))
    (hnull : 0 ∉ l.inorder) :
    ∀ fuel, l.inorder.length < fuel → minimum m fuel a = some (l.inorder.headD a) := by
  induction l generalizing p a r with
  | nil =>
    intro fuel hf
    obtain ⟨f, rfl⟩ : ∃ f, fuel = f + 1 := ⟨fuel - 1, by omega⟩
    simp [minimum, isNull, hl.2.1, BinTree.rootD, BinTree.inorder]
  | node ll b lr ih _ =>
    intro fuel hf
    obtain ⟨f, rfl⟩ : ∃ f, fuel = f + 1 := ⟨fuel - 1, by omega⟩
    obtain ⟨-, hleft, -, hll, -⟩ := hl
    have hb : b ≠ 0 := fun e => hnull (by simp [BinTree.inorder, e])
    simp only [BinTree.inorder, List.mem_append, List.mem_cons, not_or] at hnull
    simp only [BinTree.inorder, List.length_append, List.length_cons] at hf
    simp only [minimum, hleft, BinTree.rootD, isNull, hb, if_false]
    rw [ih hll hnull.1 f (by omega), BinTree.inorder, headD_append_cons]

theorem climb_stop {m : Mem} {fuel : Nat} {node : Addr}
    (h : node ≠ m.load (m.load node .parent_) .right_) :
    climb m (fuel + 1) node = some (node, m.load node .parent_) := by
  simp only [climb, h, ne_eq, not_false_eq_true, if_true]

theorem climb_up {m : Mem} {fuel : Nat} {node : Addr}
    (h : node = m.load (m.load node .parent_) .right_) :
    climb m (fuel + 1) node = climb m fuel (m.load node .parent_) := by
  simp only [climb, ← h, ne_eq, not_true_eq_false, if_false]

theorem climb_after {m : Mem} {h : Addr} : ∀ (c : Ctx) {l r : BinTree} {y : Addr},
    Encodes m h (c.plug (.node l y r)) → ∀ fuel, c.depth + 2 ≤ fuel →
      (climb m fuel y).map (nextNodeEnd m) = some (c.after.headD h)
  | .top, l, r, y, E, fuel, hf => by
    obtain ⟨f, rfl⟩ : ∃ f, fuel = f + 2 := ⟨fuel - 2, by simp only [Ctx.depth] at hf; omega⟩
    obtain ⟨hpy, -, hry, -, -⟩ : Links m h (.node l y r) := E.links
    have hrh : m.load h .right_ = r.inorder.getLastD y :=
      E.right_header.trans (getLastD_append_cons _ _ _ _)
    have hy : y ∉ r.inorder := (List.nodup_cons.1 (List.nodup_append.1 E.nodup).2.1).1
    cases r with
    | nil =>
      have hph : m.load h .parent_ = y := E.parent_header (by simp [Ctx.plug])
      rw [climb_up (by rw [hpy, hrh]; rfl), hpy,
        climb_stop (by rw [hph, hry]; exact E.header_ne_null), hph, Option.map_some', nextNodeEnd, hrh]
      exact congrArg some (if_pos rfl)
    | node rl b rr =>
      have hlast : (BinTree.node rl b rr).inorder.getLastD y ≠ y := fun e =>
        hy (e ▸ getLastD_mem y (by simp [BinTree.inorder]))
      have hrh' : b ≠ h := BinTree.rootD_ne (t := .node rl b rr) E.header_ne_null
        fun hm => E.header_not_mem (List.mem_append_right _ (List.mem_cons_of_mem _ hm))
      rw [climb_stop (by rw [hpy, hrh]; exact hlast.symm), hpy]
      rw [Option.map_some', nextNodeEnd, hry]
      exact congrArg some (if_neg hrh')
  | .left c p r', l, r, y, E, fuel, hf => by
    obtain ⟨f, rfl⟩ : ∃ f, fuel = f + 1 := ⟨fuel - 1, by simp only [Ctx.depth] at hf; omega⟩
    obtain ⟨⟨-, -, hrp, -, -⟩, hpy, -, hry, -, -⟩ := links_plug _ _ E.links
    have hyT : y ∈ (.node l y r : BinTree).inorder := by simp [BinTree.inorder]
    have hpA : p ∈ (Ctx.left c p r').after := by simp [Ctx.after]
    have hyr : r'.rootD 0 ≠ y := BinTree.rootD_ne (E.ne_null (mem_plug_mid hyT))
      fun hm => E.mid_ne_after hyT (by simp [Ctx.after, hm]) rfl
    have hpr : r.rootD 0 ≠ p := BinTree.rootD_ne (E.ne_null (mem_plug_after hpA))
      fun hm => E.mid_ne_after (by simp [BinTree.inorder, hm]) hpA rfl
    simp only [Ctx.parentD] at hpy
    rw [climb_stop (by rw [hpy]; exact fun e => hyr (hrp.symm.trans e.symm)), hpy, Option.map_some',
      nextNodeEnd, hry]
    exact congrArg some (if_neg hpr)
  | .right c l' p, l, r, y, E, fuel, hf => by
    obtain ⟨f, rfl⟩ : ∃ f, fuel = f + 1 := ⟨fuel - 1, by simp only [Ctx.depth] at hf; omega⟩
    obtain ⟨⟨-, -, hrp, -, -⟩, hpy, -⟩ := links_plug _ _ E.links
    rw [climb_up (by rw [hpy]; exact hrp.symm), hpy]
    exact climb_after c E f (by simp only [Ctx.depth] at hf; omega)

theorem nextNode_plug {m : Mem} {h : Addr} {c : Ctx} {l r : BinTree} {x : Addr}
    (E : Encodes m h (c.plug (.node l x r))) (fuel : Nat)
    (hf : (c.plug (.node l x r)).inorder.length + 1 ≤ fuel) :
    nextNode m fuel x = some ((r.inorder ++ c.after).headD h) := by
  obtain ⟨-, hlx⟩ := links_plug _ _ E.links
  have hlen := c.depth_le
  rw [Ctx.inorder_plug] at hf
  simp only [BinTree.inorder, List.length_append, List.length_cons] at hf
  cases r with
  | nil =>
    have hrx : m.load x .right_ = 0 := hlx.2.2.1
    simp only [nextNode, hrx, isNull, not_true_eq_false, if_false, BinTree.inorder, List.nil_append]
    exact climb_after c E fuel (by omega)
  | node rl b rr =>
    have hrx : m.load x .right_ = b := hlx.2.2.1
    have hb : b ≠ 0 := E.ne_null (mem_plug_mid (by simp [BinTree.inorder]))
    have hnull : 0 ∉ rl.inorder := fun hm => E.null_not_mem
      (mem_plug_mid (List.mem_append_right _ (List.mem_cons_of_mem _ (List.mem_append_left _ hm))))
    simp only [nextNode, hrx, isNull, hb, not_false_eq_true, if_true]
    simp only [BinTree.inorder, List.length_append, List.length_cons] at hf
    rw [minimum_eq hlx.2.2.2.2 hnull fuel (by omega), BinTree.inorder, List.append_assoc,
      List.cons_append, headD_append_cons]

theorem nextNode_eq_successor (m : Mem) (h : Addr) (t : BinTree) (E : Encodes m h t)
    (pre post : List Addr) (x : Addr) (hx : t.inorder = pre ++ x :: post) (fuel : Nat)
    (hf : t.inorder.length + 1 ≤ fuel) : nextNode m fuel x = some (post.headD h) := by
  obtain ⟨c, l, r, rfl, rfl⟩ := E.plug_of_split hx
  exact nextNode_plug E fuel hf

def rootMaxSet : Mem where
  load a f := match f with
    | .parent_ => if a = 8 then 2 else if a = 2 then 8 else if a = 1 then 2 else 0
    | .left_ => if a = 8 then 1 else if a = 2 then 1 else 0
    | .right_ => if a = 8 then 2 else 0
    | _ => 0
  children _ := 0

theorem rootMaxSet_encodes : Encodes rootMaxSet 8 (.node (.node .nil 1 .nil) 2 .nil) :=
  ⟨by decide, by decide, by decide, by decide, by decide, by decide, by decide, by decide⟩

theorem rootMaxSet_nextNode_root : nextNode rootMaxSet 3 2 = some 8 :=
  nextNode_eq_successor rootMaxSet 8 _ rootMaxSet_encodes [1] [] 2 rfl 3 (by decide)

/-! ## `iter_nodes` -/

theorem iterFrom_suffix {m : Mem} {h : Addr} {t : BinTree} (E : Encodes m h t) :
    ∀ (post pre : List Addr), t.inorder = pre ++ post →
      ∀ fuel, post.length + t.inorder.length + 1 ≤ fuel →
        iterFrom m h fuel (post.headD h) = some post
  | [], _, _, fuel, hf => by
    obtain ⟨f, rfl⟩ : ∃ f, fuel = f + 1 := ⟨fuel - 1, by omega⟩
    simp [iterFrom]
  | x :: post, pre, hx, fuel, hf => by
    obtain ⟨f, rfl⟩ : ∃ f, fuel = f + 1 := ⟨fuel - 1, by omega⟩
    simp only [List.length_cons] at hf
    have hxh : x ≠ h := fun e => E.header_not_mem (by rw [hx, e]; simp)
    have hrest := iterFrom_suffix E post (pre ++ [x]) (by simp [hx]) f (by omega)
    show iterFrom m h (f + 1) x = some (x :: post)
    have hnext : nextNode m f x = some (post.headD h) := by
      obtain ⟨c, l, r, rfl, rfl⟩ := E.plug_of_split hx
      exact nextNode_plug E f (by omega)
    rw [iterFrom, if_neg hxh, hnext, Option.some_bind, hrest, Option.map_some']

theorem iterNodes_eq_inorder (m : Mem) (h : Addr) (t : BinTree) (E : Encodes m h t) :
    (∀ fuel, 2 * t.inorder.length + 1 ≤ fuel → iterNodes m h fuel = some t.inorder) ∧
    t.inorder.Nodup ∧ h ∉ t.inorder ∧
    ∀ (r : Addr → Addr → Prop) [IsTrans Addr r], t.SearchTree r → t.inorder.Sorted r :=
  ⟨fun fuel hf => by
    rw [iterNodes, E.left_header]
    exact iterFrom_suffix E _ [] rfl fuel (by omega),
   E.nodup, E.header_not_mem, fun _ _ hs => BinTree.inorder_sorted hs⟩

theorem rootMaxSet_iterNodes : iterNodes rootMaxSet 8 5 = some [1, 2] :=
  (iterNodes_eq_inorder rootMaxSet 8 _ rootMaxSet_encodes).1 5 (by decide)

end BoostIntrusiveSetType

/-! ## Walks over any memory -/

namespace BoostIntrusiveSetType

variable {m : Mem}

theorem minimum_mono : ∀ {fuel fuel' : Nat} {node r : Addr}, minimum m fuel node = some r →
    fuel ≤ fuel' → minimum m fuel' node = some r
  | 0, _, _, _, h, _ => nomatch h
  | _ + 1, 0, _, _, _, hle => absurd hle (by omega)
  | fuel + 1, fuel' + 1, node, r, h, hle => by
    unfold minimum at h ⊢
    dsimp only at h ⊢
    split_ifs at h ⊢
    · exact h
    · exact minimum_mono h (by omega)

theorem climb_mono : ∀ {fuel fuel' : Nat} {node : Addr} {r : Addr × Addr}, climb m fuel node = some r →
    fuel ≤ fuel' → climb m fuel' node = some r
  | 0, _, _, _, h, _ => nomatch h
  | _ + 1, 0, _, _, _, hle => absurd hle (by omega)
  | fuel + 1, fuel' + 1, node, r, h, hle => by
    unfold climb at h ⊢
    dsimp only at h ⊢
    split_ifs at h ⊢
    · exact h
    · exact climb_mono h (by omega)

theorem nextNode_mono {fuel fuel' : Nat} {node r : Addr} (h : nextNode m fuel node = some r)
    (hle : fuel ≤ fuel') : nextNode m fuel' node = some r := by
  unfold nextNode at h ⊢
  dsimp only at h ⊢
  split_ifs at h ⊢
  · obtain ⟨stop, hs, rfl⟩ := Option.map_eq_some'.1 h
    rw [climb_mono hs hle]
    rfl
  · exact minimum_mono h hle

theorem iterFrom_path {header : Addr} : ∀ {fuel : Nat} {i : Addr} {l : List Addr} (F : Nat),
    iterFrom m header fuel i = some l → fuel ≤ F + 1 →
      Path (fun x => (nextNode m F x).getD x) i l header ∧ header ∉ l
  | 0, _, _, _, h, _ => nomatch h
  | fuel + 1, i, l, F, h, hF => by
    unfold iterFrom at h
    split_ifs at h with hi
    · obtain rfl := (Option.some.inj h).symm
      exact ⟨hi ▸ .nil i, List.not_mem_nil _⟩
    · obtain ⟨j, hj, h⟩ := Option.bind_eq_some.1 h
      obtain ⟨l', hl', rfl⟩ := Option.map_eq_some'.1 h
      obtain ⟨hp, hh⟩ := iterFrom_path F hl' (by omega)
      have hstep : (nextNode m F i).getD i = j := by rw [nextNode_mono hj (by omega)]; rfl
      exact ⟨.cons (hstep ▸ hp), List.not_mem_cons_of_ne_of_not_mem (Ne.symm hi) hh⟩

end BoostIntrusiveSetType

/-- On any memory, a corrupted tree included, whenever the set walk ends it has
yielded no node twice and never the header. -/
theorem iterNodes_nodup_of_some (m : Mem) (h : Addr) {fuel : Nat} {l : List Addr}
    (hl : BoostIntrusiveSetType.iterNodes m h fuel = some l) : l.Nodup ∧ h ∉ l := by
  obtain ⟨hp, hh⟩ := BoostIntrusiveSetType.iterFrom_path fuel hl (Nat.le_succ fuel)
  exact ⟨hp.nodup hh, hh⟩

theorem rootMaxSet_iterNodes_nodup : ([1, 2] : List Addr).Nodup ∧ (8 : Addr) ∉ [1, 2] :=
  iterNodes_nodup_of_some BoostIntrusiveSetType.rootMaxSet 8
    (by decide : BoostIntrusiveSetType.iterNodes BoostIntrusiveSetType.rootMaxSet 8 5 = some [1, 2])

/-! ## Printers -/

def BoostIntrusiveSetPrinter.children (m : Mem) (header : Addr) (fuel : Nat) :
    Option (List (String × Addr)) :=
  (forEachIntrusiveSetItem m none header fuel).map fun items => items.map fun item => ("", item)

def StringMapPrinter.children (m : Mem) (mapHeader : Addr) (fuel : Nat) :
    Option (List (String × Addr)) :=
  BoostIntrusiveSetPrinter.children m mapHeader fuel

end BpGdb

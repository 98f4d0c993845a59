import BpGdb.Memory
import Mathlib.Data.List.Sort

/-!
# Boost rbtrees in a snapshot

A `boost::intrusive` set keeps its nodes in a binary tree below a header
node: the root's `parent_` is the header, the header's `parent_` is the root,
its `left_` the leftmost node and its `right_` the rightmost; a missing child
is null. `Encodes m h t` says the snapshot holds the tree `t` so. A position
in the tree is a zipper context, and the in-order sequence of the whole tree
splits around it.
-/

namespace BpGdb

inductive BinTree
  | nil
  | node (l : BinTree) (a : Addr) (r : BinTree)
  deriving DecidableEq

namespace BinTree

def inorder : BinTree → List Addr
  | nil => []
  | node l a r => l.inorder ++ a :: r.inorder

def rootD : BinTree → Addr → Addr
  | nil, d => d
  | node _ a _, _ => a

def SearchTree (r : Addr → Addr → Prop) : BinTree → Prop
  | nil => True
  | node l a rt => (∀ x ∈ l.inorder, r x a) ∧ (∀ y ∈ rt.inorder, r a y) ∧
      SearchTree r l ∧ SearchTree r rt

theorem rootD_ne {t : BinTree} {a d : Addr} (hd : a ≠ d) (ha : a ∉ t.inorder) : t.rootD d ≠ a := by
  cases t with
  | nil => exact hd.symm
  | node l b r => exact fun e => ha (by simp [inorder, ← e, rootD])

theorem inorder_sorted {r : Addr → Addr → Prop} [IsTrans Addr r] :
    ∀ {t : BinTree}, t.SearchTree r → t.inorder.Sorted r
  | nil, _ => List.sorted_nil
  | node l a rt, ⟨hl, hr, sl, sr⟩ => by
    refine List.pairwise_append.2 ⟨inorder_sorted sl, List.pairwise_cons.2 ⟨hr, inorder_sorted sr⟩, ?_⟩
    intro x hx y hy
    rcases List.mem_cons.1 hy with rfl | hy
    · exact hl x hx
    · exact IsTrans.trans _ _ _ (hl x hx) (hr y hy)

end BinTree

/-! ## The tree in memory -/

/-- The nodes of `t` carry its shape in `left_`, `right_` and `parent_`, null where a child is
missing, and its root's `parent_` is `p`. -/
def Links (m : Mem) (p : Addr) : BinTree → Prop
  | .nil => True
  | .node l a r => m.load a .parent_ = p ∧ m.load a .left_ = l.rootD 0 ∧
      m.load a .right_ = r.rootD 0 ∧ Links m a l ∧ Links m a r

instance Links.decidable (m : Mem) : ∀ (p : Addr) (t : BinTree), Decidable (Links m p t)
  | _, .nil => isTrue trivial
  | _, .node l a r =>
    have := Links.decidable m a l
    have := Links.decidable m a r
    inferInstanceAs (Decidable (_ ∧ _ ∧ _ ∧ _ ∧ _))

/-- The snapshot holds `t` below the header `h`, as Boost's rbtree does. -/
structure Encodes (m : Mem) (h : Addr) (t : BinTree) : Prop where
  header_ne_null : h ≠ 0
  nodup : t.inorder.Nodup
  null_not_mem : 0 ∉ t.inorder
  header_not_mem : h ∉ t.inorder
  links : Links m h t
  parent_header : t ≠ .nil → m.load h .parent_ = t.rootD 0
  left_header : m.load h .left_ = t.inorder.headD h
  right_header : m.load h .right_ = t.inorder.getLastD h

/-! ## Positions -/

/-- A position in a tree: the path from it up to the root. -/
inductive Ctx
  | top
  | left (c : Ctx) (p : Addr) (r : BinTree)
  | right (c : Ctx) (l : BinTree) (p : Addr)

namespace Ctx

def plug : Ctx → BinTree → BinTree
  | top, t => t
  | left c p r, t => c.plug (.node t p r)
  | right c l p, t => c.plug (.node l p t)

def before : Ctx → List Addr
  | top => []
  | left c _ _ => c.before
  | right c l p => c.before ++ l.inorder ++ [p]

def after : Ctx → List Addr
  | top => []
  | left c p r => p :: r.inorder ++ c.after
  | right c _ _ => c.after

def parentD (h : Addr) : Ctx → Addr
  | top => h
  | left _ p _ => p
  | right _ _ p => p

def depth : Ctx → Nat
  | top => 0
  | left c _ _ => c.depth + 1
  | right c _ _ => c.depth + 1

theorem inorder_plug : ∀ (c : Ctx) (t : BinTree), (c.plug t).inorder = c.before ++ t.inorder ++ c.after
  | top, t => by simp [plug, before, after]
  | left c p r, t => by simp [plug, before, after, inorder_plug c, BinTree.inorder]
  | right c l p, t => by simp [plug, before, after, inorder_plug c, BinTree.inorder]

theorem depth_le : ∀ c : Ctx, c.depth ≤ c.before.length + c.after.length
  | top => le_rfl
  | left c _ _ => by have := depth_le c; simp [depth, before, after]; omega
  | right c _ _ => by have := depth_le c; simp [depth, before, after]; omega

theorem exists_plug (x : Addr) : ∀ (t : BinTree) (c : Ctx), x ∈ t.inorder →
    ∃ (c' : Ctx) (l r : BinTree), c.plug t = c'.plug (.node l x r)
  | .nil, _, hx => absurd hx (List.not_mem_nil _)
  | .node l a r, c, hx => by
    simp only [BinTree.inorder, List.mem_append, List.mem_cons] at hx
    rcases hx with hx | rfl | hx
    · exact exists_plug x l (left c a r) hx
    · exact ⟨c, l, r, rfl⟩
    · exact exists_plug x r (right c l a) hx

end Ctx

def CtxLinks (m : Mem) (h : Addr) : Ctx → Addr → Prop
  | .top, _ => True
  | .left c p r, a => m.load p .parent_ = c.parentD h ∧ m.load p .left_ = a ∧
      m.load p .right_ = r.rootD 0 ∧ Links m p r ∧ CtxLinks m h c p
  | .right c l p, a => m.load p .parent_ = c.parentD h ∧ m.load p .left_ = l.rootD 0 ∧
      m.load p .right_ = a ∧ Links m p l ∧ CtxLinks m h c p

theorem links_plug {m : Mem} {h : Addr} : ∀ (c : Ctx) (t : BinTree), Links m h (c.plug t) →
    CtxLinks m h c (t.rootD 0) ∧ Links m (c.parentD h) t
  | .top, _, hl => ⟨trivial, hl⟩
  | .left c p r, t, hl => by
    obtain ⟨hc, hp, hpl, hpr, ht, hr⟩ := links_plug c _ hl
    exact ⟨⟨hp, hpl, hpr, hr, hc⟩, ht⟩
  | .right c l p, t, hl => by
    obtain ⟨hc, hp, hpl, hpr, hl', ht⟩ := links_plug c _ hl
    exact ⟨⟨hp, hpl, hpr, hl', hc⟩, ht⟩

end BpGdb

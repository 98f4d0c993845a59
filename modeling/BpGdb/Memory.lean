import Mathlib.Data.BitVec

/-!
# Snapshots of the inspected process

`bp_gdb.py` reads a paused beng-proxy through gdb values: a member of the
object at an address, or an embedded member's address. A snapshot is those
reads; pointers and machine words are 64 bits wide, and a value read
through `dereference()` is identified with its address.

A command prints lines and may end with an exception: its `Run`.
-/

namespace BpGdb

abbrev Addr := BitVec 64

inductive Field
  | next | prev
  | next_ | prev_
  | parent_ | left_ | right_
  | nettoSize | type | currentAreaLinear | size
  deriving DecidableEq, Repr

/-- A snapshot: `load x f` is `x[f]`, and `children p` the header of the
`children` list embedded in the pool at `p`. -/
structure Mem where
  load : Addr → Field → Addr
  children : Addr → Addr

def isNull (p : Addr) : Prop := p = 0

instance : DecidablePred isNull := fun p => inferInstanceAs (Decidable (p = 0))

structure MemberHook where
  bitpos : Nat
  nodeSize : Nat

/-- `node_to_value`: without a member hook the node is the record's first
member; with one, gdb subtracts `bitpos // 8` from the node pointer as C
pointer arithmetic, in units of the node type. -/
def nodeToValue : Option MemberHook → Addr → Addr
  | none, node => node
  | some hook, node => node - BitVec.ofNat 64 (hook.nodeSize * (hook.bitpos / 8))

theorem nodeToValue_injective (hook : Option MemberHook) : Function.Injective (nodeToValue hook) := by
  cases hook <;> intro a b h <;> simpa [nodeToValue] using h

/-! ## Exceptions -/

/-- What the commands raise: `ZeroDivisionError`, the `gdb.GdbError` of
`assert_gdb_type`, and gdb's errors for a pointer plus a `float` and for
`dereference()` of a value that is no pointer. -/
inductive PyError
  | zeroDivision
  | gdbError (message : String)
  | pointerPlusFloat
  | notAPointer
  deriving DecidableEq, Repr

def assertGdbType (actualType expectedType : String) : Except PyError Unit :=
  if actualType ≠ expectedType then
    .error (.gdbError ("Expected '" ++ expectedType ++ "', got '" ++ actualType ++ "'"))
  else .ok ()

structure Run (α : Type) where
  lines : List α
  raised : Option PyError
  deriving DecidableEq, Repr

namespace Run

variable {α β : Type}

def print (lines : List α) : Run α := ⟨lines, none⟩

def andThen (r k : Run α) : Run α :=
  match r.raised with
  | some _ => r
  | none => ⟨r.lines ++ k.lines, k.raised⟩

/-- A loop printing a line for each item, up to the first item that raises. -/
def forEach (f : β → Except PyError α) : List β → Run α
  | [] => ⟨[], none⟩
  | x :: xs =>
    match f x with
    | .ok line => ⟨line :: (forEach f xs).lines, (forEach f xs).raised⟩
    | .error e => ⟨[], some e⟩

theorem forEach_of_error {f : β → Except PyError α} {e : PyError} (hf : ∀ x, f x = .error e) :
    ∀ l : List β, forEach f l = ⟨[], if l.isEmpty then none else some e⟩
  | [] => rfl
  | x :: _ => by rw [forEach, hf x]; rfl

end Run

end BpGdb

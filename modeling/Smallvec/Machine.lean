import Smallvec.Variants

/-!
One container as a state machine, and the list model it is meant to implement.

# Operations

An `Op` is one call of a public method, together with what the caller does with what it hands
out: a reference is read (`get`) or assigned through (`get_mut`), a view is read whole (`slice`,
`as_slice`) or assigned through at one index (`mut_slice` and the rest), an iterator is run to
its end (`iter`) or up to one reference that is assigned through (`mut_iter`). `moveIter k`
calls `move_iter`, takes `k` values from the iterator and drops it. `clone` is not an operation
on the container but the start of a new one; Proofs/Reachable.lean adds it there. `runTwo`
drives two containers in one heap, in any interleaving.

# The list model

`Op.spec` is what each operation does to the list of elements, or `none` where the method must
fail: the behaviour of `Vec<T>` through `VecLike`, its slices and its iterators. This second
definition follows what a growable vector is for, not the source; the simulation theorems of
Proofs/Refinement.lean compare the two.

# Where the values go

A vector owns its elements: each value put in (`Op.placed`) leaves again by being handed to the
caller (`Op.taken`) or destroyed (`Op.discarded`), or is still an element. Proofs/Values.lean
compares this account with the destructor runs the code records in its ledger.
-/

namespace Smallvec

variable {α : Type} {N : Nat} (t : Layout)

open SmallVec

/-- What a caller does to one container. -/
inductive Op (α : Type) where
  | push (x : α)
  | pop
  | len
  | get (index : Nat)
  | getMut (index : Nat) (x : α)
  | slice (start stop : Nat)
  | asSlice
  | mutSlice (start stop j : Nat) (x : α)
  | asMutSlice (j : Nat) (x : α)
  | mutSliceFrom (start j : Nat) (x : α)
  | vecPush (x : α)
  | vecLen
  | vecMutSlice (start stop j : Nat) (x : α)
  | vecMutSliceFrom (start j : Nat) (x : α)
  | iter
  | mutIter (k : Nat) (x : α)
  | moveIter (k : Nat)

/-- What an operation hands back. -/
inductive Res (α : Type) where
  | unit
  | count (n : Nat)
  | popped (x : Option (Slot α))
  | value (x : Slot α)
  | values (xs : List (Slot α))
  deriving DecidableEq

/-- Reading a whole view: `view[0]`, `view[1]`, ... -/
def readSlice (v : SmallVector N α) (h : Heap α) (s : Slice) : Except Fault (List (Slot α)) :=
  (List.range s.len).mapM fun j => do load t v h (← s.index j)

/-- Assigning `x` through `view[j]`. -/
def assignSlice (v : SmallVector N α) (h : Heap α) (s : Slice) (j : Nat) (x : α) :
    Except Fault (SmallVector N α × Heap α) := do
  assign t v h (← s.index j) (.live x)

/-- The reference the `k`-th call of `next` returns (counting from `0`). -/
def SmallVecIterator.nth : Nat → SmallVecIterator → Option Ptr
  | 0, it => (it.next t).1
  | k + 1, it => nth k (it.next t).2

/-- `k` calls of a move iterator's `next`, and the values they returned. -/
def SmallVecMoveIterator.take :
    Nat → SmallVecMoveIterator → SmallVector N α → Heap α →
      Except Fault (List (Slot α) × SmallVecMoveIterator × SmallVector N α × Heap α)
  | 0, it, v, h => .ok ([], it, v, h)
  | k + 1, it, v, h => do
    let (x, it, v, h) ← it.next t v h
    let (xs, it, v, h) ← take k it v h
    pure (x.toList ++ xs, it, v, h)

/-- One operation on the container `v`. -/
def Op.step (v : SmallVector N α) (h : Heap α) :
    Op α → Except Fault (Res α × SmallVector N α × Heap α)
  | .push x => do let (v, h) ← SmallVec.push t v (.live x) h; pure (.unit, v, h)
  | .pop => do let (x, v, h) ← SmallVec.pop t v h; pure (.popped x, v, h)
  | .len => .ok (.count v.len, v, h)
  | .get index => do let x ← load t v h (← SmallVec.get v index); pure (.value x, v, h)
  | .getMut index x => do
    let (v, h) ← assign t v h (← SmallVec.getMut v index) (.live x); pure (.unit, v, h)
  | .slice start stop => do
    let xs ← readSlice t v h (← SmallVec.slice v start stop); pure (.values xs, v, h)
  | .asSlice => do let xs ← readSlice t v h (← SmallVec.asSlice v); pure (.values xs, v, h)
  | .mutSlice start stop j x => do
    let (v, h) ← assignSlice t v h (← SmallVec.mutSlice v start stop) j x; pure (.unit, v, h)
  | .asMutSlice j x => do
    let (v, h) ← assignSlice t v h (← SmallVec.asMutSlice v) j x; pure (.unit, v, h)
  | .mutSliceFrom start j x => do
    let (v, h) ← assignSlice t v h (← SmallVec.mutSliceFrom v start) j x; pure (.unit, v, h)
  | .vecPush x => do let (v, h) ← VecLike.vecPush t v (.live x) h; pure (.unit, v, h)
  | .vecLen => .ok (.count (VecLike.vecLen v), v, h)
  | .vecMutSlice start stop j x => do
    let (v, h) ← assignSlice t v h (← VecLike.vecMutSlice v start stop) j x; pure (.unit, v, h)
  | .vecMutSliceFrom start j x => do
    let (v, h) ← assignSlice t v h (← VecLike.vecMutSliceFrom v start) j x; pure (.unit, v, h)
  | .iter => do
    let it ← SmallVec.iter t v
    let xs ← it.forEach t (fun p xs => do pure (xs ++ [← load t v h p])) it.rounds []
    pure (.values xs, v, h)
  | .mutIter k x => do
    let it ← SmallVec.mutIter t v
    match it.nth t k with
    | some p => let (v, h) ← assign t v h p (.live x); pure (.unit, v, h)
    | none => pure (.unit, v, h)
  | .moveIter k => do
    let (it, v) ← SmallVec.moveIter t v
    let (xs, it, v, h) ← it.take t k v h
    let (v, h) ← it.drop t v h
    pure (.values xs, v, h)

/-- A run of operations, stopping at the first fault. -/
def run : List (Op α) → SmallVector N α → Heap α →
    Except Fault (List (Res α) × SmallVector N α × Heap α)
  | [], v, h => .ok ([], v, h)
  | op :: ops, v, h => do
    let (r, v, h) ← op.step t v h
    let (rs, v, h) ← run ops v h
    pure (r :: rs, v, h)

/-- Two containers in one heap, driven by one caller: each operation names the container it acts
on (`true` for the first), and each container's results are collected in order. -/
def runTwo {N' : Nat} : List (Bool × Op α) → SmallVector N α → SmallVector N' α → Heap α →
    Except Fault ((List (Res α) × List (Res α)) × SmallVector N α × SmallVector N' α × Heap α)
  | [], v, w, h => .ok (([], []), v, w, h)
  | (true, op) :: ops, v, w, h => do
    let (r, v, h) ← op.step t v h
    let ((rv, rw), v, w, h) ← runTwo ops v w h
    pure ((r :: rv, rw), v, w, h)
  | (false, op) :: ops, v, w, h => do
    let (r, w, h) ← op.step t w h
    let ((rv, rw), v, w, h) ← runTwo ops v w h
    pure ((rv, r :: rw), v, w, h)

/-- The operations of an interleaving that act on one of the two containers, in order. -/
def onSide (b : Bool) (ops : List (Bool × Op α)) : List (Op α) :=
  ops.filterMap fun p => if p.1 = b then some p.2 else none

@[simp] theorem onSide_cons (b c : Bool) (op : Op α) (ops : List (Bool × Op α)) :
    onSide b ((c, op) :: ops) = if c = b then op :: onSide b ops else onSide b ops := by
  by_cases hc : c = b <;> simp [onSide, hc]

-- ============================================================ the list model

/-- The list model of one operation: its result and the new list, or `none` where the method
fails. -/
def Op.spec : Op α → List α → Option (Res α × List α)
  | .push x, l => some (.unit, l ++ [x])
  | .pop, l => some (.popped (l.getLast?.map .live), l.dropLast)
  | .len, l => some (.count l.length, l)
  | .get index, l => l[index]?.map fun a => (.value (.live a), l)
  | .getMut index x, l => if index < l.length then some (.unit, l.set index x) else none
  | .slice start stop, l =>
    if start ≤ stop ∧ stop ≤ l.length then
      some (.values (((l.drop start).take (stop - start)).map .live), l)
    else none
  | .asSlice, l => some (.values (l.map .live), l)
  | .mutSlice start stop j x, l =>
    if start ≤ stop ∧ stop ≤ l.length ∧ j < stop - start then some (.unit, l.set (start + j) x)
    else none
  | .asMutSlice j x, l => if j < l.length then some (.unit, l.set j x) else none
  | .mutSliceFrom start j x, l =>
    if start ≤ l.length ∧ j < l.length - start then some (.unit, l.set (start + j) x) else none
  | .vecPush x, l => some (.unit, l ++ [x])
  | .vecLen, l => some (.count l.length, l)
  | .vecMutSlice start stop j x, l =>
    if start ≤ stop ∧ stop ≤ l.length ∧ j < stop - start then some (.unit, l.set (start + j) x)
    else none
  | .vecMutSliceFrom start j x, l =>
    if start ≤ l.length ∧ j < l.length - start then some (.unit, l.set (start + j) x) else none
  | .iter, l => some (.values (l.map .live), l)
  | .mutIter k x, l => some (.unit, if k < l.length then l.set k x else l)
  | .moveIter k, l => some (.values ((l.take k).map .live), [])

/-- A run of the list model, stopping at the first failure. -/
def Op.specRun : List (Op α) → List α → Option (List (Res α) × List α)
  | [], l => some ([], l)
  | op :: ops, l => do
    let (r, l) ← op.spec l
    let (rs, l) ← specRun ops l
    pure (r :: rs, l)

-- ===================================================== where the values go

/-- The values an operation the list model lets through puts into the list: the pushed value,
or the value assigned over an element. -/
def Op.placed : Op α → List α → List α
  | .push x, _ | .vecPush x, _ | .getMut _ x, _ | .mutSlice _ _ _ x, _ | .asMutSlice _ x, _
  | .mutSliceFrom _ _ x, _ | .vecMutSlice _ _ _ x, _ | .vecMutSliceFrom _ _ x, _ => [x]
  | .mutIter k x, l => if k < l.length then [x] else []
  | _, _ => []

/-- The values an operation hands to the caller by value: the popped element, and those the
move iterator returns. -/
def Op.taken : Op α → List α → List α
  | .pop, l => l.getLast?.toList
  | .moveIter k, l => l.take k
  | _, _ => []

/-- The values an operation the list model lets through destroys: the element an assignment
overwrites, and those a move iterator drops without handing them out. -/
def Op.discarded : Op α → List α → List α
  | .getMut index _, l => l[index]?.toList
  | .asMutSlice j _, l => l[j]?.toList
  | .mutSlice start _ j _, l | .mutSliceFrom start j _, l | .vecMutSlice start _ j _, l
  | .vecMutSliceFrom start j _, l => l[start + j]?.toList
  | .mutIter k _, l => l[k]?.toList
  | .moveIter k, l => l.drop k
  | _, _ => []

/-- What `f` collects from each operation of a run of the list model, up to its first failure. -/
def Op.collectRun (f : Op α → List α → List α) : List (Op α) → List α → List α
  | [], _ => []
  | op :: ops, l => match op.spec l with
    | some (_, l') => f op l ++ collectRun f ops l'
    | none => []

end Smallvec

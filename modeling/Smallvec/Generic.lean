import Smallvec.Storage

/-!
The generic algorithm layer: the default methods of the `SmallVec` trait that change or read
the elements, written once against the storage accessors, and the `VecLike` impl the macro
gives every instance.

Each method takes the container and the heap and returns them, or the `Fault` it stops with.
The bodies follow the source statement by statement; `push` takes a `Slot` because the code
moves values it has not checked (`push_all_move` pushes whatever the move iterator read).

`get` and `get_mut`, `slice` and `mut_slice` have the same bodies in the source: the second of
each pair is the first, applied. A view (`&[T]`, `&mut [T]`) is a `Slice`, and what the caller
does with it, reading or assigning through it, goes through `Slice.index`, which is the
language's own bounds check.
-/

namespace Smallvec

variable {α : Type} {N : Nat} (t : Layout)

open SmallVecPrivate

/-- The language's bounds check on an array or slice of length `len`. -/
def indexOutOfBounds (len index : Nat) : Fault :=
  .fail ("index out of bounds: the len is " ++ toString len ++ " but the index is "
    ++ toString index)

/-- A borrowed view `&[T]` or `&mut [T]`: the raw `Slice { data, len }` the code transmutes. -/
structure Slice where
  data : Ptr
  len : Nat

/-- Indexing a view, `view[j]`: bounds-checked against the view's length. -/
def Slice.index (s : Slice) (j : Nat) : Except Fault Ptr :=
  if j < s.len then .ok (s.data.offset j) else .error (indexOutOfBounds s.len j)

namespace SmallVec

/-- `fail_bounds_check(index)`. -/
def failBoundsCheck (v : SmallVector N α) (index : Nat) : Fault :=
  .fail ("index " ++ toString index ++ " beyond length (" ++ toString v.len ++ ")")

/-- `grow(new_cap)`: a fresh buffer of `new_cap` elements, the `len` elements copied into it,
the old buffer released (or the inline elements zeroed), and the new buffer installed. -/
def grow (v : SmallVector N α) (newCap : Nat) (h : Heap α) :
    Except Fault (SmallVector N α × Heap α) := do
  let (h, id) ← h.allocate (wrapping (t.size * newCap)) t.align
  let newAlloc : Ptr := ⟨.heap id, 0⟩
  let (v, h) ← copyNonoverlappingMemory t v h newAlloc (← begin v) v.len
  let (v, h) ←
    if spilled v then do
      let h ← if t.ownsManaged then h.localFree (ptr v).region
        else h.deallocate (ptr v).region (wrapping (t.size * v.cap)) t.align
      pure (v, h)
    else do
      let mutBegin ← begin v
      setMemory t v h mutBegin v.len
  pure (setCap (setPtr v newAlloc) newCap, h)

/-- `push(value)`: grow to `max(cap * 2, 1)` when full, then write at `end()`. -/
def push (v : SmallVector N α) (value : Slot α) (h : Heap α) :
    Except Fault (SmallVector N α × Heap α) := do
  let cap := v.cap
  let (v, h) ← if v.len = cap then grow t v (max (wrapping (cap * 2)) 1) h else pure (v, h)
  let e ← «end» v
  let (v, h) ← store t v h e value
  let len := v.len
  pure (setLen v (wrapping (len + 1)), h)

/-- `pop()`: swap the last element out for `mem::uninitialized()`. -/
def pop (v : SmallVector N α) (h : Heap α) :
    Except Fault (Option (Slot α) × SmallVector N α × Heap α) := do
  if v.len = 0 then return (none, v, h)
  let lastIndex := wrappingSub v.len 1
  if negativeAsInt lastIndex then throw (.fail "overflow")
  let endPtr := (← begin v).offset lastIndex
  let (value, v, h) ← replace t v h endPtr .uninit
  pure (some value, setLen v lastIndex, h)

/-- `get(index)`: the element's pointer, after the bounds check. -/
def get (v : SmallVector N α) (index : Nat) : Except Fault Ptr := do
  if index ≥ v.len then throw (failBoundsCheck v index)
  pure ((← begin v).offset index)

/-- `get_mut(index)`: the body of `get`. -/
def getMut (v : SmallVector N α) (index : Nat) : Except Fault Ptr := get v index

/-- `slice(start, end)`: the view of `[start, end)`, after two assertions. -/
def slice (v : SmallVector N α) (start «end» : Nat) : Except Fault Slice := do
  if ¬start ≤ «end» then throw (.fail "assertion failed: start <= end")
  if ¬«end» ≤ v.len then throw (.fail "assertion failed: end <= self.len()")
  pure ⟨(← begin v).offset start, «end» - start⟩

/-- `mut_slice(start, end)`: the body of `slice`. -/
def mutSlice (v : SmallVector N α) (start «end» : Nat) : Except Fault Slice := slice v start «end»

/-- `as_slice()`. -/
def asSlice (v : SmallVector N α) : Except Fault Slice := slice v 0 v.len

/-- `as_mut_slice()`. -/
def asMutSlice (v : SmallVector N α) : Except Fault Slice :=
  let len := v.len
  mutSlice v 0 len

/-- `mut_slice_from(start)`. -/
def mutSliceFrom (v : SmallVector N α) (start : Nat) : Except Fault Slice :=
  let len := v.len
  mutSlice v start len

end SmallVec

-- =================================================================== VecLike

-- The `VecLike` impl `def_small_vector!` gives each instance.
namespace VecLike

/-- `vec_len`. -/
def vecLen (v : SmallVector N α) : Nat := v.len

/-- `vec_push`. -/
def vecPush (v : SmallVector N α) (value : Slot α) (h : Heap α) :
    Except Fault (SmallVector N α × Heap α) :=
  SmallVec.push t v value h

/-- `vec_mut_slice`. -/
def vecMutSlice (v : SmallVector N α) (start «end» : Nat) : Except Fault Slice :=
  SmallVec.mutSlice v start «end»

/-- `vec_mut_slice_from`, the trait's default method. -/
def vecMutSliceFrom (v : SmallVector N α) (start : Nat) : Except Fault Slice :=
  let len := vecLen v
  vecMutSlice v start len

end VecLike

end Smallvec

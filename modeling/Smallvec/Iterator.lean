import Smallvec.Generic

/-!
The iterator family: `iter`, `mut_iter` and `move_iter`, and the three iterator types.

# Raw pointers, compared as addresses

The read and mutable iterators are pairs of raw pointers that `next` compares with `==` and
advances with `offset(1)`, or, for a zero-sized `T`, with `ptr as uint + 1`. What `==` compares
is addresses, so an iterator here holds byte addresses from its region's start: `begin()` is at
`0`, `end()` at `len * size_of::<T>()`. The element an address names is `address / size`; for a
zero-sized `T` the quotient is `0`, every element sharing one address, as in the language.

# Loops

`for x in it { .. }` calls `next` until it returns `None`. Each round moves `ptr` at least one
byte towards `end`, so `end - ptr + 1` rounds reach `end` or pass it; a loop that passes it
reads past the region forever, and the model stops it there with `Fault.undefined`. `forEach`
is that loop over a read iterator, `SmallVecMoveIterator.forEach` over a move iterator.

# The move iterator

`move_iter` builds a read iterator over the current elements, remembers the spill buffer if
there is one, and resets the container to empty and inline before it returns (the NB comment:
the elements stay where they are). Its `next` replaces each slot it reads by `mem::zeroed()`,
and its `Drop` runs the loop `for _ in *self {}` over what is left, then releases the buffer
with `heap::deallocate(allocation, size_of::<T>() * self.cap, ..)`, where `self.cap` is the
value `move_iter` stored: the inline size.
-/

namespace Smallvec

variable {α : Type} {N : Nat} (t : Layout)

open SmallVecPrivate SmallVec

/-- The address of a pointer, in bytes from its region's start. -/
def Ptr.addr (p : Ptr) : Nat := p.index * t.size

-- ========================================================= read iterators

/-- `SmallVecIterator`: the raw pointers `ptr` and `end` into one region, as addresses. -/
structure SmallVecIterator where
  region : Region
  ptr : Nat
  «end» : Nat

/-- `SmallVecMutIterator`: the same two pointers, handing out `&mut T`. -/
abbrev SmallVecMutIterator := SmallVecIterator

/-- `SmallVecIterator::next`: `None` at `end`, else the element at `ptr`, and `ptr` moves on by
one element, or by one byte for a zero-sized `T`. -/
def SmallVecIterator.next (it : SmallVecIterator) : Option Ptr × SmallVecIterator :=
  if it.ptr = it.end then (none, it)
  else (some ⟨it.region, it.ptr / t.size⟩,
    { it with ptr := if t.size = 0 then it.ptr + 1 else it.ptr + t.size })

/-- `SmallVecMutIterator::next`: the body of `SmallVecIterator::next`. -/
def SmallVecMutIterator.next (it : SmallVecMutIterator) : Option Ptr × SmallVecMutIterator :=
  SmallVecIterator.next t it

/-- The loop `for p in it { body p }`, for at most `fuel` rounds. -/
def SmallVecIterator.forEach {σ : Type} (body : Ptr → σ → Except Fault σ) :
    Nat → SmallVecIterator → σ → Except Fault σ
  | 0, _, _ => .error .undefined
  | fuel + 1, it, st =>
    match it.next t with
    | (none, _) => .ok st
    | (some p, it) => do forEach body fuel it (← body p st)

/-- The rounds a loop over `it` may take: `end - ptr + 1`. -/
def SmallVecIterator.rounds (it : SmallVecIterator) : Nat := it.end - it.ptr + 1

namespace SmallVec

/-- `iter()`: `ptr` at `begin()`, `end` at `end()`. -/
def iter (v : SmallVector N α) : Except Fault SmallVecIterator := do
  let b ← begin v
  let e ← «end» v
  pure ⟨b.region, b.addr t, e.addr t⟩

/-- `mut_iter()`: the pointers of `iter`, transmuted. -/
def mutIter (v : SmallVector N α) : Except Fault SmallVecMutIterator := iter t v

end SmallVec

-- ============================================================ move iterator

/-- `SmallVecMoveIterator`: the spill buffer it took over, the capacity it frees it with, and
the read iterator it walks. -/
structure SmallVecMoveIterator where
  allocation : Option Ptr
  cap : Nat
  iter : SmallVecIterator

/-- `move_iter()`: the iterator over the current elements, and the container reset to empty and
inline. -/
def SmallVec.moveIter (v : SmallVector N α) :
    Except Fault (SmallVecMoveIterator × SmallVector N α) := do
  let iter ← SmallVec.iter t v
  let ptrOpt := if spilled v then some (ptr v) else none
  let inlineSize := inlineSize v
  let v := setLen (setCap v inlineSize) 0
  pure (⟨ptrOpt, inlineSize, iter⟩, v)

namespace SmallVecMoveIterator

/-- `SmallVecMoveIterator::next`: the next element by value, its slot left zeroed. `v` is the
container the iterator borrows, whose inline array it may walk. -/
def next (it : SmallVecMoveIterator) (v : SmallVector N α) (h : Heap α) :
    Except Fault (Option (Slot α) × SmallVecMoveIterator × SmallVector N α × Heap α) :=
  match it.iter.next t with
  | (none, i) => .ok (none, { it with iter := i }, v, h)
  | (some reference, i) => do
    let (value, v, h) ← replace t v h reference .zeroed
    pure (some value, { it with iter := i }, v, h)

/-- The loop `for x in it { body x }` over a move iterator, for at most `fuel` rounds. -/
def forEach {σ : Type} (body : Slot α → σ → Heap α → Except Fault (σ × Heap α)) :
    Nat → SmallVecMoveIterator → SmallVector N α → σ → Heap α →
      Except Fault (SmallVecMoveIterator × SmallVector N α × σ × Heap α)
  | 0, _, _, _, _ => .error .undefined
  | fuel + 1, it, v, st, h => do
    let (x, it, v, h) ← it.next t v h
    match x with
    | none => pure (it, v, st, h)
    | some x =>
      let (st, h) ← body x st h
      forEach body fuel it v st h

/-- `Drop for SmallVecMoveIterator`: `for _ in *self {}` drops what is left, then the buffer it
took over is released at `size_of::<T>() * self.cap` bytes. -/
def drop (it : SmallVecMoveIterator) (v : SmallVector N α) (h : Heap α) :
    Except Fault (SmallVector N α × Heap α) := do
  let (it, v, (), h) ←
    forEach t (fun x () h => pure ((), h.record x.dropGlue)) it.iter.rounds it v () h
  match it.allocation with
  | none => pure (v, h)
  | some allocation => do
    let h ← if t.ownsManaged then h.localFree allocation.region
      else h.deallocate allocation.region (wrapping (t.size * it.cap)) t.align
    pure (v, h)

end SmallVecMoveIterator

end Smallvec

import Smallvec.Iterator

/-!
What the concrete instances add: `def_small_vector_drop_impl!` and
`def_small_vector_clone_impl!`, each one definition over the inline size, and `push_all_move`,
the trait method that consumes a whole second container, `Drop` included.

# Dropping a container

Dropping a `SmallVecN` runs its `Drop::drop`, then the drop glue of its fields. `Drop::drop`
returns at once when the container is inline. When spilled, it assigns `mem::uninitialized()`
over each of the `len` heap elements, which runs each one's destructor, and releases the
buffer. The drop glue that follows destroys the inline array: all `N` of its slots, whatever
they hold. Which slots hold what by then is the question of Proofs/Drop.lean.

# Cloning

`clone` starts from `new()` and pushes the clone of every element the source's read iterator
yields; `cl` stands for `T`'s `Clone::clone`.
-/

namespace Smallvec

variable {α : Type} {N N' : Nat} (t : Layout)

open SmallVecPrivate SmallVec

namespace SmallVector

/-- `Drop for $name`, then the drop glue of the inline array. -/
def drop (v : SmallVector N α) (h : Heap α) : Except Fault (Heap α) := do
  let (v, h) ←
    if !spilled v then pure (v, h)
    else do
      let ptr := ptr v
      let (v, h) ← (List.range v.len).foldlM
        (fun (w : SmallVector N α × Heap α) i => assign t w.1 w.2 (ptr.offset i) .uninit) (v, h)
      let h ← if t.ownsManaged then h.localFree (SmallVecPrivate.ptr v).region
        else h.deallocate (SmallVecPrivate.ptr v).region (wrapping (t.size * v.cap)) t.align
      pure (v, h)
  pure (h.record ((List.range N).flatMap fun i => (v.data i).dropGlue))

/-- `Clone for $name`: `new()`, then `push((*element).clone())` for every element `iter()`
yields. -/
def clone (cl : α → α) (v : SmallVector N α) (h : Heap α) :
    Except Fault (SmallVector N α × Heap α) := do
  let it ← iter t v
  it.forEach t (fun element (w : SmallVector N α × Heap α) => do
      let x ← load t v w.2 element
      push t w.1 (x.map cl) w.2)
    it.rounds (SmallVector.new, h)

end SmallVector

/-- `push_all_move(other)`: `for value in other.move_iter() { self.push(value) }`; the iterator
is dropped when the loop ends, and `other`, taken by value, when the call returns. -/
def SmallVec.pushAllMove (v : SmallVector N α) (other : SmallVector N' α) (h : Heap α) :
    Except Fault (SmallVector N α × Heap α) := do
  let (it, other) ← moveIter t other
  let (it, other, v, h) ←
    it.forEach t (fun value v h => push t v value h) it.iter.rounds other v h
  let (other, h) ← it.drop t other h
  let h ← other.drop t h
  pure (v, h)

end Smallvec

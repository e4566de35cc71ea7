import Smallvec.Basic
import Mathlib.Logic.Function.Basic

/-!
The storage accessor layer: the record `def_small_vector!` generates, its `SmallVecPrivate`
accessors, the trait methods that pick the active storage (`spilled`, `begin`, `end`), and
the memory primitives the generic layer builds on.

# One record for the whole family

`def_small_vector!($name, $size)` stamps out one struct per inline size; `SmallVector N α` is
that struct with `$size = N`, and `SmallVec1` .. `SmallVec32` are its seven instances. The
inline array `data: [T, ..N]` is a slot function of which `[0, N)` are the array's elements:
an access past them is caught by `validRange` (for a sized `T`) and never reaches it.

# Memory

A raw pointer names a region and an element index. `validRange` asks that the element's bytes lie
inside a live region: the inline array spans `N * size_of::<T>()` bytes, a heap block the bytes
it was allocated with. For a zero-sized `T` every access is inside, as in the language.
Reads and writes outside are `Fault.undefined`. Three writes differ in what they do to the old
contents: `store` (`ptr::write`, `mem::overwrite`, `mem::replace`, `mem::swap`) runs no
destructor, `assign` (`*p = x`) runs the old value's drop glue first, and the two intrinsics
`set_memory` and `copy_nonoverlapping_memory` write whole ranges.
-/

namespace Smallvec

variable {α : Type} {N : Nat}

-- ================================================================ the record

/-- The struct `def_small_vector!` defines, at inline size `N`. -/
structure SmallVector (N : Nat) (α : Type) where
  len : Nat
  cap : Nat
  /-- The spill buffer; `ptr::null()` until the first `grow`. -/
  ptr : Ptr
  /-- The inline array `[T, ..N]`: its elements are the slots `[0, N)`. -/
  data : Nat → Slot α

/-- The seven instances of `def_small_vector!`. -/
abbrev SmallVec1 (α : Type) : Type := SmallVector 1 α
abbrev SmallVec2 (α : Type) : Type := SmallVector 2 α
abbrev SmallVec4 (α : Type) : Type := SmallVector 4 α
abbrev SmallVec8 (α : Type) : Type := SmallVector 8 α
abbrev SmallVec16 (α : Type) : Type := SmallVector 16 α
abbrev SmallVec24 (α : Type) : Type := SmallVector 24 α
abbrev SmallVec32 (α : Type) : Type := SmallVector 32 α

/-- `$name::new()`: empty, inline, the spill pointer null and the inline array `mem::zeroed()`. -/
def SmallVector.new : SmallVector N α := ⟨0, N, ⟨.null, 0⟩, fun _ => .zeroed⟩

-- ======================================================= SmallVecPrivate

namespace SmallVecPrivate

/-- `set_len`. -/
def setLen (v : SmallVector N α) (newLen : Nat) : SmallVector N α := { v with len := newLen }

/-- `set_cap`. -/
def setCap (v : SmallVector N α) (newCap : Nat) : SmallVector N α := { v with cap := newCap }

/-- `data(index)`: `&self.data[index]`, bounds-checked against the array's length `N`. -/
def data (_v : SmallVector N α) (index : Nat) : Except Fault Ptr :=
  if index < N then .ok ⟨.inline, index⟩
  else .error (.fail ("index out of bounds: the len is " ++ toString N ++ " but the index is "
    ++ toString index))

/-- `ptr()` and `mut_ptr()`: the spill pointer. -/
def ptr (v : SmallVector N α) : Ptr := v.ptr

/-- `set_ptr`. -/
def setPtr (v : SmallVector N α) (newPtr : Ptr) : SmallVector N α := { v with ptr := newPtr }

end SmallVecPrivate

open SmallVecPrivate

-- ================================================ choosing the active storage

namespace SmallVec

/-- `inline_size()`: the `$size` of the instance. -/
def inlineSize (_v : SmallVector N α) : Nat := N

/-- `spilled()`: `self.cap() > self.inline_size()`. -/
def spilled (v : SmallVector N α) : Bool := decide (v.cap > inlineSize v)

/-- `begin()`: the spill buffer when spilled, else the inline array's first element. -/
def begin (v : SmallVector N α) : Except Fault Ptr :=
  if spilled v then .ok (ptr v) else data v 0

/-- `end()`: `self.begin().offset(self.len() as int)`. -/
def «end» (v : SmallVector N α) : Except Fault Ptr := do
  let b ← begin v
  pure (b.offset v.len)

end SmallVec

open SmallVec

-- ==================================================================== memory

variable (t : Layout)

/-- The bytes region `r` spans while it is live; the inline array is the container's own. -/
def regionBytes (_v : SmallVector N α) (h : Heap α) : Region → Option Nat
  | .inline => some (N * t.size)
  | .heap id =>
    match h.block id with
    | some b => if b.live then some b.bytes else none
    | none => none
  | .null => none

/-- The `count` elements from `p` on lie inside live storage. -/
def validRange (v : SmallVector N α) (h : Heap α) (p : Ptr) (count : Nat) : Bool :=
  match regionBytes t v h p.region with
  | some bytes => decide ((p.index + count) * t.size ≤ bytes)
  | none => false

/-- The slots of a region, as they are now. -/
def regionSlots (v : SmallVector N α) (h : Heap α) : Region → Nat → Slot α
  | .inline => v.data
  | .heap id => fun i => match h.block id with
    | some b => b.slots i
    | none => .uninit
  | .null => fun _ => .uninit

/-- Rewriting the slots of a region. -/
def modifySlots (v : SmallVector N α) (h : Heap α) (r : Region)
    (f : (Nat → Slot α) → Nat → Slot α) : SmallVector N α × Heap α :=
  match r with
  | .inline => ({ v with data := f v.data }, h)
  | .heap id => (v, h.modify id fun b => { b with slots := f b.slots })
  | .null => (v, h)

/-- Reading the `T` at `p`. -/
def load (v : SmallVector N α) (h : Heap α) (p : Ptr) : Except Fault (Slot α) :=
  if validRange t v h p 1 then .ok (regionSlots v h p.region p.index) else .error .undefined

/-- Writing `x` to the `T` at `p` with no destructor run on what was there. -/
def store (v : SmallVector N α) (h : Heap α) (p : Ptr) (x : Slot α) :
    Except Fault (SmallVector N α × Heap α) :=
  if validRange t v h p 1 then .ok (modifySlots v h p.region fun s => Function.update s p.index x)
  else .error .undefined

/-- `mem::replace(&mut *p, x)`, and `mem::swap` of `*p` with a local holding `x`: the old
value comes out, `x` goes in, no destructor runs. -/
def replace (v : SmallVector N α) (h : Heap α) (p : Ptr) (x : Slot α) :
    Except Fault (Slot α × SmallVector N α × Heap α) := do
  let old ← load t v h p
  let (v, h) ← store t v h p x
  pure (old, v, h)

/-- `*p = x`: the old value's drop glue runs, then `x` is written. -/
def assign (v : SmallVector N α) (h : Heap α) (p : Ptr) (x : Slot α) :
    Except Fault (SmallVector N α × Heap α) := do
  let (old, v, h) ← replace t v h p x
  pure (v, h.record old.dropGlue)

/-- Overwriting the `count` slots from `p` on with `f 0`, `f 1`, ... -/
def writeRange (s : Nat → Slot α) (start count : Nat) (f : Nat → Slot α) : Nat → Slot α :=
  fun i => if start ≤ i ∧ i < start + count then f (i - start) else s i

/-- `intrinsics::set_memory(p, 0, count)`: the `count` elements from `p` on become zero bytes. -/
def setMemory (v : SmallVector N α) (h : Heap α) (p : Ptr) (count : Nat) :
    Except Fault (SmallVector N α × Heap α) :=
  if validRange t v h p count then
    .ok (modifySlots v h p.region fun s => writeRange s p.index count fun _ => .zeroed)
  else .error .undefined

/-- `ptr::copy_nonoverlapping_memory(dst, src, count)`: `count` elements, bit for bit. -/
def copyNonoverlappingMemory (v : SmallVector N α) (h : Heap α) (dst src : Ptr) (count : Nat) :
    Except Fault (SmallVector N α × Heap α) :=
  if validRange t v h dst count && validRange t v h src count then
    .ok (modifySlots v h dst.region fun s =>
      writeRange s dst.index count fun j => regionSlots v h src.region (src.index + j))
  else .error .undefined

end Smallvec

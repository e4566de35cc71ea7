import Mathlib

/-!
The base layer of the model of `components/util/smallvec.rs`: the machine words the code
computes with, what it asks the compiler about the element type, the contents of one element
slot, and the heap its spilled buffers live in.

# Words

`uint` is a 64-bit word, and the source's `+`, `*` and `-` on it are unchecked: they wrap.
Lengths and capacities are `Nat` here, and every computation the code does on them is written
through `wrapping` / `wrappingSub`, so a wrap is visible in the model exactly where the code
can wrap. Whether it ever does is a theorem (Proofs/Reachable.lean), not an assumption.

# Slots

A slot is the memory of one `T`. The code constructs and destroys elements by hand, so a slot
is not always a value: `mem::zeroed()` and `set_memory(.., 0, ..)` leave the zero bit pattern,
which the code treats as a value whose destructor does nothing (the comment in
`SmallVecMoveIterator::next`), and `mem::uninitialized()` leaves garbage. `Slot` names the
three, and is also what a `T` moved out of memory is: `pop` and the move iterator hand out
whatever the slot held.

# The heap

A heap block records the size and alignment it was requested with, its slots, and whether it
is still allocated; ids are never reused, so "the block with this id" is a ledger entry and
not an address. The heap's `log` is the ledger of allocator calls and destructor runs, in
order. Loads and stores outside a live block are `Fault.undefined`: there the language
promises nothing, and the model stops.

The ledger records every run of `T`'s drop glue, whether or not `T` has a destructor: the model
does not ask `needs_drop::<T>()`. For `u32` or `()` such a run does nothing; for an owned box
`~T` it frees the box, and run on garbage (`destroyUninit`) it frees whatever the garbage
points at. The model records that run and goes on, where the language promises nothing.
-/

namespace Smallvec

-- ============================================================ machine words

/-- The number of `uint` values: the code is built for 64-bit targets. -/
def uintSize : Nat := 2 ^ 64

/-- Unchecked `uint` addition or multiplication: the exact result, modulo `2^64`. -/
def wrapping (n : Nat) : Nat := n % uintSize

/-- Unchecked `uint` subtraction `a - b` of two words. -/
def wrappingSub (a b : Nat) : Nat := (a + uintSize - b) % uintSize

/-- `isize::MAX`: the largest allocation, and the largest object, the address space holds. -/
def isizeMax : Nat := 2 ^ 63 - 1

/-- Whether `x as int < 0`: the cast reinterprets a word at or above `2^63` as negative. -/
def negativeAsInt (x : Nat) : Bool := decide (2 ^ 63 ≤ x)

theorem wrapping_of_lt {n : Nat} (h : n < uintSize) : wrapping n = n := Nat.mod_eq_of_lt h

theorem wrappingSub_one {a : Nat} (h0 : 0 < a) (h : a < uintSize) : wrappingSub a 1 = a - 1 := by
  unfold wrappingSub
  rw [show a + uintSize - 1 = (a - 1) + uintSize by omega, Nat.add_mod_right,
    Nat.mod_eq_of_lt (by omega)]

-- ===================================================== the Except monad

/-- A bind on a value that is there. -/
@[simp] theorem ok_bind {ε β γ : Type} (a : β) (f : β → Except ε γ) :
    (Except.ok a >>= f) = f a := rfl

/-- A bind on a fault stops there. -/
@[simp] theorem error_bind {ε β γ : Type} (e : ε) (f : β → Except ε γ) :
    (Except.error e >>= f : Except ε γ) = .error e := rfl

/-- A bind returns a value exactly when both halves do. -/
theorem bind_eq_ok {ε β γ : Type} {x : Except ε β} {f : β → Except ε γ} {c : γ} :
    (x >>= f) = .ok c ↔ ∃ b, x = .ok b ∧ f b = .ok c := by
  cases x <;> simp

-- ========================================================= the element type

/-- What the code asks the compiler about the element type `T`. -/
structure Layout where
  /-- `mem::size_of::<T>()`. -/
  size : Nat
  /-- `mem::min_align_of::<T>()`. -/
  align : Nat
  /-- `intrinsics::owns_managed::<T>()`: whether `T` holds managed boxes. -/
  ownsManaged : Bool
  /-- No type is larger than the address space: rustc rejects one that would be. -/
  size_le : size ≤ isizeMax

/-- A four-byte element type, such as `u32`. -/
def Layout.u32 : Layout := ⟨4, 4, false, by decide⟩

/-- A zero-sized element type, such as `()`. -/
def Layout.unit : Layout := ⟨0, 1, false, by decide⟩

/-- A managed box `@T`: one pointer, and `owns_managed` holds. -/
def Layout.managedBox : Layout := ⟨8, 8, true, by decide⟩

/-- An owned box `~T`: one pointer, whose destructor frees the box; `owns_managed` does not
hold. -/
def Layout.ownedBox : Layout := ⟨8, 8, false, by decide⟩

/-- The contents of one `T`-sized piece of memory, and a value of `T` as the code moves it. -/
inductive Slot (α : Type) where
  | live (a : α)
  | zeroed
  | uninit
  deriving DecidableEq, Repr

/-- What the ledger records: the allocator calls, and every run of `T`'s destructor. -/
inductive Event (α : Type) where
  | allocate (id bytes align : Nat)
  | deallocate (id bytes align : Nat)
  | localFree (id : Nat)
  | destroy (a : α)
  | destroyUninit
  deriving DecidableEq, Repr

variable {α : Type}

/-- Running `T`'s drop glue on a value. A zeroed value is skipped, as the code assumes; garbage
is destroyed as if it were a value, which is the undefined behaviour `destroyUninit` marks. -/
def Slot.dropGlue : Slot α → List (Event α)
  | .live a => [.destroy a]
  | .zeroed => []
  | .uninit => [.destroyUninit]

/-- Whether a ledger entry is a run of `T`'s destructor, on a value or on garbage. -/
def Event.isDestructor : Event α → Bool
  | .destroy _ | .destroyUninit => true
  | _ => false

/-- A live slot. -/
def Slot.isLive : Slot α → Bool
  | .live _ => true
  | _ => false

/-- The clone of a value by `T`'s `Clone` impl `cl`. -/
def Slot.map (cl : α → α) : Slot α → Slot α
  | .live a => .live (cl a)
  | s => s

/-- A slot holding the garbage `mem::uninitialized()` leaves. -/
def Slot.isUninit : Slot α → Bool
  | .uninit => true
  | _ => false

@[simp] theorem Slot.isLive_live (a : α) : (Slot.live a).isLive = true := rfl

-- ============================================================ faults, pointers

/-- How an operation ends other than by returning. -/
inductive Fault where
  /-- `fail!` or a failed `assert!` or bounds check: the task fails with this message. -/
  | fail (msg : String)
  /-- `heap::allocate` cannot satisfy the request: the process aborts. -/
  | oom
  /-- An access or release the language leaves undefined. -/
  | undefined
  deriving DecidableEq, Repr

/-- The storage a raw pointer points into. -/
inductive Region where
  /-- The container's own inline array `data`. -/
  | inline
  /-- A heap block, by id. -/
  | heap (id : Nat)
  /-- `ptr::null()`. -/
  | null
  deriving DecidableEq, Repr

/-- A raw pointer `*T`, as a region and the index of the element it points at. -/
structure Ptr where
  region : Region
  index : Nat
  deriving DecidableEq, Repr

/-- Pointer arithmetic `p.offset(n)`: `n` elements further on. -/
def Ptr.offset (p : Ptr) (n : Nat) : Ptr := ⟨p.region, p.index + n⟩

@[simp] theorem Ptr.offset_region (p : Ptr) (n : Nat) : (p.offset n).region = p.region := rfl
@[simp] theorem Ptr.offset_index (p : Ptr) (n : Nat) : (p.offset n).index = p.index + n := rfl

-- ================================================================== the heap

/-- One allocation: the size and alignment it was requested with, its slots, and whether it is
still allocated. -/
structure Block (α : Type) where
  bytes : Nat
  align : Nat
  slots : Nat → Slot α
  live : Bool

/-- The heap: blocks by id, the id the next allocation gets, and the ledger. Ids from `next` on
have never been handed out. -/
structure Heap (α : Type) where
  block : Nat → Option (Block α)
  next : Nat
  log : List (Event α)
  fresh : ∀ j, next ≤ j → block j = none

/-- The heap with nothing allocated and nothing recorded. -/
def Heap.empty : Heap α := ⟨fun _ => none, 0, [], fun _ _ => rfl⟩

/-- Appending events to the ledger. -/
def Heap.record (h : Heap α) (es : List (Event α)) : Heap α := { h with log := h.log ++ es }

/-- Rewriting the record of block `id`, if it exists. -/
def Heap.modify (h : Heap α) (id : Nat) (f : Block α → Block α) : Heap α where
  block j := if j = id then (h.block j).map f else h.block j
  next := h.next
  log := h.log
  fresh j hj := by simp [h.fresh j hj]

/-- The heap with block `b` added under the fresh id `next`. -/
def Heap.add (h : Heap α) (b : Block α) : Heap α where
  block j := if j = h.next then some b else h.block j
  next := h.next + 1
  log := h.log
  fresh j hj := by
    simp only [if_neg (show j ≠ h.next by omega)]
    exact h.fresh j (by omega)

/-- `heap::allocate(bytes, align)`: a fresh block holding garbage. The allocator cannot satisfy
a request above `isize::MAX`, and then the process aborts. -/
def Heap.allocate (h : Heap α) (bytes align : Nat) : Except Fault (Heap α × Nat) :=
  if isizeMax < bytes then .error .oom
  else .ok ((h.add ⟨bytes, align, fun _ => .uninit, true⟩).record [.allocate h.next bytes align],
    h.next)

/-- Releasing the block `r` points at, recording `e id`. Releasing anything but a live block is
undefined. -/
def Heap.release (h : Heap α) (r : Region) (e : Nat → Event α) : Except Fault (Heap α) :=
  match r with
  | .heap id =>
    match h.block id with
    | some b => if b.live then .ok ((h.modify id fun b => { b with live := false }).record [e id])
        else .error .undefined
    | none => .error .undefined
  | _ => .error .undefined

/-- `heap::deallocate(ptr, bytes, align)`. -/
def Heap.deallocate (h : Heap α) (r : Region) (bytes align : Nat) : Except Fault (Heap α) :=
  h.release r fun id => .deallocate id bytes align

/-- `local_heap::local_free(ptr)`: the managed heap's release. -/
def Heap.localFree (h : Heap α) (r : Region) : Except Fault (Heap α) :=
  h.release r .localFree

@[simp] theorem Heap.record_block (h : Heap α) (es : List (Event α)) :
    (h.record es).block = h.block := rfl
@[simp] theorem Heap.record_next (h : Heap α) (es : List (Event α)) :
    (h.record es).next = h.next := rfl
@[simp] theorem Heap.record_log (h : Heap α) (es : List (Event α)) :
    (h.record es).log = h.log ++ es := rfl
@[simp] theorem Heap.modify_block (h : Heap α) (id : Nat) (f : Block α → Block α) (j : Nat) :
    (h.modify id f).block j = if j = id then (h.block j).map f else h.block j := rfl
@[simp] theorem Heap.modify_next (h : Heap α) (id : Nat) (f : Block α → Block α) :
    (h.modify id f).next = h.next := rfl
@[simp] theorem Heap.modify_log (h : Heap α) (id : Nat) (f : Block α → Block α) :
    (h.modify id f).log = h.log := rfl

@[simp] theorem Heap.add_block (h : Heap α) (b : Block α) (j : Nat) :
    (h.add b).block j = if j = h.next then some b else h.block j := rfl
@[simp] theorem Heap.add_next (h : Heap α) (b : Block α) : (h.add b).next = h.next + 1 := rfl
@[simp] theorem Heap.add_log (h : Heap α) (b : Block α) : (h.add b).log = h.log := rfl

/-- A block that exists was handed out before `next`. -/
theorem Heap.lt_next {h : Heap α} {id : Nat} {b : Block α} (hb : h.block id = some b) :
    id < h.next := by
  by_contra hn
  rw [h.fresh id (by omega)] at hb
  cases hb

end Smallvec

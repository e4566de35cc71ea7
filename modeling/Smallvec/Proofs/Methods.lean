import Smallvec.Proofs.Grow

/-!
The trait methods that read and change the elements, each described once, from a state with
the invariant, for a sized `T` and an instance with an inline array (`N ≥ 1`: all seven).

# How the specs are stated

Each method gets one equation for what it returns: `push` into a state with room returns
`pushInto v h x`, the write at slot `len`; a full `push` grows to `2 * cap` first
(`Inv.push_full`); `pop` returns the last slot and `popFrom v h`; `get`, `slice` and the views
return a pointer or a view into the active storage, and a write through one of them is
`assignAt`. Each result state has one lemma for its storage and one for its invariant. The
lemmas on `abs` at the top turn a storage equation into the list operation it is (`set`,
`++ [x]`, `dropLast`, `drop` and `take`), so the refinement proof (Proofs/Refinement.lean)
cites these and unfolds no method. `Inv.push_spec` gathers what a push does, growth included,
into `Pushed`, which the loops of `clone` and `push_all_move` cite.

# The frame

`Framed` says what an operation may do around the container: blocks that existed and were not
its storage stay as they were, its storage afterwards is its old one, the inline array or a
fresh block, and no other block it allocated or owned is left live (`LiveAfter`). Every
operation keeps it (Proofs/Refinement.lean), which is what lets two containers share a heap
(Proofs/Independence.lean) and what makes `Drop` the end of every buffer (Proofs/Drop.lean).

# The inline array

The container's drop glue runs `T`'s destructor on all `N` inline slots, elements or not.
`InlineClean` says no inline slot outside the elements holds a value; `grow` zeroes the inline
elements it moves out, `pop` leaves garbage but no value, and each method keeps it
(`InlineClean.write`, `InlineClean.grow`). Proofs/Values.lean builds the account of values on it.

# Words

The bodies compute `len + 1`, `cap * 2` and `len - 1` on words. For a sized `T` the invariant's
`cap * size_of::<T>() ≤ isize::MAX` keeps all three below `2^63`, so each `wrapping` is
discharged from it; a full push whose doubled request is above `isize::MAX` aborts
(`push_oom`).
-/

namespace Smallvec

variable {α : Type} {N : Nat} {t : Layout} {v v' : SmallVector N α} {h h' : Heap α}

open SmallVecPrivate SmallVec

-- ===================================================== the elements, one by one

@[simp] theorem length_abs : (abs v h).length = v.len := by simp [abs]

theorem getElem?_abs {i : Nat} (hi : i < v.len) : (abs v h)[i]? = some (storage v h i) := by
  simp [abs, hi]

/-- A state whose elements are `l` holds `l[i]` in slot `i`. -/
theorem storage_of_abs {l : List α} (habs : abs v h = l.map .live) {i : Nat}
    (hi : i < l.length) : storage v h i = .live l[i] := by
  have hlen : v.len = l.length := by simpa using congrArg List.length habs
  have := getElem?_abs (h := h) (hlen ▸ hi)
  rw [habs, List.getElem?_map, List.getElem?_eq_getElem hi] at this
  exact (Option.some.inj this).symm

/-- One slot rewritten is one element set. -/
theorem abs_set {i : Nat} {x : Slot α} (hl : v'.len = v.len)
    (hst : storage v' h' = Function.update (storage v h) i x) :
    abs v' h' = (abs v h).set i x := by
  apply List.ext_getElem (by simp [abs, hl])
  intro n _ _
  simp [abs, hst, Function.update_apply, List.getElem_set, eq_comm]

/-- A slot written at `len`, and `len` one more, is one element appended. -/
theorem abs_push {x : Slot α} (hl : v'.len = v.len + 1)
    (hst : storage v' h' = Function.update (storage v h) v.len x) :
    abs v' h' = abs v h ++ [x] := by
  simp only [abs, hl, List.range_succ, List.map_append, List.map_singleton, hst,
    Function.update_same]
  congr 1
  exact List.map_congr_left fun i hi => Function.update_noteq (List.mem_range.mp hi).ne _ _

/-- `len` one less, the slots below it kept, is the last element dropped. -/
theorem abs_pop (hl : v'.len = v.len - 1)
    (hst : ∀ i < v.len - 1, storage v' h' i = storage v h i) :
    abs v' h' = (abs v h).dropLast := by
  rw [List.dropLast_eq_take, length_abs, abs, abs, ← List.map_take, List.take_range,
    Nat.min_eq_left (Nat.sub_le _ _), hl]
  exact List.map_congr_left fun i hi => hst i (List.mem_range.mp hi)

/-- The elements `[start, stop)` are the slots `start, start + 1, ..`. -/
theorem abs_drop_take {start stop : Nat} (hs : stop ≤ v.len) :
    ((abs v h).drop start).take (stop - start)
      = (List.range (stop - start)).map fun j => storage v h (start + j) := by
  apply List.ext_getElem?
  intro n
  by_cases hn : n < stop - start
  · simp [List.getElem?_take, hn, getElem?_abs (show start + n < v.len by omega)]
  · have : (List.range (stop - start))[n]? = none :=
      List.getElem?_eq_none_iff.mpr (by simp only [List.length_range]; omega)
    simp [List.getElem?_take, hn, this]

-- ==================================================================== the inline array

/-- No slot of the inline array holds a value that is not an element: none does while the
container is spilled, and none from `len` on while it is inline. The container's drop glue runs
`T`'s destructor on all `N` inline slots, so a value left there would be destroyed again. -/
def InlineClean (v : SmallVector N α) : Prop :=
  ∀ i < N, (N < v.cap ∨ v.len ≤ i) → (v.data i).isLive = false

theorem inlineClean_new : InlineClean (SmallVector.new : SmallVector N α) := fun _ _ _ => rfl

/-- With the invariant, the active storage is the inline array exactly while not spilled. -/
theorem Inv.activeRegion_eq_inline (hI : Inv t v h) : activeRegion v = .inline ↔ ¬N < v.cap := by
  refine ⟨fun ha hs => ?_, fun hs => by simp [activeRegion, hs]⟩
  obtain ⟨id, -, ha', -⟩ := hI.active_spilled hs
  rw [ha] at ha'; cases ha'

/-- Writing `x` to slot `i` of the active storage and leaving length `n` keeps the inline array
clean, when `x` is no value if `i` is at or past `n`, and every other slot at or past `n` was at
or past `len`. -/
theorem InlineClean.write (hC : InlineClean v) (hI : Inv t v h) {v' : SmallVector N α}
    {i n : Nat} {x : Slot α} (hcap : v'.cap = v.cap) (hlen : v'.len = n)
    (hdata : v'.data = if activeRegion v = .inline then Function.update v.data i x else v.data)
    (hx : n ≤ i → x.isLive = false) (hn : ∀ j, n ≤ j → j ≠ i → v.len ≤ j) : InlineClean v' := by
  intro j hj hc
  rw [hcap, hlen] at hc
  rw [hdata]
  split_ifs with ha
  · have hnj : n ≤ j := hc.resolve_left (hI.activeRegion_eq_inline.mp ha)
    by_cases hji : j = i
    · subst hji; simpa using hx hnj
    · rw [Function.update_noteq hji]; exact hC j hj (.inr (hn j hnj hji))
  · exact hC j hj (.inl (by by_contra hs; exact ha (hI.activeRegion_eq_inline.mpr hs)))

/-- After `grow` no inline slot holds a value: leaving the inline array, it zeroes the elements. -/
theorem InlineClean.grow (hC : InlineClean v) {v' : SmallVector N α}
    (hdata : v'.data = if N < v.cap then v.data else writeRange v.data 0 v.len fun _ => .zeroed) :
    InlineClean v' := fun j hj _ => by
  rw [hdata]
  split_ifs with hs
  · exact hC j hj (.inl hs)
  · by_cases hjl : j < v.len
    · simp [writeRange, hjl, Slot.isLive]
    · simpa [writeRange, hjl] using hC j hj (.inr (by omega))

-- ================================================================ push

/-- The state `push(x)` leaves where there is room: `x` in slot `len` of the active storage,
and `len` one more. -/
def pushInto (v : SmallVector N α) (h : Heap α) (x : Slot α) : SmallVector N α × Heap α :=
  let w := modifySlots v h (activeRegion v) fun s => Function.update s v.len x
  (setLen w.1 (v.len + 1), w.2)

@[simp] theorem pushInto_len (x : Slot α) : (pushInto v h x).1.len = v.len + 1 := rfl
@[simp] theorem pushInto_cap (x : Slot α) : (pushInto v h x).1.cap = v.cap := by simp [pushInto]
@[simp] theorem pushInto_log (x : Slot α) : (pushInto v h x).2.log = h.log := by simp [pushInto]

theorem InlineClean.pushInto (hC : InlineClean v) (hI : Inv t v h) (x : Slot α) :
    InlineClean (pushInto v h x).1 :=
  hC.write hI (pushInto_cap x) (pushInto_len x) (i := v.len) (x := x)
    (by simp [Smallvec.pushInto])
    (fun hle => absurd hle (by omega)) fun _ hj _ => by omega

/-- For a sized `T` neither `len + 1` nor `cap * 2` wraps. -/
theorem Inv.words (hI : Inv t v h) (hs : 0 < t.size) :
    v.len + 1 < uintSize ∧ v.cap * 2 < uintSize := by
  have := hI.cap_le hs
  have := hI.len_le_cap
  unfold isizeMax at *; unfold uintSize; omega

/-- The doubled request is a word: `cap * size_of::<T>()` is at most `isize::MAX`. -/
theorem Inv.request_lt (hI : Inv t v h) : t.size * (2 * v.cap) < uintSize := by
  have := hI.fits; unfold isizeMax at this; unfold uintSize
  rw [Nat.mul_left_comm, Nat.mul_comm t.size]; omega

/-- The capacity `push` asks `grow` for, `max(cap * 2, 1)`, is `2 * cap`. -/
theorem Inv.push_newCap (hI : Inv t v h) (hs : 0 < t.size) (hN : 0 < N) :
    max (wrapping (v.cap * 2)) 1 = 2 * v.cap := by
  have := hI.inline_le_cap; rw [wrapping_of_lt (hI.words hs).2]; omega

/-- `push`'s write at `end()`, into a state with room. -/
theorem Inv.write_end (hI : Inv t v h) (hs : 0 < t.size) (hN : 0 < N) (hroom : v.len < v.cap)
    (x : Slot α) :
    (do let e ← «end» v; let w ← store t v h e x; pure (setLen w.1 (wrapping (w.1.len + 1)), w.2))
      = .ok (pushInto v h x) := by
  simp only [«end», hI.begin_eq (.inl hN), ok_bind, Ptr.offset, Nat.zero_add,
    hI.store_active hroom, modifySlots_len, wrapping_of_lt (hI.words hs).1, pushInto, pure,
    Except.pure]

/-- With room, `push(x)` is the write at `end()`. -/
theorem Inv.push_room (hI : Inv t v h) (hs : 0 < t.size) (hN : 0 < N) (hroom : v.len < v.cap)
    (x : Slot α) : push t v x h = .ok (pushInto v h x) := by
  simp only [push, if_neg (Nat.ne_of_lt hroom), pure_bind, hI.write_end hs hN hroom]

/-- Full, `push(x)` grows to `2 * cap`, then writes into the grown state. -/
theorem Inv.push_full (hI : Inv t v h) (hs : 0 < t.size) (hN : 0 < N) (hfull : v.len = v.cap)
    (hfit : t.size * (2 * v.cap) ≤ isizeMax) (x : Slot α) :
    ∃ v1 h1, grow t v (2 * v.cap) h = .ok (v1, h1) ∧ Grown t v h (2 * v.cap) v1 h1 ∧
      push t v x h = .ok (pushInto v1 h1 x) := by
  have hcap := hI.inline_le_cap
  obtain ⟨v1, h1, hg, hG⟩ := hI.grow_spec (by omega) (by omega) hfit (.inl hN)
  refine ⟨v1, h1, hg, hG, ?_⟩
  simp only [push, if_pos hfull, hI.push_newCap hs hN, hg, ok_bind]
  exact hG.inv.write_end hs hN (by rw [hG.len_eq, hG.cap_eq]; omega) x

/-- Full, with the doubled request above `isize::MAX`, `push` aborts. -/
theorem Inv.push_oom (hI : Inv t v h) (hs : 0 < t.size) (hN : 0 < N) (hfull : v.len = v.cap)
    (hbig : isizeMax < t.size * (2 * v.cap)) (x : Slot α) : push t v x h = .error .oom := by
  simp only [push, if_pos hfull, hI.push_newCap hs hN, grow_oom hbig hI.request_lt, error_bind]

/-- Full, `push(x)` is `grow(2 * cap)` followed by the write into the grown state, whether the
growth returns or aborts: `grow` is called exactly by the pushes that find `len = cap`. -/
theorem Inv.push_full_eq (hI : Inv t v h) (hs : 0 < t.size) (hN : 0 < N) (hfull : v.len = v.cap)
    (x : Slot α) :
    push t v x h = (do let (v1, h1) ← grow t v (2 * v.cap) h; pure (pushInto v1 h1 x)) := by
  by_cases hfit : t.size * (2 * v.cap) ≤ isizeMax
  · obtain ⟨v1, h1, hg, -, hp⟩ := hI.push_full hs hN hfull hfit x
    rw [hp, hg]; rfl
  · rw [hI.push_oom hs hN hfull (by omega) x, grow_oom (by omega) hI.request_lt]; rfl

theorem Inv.storage_pushInto (hI : Inv t v h) (x : Slot α) :
    storage (pushInto v h x).1 (pushInto v h x).2 = Function.update (storage v h) v.len x := by
  simp only [pushInto, storage_setLen, hI.storage_modifySlots]

/-- Writing a value at `len` with room keeps the invariant. -/
theorem Inv.pushInto_inv (hI : Inv t v h) (hroom : v.len < v.cap) {x : Slot α}
    (hx : x.isLive = true) : Inv t (pushInto v h x).1 (pushInto v h x).2 := by
  have hI' := hI.modifySlots (fun s => Function.update s v.len x) fun i hi => by
    simpa [Function.update_noteq (Nat.ne_of_lt hi)] using hI.init i hi
  refine hI'.withLen (by simpa using hroom) fun i hi => ?_
  rw [hI.storage_modifySlots]
  by_cases hin : i = v.len
  · subst hin; simpa using hx
  · simpa [Function.update_noteq hin] using hI.init i (by omega)

@[simp] theorem activeRegion_pushInto (x : Slot α) :
    activeRegion (pushInto v h x).1 = activeRegion v := by
  simp [pushInto, activeRegion]

@[simp] theorem pushInto_next (x : Slot α) : (pushInto v h x).2.next = h.next := by
  simp [pushInto]

theorem pushInto_block {id : Nat} (hne : activeRegion v ≠ .heap id) (x : Slot α) :
    (pushInto v h x).2.block id = h.block id :=
  modifySlots_block_ne hne _

/-- Every block live in `h'` is the active storage of `v'`, or existed in `h` and was not the
active storage of `v`: a step leaves no other block live. -/
def LiveAfter (v : SmallVector N α) (h : Heap α) (v' : SmallVector N α) (h' : Heap α) : Prop :=
  ∀ id b, h'.block id = some b → b.live = true →
    activeRegion v' = .heap id ∨ id < h.next ∧ activeRegion v ≠ .heap id

/-- A step that keeps the active storage where it is and allocates nothing. -/
theorem liveAfter_of_active (hreg : activeRegion v' = activeRegion v) (hnext : h'.next = h.next) :
    LiveAfter v h v' h' := fun id _ hb _ => by
  by_cases ha : activeRegion v = .heap id
  · exact .inl (hreg.trans ha)
  · exact .inr ⟨hnext ▸ Heap.lt_next hb, ha⟩

/-- What a `push(x)` that returns leaves: the invariant, `x` after the elements, the capacity of
the growth policy, and storage of its own: every block it did not own is as it was, its active
storage is its old one or a block allocated during the push, and no other block it allocated or
owned is left live. -/
structure Pushed (t : Layout) (v : SmallVector N α) (h : Heap α) (x : Slot α)
    (v' : SmallVector N α) (h' : Heap α) : Prop where
  inv : Inv t v' h'
  abs_eq : abs v' h' = abs v h ++ [x]
  cap_eq : v'.cap = if v.len = v.cap then 2 * v.cap else v.cap
  frame : ∀ id < h.next, activeRegion v ≠ .heap id → h'.block id = h.block id
  fresh : activeRegion v' = activeRegion v ∨ ∃ id, activeRegion v' = .heap id ∧ h.next ≤ id
  next_le : h.next ≤ h'.next
  live : LiveAfter v h v' h'
  log : Appends h h' []
  clean : InlineClean v → InlineClean v'

/-- `push(x)` of a live `x`: it returns, or a full container's doubled request is above
`isize::MAX` and it aborts. -/
theorem Inv.push_spec (hI : Inv t v h) (hs : 0 < t.size) (hN : 0 < N) {x : Slot α}
    (hx : x.isLive = true) :
    (v.len = v.cap ∧ isizeMax < t.size * (2 * v.cap) ∧ push t v x h = .error .oom) ∨
      ∃ v' h', push t v x h = .ok (v', h') ∧ Pushed t v h x v' h' := by
  have hcap := hI.inline_le_cap
  by_cases hfull : v.len = v.cap
  · by_cases hfit : t.size * (2 * v.cap) ≤ isizeMax
    · obtain ⟨v1, h1, hg, hG, hp⟩ := hI.push_full hs hN hfull hfit x
      obtain ⟨hdata, hlog⟩ := hI.grow_effects (by omega) hfit (.inl hN) hg
      have hroom : v1.len < v1.cap := by rw [hG.len_eq, hG.cap_eq]; omega
      have hv1 : activeRegion v1 = .heap h.next := by
        simp [activeRegion, hG.cap_eq, hG.ptr_eq, show N < 2 * v.cap by omega]
      refine .inr ⟨(pushInto v1 h1 x).1, (pushInto v1 h1 x).2, hp, hG.inv.pushInto_inv hroom hx,
        ?_, by simp [hfull, hG.cap_eq],
        fun id hid hne => ?_, .inr ⟨h.next, by simpa using hv1, le_refl _⟩,
        by simp [hG.next_eq], fun id b hb hl => ?_, hlog.trans (appends_of_log_eq (pushInto_log x)),
        fun hC => (hC.grow hdata).pushInto hG.inv x⟩
      · rw [abs_push (by simp) (hG.inv.storage_pushInto _),
          abs_eq_of_storage hG.len_eq hG.storage_eq]
      · rw [pushInto_block (by rw [hv1]; intro e; cases e; omega), hG.frame id hid hne]
      · -- the new block is the storage; the old one was released
        by_cases hid : id = h.next
        · exact .inl (by simp [hv1, hid])
        rw [pushInto_block (by rw [hv1]; intro e; cases e; exact hid rfl)] at hb
        have hlt : id < h.next := by have := Heap.lt_next hb; rw [hG.next_eq] at this; omega
        refine .inr ⟨hlt, fun ha => ?_⟩
        obtain ⟨b', hb', hl'⟩ := hG.released_active ha
        rw [hb] at hb'; cases hb'; simp [hl] at hl'
    · exact .inl ⟨hfull, by omega, hI.push_oom hs hN hfull (by omega) x⟩
  · have hroom := lt_of_le_of_ne hI.len_le_cap hfull
    exact .inr ⟨(pushInto v h x).1, (pushInto v h x).2, hI.push_room hs hN hroom x,
      hI.pushInto_inv hroom hx,
      abs_push (by simp) (hI.storage_pushInto _), by simp [hfull],
      fun id _ hne => pushInto_block hne x, .inl (by simp), by simp,
      liveAfter_of_active (by simp) (by simp), appends_of_log_eq (pushInto_log x),
      fun hC => hC.pushInto hI x⟩

-- ================================================================= pop

/-- The state `pop()` leaves: the last slot swapped for `mem::uninitialized()`, and `len` one
less. -/
def popFrom (v : SmallVector N α) (h : Heap α) : SmallVector N α × Heap α :=
  let w := modifySlots v h (activeRegion v) fun s => Function.update s (v.len - 1) .uninit
  (setLen w.1 (v.len - 1), w.2)

@[simp] theorem popFrom_len : (popFrom v h).1.len = v.len - 1 := rfl
@[simp] theorem popFrom_cap : (popFrom v h).1.cap = v.cap := by simp [popFrom]
@[simp] theorem popFrom_log : (popFrom v h).2.log = h.log := by simp [popFrom]

/-- Inline, the slot `pop` leaves garbage is the new `len`: garbage, but no value. -/
theorem InlineClean.popFrom (hC : InlineClean v) (hI : Inv t v h) (hl : 0 < v.len) :
    InlineClean (popFrom v h).1 :=
  hC.write hI popFrom_cap popFrom_len (i := v.len - 1) (x := .uninit)
    (by simp [Smallvec.popFrom])
    (fun _ => rfl) fun _ hj hji => by omega

/-- Empty, `pop()` returns `None` and changes nothing. -/
theorem pop_empty (hl : v.len = 0) : pop t v h = .ok (none, v, h) := by
  simp only [pop, if_pos hl]; rfl

/-- Nonempty, `pop()` hands out the last slot. -/
theorem Inv.pop_eq (hI : Inv t v h) (hs : 0 < t.size) (hl : 0 < v.len) :
    pop t v h = .ok (some (storage v h (v.len - 1)), popFrom v h) := by
  have hlc := hI.len_le_cap
  have hcap := hI.cap_le hs
  have hlast : v.len - 1 < v.cap := by omega
  have hneg : negativeAsInt (v.len - 1) = false := by
    unfold negativeAsInt isizeMax at *; simp only [decide_eq_false_iff_not]; omega
  simp only [pop, if_neg (Nat.pos_iff_ne_zero.mp hl),
    wrappingSub_one hl (by have := (hI.words hs).1; omega),
    hneg, Bool.false_eq_true, if_false, pure_bind, hI.begin_eq_of_pos hl, ok_bind, Ptr.offset,
    Nat.zero_add, replace, hI.load_active hlast, hI.store_active hlast, popFrom, pure,
    Except.pure]

/-- A length above `2^63` makes `last_index as int` negative: `pop` fails. -/
theorem pop_overflow (hl : 2 ^ 63 < v.len) (hw : v.len < uintSize) :
    pop t v h = .error (.fail "overflow") := by
  have hneg : negativeAsInt (v.len - 1) = true := by
    unfold negativeAsInt; simp only [decide_eq_true_eq]; omega
  simp only [pop, if_neg (show v.len ≠ 0 by omega), wrappingSub_one (by omega) hw, hneg, if_true,
    pure_bind]
  rfl

theorem Inv.storage_popFrom (hI : Inv t v h) :
    storage (popFrom v h).1 (popFrom v h).2
      = Function.update (storage v h) (v.len - 1) .uninit := by
  simp only [popFrom, storage_setLen, hI.storage_modifySlots]

/-- `pop()` keeps the invariant: the slot it leaves garbage is past the new `len`. -/
theorem Inv.popFrom_inv (hI : Inv t v h) : Inv t (popFrom v h).1 (popFrom v h).2 := by
  have hI1 := hI.withLen (n := v.len - 1) (by have := hI.len_le_cap; omega)
    fun i hi => hI.init i (by omega)
  have := hI1.modifySlots (fun s => Function.update s (v.len - 1) .uninit) fun i hi => by
    simp only [setLen_len] at hi
    simpa [Function.update_noteq (Nat.ne_of_lt hi)] using hI.init i (by omega)
  simpa [popFrom, modifySlots_setLen] using this


-- ============================================================ references and views

/-- `get(index)` and `get_mut(index)`: slot `index` of the active storage, or the bounds-check
failure. -/
theorem Inv.get_eq (hI : Inv t v h) (index : Nat) :
    get v index = if index < v.len then .ok ⟨activeRegion v, index⟩
      else .error (failBoundsCheck v index) := by
  by_cases hi : index < v.len
  · simp [SmallVec.get, Nat.not_le.mpr hi, hi, hI.begin_eq_of_pos (by omega), Ptr.offset]
  · simp [SmallVec.get, Nat.le_of_not_lt hi, hi]; rfl

/-- `slice(start, end)` and its relatives: the view of `[start, end)` of the active storage, or
the first assertion that fails. -/
theorem Inv.slice_eq (hI : Inv t v h) (hN : 0 < N) (start stop : Nat) :
    SmallVec.slice v start stop =
      if ¬start ≤ stop then .error (.fail "assertion failed: start <= end")
      else if ¬stop ≤ v.len then .error (.fail "assertion failed: end <= self.len()")
      else .ok ⟨⟨activeRegion v, start⟩, stop - start⟩ := by
  unfold SmallVec.slice
  split_ifs <;> simp [hI.begin_eq (.inl hN), Ptr.offset] <;> rfl

/-- `mapM` of a function that returns on every element of the list. -/
theorem mapM_ok {β γ : Type} {f : β → Except Fault γ} {g : β → γ} {l : List β}
    (hf : ∀ a ∈ l, f a = .ok (g a)) : l.mapM f = .ok (l.map g) := by
  induction l with
  | nil => rfl
  | cons a l ih =>
    simp only [List.mapM_cons, hf a (List.mem_cons_self a l),
      ih fun b hb => hf b (List.mem_cons_of_mem a hb), List.map_cons]
    rfl

/-- Reading a view of the active storage that lies inside the capacity. -/
theorem Inv.readSlice_active (hI : Inv t v h) {start n : Nat} (hk : start + n ≤ v.cap) :
    readSlice t v h ⟨⟨activeRegion v, start⟩, n⟩
      = .ok ((List.range n).map fun j => storage v h (start + j)) :=
  mapM_ok fun j hj => by
    have hj : j < n := List.mem_range.mp hj
    simp [Slice.index, hj, Ptr.offset, hI.load_active (show start + j < v.cap by omega)]

/-- The state `*p = x` leaves, for `p` slot `i` of the active storage: the old value's drop glue
run, and `x` in its place. -/
def assignAt (v : SmallVector N α) (h : Heap α) (i : Nat) (x : Slot α) :
    SmallVector N α × Heap α :=
  let w := modifySlots v h (activeRegion v) fun s => Function.update s i x
  (w.1, w.2.record (storage v h i).dropGlue)

@[simp] theorem assignAt_len (i : Nat) (x : Slot α) : (assignAt v h i x).1.len = v.len := by
  simp [assignAt]
@[simp] theorem assignAt_cap (i : Nat) (x : Slot α) : (assignAt v h i x).1.cap = v.cap := by
  simp [assignAt]

/-- An assignment runs the old value's drop glue, and nothing else. -/
theorem appends_assignAt (i : Nat) (x : Slot α) :
    Appends h (assignAt v h i x).2 (storage v h i).dropGlue := by
  have hlog : (assignAt v h i x).2.log = h.log ++ (storage v h i).dropGlue := by simp [assignAt]
  simpa using appends_of_log hlog

theorem InlineClean.assignAt (hC : InlineClean v) (hI : Inv t v h) {i : Nat} (hi : i < v.len)
    (x : Slot α) : InlineClean (assignAt v h i x).1 :=
  hC.write hI (assignAt_cap i x) (assignAt_len i x) (i := i) (x := x)
    (by simp [Smallvec.assignAt]) (fun hle => absurd hle (by omega)) fun _ hj _ => hj

/-- Assigning through a pointer into the active storage. -/
theorem Inv.assign_active (hI : Inv t v h) {i : Nat} (hi : i < v.cap) (x : Slot α) :
    assign t v h ⟨activeRegion v, i⟩ x = .ok (assignAt v h i x) := by
  simp [assign, replace, hI.load_active hi, hI.store_active hi, assignAt]

theorem Inv.storage_assignAt (hI : Inv t v h) (i : Nat) (x : Slot α) :
    storage (assignAt v h i x).1 (assignAt v h i x).2 = Function.update (storage v h) i x := by
  simp only [assignAt, storage_record, hI.storage_modifySlots]

/-- Assigning a value to an element keeps the invariant. -/
theorem Inv.assignAt_inv (hI : Inv t v h) {i : Nat} {x : Slot α} (hx : x.isLive = true) :
    Inv t (assignAt v h i x).1 (assignAt v h i x).2 := by
  refine (hI.modifySlots (fun s => Function.update s i x) fun j hj => ?_).record _
  by_cases hji : j = i
  · subst hji; simpa using hx
  · simpa [Function.update_noteq hji] using hI.init j hj

/-- Assigning through `view[j]`: the language's bounds check, then the assignment. -/
theorem assignSlice_eq (s : Slice) (j : Nat) (x : α) :
    assignSlice t v h s j x
      = if j < s.len then assign t v h (s.data.offset j) (.live x)
        else .error (indexOutOfBounds s.len j) := by
  unfold assignSlice Slice.index; split <;> rfl

-- ================================================================= the frame

/-- What an operation may do around the container: a block that existed and was not its active
storage is as it was, its active storage afterwards is its old one, the inline array, or a
block allocated since, and no other block it allocated or owned is left live. -/
structure Framed (v : SmallVector N α) (h : Heap α) (v' : SmallVector N α) (h' : Heap α) :
    Prop where
  keep : ∀ id < h.next, activeRegion v ≠ .heap id → h'.block id = h.block id
  fresh : activeRegion v' = activeRegion v ∨ activeRegion v' = .inline ∨
    ∃ id, activeRegion v' = .heap id ∧ h.next ≤ id
  live : LiveAfter v h v' h'

/-- A step that keeps the active storage where it is, writes only there and allocates
nothing. -/
theorem framed_of_active (hreg : activeRegion v' = activeRegion v) (hnext : h'.next = h.next)
    (hkeep : ∀ id, activeRegion v ≠ .heap id → h'.block id = h.block id) : Framed v h v' h' :=
  ⟨fun id _ hne => hkeep id hne, .inl hreg, liveAfter_of_active hreg hnext⟩

theorem framed_refl : Framed v h v h := framed_of_active rfl rfl fun _ _ => rfl

theorem Pushed.framed {x : Slot α} (hP : Pushed t v h x v' h') : Framed v h v' h' :=
  ⟨hP.frame, hP.fresh.imp_right .inr, hP.live⟩

theorem framed_assignAt (i : Nat) (x : Slot α) :
    Framed v h (assignAt v h i x).1 (assignAt v h i x).2 :=
  framed_of_active (by simp [assignAt]) (by simp [assignAt]) fun _ hne => by
    simp [assignAt, modifySlots_block_ne hne]

theorem framed_popFrom : Framed v h (popFrom v h).1 (popFrom v h).2 :=
  framed_of_active (by simp [popFrom]) (by simp [popFrom]) fun _ hne => by
    simp [popFrom, modifySlots_block_ne hne]

end Smallvec

import Smallvec.Machine

/-!
The abstraction function and the representation invariant, and what the memory primitives do
to them.

# The abstraction

`storage v h` is the active storage's slots: the spill buffer's when `cap > N`, the inline
array's otherwise, which is the choice `begin()` makes. `abs v h` is its first `len` slots:
the elements, as the caller sees them through `as_slice()`.

# The invariant (design of record)

`Inv` is the spec's data model (§3) made exact:

- `N ≤ cap` and `len ≤ cap`;
- `cap * size_of::<T>() ≤ isize::MAX`: the inline array fits the address space, and a larger
  buffer could only come from an allocation above `isize::MAX`, which aborts;
- when spilled, `ptr` is the start of a live heap block of exactly `cap` elements (its bytes
  and alignment as `grow` requested them);
- the slots `[0, len)` of the active storage are live values.

Every operation is checked against it in three steps: what `begin()` returns (`Inv.begin_eq`),
that a pointer into the first `cap` slots of the active storage is valid
(`Inv.validRange_active`), and what a write through it does (`storage_modifySlots`). Method
specs (Proofs/Methods.lean) are assembled from these and never unfold the primitives.

# The ledger

`Appends h h' ds`: the ledger of `h'` is that of `h` with entries appended, and the destructor
runs among them are `ds`. Steps compose by `Appends.trans`; an allocator call adds no destructor
run (`Appends.push_quiet`).
-/

namespace Smallvec

variable {α : Type} {N : Nat} (t : Layout)

open SmallVecPrivate SmallVec

-- ============================================================ the abstraction

/-- The region `begin()` points into: the spill buffer when spilled, else the inline array. -/
def activeRegion (v : SmallVector N α) : Region := if N < v.cap then v.ptr.region else .inline

/-- The slots of the active storage. -/
def storage (v : SmallVector N α) (h : Heap α) : Nat → Slot α := regionSlots v h (activeRegion v)

/-- `abs(v)`: the `len` values in the slots `[0, len)` of the active storage. -/
def abs (v : SmallVector N α) (h : Heap α) : List (Slot α) :=
  (List.range v.len).map (storage v h)

/-- The representation invariant. -/
structure Inv (v : SmallVector N α) (h : Heap α) : Prop where
  inline_le_cap : N ≤ v.cap
  len_le_cap : v.len ≤ v.cap
  fits : v.cap * t.size ≤ isizeMax
  spill : N < v.cap → ∃ id b, v.ptr = ⟨.heap id, 0⟩ ∧ h.block id = some b ∧ b.live = true ∧
    b.bytes = v.cap * t.size ∧ b.align = t.align
  init : ∀ i < v.len, (storage v h i).isLive = true

-- ======================================================= field bookkeeping

variable {t} {v : SmallVector N α} {h : Heap α}

@[simp] theorem spilled_eq (v : SmallVector N α) : spilled v = decide (N < v.cap) := rfl
@[simp] theorem inlineSize_eq (v : SmallVector N α) : inlineSize v = N := rfl

@[simp] theorem setLen_len (v : SmallVector N α) (n : Nat) : (setLen v n).len = n := rfl
@[simp] theorem setLen_cap (v : SmallVector N α) (n : Nat) : (setLen v n).cap = v.cap := rfl
@[simp] theorem setLen_ptr (v : SmallVector N α) (n : Nat) : (setLen v n).ptr = v.ptr := rfl
@[simp] theorem setLen_data (v : SmallVector N α) (n : Nat) : (setLen v n).data = v.data := rfl
@[simp] theorem setCap_len (v : SmallVector N α) (n : Nat) : (setCap v n).len = v.len := rfl
@[simp] theorem setCap_cap (v : SmallVector N α) (n : Nat) : (setCap v n).cap = n := rfl
@[simp] theorem setCap_ptr (v : SmallVector N α) (n : Nat) : (setCap v n).ptr = v.ptr := rfl
@[simp] theorem setCap_data (v : SmallVector N α) (n : Nat) : (setCap v n).data = v.data := rfl
@[simp] theorem setPtr_len (v : SmallVector N α) (p : Ptr) : (setPtr v p).len = v.len := rfl
@[simp] theorem setPtr_cap (v : SmallVector N α) (p : Ptr) : (setPtr v p).cap = v.cap := rfl
@[simp] theorem setPtr_ptr (v : SmallVector N α) (p : Ptr) : (setPtr v p).ptr = p := rfl
@[simp] theorem setPtr_data (v : SmallVector N α) (p : Ptr) : (setPtr v p).data = v.data := rfl

@[simp] theorem modifySlots_len (r : Region) (f : (Nat → Slot α) → Nat → Slot α) :
    (modifySlots v h r f).1.len = v.len := by cases r <;> rfl
@[simp] theorem modifySlots_cap (r : Region) (f : (Nat → Slot α) → Nat → Slot α) :
    (modifySlots v h r f).1.cap = v.cap := by cases r <;> rfl
@[simp] theorem modifySlots_ptr (r : Region) (f : (Nat → Slot α) → Nat → Slot α) :
    (modifySlots v h r f).1.ptr = v.ptr := by cases r <;> rfl
@[simp] theorem modifySlots_next (r : Region) (f : (Nat → Slot α) → Nat → Slot α) :
    (modifySlots v h r f).2.next = h.next := by cases r <;> rfl
@[simp] theorem modifySlots_log (r : Region) (f : (Nat → Slot α) → Nat → Slot α) :
    (modifySlots v h r f).2.log = h.log := by cases r <;> rfl

/-- A write into a region leaves the other heap blocks alone, and of its own block only the
slots change. -/
theorem modifySlots_block (r : Region) (f : (Nat → Slot α) → Nat → Slot α) (j : Nat) :
    (modifySlots v h r f).2.block j
      = (h.block j).map fun b => if r = .heap j then { b with slots := f b.slots } else b := by
  cases r with
  | heap id =>
    by_cases hj : j = id
    · subst hj; simp [modifySlots]
    · cases hb : h.block j <;> simp [modifySlots, hj, hb, Ne.symm hj]
  | inline | null => cases hb : h.block j <;> simp [modifySlots, hb]

@[simp] theorem activeRegion_modifySlots (r : Region) (f : (Nat → Slot α) → Nat → Slot α) :
    activeRegion (modifySlots v h r f).1 = activeRegion v := by
  simp [activeRegion]

/-- Only a write into the inline array changes it. -/
@[simp] theorem modifySlots_data (r : Region) (f : (Nat → Slot α) → Nat → Slot α) :
    (modifySlots v h r f).1.data = if r = .inline then f v.data else v.data := by
  cases r <;> simp [modifySlots]

@[simp] theorem writeRange_zero (s f : Nat → Slot α) (start : Nat) :
    writeRange s start 0 f = s := by
  funext i; simp only [writeRange]; split_ifs <;> first | rfl | omega

/-- Writing `y` to slot `i` and then to the `n` slots after it writes it to `n + 1` slots. -/
theorem writeRange_update (s : Nat → Slot α) (i n : Nat) (y : Slot α) :
    writeRange (Function.update s i y) (i + 1) n (fun _ => y)
      = writeRange s i (n + 1) fun _ => y := by
  funext j; simp only [writeRange, Function.update_apply]; split_ifs <;> first | rfl | omega

@[simp] theorem storage_record (es : List (Event α)) : storage v (h.record es) = storage v h := rfl
@[simp] theorem storage_setLen (n : Nat) : storage (setLen v n) h = storage v h := rfl
@[simp] theorem activeRegion_setLen (n : Nat) : activeRegion (setLen v n) = activeRegion v := rfl

@[simp] theorem modifySlots_heap (id : Nat) (f : (Nat → Slot α) → Nat → Slot α) :
    modifySlots v h (.heap id) f = (v, h.modify id fun b => { b with slots := f b.slots }) := rfl
@[simp] theorem modifySlots_inline (f : (Nat → Slot α) → Nat → Slot α) :
    modifySlots v h .inline f = ({ v with data := f v.data }, h) := rfl

/-- A write into a region leaves every other block as it was. -/
theorem modifySlots_block_ne {r : Region} {id : Nat} (hr : r ≠ .heap id)
    (f : (Nat → Slot α) → Nat → Slot α) : (modifySlots v h r f).2.block id = h.block id := by
  rw [modifySlots_block]
  cases h.block id <;> simp [hr]

/-- A write into a region and a new length commute. -/
theorem modifySlots_setLen (n : Nat) (r : Region) (f : (Nat → Slot α) → Nat → Slot α) :
    modifySlots (setLen v n) h r f
      = (setLen (modifySlots v h r f).1 n, (modifySlots v h r f).2) := by
  cases r <;> rfl

-- ========================================================= the primitives

/-- Allocation, when the request fits the address space. -/
theorem Heap.allocate_ok {bytes : Nat} (hb : bytes ≤ isizeMax) (align : Nat) :
    h.allocate bytes align = .ok ((h.add ⟨bytes, align, fun _ => .uninit, true⟩).record
      [.allocate h.next bytes align], h.next) := by
  simp [Heap.allocate, Nat.not_lt.mpr hb]

/-- Allocation, when it does not. -/
theorem Heap.allocate_oom {bytes : Nat} (hb : isizeMax < bytes) (align : Nat) :
    h.allocate bytes align = .error .oom := by
  simp [Heap.allocate, hb]

/-- Releasing a live block. -/
theorem Heap.release_live {id : Nat} {b : Block α} (hb : h.block id = some b)
    (hl : b.live = true) (e : Nat → Event α) :
    h.release (.heap id) e
      = .ok ((h.modify id fun b => { b with live := false }).record [e id]) := by
  simp [Heap.release, hb, hl]

/-- `copy_nonoverlapping_memory` between two valid ranges. -/
theorem copyNonoverlappingMemory_ok {dst src : Ptr} {count : Nat}
    (hd : validRange t v h dst count = true) (hs : validRange t v h src count = true) :
    copyNonoverlappingMemory t v h dst src count = .ok (modifySlots v h dst.region fun s =>
      writeRange s dst.index count fun j => regionSlots v h src.region (src.index + j)) := by
  simp [copyNonoverlappingMemory, hd, hs]

/-- `set_memory` over a valid range. -/
theorem setMemory_ok {p : Ptr} {count : Nat} (hp : validRange t v h p count = true) :
    setMemory t v h p count
      = .ok (modifySlots v h p.region fun s => writeRange s p.index count fun _ => .zeroed) := by
  simp [setMemory, hp]

/-- A write into a region changes no region's extent or liveness. -/
@[simp] theorem regionBytes_modifySlots (r r' : Region) (f : (Nat → Slot α) → Nat → Slot α) :
    regionBytes t (modifySlots v h r f).1 (modifySlots v h r f).2 r' = regionBytes t v h r' := by
  cases r' with
  | heap id =>
    simp only [regionBytes, modifySlots_block]
    cases h.block id <;> simp only [Option.map_none', Option.map_some']
    split <;> rfl
  | inline | null => rfl

@[simp] theorem validRange_modifySlots (r : Region) (f : (Nat → Slot α) → Nat → Slot α)
    (p : Ptr) (k : Nat) :
    validRange t (modifySlots v h r f).1 (modifySlots v h r f).2 p k = validRange t v h p k := by
  simp [validRange]

@[simp] theorem validRange_record (es : List (Event α)) (p : Ptr) (k : Nat) :
    validRange t v (h.record es) p k = validRange t v h p k := rfl

@[simp] theorem regionSlots_record (es : List (Event α)) (r : Region) :
    regionSlots v (h.record es) r = regionSlots v h r := by
  cases r <;> rfl

/-- A region's extent and liveness read only its own block. -/
theorem validRange_congr_heap {h' : Heap α} {p : Ptr}
    (hh : ∀ id, p.region = .heap id → h'.block id = h.block id) (k : Nat) :
    validRange t v h' p k = validRange t v h p k := by
  obtain ⟨r, i⟩ := p
  cases r <;> simp [validRange, regionBytes, hh]

/-- So do its slots. -/
theorem regionSlots_congr_heap {h' : Heap α} {r : Region}
    (hh : ∀ id, r = .heap id → h'.block id = h.block id) :
    regionSlots v h' r = regionSlots v h r := by
  cases r <;> simp [regionSlots, hh]

/-- A region that is valid somewhere exists: the inline array or a live heap block. -/
theorem exists_of_validRange {p : Ptr} {k : Nat} (hv : validRange t v h p k = true) :
    p.region = .inline ∨ ∃ id b, p.region = .heap id ∧ h.block id = some b ∧ b.live = true := by
  rcases hp : p.region with _ | id | _
  · exact .inl rfl
  · simp only [validRange, hp, regionBytes] at hv
    rcases hb : h.block id with _ | b
    · simp [hb] at hv
    · by_cases hl : b.live <;> simp_all
  · simp [validRange, hp, regionBytes] at hv

/-- A write into a valid region is what it reads back. -/
theorem regionSlots_modifySlots {p : Ptr} {k : Nat} (hv : validRange t v h p k = true)
    (f : (Nat → Slot α) → Nat → Slot α) :
    regionSlots (modifySlots v h p.region f).1 (modifySlots v h p.region f).2 p.region
      = f (regionSlots v h p.region) := by
  rcases exists_of_validRange hv with hp | ⟨id, b, hp, hb, -⟩ <;> rw [hp]
  · rfl
  · funext i; simp [regionSlots, hb]

/-- Reading inside live storage. -/
theorem load_of_valid {p : Ptr} (hv : validRange t v h p 1 = true) :
    load t v h p = .ok (regionSlots v h p.region p.index) := by
  simp [load, hv]

/-- `mem::replace` inside live storage. -/
theorem replace_of_valid {p : Ptr} (hv : validRange t v h p 1 = true) (x : Slot α) :
    replace t v h p x = .ok (regionSlots v h p.region p.index,
      modifySlots v h p.region fun s => Function.update s p.index x) := by
  simp [replace, load, store, hv]

-- ================================================================== the ledger

/-- `h'`'s ledger is `h`'s with entries appended, and the destructor runs among them are `ds`. -/
def Appends (h h' : Heap α) (ds : List (Event α)) : Prop :=
  h.log <+: h'.log ∧ h'.log.filter Event.isDestructor = h.log.filter Event.isDestructor ++ ds

theorem appends_of_log {h' : Heap α} {es : List (Event α)} (he : h'.log = h.log ++ es) :
    Appends h h' (es.filter Event.isDestructor) :=
  ⟨he ▸ List.prefix_append _ _, by simp [he, List.filter_append]⟩

theorem appends_of_log_eq {h' : Heap α} (he : h'.log = h.log) : Appends h h' [] := by
  simpa using appends_of_log (show h'.log = h.log ++ [] by simpa using he)

theorem Appends.trans {h' h'' : Heap α} {ds ds' : List (Event α)} (h1 : Appends h h' ds)
    (h2 : Appends h' h'' ds') : Appends h h'' (ds ++ ds') :=
  ⟨h1.1.trans h2.1, by rw [h2.2, h1.2, List.append_assoc]⟩

theorem appends_refl (h : Heap α) : Appends h h [] := appends_of_log_eq rfl

/-- Appending an entry that is no destructor run, such as an allocator call. -/
theorem Appends.push_quiet {h' : Heap α} {ds : List (Event α)} {e : Event α}
    (ha : Appends h h' ds) (h'' : Heap α) (he : h''.log = h'.log ++ [e])
    (hq : e.isDestructor = false) : Appends h h'' ds := by
  simpa [hq] using ha.trans (appends_of_log he)

/-- The entries appended, named. -/
theorem Appends.exists {h' : Heap α} {ds : List (Event α)} (ha : Appends h h' ds) :
    ∃ es, h'.log = h.log ++ es ∧ es.filter Event.isDestructor = ds := by
  obtain ⟨es, hes⟩ := ha.1
  exact ⟨es, hes.symm, by simpa [← hes, List.filter_append] using ha.2⟩

/-- Drop glue is all destructor runs. -/
@[simp] theorem Slot.filter_dropGlue (x : Slot α) :
    x.dropGlue.filter Event.isDestructor = x.dropGlue := by
  cases x <;> rfl

@[simp] theorem filter_flatMap_dropGlue {β : Type} (l : List β) (f : β → Slot α) :
    (l.flatMap fun j => (f j).dropGlue).filter Event.isDestructor
      = l.flatMap fun j => (f j).dropGlue := by
  induction l with
  | nil => rfl
  | cons a l ih => simp [List.flatMap_cons, List.filter_append, ih]

-- ================================================================ the invariant

/-- When spilled, the active region is the spill buffer's heap block. -/
theorem Inv.active_spilled (hI : Inv t v h) (hs : N < v.cap) :
    ∃ id b, activeRegion v = .heap id ∧ v.ptr = ⟨.heap id, 0⟩ ∧ h.block id = some b ∧
      b.live = true ∧ b.bytes = v.cap * t.size ∧ b.align = t.align := by
  obtain ⟨id, b, hp, hb⟩ := hI.spill hs
  exact ⟨id, b, by simp [activeRegion, hs, hp], hp, hb⟩

/-- Inline, the capacity is the inline size. -/
theorem Inv.cap_of_inline (hI : Inv t v h) (hs : ¬N < v.cap) : v.cap = N := by
  have := hI.inline_le_cap
  omega

/-- `begin()` is the start of the active storage, whenever it does not fail. -/
theorem Inv.begin_eq (hI : Inv t v h) (hb : 0 < N ∨ N < v.cap) :
    begin v = .ok ⟨activeRegion v, 0⟩ := by
  by_cases hs : N < v.cap
  · obtain ⟨id, b, ha, hp, -⟩ := hI.active_spilled hs
    simp [begin, hs, ptr, ha, hp]
  · have hN : 0 < N := by omega
    simp [begin, hs, data, hN, activeRegion]

/-- A nonempty container's `begin()` never fails. -/
theorem Inv.begin_eq_of_pos (hI : Inv t v h) (hl : 0 < v.len) :
    begin v = .ok ⟨activeRegion v, 0⟩ :=
  hI.begin_eq (by have := hI.len_le_cap; omega)

/-- The first `cap` elements of the active storage are inside it. -/
theorem Inv.validRange_active (hI : Inv t v h) {i k : Nat} (hk : i + k ≤ v.cap) :
    validRange t v h ⟨activeRegion v, i⟩ k = true := by
  by_cases hs : N < v.cap
  · obtain ⟨id, b, ha, -, hb, hl, hbytes, -⟩ := hI.active_spilled hs
    simp only [validRange, ha, regionBytes, hb, hl, if_true, hbytes, decide_eq_true_eq]
    exact Nat.mul_le_mul_right _ hk
  · simp only [validRange, activeRegion, hs, if_false, regionBytes, decide_eq_true_eq]
    exact Nat.mul_le_mul_right _ (hI.cap_of_inline hs ▸ hk)

/-- Reading the active storage. -/
theorem Inv.load_active (hI : Inv t v h) {i : Nat} (hi : i < v.cap) :
    load t v h ⟨activeRegion v, i⟩ = .ok (storage v h i) := by
  simp [load, hI.validRange_active (show i + 1 ≤ v.cap by omega), storage]

/-- Writing the active storage. -/
theorem Inv.store_active (hI : Inv t v h) {i : Nat} (hi : i < v.cap) (x : Slot α) :
    store t v h ⟨activeRegion v, i⟩ x
      = .ok (modifySlots v h (activeRegion v) fun s => Function.update s i x) := by
  simp [store, hI.validRange_active (show i + 1 ≤ v.cap by omega)]

/-- What a write into the active storage does to it. -/
theorem Inv.storage_modifySlots (hI : Inv t v h) (f : (Nat → Slot α) → Nat → Slot α) :
    storage (modifySlots v h (activeRegion v) f).1 (modifySlots v h (activeRegion v) f).2
      = f (storage v h) := by
  by_cases hs : N < v.cap
  · obtain ⟨id, b, ha, -, hb, -⟩ := hI.active_spilled hs
    funext i
    simp [storage, ha, modifySlots, regionSlots, hb]
  · simp [storage, activeRegion, hs, modifySlots, regionSlots]

/-- A write into the active storage keeps the invariant if it keeps `[0, len)` live. -/
theorem Inv.modifySlots (hI : Inv t v h) (f : (Nat → Slot α) → Nat → Slot α)
    (hf : ∀ i < v.len, (f (storage v h) i).isLive = true) :
    Inv t (modifySlots v h (activeRegion v) f).1 (modifySlots v h (activeRegion v) f).2 where
  inline_le_cap := by simpa using hI.inline_le_cap
  len_le_cap := by simpa using hI.len_le_cap
  fits := by simpa using hI.fits
  spill hs := by
    obtain ⟨id, b, hp, hb, hrest⟩ := hI.spill (by simpa using hs)
    refine ⟨id, _, by simpa using hp, by rw [modifySlots_block, hb]; rfl, ?_⟩
    split <;> simpa using hrest
  init i hi := by
    rw [hI.storage_modifySlots]
    exact hf i (by simpa using hi)

/-- The active storage reads through the heap only at the active block. -/
theorem storage_congr {h' : Heap α}
    (hh : ∀ id, activeRegion v = .heap id → h'.block id = h.block id) :
    storage v h' = storage v h :=
  regionSlots_congr_heap hh

/-- A block of the active storage was handed out before `next`. -/
theorem Inv.active_lt_next (hI : Inv t v h) {id : Nat} (ha : activeRegion v = .heap id) :
    id < h.next := by
  by_cases hs : N < v.cap
  · obtain ⟨id', b, ha', -, hb, -⟩ := hI.active_spilled hs
    rw [ha] at ha'; cases ha'
    exact Heap.lt_next hb
  · simp [activeRegion, hs] at ha

/-- So does the validity of a pointer into it. -/
theorem Inv.validRange_congr (hI : Inv t v h) {h' : Heap α}
    (hh : ∀ id, activeRegion v = .heap id → h'.block id = h.block id) {i k : Nat}
    (hk : i + k ≤ v.cap) : validRange t v h' ⟨activeRegion v, i⟩ k = true :=
  (validRange_congr_heap hh k).trans (hI.validRange_active hk)

/-- The invariant reads the heap only at the active block: other code may change the rest. -/
theorem Inv.frame (hI : Inv t v h) {h' : Heap α}
    (hh : ∀ id, activeRegion v = .heap id → h'.block id = h.block id) : Inv t v h' where
  inline_le_cap := hI.inline_le_cap
  len_le_cap := hI.len_le_cap
  fits := hI.fits
  spill hs := by
    obtain ⟨id, b, ha, hp, hb, hrest⟩ := hI.active_spilled hs
    exact ⟨id, b, hp, by rw [hh id ha, hb], hrest⟩
  init i hi := by rw [storage_congr hh]; exact hI.init i hi

/-- A spilled state is described by its block: the invariant holds, and the active storage is
the block's slots. -/
theorem inv_of_spilled {id : Nat} {b : Block α} (hc : N < v.cap) (hl : v.len ≤ v.cap)
    (hfit : v.cap * t.size ≤ isizeMax) (hp : v.ptr = ⟨.heap id, 0⟩) (hb : h.block id = some b)
    (hlive : b.live = true) (hbytes : b.bytes = v.cap * t.size) (halign : b.align = t.align)
    (hinit : ∀ i < v.len, (b.slots i).isLive = true) :
    Inv t v h ∧ storage v h = b.slots := by
  have hs : storage v h = b.slots := by
    funext i; simp [storage, activeRegion, hc, hp, regionSlots, hb]
  exact ⟨⟨by omega, hl, hfit, fun _ => ⟨id, b, hp, hb, hlive, hbytes, halign⟩,
    fun i hi => hs ▸ hinit i hi⟩, hs⟩

/-- `new()` has the invariant, its inline array fitting the address space. -/
theorem inv_new (hfit : N * t.size ≤ isizeMax) : Inv t (SmallVector.new : SmallVector N α) h :=
  ⟨Nat.le_refl N, Nat.zero_le N, hfit, fun hs => absurd hs (Nat.lt_irrefl N),
    fun _ hi => absurd hi (Nat.not_lt_zero _)⟩

/-- Two states with the same length and the same first `len` slots have the same elements. -/
theorem abs_eq_of_storage {v' : SmallVector N α} {h' : Heap α} (hl : v'.len = v.len)
    (hs : ∀ i < v.len, storage v' h' i = storage v h i) : abs v' h' = abs v h := by
  simp only [abs, hl]
  exact List.map_congr_left fun i hi => hs i (List.mem_range.mp hi)

/-- The ledger is not part of the invariant. -/
theorem Inv.record (hI : Inv t v h) (es : List (Event α)) : Inv t v (h.record es) :=
  ⟨hI.inline_le_cap, hI.len_le_cap, hI.fits, fun hs => by simpa using hI.spill hs, hI.init⟩

/-- A new length keeps the invariant when it fits the capacity and its slots are live. -/
theorem Inv.withLen (hI : Inv t v h) {n : Nat} (hn : n ≤ v.cap)
    (hlive : ∀ i < n, (storage v h i).isLive = true) : Inv t (setLen v n) h :=
  ⟨hI.inline_le_cap, hn, hI.fits, hI.spill, fun i hi => by simpa using hlive i hi⟩

/-- For a sized `T` the capacity, and so the length, stays below `isize::MAX`. -/
theorem Inv.cap_le (hI : Inv t v h) (hs : 0 < t.size) : v.cap ≤ isizeMax :=
  le_trans (Nat.le_mul_of_pos_right _ hs) hI.fits

-- ================================================================= instances

/-- A heap whose block `0` is a live 8-byte, 4-aligned buffer holding `1, 2, ...`. -/
def spilledHeap : Heap Nat where
  block id := if id = 0 then some ⟨8, 4, fun i => .live (i + 1), true⟩ else none
  next := 1
  log := []
  fresh _ hj := if_neg (by omega)

/-- A `SmallVec1<u32>` spilled into that block with `len = cap = 2`. -/
def spilledVec : SmallVec1 Nat := ⟨2, 2, ⟨.heap 0, 0⟩, fun _ => .zeroed⟩

/-- A `SmallVec1<~int>` holding `7` inline. -/
def inlineVec : SmallVec1 Nat := ⟨1, 1, ⟨.null, 0⟩, fun _ => .live 7⟩

theorem spilledVec_inv : Inv Layout.u32 spilledVec spilledHeap where
  inline_le_cap := by decide
  len_le_cap := by decide
  fits := by decide
  spill _ := ⟨0, _, rfl, rfl, rfl, rfl, rfl⟩
  init _ _ := rfl

theorem inlineVec_inv : Inv Layout.ownedBox inlineVec Heap.empty where
  inline_le_cap := by decide
  len_le_cap := by decide
  fits := by decide
  spill h := absurd h (by decide)
  init _ _ := rfl

end Smallvec

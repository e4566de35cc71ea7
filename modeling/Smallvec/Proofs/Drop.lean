import Smallvec.Proofs.Reachable

/-!
What the container's `Drop` and the move iterator's `Drop` leave in the ledger.

# Uninitialized slots

`pop` swaps the last element out for `mem::uninitialized()`. In a heap buffer that garbage lies
past `len` and is never read again; in the inline array it stays in `data`, and `Drop for $name`
releases only a spill buffer, after which the inline array's drop glue runs `T`'s destructor on
each of its `N` slots, the garbage included (`Inv.pop_drop_inline`).

`garbageRuns v` counts those runs: the inline slots that hold `mem::uninitialized()` when the
container is dropped. Every other destructor run of `Drop` destroys an element
(Proofs/Values.lean).

# Sizes and allocators

`move_iter` stores the inline size in the iterator's `cap`, and the iterator's `Drop` releases
the spill buffer with `size_of::<T>() * self.cap` bytes, fewer than the `size_of::<T>() * cap`
it was allocated with (`Inv.moveIter_frees_inline_size`). And `grow` always allocates with
`heap::allocate`, but releases a managed `T`'s old buffer with `local_heap::local_free`.

# Nothing outlives Drop

Which buffers are released is right, whatever the sizes and allocators: `Framed` carries for
every operation that a block live afterwards is the container's storage or one it never
touched, so in a heap of its own the container's buffer stays the only live block
(`SoleOwner`) along any run, and `Drop` releases it (`run_then_drop_frees_all`).
-/

namespace Smallvec

variable {α : Type} {N : Nat} {t : Layout} {v : SmallVector N α} {h : Heap α}

open SmallVecPrivate SmallVec

-- ============================================================== the container

/-- The runs of `T`'s destructor on garbage that dropping `v` makes: the inline array's drop glue
meets one in every slot that holds `mem::uninitialized()`, which an inline `pop` leaves there. -/
def garbageRuns (v : SmallVector N α) : Nat :=
  ((List.range N).filter fun i => (v.data i).isUninit).length

/-- A value is not garbage. -/
theorem Slot.isUninit_of_live {x : Slot α} (hx : x.isLive = true) : x.isUninit = false := by
  cases x <;> first | rfl | cases hx

/-- The drop glue of a slot that holds no value: a run on garbage, or nothing. -/
theorem Slot.dropGlue_of_dead {x : Slot α} (hx : x.isLive = false) :
    x.dropGlue = if x.isUninit then [.destroyUninit] else [] := by
  cases x <;> first | rfl | cases hx

/-- The drop glue of slots that hold no value is one run on garbage per uninitialized slot. -/
theorem flatMap_dropGlue_of_dead {β : Type} {f : β → Slot α} :
    ∀ {L : List β}, (∀ j ∈ L, (f j).isLive = false) →
      (L.flatMap fun j => (f j).dropGlue)
        = List.replicate (L.filter fun j => (f j).isUninit).length .destroyUninit
  | [], _ => rfl
  | a :: L, hL => by
    rw [List.flatMap_cons, Slot.dropGlue_of_dead (hL a (List.mem_cons_self a L)),
      flatMap_dropGlue_of_dead fun j hj => hL j (List.mem_cons_of_mem a hj), List.filter_cons]
    split <;> simp [List.replicate_succ]

/-- `Drop` of an inline container: nothing to release, then the inline array's drop glue. -/
theorem drop_inline (hinl : ¬ N < v.cap) :
    SmallVector.drop t v h
      = .ok (h.record ((List.range N).flatMap fun i => (v.data i).dropGlue)) := by
  simp [SmallVector.drop, hinl]
  rfl

/-- `Drop`'s loop `*ptr.offset(i) = mem::uninitialized()` over a spill buffer, from element `i`:
each element's drop glue runs, in order, the container's fields stay as they were, and so does
every other block. -/
theorem Walk.assign_uninit {len : Nat} {src : Nat → Slot α} {id : Nat} :
    ∀ (n i : Nat) (h : Heap α), Walk t (.heap id) len i src v h → i + n = len →
      ∃ h', (List.range' i n).foldlM (fun (st : SmallVector N α × Heap α) j =>
          assign t st.1 st.2 ((⟨.heap id, 0⟩ : Ptr).offset j) .uninit) (v, h) = .ok (v, h') ∧
        Walk t (.heap id) len len src v h' ∧
        h'.log = h.log ++ (List.range' i n).flatMap (fun j => (src j).dropGlue) ∧
        ∀ j, j ≠ id → h'.block j = h.block j
  | 0, i, h, hW, hn => ⟨h, rfl, by simpa [← hn] using hW, by simp, fun _ _ => rfl⟩
  | n + 1, i, h, hW, hn => by
    obtain ⟨hr, hW1⟩ := hW.replace (by omega) .uninit
    simp only [modifySlots_heap] at hr hW1
    obtain ⟨h', hf, hW', hlog, hfr⟩ :=
      Walk.assign_uninit n (i + 1) _ (hW1.record (src i).dropGlue) (by omega)
    have hstep : assign t v h ((⟨.heap id, 0⟩ : Ptr).offset i) .uninit = .ok (v,
        (h.modify id fun b => { b with slots := Function.update b.slots i .uninit }).record
          (src i).dropGlue) := by
      simp only [assign, Ptr.offset, Nat.zero_add, hr, ok_bind]
      rfl
    refine ⟨h', ?_, hW', ?_, fun j hj => (hfr j hj).trans (by simp [hj])⟩
    · simp only [List.range'_succ, List.foldlM_cons]
      rw [hstep, ok_bind]
      exact hf
    · simp [hlog, List.range'_succ]

/-- `Drop` of a spilled container, in full: the ledger of `Inv.drop_spilled`, its buffer no
longer live, and every other block as it was. -/
theorem Inv.drop_spilled_releases (hI : Inv t v h) (hsp : N < v.cap) :
    ∃ id b h', v.ptr = ⟨.heap id, 0⟩ ∧ h.block id = some b ∧ SmallVector.drop t v h = .ok h' ∧
      h'.log = h.log ++ (abs v h).flatMap Slot.dropGlue ++
        [if t.ownsManaged then .localFree id else .deallocate id b.bytes b.align] ++
        (List.range N).flatMap (fun i => (v.data i).dropGlue) ∧
      (∃ b', h'.block id = some b' ∧ b'.live = false) ∧ ∀ j, j ≠ id → h'.block j = h.block j := by
  obtain ⟨id, b, har, hp, hb, -, hbytes, halign⟩ := hI.active_spilled hsp
  have hW : Walk t (.heap id) v.len 0 (storage v h) v h :=
    ⟨by simpa [har] using hI.validRange_active (i := 0) (k := v.len) (by simpa using hI.len_le_cap),
      fun j _ _ => by simp [storage, har]⟩
  obtain ⟨h1, hf, hW1, hlog, hfr⟩ := Walk.assign_uninit v.len 0 h hW (Nat.zero_add _)
  rw [← List.range_eq_range'] at hf hlog
  obtain ⟨b1, hb1, hl1⟩ : ∃ b1, h1.block id = some b1 ∧ b1.live = true := by
    rcases exists_of_validRange hW1.valid with h0 | ⟨id', b1, he, hb1, hl1⟩
    · cases h0
    · cases he; exact ⟨b1, hb1, hl1⟩
  have hfit : t.size * v.cap < uintSize := by
    have := hI.fits; unfold isizeMax uintSize at *; rw [Nat.mul_comm]; omega
  refine ⟨id, b, ((h1.modify id fun b => { b with live := false }).record
      [if t.ownsManaged then .localFree id else .deallocate id b.bytes b.align]).record
      ((List.range N).flatMap fun i => (v.data i).dropGlue), hp, hb, ?_, ?_,
      ⟨{ b1 with live := false }, by simp [hb1], rfl⟩, fun j hj => by simp [hj, hfr j hj]⟩
  · cases hm : t.ownsManaged <;>
      simp [SmallVector.drop, hsp, ptr, hp, hf, hm, Heap.localFree, Heap.deallocate,
        Heap.release_live hb1 hl1, hbytes, halign, wrapping_of_lt hfit, Nat.mul_comm]
  · simp [hlog, abs, List.flatMap_map]

/-- `Drop` of a spilled container: the drop glue of each of its elements, in order, then the
release of its buffer with exactly the bytes and alignment it was allocated with (through
`local_free` for a managed `T`), then the inline array's drop glue. -/
theorem Inv.drop_spilled (hI : Inv t v h) (hsp : N < v.cap) :
    ∃ id b h', v.ptr = ⟨.heap id, 0⟩ ∧ h.block id = some b ∧ SmallVector.drop t v h = .ok h' ∧
      h'.log = h.log ++ (abs v h).flatMap Slot.dropGlue ++
        [if t.ownsManaged then .localFree id else .deallocate id b.bytes b.align] ++
        (List.range N).flatMap fun i => (v.data i).dropGlue :=
  let ⟨id, b, h', hp, hb, hd, hlog, _⟩ := hI.drop_spilled_releases hsp
  ⟨id, b, h', hp, hb, hd, hlog⟩

/-- The instance `spilledVec`. -/
theorem drop_spilled_u32 :
    Inv Layout.u32 spilledVec spilledHeap ∧ 1 < spilledVec.cap ∧
      ∃ id b h', spilledVec.ptr = ⟨.heap id, 0⟩ ∧ spilledHeap.block id = some b ∧
        SmallVector.drop Layout.u32 spilledVec spilledHeap = .ok h' ∧
        h'.log = spilledHeap.log ++ (abs spilledVec spilledHeap).flatMap Slot.dropGlue ++
          [if Layout.u32.ownsManaged then .localFree id else .deallocate id b.bytes b.align] ++
          (List.range 1).flatMap fun i => (spilledVec.data i).dropGlue :=
  ⟨spilledVec_inv, by decide, spilledVec_inv.drop_spilled (by decide)⟩

/-- An inline `pop` and then `Drop`: the drop glue destroys the garbage `pop` left. -/
theorem Inv.pop_drop_inline (hI : Inv t v h) (hs : 0 < t.size) (hinl : v.cap = N)
    (hl : 0 < v.len) :
    ∃ h', (do let (_, v, h) ← pop t v h; SmallVector.drop t v h) = .ok h' ∧
      Event.destroyUninit ∈ h'.log := by
  have hlc := hI.len_le_cap
  have hdata : (popFrom v h).1.data (v.len - 1) = .uninit := by
    simpa [storage, activeRegion, hinl, regionSlots] using congrFun hI.storage_popFrom (v.len - 1)
  refine ⟨_, by rw [hI.pop_eq hs hl, ok_bind]; exact drop_inline (by simp [hinl]), ?_⟩
  simp only [popFrom, setLen_data] at hdata
  simp only [Heap.record_log, List.mem_append, List.mem_flatMap, List.mem_range]
  exact .inr ⟨v.len - 1, by omega, by simp [hdata, Slot.dropGlue]⟩

/-- The instance `inlineVec`, a `SmallVec1<~int>`: the box's destructor runs on garbage. -/
theorem pop_drop_inline_box :
    Inv Layout.ownedBox inlineVec Heap.empty ∧ 0 < Layout.ownedBox.size ∧ inlineVec.cap = 1 ∧
      0 < inlineVec.len ∧
      ∃ h', (do let (_, v, h) ← pop Layout.ownedBox inlineVec Heap.empty
                SmallVector.drop Layout.ownedBox v h) = .ok h' ∧ Event.destroyUninit ∈ h'.log :=
  ⟨inlineVec_inv, by decide, rfl, by decide,
    inlineVec_inv.pop_drop_inline (by decide) rfl (by decide)⟩

/-- Push `~7` into a `SmallVec1<~int>`, pop it, drop the container: the caller has the box, and
the drop glue runs the box's destructor on an uninitialized slot. -/
theorem inline_pop_then_drop_destroys_uninit :
    (do
      let (v, h) ← push Layout.ownedBox (SmallVector.new : SmallVec1 Nat) (.live 7) Heap.empty
      let (x, v, h) ← pop Layout.ownedBox v h
      let h ← SmallVector.drop Layout.ownedBox v h
      pure (x, h.log)) = Except.ok (ε := Fault) (some (.live 7), [.destroyUninit]) := rfl

-- ============================================================ the move iterator

/-- For a spilled state of a `T` without managed boxes, `move_iter` and its iterator's `Drop`
release the spill buffer with `N * size_of::<T>()` bytes, the ledger's last entry, though it was
allocated with `cap * size_of::<T>()`, which is more. -/
theorem Inv.moveIter_frees_inline_size (hI : Inv t v h) (hs : 0 < t.size) (hN : 0 < N)
    (hsp : N < v.cap) (hm : t.ownsManaged = false) (k : Nat) :
    ∃ id b r v' h', v.ptr = ⟨.heap id, 0⟩ ∧ h.block id = some b ∧ b.bytes = v.cap * t.size ∧
      Op.step t v h (.moveIter k) = .ok (r, v', h') ∧
      h'.log.getLast? = some (.deallocate id (N * t.size) t.align) ∧ N * t.size < b.bytes := by
  obtain ⟨id, b, har, hp, hb, -, hbytes, -⟩ := hI.active_spilled hsp
  set it : SmallVecMoveIterator :=
    ⟨if N < v.cap then some v.ptr else none, N, ⟨activeRegion v, 0, v.len * t.size⟩⟩ with hit
  have ha : it.allocation = some ⟨.heap id, 0⟩ := by simp [hit, hsp, hp]
  obtain ⟨w1, h1, ht, hW1, -, -, -⟩ := Walk.take hs k 0 it _ h hI.walk (by simp [hit])
    (Nat.zero_le _)
  obtain ⟨w2, h2, hd, -, -, hlog, -, -⟩ := hW1.drop hs { it with iter := _ } rfl
    (by omega) (.inr ⟨id, ha, har⟩)
  have hfit : t.size * N < uintSize := by
    have := Nat.mul_le_mul_right t.size (Nat.le_of_lt hsp)
    have := hI.fits
    unfold isizeMax uintSize at *
    rw [Nat.mul_comm]; omega
  refine ⟨id, b, .values ((List.range' 0 (min k (v.len - 0))).map (storage v h)), w2, h2, hp, hb,
    hbytes, ?_, ?_, by rw [hbytes]; exact Nat.mul_lt_mul_of_pos_right hsp hs⟩
  · simp only [Op.step, hI.moveIter_eq hN, ← hit, ok_bind, ht, hd]
    rfl
  · rw [hlog id ha hm, wrapping_of_lt hfit, Nat.mul_comm]

/-- The instance `spilledVec`, with nothing taken before the iterator is dropped. -/
theorem moveIter_frees_inline_size_u32 :
    Inv Layout.u32 spilledVec spilledHeap ∧ 0 < Layout.u32.size ∧ 0 < 1 ∧ 1 < spilledVec.cap ∧
      Layout.u32.ownsManaged = false ∧
      ∃ id b r v' h', spilledVec.ptr = ⟨.heap id, 0⟩ ∧ spilledHeap.block id = some b ∧
        b.bytes = spilledVec.cap * Layout.u32.size ∧
        Op.step Layout.u32 spilledVec spilledHeap (.moveIter 0) = .ok (r, v', h') ∧
        h'.log.getLast? = some (.deallocate id (1 * Layout.u32.size) Layout.u32.align) ∧
        1 * Layout.u32.size < b.bytes :=
  ⟨spilledVec_inv, by decide, by decide, by decide, rfl,
    spilledVec_inv.moveIter_frees_inline_size (by decide) (by decide) (by decide) rfl 0⟩

/-- Two pushes into a `SmallVec1<u32>` spill it into an 8-byte buffer; `move_iter` hands both
out and its `Drop` frees the buffer as 4 bytes. And a `SmallVec1<@T>` whose third push grows it
again frees the `heap::allocate` buffer with `local_free`. -/
theorem spill_buffer_freed_mismatched :
    (do
      let (v, h) ← push Layout.u32 (SmallVector.new : SmallVec1 Nat) (.live 1) Heap.empty
      let (v, h) ← push Layout.u32 v (.live 2) h
      let (_, _, h) ← Op.step Layout.u32 v h (.moveIter 2)
      pure h.log) = Except.ok (ε := Fault) [.allocate 0 8 4, .deallocate 0 4 4] ∧
    (do
      let (v, h) ← push Layout.managedBox (SmallVector.new : SmallVec1 Nat) (.live 1) Heap.empty
      let (v, h) ← push Layout.managedBox v (.live 2) h
      let (_, h) ← push Layout.managedBox v (.live 3) h
      pure h.log) = Except.ok (ε := Fault) [.allocate 0 16 8, .allocate 1 32 8, .localFree 0] :=
  ⟨rfl, rfl⟩

-- ====================================================== nothing outlives Drop

/-- The container's buffer is the only live block of the heap. -/
def SoleOwner (v : SmallVector N α) (h : Heap α) : Prop :=
  ∀ id b, h.block id = some b → b.live = true → activeRegion v = .heap id

theorem soleOwner_new_empty : SoleOwner (SmallVector.new : SmallVector N α) Heap.empty :=
  fun _ _ hb => Option.noConfusion hb

/-- A step keeps it: a block live afterwards is the new storage, or one the step did not touch,
which was live before, hence the old storage, which the step did touch. -/
theorem Framed.soleOwner {v' : SmallVector N α} {h' : Heap α} (hF : Framed v h v' h')
    (hS : SoleOwner v h) : SoleOwner v' h' := fun id b hb hl => by
  rcases hF.live id b hb hl with ha | ⟨hlt, hne⟩
  · exact ha
  · rw [hF.keep id hlt hne] at hb
    exact absurd (hS id b hb hl) hne

/-- From a state whose buffer is the only live block, `Drop` returns and leaves no block live. -/
theorem Inv.drop_frees_all (hI : Inv t v h) (hS : SoleOwner v h) :
    ∃ h', SmallVector.drop t v h = .ok h' ∧ ∀ id b, h'.block id = some b → b.live = false := by
  by_cases hsp : N < v.cap
  · obtain ⟨id, -, h', hp, -, hd, -, ⟨b', hb', hl'⟩, hfr⟩ := hI.drop_spilled_releases hsp
    refine ⟨h', hd, fun j b hb => ?_⟩
    by_cases hj : j = id
    · subst hj; rw [hb] at hb'; cases hb'; exact hl'
    · rw [hfr j hj] at hb
      refine Bool.eq_false_iff.mpr fun hl => hj ?_
      simpa [activeRegion, hsp, hp, eq_comm] using hS j b hb hl
  · refine ⟨_, drop_inline hsp, fun j b hb => Bool.eq_false_iff.mpr fun hl => ?_⟩
    simpa [activeRegion, hsp] using hS j b (by simpa using hb) hl

/-- For a sized `T`, along every run of operations from `new()` in a heap of its own, the
container's buffer is the only live block; and its `Drop` then returns and leaves no block
live: every buffer `grow` allocated has been released, by `grow` itself, by the move iterator's
`Drop`, or by the container's. -/
theorem run_then_drop_frees_all (hs : 0 < t.size) (hN : 0 < N) (hfit : N * t.size ≤ isizeMax)
    (ops : List (Op α)) {rs : List (Res α)} {v : SmallVector N α} {h : Heap α}
    (hrun : run t ops SmallVector.new Heap.empty = .ok (rs, v, h)) :
    SoleOwner v h ∧
      ∃ h', SmallVector.drop t v h = .ok h' ∧ ∀ id b, h'.block id = some b → b.live = false := by
  obtain ⟨hI, hS⟩ := run_preserves (P := SoleOwner) hs hN
    (fun hI hS hstep => (hI.step_ok hs hN hstep).2.2.2.soleOwner hS) ops _ _ (inv_new hfit)
    soleOwner_new_empty hrun
  exact ⟨hS, hI.drop_frees_all hS⟩

/-- The instance: three pushes into a `SmallVec1<u32>`, which allocate two buffers and release
the first. -/
theorem run_then_drop_frees_all_u32 :
    0 < Layout.u32.size ∧ 0 < 1 ∧ 1 * Layout.u32.size ≤ isizeMax ∧
      ∃ rs v h, run Layout.u32 [.push 1, .push 2, .push 3] (SmallVector.new : SmallVec1 Nat)
          Heap.empty = .ok (rs, v, h) ∧
        SoleOwner v h ∧ ∃ h', SmallVector.drop Layout.u32 v h = .ok h' ∧
          ∀ id b, h'.block id = some b → b.live = false :=
  ⟨by decide, by decide, by decide, _, _, _, rfl,
    run_then_drop_frees_all (by decide) (by decide) (by decide) [.push 1, .push 2, .push 3] rfl⟩

end Smallvec

import Smallvec.Proofs.Memory

/-!
`grow(new_cap)`: what it does from a state with the invariant, and where it goes wrong.

`grow` allocates `size_of::<T>() * new_cap` bytes, copies the `len` elements over, releases
the old buffer or zeroes the inline elements, and installs the new buffer with `cap = new_cap`.
It never asks whether the result is spilled: `spilled()` is `cap > N`, so after `grow(new_cap)`
with `new_cap ≤ N` the container reads its zeroed inline array again and the copied elements
sit, unreachable, in a buffer nothing will release (`grow_at_inline_size_loses_elements`).
`push`, its only caller, always passes `max(cap * 2, 1) > cap ≥ N`, the case `grow_spec`
describes.

`grow_ok` is the one unfolding of `grow`, for any element size: given that each access is
valid, what it returns. `Inv.grow_spec` discharges the accesses from the invariant, and the
zero-sized analysis (Proofs/ZeroSized.lean) from its own.
-/

namespace Smallvec

variable {α : Type} {N : Nat} {t : Layout} {v : SmallVector N α} {h : Heap α}

open SmallVecPrivate SmallVec

/-- What `grow(new_cap)` leaves behind: the invariant, the same elements relocated to the fresh
block `h.next`, the old spill buffer, if there was one, released, and every other block that
existed before as it was. -/
structure Grown (t : Layout) (v : SmallVector N α) (h : Heap α) (newCap : Nat)
    (v' : SmallVector N α) (h' : Heap α) : Prop where
  inv : Inv t v' h'
  len_eq : v'.len = v.len
  cap_eq : v'.cap = newCap
  ptr_eq : v'.ptr = ⟨.heap h.next, 0⟩
  storage_eq : ∀ i < v.len, storage v' h' i = storage v h i
  released : N < v.cap → ∃ id b, v.ptr = ⟨.heap id, 0⟩ ∧ h'.block id = some b ∧ b.live = false
  next_eq : h'.next = h.next + 1
  frame : ∀ id < h.next, activeRegion v ≠ .heap id → h'.block id = h.block id

/-- The grown state, from the block `grow` installs. -/
theorem grown {v' : SmallVector N α} {h' : Heap α} {newCap : Nat} {b : Block α}
    (hI : Inv t v h) (hN : N < newCap) (hlen : v.len ≤ newCap) (hfit : t.size * newCap ≤ isizeMax)
    (hl : v'.len = v.len) (hc : v'.cap = newCap) (hp : v'.ptr = ⟨.heap h.next, 0⟩)
    (hb : h'.block h.next = some b) (hlive : b.live = true) (hbytes : b.bytes = t.size * newCap)
    (halign : b.align = t.align) (hslots : ∀ i < v.len, b.slots i = storage v h i)
    (hrel : N < v.cap → ∃ id b, v.ptr = ⟨.heap id, 0⟩ ∧ h'.block id = some b ∧ b.live = false)
    (hnext : h'.next = h.next + 1)
    (hframe : ∀ id < h.next, activeRegion v ≠ .heap id → h'.block id = h.block id) :
    Grown t v h newCap v' h' := by
  obtain ⟨hI', hst⟩ := inv_of_spilled (t := t) (hc ▸ hN) (by omega)
    (by rw [hc, Nat.mul_comm]; exact hfit) hp hb hlive (by rw [hbytes, hc, Nat.mul_comm]) halign
    (fun i hi => by rw [hslots i (hl ▸ hi)]; exact hI.init i (hl ▸ hi))
  exact ⟨hI', hl, hc, hp, fun i hi => by rw [hst]; exact hslots i hi, hrel, hnext, hframe⟩

/-- The block the container used before growing is no longer live. -/
theorem Grown.released_active {newCap : Nat} {v' : SmallVector N α} {h' : Heap α}
    (hG : Grown t v h newCap v' h') {id : Nat} (ha : activeRegion v = .heap id) :
    ∃ b, h'.block id = some b ∧ b.live = false := by
  by_cases hs : N < v.cap
  · obtain ⟨id', b, hp, hb, hl⟩ := hG.released hs
    obtain rfl : id' = id := by simpa [activeRegion, hs, hp] using ha
    exact ⟨b, hb, hl⟩
  · simp [activeRegion, hs] at ha

/-- What `grow(new_cap)` computes when every access it makes is valid, for any element size:
the fresh block `h.next` holding the `len` elements, the old spill buffer released (or the
inline elements zeroed), every other block as it was, and the fresh block installed with
`cap = new_cap`. -/
theorem grow_ok {newCap : Nat} (hreq : wrapping (t.size * newCap) ≤ isizeMax)
    (hroom : v.len * t.size ≤ wrapping (t.size * newCap)) (hbeg : begin v = .ok ⟨activeRegion v, 0⟩)
    (hsrc : validRange t v h ⟨activeRegion v, 0⟩ v.len = true)
    (hspill : N < v.cap → ∃ id b, v.ptr = ⟨.heap id, 0⟩ ∧ h.block id = some b ∧ b.live = true) :
    ∃ v' h', grow t v newCap h = .ok (v', h') ∧ v'.len = v.len ∧ v'.cap = newCap ∧
      v'.ptr = ⟨.heap h.next, 0⟩ ∧ h'.next = h.next + 1 ∧
      h'.block h.next = some ⟨wrapping (t.size * newCap), t.align,
        writeRange (fun _ => .uninit) 0 v.len (storage v h), true⟩ ∧
      (N < v.cap → ∃ id b, v.ptr = ⟨.heap id, 0⟩ ∧ h'.block id = some b ∧ b.live = false) ∧
      (∀ id < h.next, activeRegion v ≠ .heap id → h'.block id = h.block id) ∧
      v'.data = (if N < v.cap then v.data else writeRange v.data 0 v.len fun _ => .zeroed) ∧
      Appends h h' [] := by
  set bytes := wrapping (t.size * newCap)
  set h1 := (h.add ⟨bytes, t.align, fun _ => .uninit, true⟩).record
      [.allocate h.next bytes t.align] with hh1
  have hkeep : ∀ id, activeRegion v = .heap id → h1.block id = h.block id := by
    intro id ha
    by_cases hs : N < v.cap
    · obtain ⟨id', b, hp, hb, -⟩ := hspill hs
      obtain rfl : id' = id := by simpa [activeRegion, hs, hp] using ha
      simp [hh1, (Heap.lt_next hb).ne]
    · simp [activeRegion, hs] at ha
  have hdst : validRange t v h1 ⟨.heap h.next, 0⟩ v.len = true := by
    simpa [validRange, regionBytes, hh1] using hroom
  have hsrc1 : validRange t v h1 ⟨activeRegion v, 0⟩ v.len = true :=
    (validRange_congr_heap hkeep _).trans hsrc
  have hst : regionSlots v h1 (activeRegion v) = storage v h := storage_congr hkeep
  simp only [grow, Heap.allocate_ok hreq, ok_bind, hbeg, ← hh1,
    copyNonoverlappingMemory_ok hdst hsrc1, modifySlots_heap, spilled_eq, hst, Nat.zero_add]
  set h2 := h1.modify h.next fun b => { b with slots := writeRange b.slots 0 v.len (storage v h) }
    with hh2
  have h2new : h2.block h.next = some ⟨bytes, t.align,
      writeRange (fun _ => .uninit) 0 v.len (storage v h), true⟩ := by simp [hh2, hh1]
  have h2old : ∀ id < h.next, h2.block id = h.block id := fun id hid => by
    simp [hh2, hh1, Nat.ne_of_lt hid]
  have h2log : Appends h h2 [] := (appends_refl h).push_quiet h2 rfl rfl
  by_cases hs : N < v.cap
  · -- spilled: the old buffer is released
    obtain ⟨id, b, hp, hb, hlive⟩ := hspill hs
    have hid := Heap.lt_next hb
    have ha : activeRegion v = .heap id := by simp [activeRegion, hs, hp]
    cases hm : t.ownsManaged <;>
      simp only [hs, decide_True, if_true, hm, ptr, hp, Heap.localFree, Heap.deallocate,
        Heap.release_live ((h2old id hid).trans hb) hlive, ok_bind, pure, Except.pure,
        Bool.false_eq_true, if_false] <;>
      exact ⟨_, _, rfl, rfl, rfl, rfl, rfl, by simpa [Nat.ne_of_gt hid] using h2new,
        fun _ => ⟨id, { b with live := false }, rfl, by simp [h2old id hid, hb], rfl⟩,
        fun j hj hne => by simp [h2old j hj, show j ≠ id from fun e => hne (e ▸ ha)], rfl,
        h2log.push_quiet _ rfl rfl⟩
  · -- inline: the inline elements are zeroed
    have hv : validRange t v h2 ⟨.inline, 0⟩ v.len = true := by
      simpa [validRange, activeRegion, hs, regionBytes] using hsrc
    simp only [hs, decide_False, Bool.false_eq_true, if_false, activeRegion, setMemory_ok hv,
      ok_bind, pure, Except.pure, modifySlots_inline]
    exact ⟨_, _, rfl, rfl, rfl, rfl, rfl, h2new, False.elim, fun j hj _ => h2old j hj, rfl,
      h2log⟩

/-- From a state with the invariant and a request that fits, every access `grow` makes is
valid. -/
theorem Inv.grow_pre (hI : Inv t v h) {newCap : Nat} (hlen : v.len ≤ newCap)
    (hfit : t.size * newCap ≤ isizeMax) (hb : 0 < N ∨ N < v.cap) :
    wrapping (t.size * newCap) = t.size * newCap ∧ v.len * t.size ≤ wrapping (t.size * newCap) ∧
      begin v = .ok ⟨activeRegion v, 0⟩ ∧ validRange t v h ⟨activeRegion v, 0⟩ v.len = true ∧
      (N < v.cap → ∃ id b, v.ptr = ⟨.heap id, 0⟩ ∧ h.block id = some b ∧ b.live = true) := by
  have hw : wrapping (t.size * newCap) = t.size * newCap :=
    wrapping_of_lt (by unfold uintSize; unfold isizeMax at hfit; omega)
  exact ⟨hw, by rw [hw, Nat.mul_comm]; exact Nat.mul_le_mul_left _ hlen, hI.begin_eq hb,
    hI.validRange_active (by simpa using hI.len_le_cap),
    fun hs => let ⟨id, b, _, hp, hb, hl, _⟩ := hI.active_spilled hs; ⟨id, b, hp, hb, hl⟩⟩

/-- `grow(new_cap)` past the inline size, when the request fits: it returns, and leaves the
grown state. -/
theorem Inv.grow_spec (hI : Inv t v h) {newCap : Nat} (hN : N < newCap) (hlen : v.len ≤ newCap)
    (hfit : t.size * newCap ≤ isizeMax) (hb : 0 < N ∨ N < v.cap) :
    ∃ v' h', grow t v newCap h = .ok (v', h') ∧ Grown t v h newCap v' h' := by
  obtain ⟨hw, hroom, hbeg, hsrc, hspill⟩ := hI.grow_pre hlen hfit hb
  obtain ⟨v', h', hg, hl, hc, hp, hnext, hnew, hrel, hframe, -⟩ :=
    grow_ok (by rwa [hw]) hroom hbeg hsrc hspill
  exact ⟨v', h', hg, grown hI hN hlen hfit hl hc hp hnew rfl hw rfl
    (fun i hi => by simp [writeRange, hi]) hrel hnext hframe⟩

/-- What that `grow` does besides: it zeroes the inline elements when it leaves the inline array,
and runs no destructor. -/
theorem Inv.grow_effects (hI : Inv t v h) {newCap : Nat} (hlen : v.len ≤ newCap)
    (hfit : t.size * newCap ≤ isizeMax) (hb : 0 < N ∨ N < v.cap) {v' : SmallVector N α}
    {h' : Heap α} (hg : grow t v newCap h = .ok (v', h')) :
    v'.data = (if N < v.cap then v.data else writeRange v.data 0 v.len fun _ => .zeroed) ∧
      Appends h h' [] := by
  obtain ⟨hw, hroom, hbeg, hsrc, hspill⟩ := hI.grow_pre hlen hfit hb
  obtain ⟨v2, h2, hg2, -, -, -, -, -, -, -, hdata, hlog⟩ :=
    grow_ok (by rwa [hw]) hroom hbeg hsrc hspill
  obtain ⟨rfl, rfl⟩ := Prod.mk.inj (Except.ok.inj (hg.symm.trans hg2))
  exact ⟨hdata, hlog⟩

/-- A request above `isize::MAX` aborts. -/
theorem grow_oom {newCap : Nat} (hbig : isizeMax < t.size * newCap)
    (hword : t.size * newCap < uintSize) : grow t v newCap h = .error .oom := by
  simp [grow, wrapping_of_lt hword, Heap.allocate_oom hbig]

-- ======================================================= grow as a public method

/-- `grow(new_cap)` from a state with the invariant (every reachable state of a sized `T`), for
every `new_cap` past the inline size that holds the elements and whose request fits the address
space: it returns with the same elements, `cap = new_cap`, the invariant, the fresh block as
active storage and the old buffer released. -/
theorem grow_past_inline_size_relocates (hI : Inv t v h) (hb : 0 < N ∨ N < v.cap) {newCap : Nat}
    (hN : N < newCap) (hlen : v.len ≤ newCap) (hfit : t.size * newCap ≤ isizeMax) :
    ∃ v' h', grow t v newCap h = .ok (v', h') ∧ abs v' h' = abs v h ∧ Grown t v h newCap v' h' := by
  obtain ⟨v', h', hg, hG⟩ := hI.grow_spec hN hlen hfit hb
  exact ⟨v', h', hg, abs_eq_of_storage hG.len_eq hG.storage_eq, hG⟩

/-- An instance: `spilledVec`, holding `1, 2` in a spill buffer of two, grown to four: both
elements move to the fresh buffer, and the old buffer is released. -/
theorem grow_past_inline_size_relocates_spilled :
    Inv Layout.u32 spilledVec spilledHeap ∧ abs spilledVec spilledHeap = [.live 1, .live 2] ∧
      (0 < 1 ∨ 1 < spilledVec.cap) ∧ 1 < 4 ∧ spilledVec.len ≤ 4 ∧ Layout.u32.size * 4 ≤ isizeMax ∧
      ∃ v' h', grow Layout.u32 spilledVec 4 spilledHeap = .ok (v', h') ∧
        abs v' h' = abs spilledVec spilledHeap ∧ Grown Layout.u32 spilledVec spilledHeap 4 v' h' :=
  ⟨spilledVec_inv, rfl, .inr (by decide), by decide, by decide, by decide,
    grow_past_inline_size_relocates spilledVec_inv (.inr (by decide)) (by decide) (by decide)
      (by decide)⟩

/-- `grow(1)` on a `SmallVec1<u32>` holding `7`: before, the elements are `[7]`; after, the
container is inline again and reads the zeroed inline slot. -/
theorem grow_at_inline_size_loses_elements :
    (do
      let (v, h) ← push Layout.u32 (SmallVector.new : SmallVec1 Nat) (.live 7) Heap.empty
      pure (abs v h)) = .ok [.live 7] ∧
    (do
      let (v, h) ← push Layout.u32 (SmallVector.new : SmallVec1 Nat) (.live 7) Heap.empty
      let (v, h) ← grow Layout.u32 v 1 h
      pure (v.cap, abs v h)) = .ok (1, [.zeroed]) :=
  ⟨rfl, rfl⟩

end Smallvec

import Smallvec.Proofs.Growth

/-!
`clone()` for a sized `T`, from a state with the invariant whose capacity is `N * 2^m` (every
reachable state's, Proofs/Reachable.lean).

# The loop

`clone` pushes the clone of each element into `new()`, reading the source through a heap the
pushes keep changing. `CloneInv` is what holds after `j` elements: the clone has the invariant,
holds the clones of the first `j` elements at the least capacity for `j`, lives inline or in a
block allocated during the loop with a clean inline array, and the source's storage is as it
was. A push only writes the
clone's own storage, allocates fresh blocks and releases the clone's old one, so it never
touches the source's block (`CloneInv.step`); and the clone's capacity stays below the source's,
so no request goes past the source's own, which fits the address space.
-/

namespace Smallvec

variable {α : Type} {N : Nat} {t : Layout} {v w : SmallVector N α} {h h1 : Heap α}
  {cl : α → α} {j : Nat}

open SmallVecPrivate SmallVec

@[simp] theorem Slot.isLive_map (cl : α → α) (x : Slot α) : (x.map cl).isLive = x.isLive := by
  cases x <;> rfl

/-- Reading the active storage through a heap that kept its block. -/
theorem Inv.load_congr (hI : Inv t v h) {h' : Heap α}
    (hh : ∀ id, activeRegion v = .heap id → h'.block id = h.block id) {i : Nat} (hi : i < v.cap) :
    load t v h' ⟨activeRegion v, i⟩ = .ok (storage v h i) := by
  rw [load_of_valid (hI.validRange_congr hh (show i + 1 ≤ v.cap by omega))]
  exact congrArg Except.ok (congrFun (storage_congr hh) i)

/-- Below a capacity `N * 2^m`, a smaller `N * 2^k` doubles without passing it. -/
theorem two_mul_le_of_lt {k m : Nat} (hlt : N * 2 ^ k < N * 2 ^ m) :
    2 * (N * 2 ^ k) ≤ N * 2 ^ m := by
  have hkm : k < m := by
    by_contra hmk
    exact absurd hlt (Nat.not_lt.mpr (Nat.mul_le_mul_left _
      (Nat.pow_le_pow_right (by decide) (Nat.le_of_not_lt hmk))))
  calc 2 * (N * 2 ^ k) = N * 2 ^ (k + 1) := by rw [Nat.pow_succ, Nat.mul_left_comm, Nat.mul_comm 2]
    _ ≤ N * 2 ^ m := Nat.mul_le_mul_left _ (Nat.pow_le_pow_right (by decide) hkm)

/-- What the clone loop keeps after the first `j` elements of `v` (heap `h` at the start) are
cloned into `w` (heap `h1` now). -/
structure CloneInv (t : Layout) (cl : α → α) (v : SmallVector N α) (h : Heap α) (j : Nat)
    (w : SmallVector N α) (h1 : Heap α) : Prop where
  inv : Inv t w h1
  len_eq : w.len = j
  abs_take : abs w h1 = ((abs v h).take j).map (Slot.map cl)
  cap : CapFits N w.cap j
  source : ∀ id, activeRegion v = .heap id → h1.block id = h.block id
  fresh : activeRegion w = .inline ∨ ∃ id, activeRegion w = .heap id ∧ h.next ≤ id
  next_le : h.next ≤ h1.next
  clean : InlineClean w

/-- The clone's storage is never the source's block. -/
theorem CloneInv.ne_source (hI : Inv t v h) (hC : CloneInv t cl v h j w h1) {id : Nat}
    (ha : activeRegion v = .heap id) : activeRegion w ≠ .heap id := by
  have := hI.active_lt_next ha
  rcases hC.fresh with hw | ⟨id', hw, hle⟩ <;> rw [hw]
  · exact Region.noConfusion
  · intro e; cases e; omega

/-- The loop starts from `new()`. -/
theorem cloneInv_new (hfit : N * t.size ≤ isizeMax) :
    CloneInv t cl v h 0 (SmallVector.new : SmallVector N α) h :=
  ⟨inv_new hfit, rfl, by simp [abs, SmallVector.new], capFits_inline (Nat.zero_le N),
    fun _ _ => rfl, .inl (by simp [activeRegion, SmallVector.new]), le_refl _, inlineClean_new⟩

/-- One round of the loop: the push of element `j`'s clone returns, and the loop's invariant
moves on to `j + 1`. The push cannot abort: the clone's capacity stays below the source's, so
its doubled request is at most the source's, which fits. -/
theorem CloneInv.step (hI : Inv t v h) (hs : 0 < t.size) (hN : 0 < N) {m : Nat}
    (hpow : v.cap = N * 2 ^ m) (hC : CloneInv t cl v h j w h1) (hj : j < v.len) :
    ∃ w' h2, push t w ((storage v h j).map cl) h1 = .ok (w', h2) ∧
      CloneInv t cl v h (j + 1) w' h2 := by
  have hx : ((storage v h j).map cl).isLive = true := by simpa using hI.init j hj
  rcases hC.inv.push_spec hs hN hx with ⟨hfull, hbig, -⟩ | ⟨w', h2, hp, hP⟩
  · obtain ⟨k, hk, -, -⟩ := hC.cap
    have hlt : w.cap < v.cap := by
      rw [← hfull, hC.len_eq]; exact lt_of_lt_of_le hj hI.len_le_cap
    have h2 : 2 * w.cap ≤ v.cap := by rw [hk, hpow] at hlt ⊢; exact two_mul_le_of_lt hlt
    exact absurd (calc t.size * (2 * w.cap) ≤ t.size * v.cap := Nat.mul_le_mul_left _ h2
      _ = v.cap * t.size := Nat.mul_comm _ _
      _ ≤ isizeMax := hI.fits) (Nat.not_le.mpr hbig)
  · have hlen : w'.len = j + 1 := by simpa [hC.len_eq] using congrArg List.length hP.abs_eq
    refine ⟨w', h2, hp, hP.inv, hlen, ?_, ?_, fun id ha => ?_, ?_, le_trans hC.next_le hP.next_le,
      hP.clean hC.clean⟩
    · rw [hP.abs_eq, hC.abs_take, List.take_succ, getElem?_abs hj]; simp
    · simpa [hC.len_eq, hP.cap_eq] using hC.cap.push hN (le_of_eq hC.len_eq)
    · rw [hP.frame id (lt_of_lt_of_le (hI.active_lt_next ha) hC.next_le) (hC.ne_source hI ha),
        hC.source id ha]
    · rcases hP.fresh with he | ⟨id, he, hle⟩ <;> rw [he]
      · exact hC.fresh
      · exact .inr ⟨id, rfl, le_trans hC.next_le hle⟩

/-- The rest of the loop, from element `j`: every push returns, and the invariant reaches `len`. -/
theorem CloneInv.loop (hI : Inv t v h) (hs : 0 < t.size) (hN : 0 < N) {m : Nat}
    (hpow : v.cap = N * 2 ^ m) :
    ∀ (n j : Nat) (w : SmallVector N α) (h1 : Heap α), j + n = v.len →
      CloneInv t cl v h j w h1 →
      ∃ w' h2, (List.range' j n).foldlM (fun (st : SmallVector N α × Heap α) i => do
          let x ← load t v st.2 ⟨activeRegion v, i⟩
          push t st.1 (x.map cl) st.2) (w, h1) = .ok (w', h2) ∧
        CloneInv t cl v h v.len w' h2
  | 0, j, w, h1, hjn, hC => ⟨w, h1, rfl, (show j = v.len by simpa using hjn) ▸ hC⟩
  | n + 1, j, w, h1, hjn, hC => by
    obtain ⟨w', h2, hp, hC'⟩ := hC.step hI hs hN hpow (show j < v.len by omega)
    obtain ⟨w'', h3, hf, hC''⟩ := CloneInv.loop hI hs hN hpow n (j + 1) w' h2 (by omega) hC'
    refine ⟨w'', h3, ?_, hC''⟩
    simp only [List.range'_succ, List.foldlM_cons,
      hI.load_congr hC.source (show j < v.cap by have := hI.len_le_cap; omega), ok_bind, hp, hf]

/-- `clone()` returns, with the loop's invariant at `len`. -/
theorem Inv.clone_spec (hI : Inv t v h) (hs : 0 < t.size) (hN : 0 < N) {m : Nat}
    (hpow : v.cap = N * 2 ^ m) (cl : α → α) :
    ∃ w h', SmallVector.clone t cl v h = .ok (w, h') ∧ CloneInv t cl v h v.len w h' := by
  have hfit : N * t.size ≤ isizeMax :=
    le_trans (Nat.mul_le_mul_right _ hI.inline_le_cap) hI.fits
  obtain ⟨w, h', hf, hC⟩ :=
    CloneInv.loop hI hs hN hpow v.len 0 _ h (Nat.zero_add _)
      (cloneInv_new hfit : CloneInv t cl v h 0 _ h)
  refine ⟨w, h', ?_, hC⟩
  rw [SmallVector.clone, hI.iter_eq hN, ok_bind, forEach_at hs _ _ 0 _ _ (Nat.zero_mul _).symm rfl
    (Nat.zero_le _) (len_lt_rounds hs _ _), Nat.sub_zero]
  exact hf

/-- The clone's elements are the clones of the source's. -/
theorem CloneInv.abs_eq {w : SmallVector N α} {h' : Heap α}
    (hC : CloneInv t cl v h v.len w h') : abs w h' = (abs v h).map (Slot.map cl) := by
  rw [hC.abs_take, List.take_of_length_le (by simp)]

end Smallvec

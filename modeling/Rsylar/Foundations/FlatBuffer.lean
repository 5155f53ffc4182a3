import Mathlib.Data.List.TakeDrop

/-!
# A contiguous buffer

A buffer is a sequence and a position in it (`FlatBuffer`). Writing lays the new items over what is
there from the position on (`overlay`), reading takes items from the position on.

A program may keep the same sequence in another shape. With a relation between its states and
buffers, a computation of the program `Appends` items or `Reads` them as a value; both are closed
under composition, so a reader for a record follows the writer for it step by step.
-/

set_option autoImplicit false
set_option relaxedAutoImplicit false

namespace FlatBuffer

variable {α : Type*}

/-! ### Laying items over a sequence -/

/-- The sequence with `buf` in the place of what is there from `pos` on. -/
def overlay (xs : List α) (pos : ℕ) (buf : List α) : List α :=
  xs.take pos ++ buf ++ xs.drop (pos + buf.length)

theorem length_overlay {xs buf : List α} {pos : ℕ} (h : pos ≤ xs.length) :
    (overlay xs pos buf).length = max xs.length (pos + buf.length) := by
  simp only [overlay, List.length_append, List.length_take, List.length_drop]
  omega

@[simp]
theorem overlay_nil {xs : List α} {pos : ℕ} : overlay xs pos [] = xs := by
  simp [overlay]

theorem overlay_length (xs buf : List α) : overlay xs xs.length buf = xs ++ buf := by
  simp [overlay]

/-- What is laid over the second part only. -/
theorem overlay_append_right {xs ys buf : List α} {pos : ℕ} (h : xs.length ≤ pos) :
    overlay (xs ++ ys) pos buf = xs ++ overlay ys (pos - xs.length) buf := by
  have hsub : pos + buf.length - xs.length = pos - xs.length + buf.length := by omega
  have hdrop : xs.length ≤ pos + buf.length := by omega
  simp only [overlay, List.take_append, List.drop_append, List.take_of_length_le h,
    List.drop_of_length_le hdrop, hsub, List.nil_append, List.append_assoc]

/-- What is laid over both parts. -/
theorem overlay_append {xs ys buf : List α} {pos k : ℕ} (hpos : pos + k = xs.length)
    (hk : k ≤ buf.length) :
    overlay (xs ++ ys) pos buf = overlay xs pos (buf.take k) ++ overlay ys 0 (buf.drop k) := by
  have hend : pos + (buf.take k).length = xs.length := by
    rw [List.length_take_of_le hk, hpos]
  have hle : pos ≤ xs.length := by omega
  have hdrop : xs.length ≤ pos + buf.length := by omega
  have hsub : pos + buf.length - xs.length = (buf.drop k).length := by
    rw [List.length_drop]
    omega
  simp only [overlay, List.take_append_of_le_length hle, List.drop_append, hend, hsub,
    List.drop_of_length_le hdrop, List.drop_length, List.nil_append, List.append_nil,
    List.take_zero, Nat.zero_add]
  rw [List.append_assoc, List.append_assoc, ← List.append_assoc (buf.take k),
    List.take_append_drop]

/-- What is laid over the first part only. -/
theorem overlay_append_left {xs ys buf : List α} {pos : ℕ} (h : pos + buf.length ≤ xs.length) :
    overlay (xs ++ ys) pos buf = overlay xs pos buf ++ ys := by
  have hle : pos ≤ xs.length := by omega
  simp only [overlay, List.take_append_of_le_length hle, List.drop_append_of_le_length h,
    List.append_assoc]

/-- What is laid behind what has been laid. -/
theorem overlay_overlay {xs buf buf' : List α} {pos : ℕ} (h : pos + buf.length ≤ xs.length) :
    overlay (overlay xs pos buf) (pos + buf.length) buf' = overlay xs pos (buf ++ buf') := by
  have hfront : (xs.take pos ++ buf).length = pos + buf.length := by
    rw [List.length_append, List.length_take_of_le (by omega)]
  have hlaid : overlay xs pos buf = (xs.take pos ++ buf) ++ xs.drop (pos + buf.length) := rfl
  rw [hlaid, overlay_append_right (by omega), hfront, Nat.sub_self]
  simp only [overlay, List.take_zero, List.nil_append, Nat.zero_add, List.drop_drop,
    List.append_assoc, List.length_append, Nat.add_assoc]

/-- The beginning of a sequence that items are laid over, with at least these items. -/
theorem take_overlay {xs buf : List α} {pos size : ℕ} (hpos : pos ≤ size) (hsize : size ≤ xs.length)
    (hbuf : pos + buf.length ≤ xs.length) :
    (overlay xs pos buf).take (max size (pos + buf.length)) = overlay (xs.take size) pos buf := by
  have hxs : xs = xs.take size ++ xs.drop size := (List.take_append_drop size xs).symm
  have hlen : (xs.take size).length = size := List.length_take_of_le hsize
  by_cases hle : pos + buf.length ≤ size
  · rw [Nat.max_eq_left hle]
    conv_lhs => rw [hxs]
    rw [overlay_append_left (hlen.symm ▸ hle)]
    have hlen' : (overlay (xs.take size) pos buf).length =
        max (xs.take size).length (pos + buf.length) := length_overlay (by omega)
    rw [hlen, Nat.max_eq_left hle] at hlen'
    exact List.take_left' hlen'
  · have hlt : size ≤ pos + buf.length := by omega
    have hlast : ((xs.take size).drop (pos + buf.length)) = [] :=
      List.drop_of_length_le (by omega)
    have hfirst : (xs.take pos ++ buf).length = pos + buf.length := by
      rw [List.length_append, List.length_take_of_le (by omega)]
    rw [Nat.max_eq_right hlt, overlay, overlay, hlast, List.append_nil, List.take_take,
      Nat.min_eq_left hpos]
    exact List.take_left' hfirst

end FlatBuffer

/-! ### Buffers -/

/-- A sequence and a position in it or at its end. -/
@[ext]
structure FlatBuffer (α : Type*) where
  data : List α
  position : ℕ
  position_le : position ≤ data.length

namespace FlatBuffer

variable {α : Type*}

def empty : FlatBuffer α where
  data := []
  position := 0
  position_le := Nat.le_refl 0

variable (flat : FlatBuffer α)

def size : ℕ := flat.data.length

/-- What can still be read. -/
def rest : List α := flat.data.drop flat.position

def readSize : ℕ := flat.size - flat.position

def write (buf : List α) : FlatBuffer α where
  data := overlay flat.data flat.position buf
  position := flat.position + buf.length
  position_le := by
    rw [length_overlay flat.position_le]
    exact Nat.le_max_right ..

/-- The position `n` items further on, at the end at most. -/
def skip (n : ℕ) : FlatBuffer α where
  data := flat.data
  position := min (flat.position + n) flat.data.length
  position_le := Nat.min_le_right ..

def read (n : ℕ) : Option (List α × FlatBuffer α) :=
  if n ≤ flat.readSize then some (flat.rest.take n, flat.skip n) else none

/-- The position `v`, at the end at most. -/
def seek (v : ℕ) : FlatBuffer α where
  data := flat.data
  position := min v flat.data.length
  position_le := Nat.min_le_right ..

theorem length_rest : flat.rest.length = flat.readSize := by
  simp [rest, readSize, size]

@[simp]
theorem rest_skip (n : ℕ) : (flat.skip n).rest = flat.rest.drop n := by
  rw [rest, rest, List.drop_drop]
  by_cases h : flat.position + n ≤ flat.data.length
  · simp [skip, Nat.min_eq_left h]
  · have hle : flat.data.length ≤ flat.position + n := by omega
    simp only [skip, Nat.min_eq_right hle, List.drop_of_length_le hle, List.drop_length]

@[simp]
theorem skip_skip (m n : ℕ) : (flat.skip m).skip n = flat.skip (m + n) := by
  ext1
  · rfl
  · simp only [skip]
    omega

@[simp]
theorem skip_zero : flat.skip 0 = flat := by
  ext1
  · rfl
  · exact Nat.min_eq_left flat.position_le

@[simp]
theorem write_nil : flat.write [] = flat := by
  ext1
  · exact overlay_nil
  · rfl

theorem position_skip {xs ys : List α} {flat : FlatBuffer α} (h : flat.rest = xs ++ ys) :
    (flat.skip xs.length).position = flat.position + xs.length := by
  have hlength := congrArg List.length h
  rw [length_rest, readSize, size, List.length_append] at hlength
  have hle := flat.position_le
  exact Nat.min_eq_left (by omega)

theorem rest_seek_zero : (flat.seek 0).rest = flat.data := by
  simp [rest, seek]

/-- Writing at the end. -/
theorem data_write_of_end {flat : FlatBuffer α} (h : flat.position = flat.size) (buf : List α) :
    (flat.write buf).data = flat.data ++ buf := by
  change overlay flat.data flat.position buf = flat.data ++ buf
  rw [h]
  exact overlay_length ..

theorem write_end {flat : FlatBuffer α} (h : flat.position = flat.size) (buf : List α) :
    (flat.write buf).position = (flat.write buf).size := by
  rw [size, data_write_of_end h, List.length_append]
  exact congrArg (· + buf.length) h

theorem write_append {flat : FlatBuffer α} (h : flat.position = flat.size) (xs ys : List α) :
    (flat.write xs).write ys = flat.write (xs ++ ys) := by
  ext1
  · rw [data_write_of_end (write_end h xs), data_write_of_end h, data_write_of_end h,
      List.append_assoc]
  · simp [write, Nat.add_assoc]

/-! ### Programs over a buffer -/

section Programs

universe u

variable {σ ε β γ : Type u}

theorem bind_of_ok {x : EStateM ε σ β} {f : β → EStateM ε σ γ} {s s' : σ} {b : β}
    (h : x s = .ok b s') : (x >>= f) s = f b s' := by
  change EStateM.bind x f s = _
  simp only [EStateM.bind, h]

theorem bind_of_error {x : EStateM ε σ β} {f : β → EStateM ε σ γ} {s s' : σ} {e : ε}
    (h : x s = .error e s') : (x >>= f) s = .error e s' := by
  change EStateM.bind x f s = _
  simp only [EStateM.bind, h]

/-- At the end of the buffer the computation appends `xs` and returns `b`. -/
def Appends (R : σ → FlatBuffer α → Prop) (x : EStateM ε σ β) (xs : List α) (b : β) : Prop :=
  ∀ s flat, R s flat → flat.position = flat.size → ∃ s', x s = .ok b s' ∧ R s' (flat.write xs)

/-- Where the buffer goes on with `xs`, the computation reads them and returns `b`. -/
def Reads (R : σ → FlatBuffer α → Prop) (x : EStateM ε σ β) (xs : List α) (b : β) : Prop :=
  ∀ s flat ys, R s flat → flat.rest = xs ++ ys →
    ∃ s', x s = .ok b s' ∧ R s' (flat.skip xs.length)

variable {R : σ → FlatBuffer α → Prop}

theorem Appends.bind {x : EStateM ε σ β} {f : β → EStateM ε σ γ} {xs ys : List α} {b : β} {c : γ}
    (hx : Appends R x xs b) (hf : Appends R (f b) ys c) : Appends R (x >>= f) (xs ++ ys) c := by
  intro s flat hR hend
  obtain ⟨s₁, hs₁, hR₁⟩ := hx s flat hR hend
  obtain ⟨s₂, hs₂, hR₂⟩ := hf s₁ _ hR₁ (FlatBuffer.write_end hend xs)
  exact ⟨s₂, (bind_of_ok hs₁).trans hs₂, FlatBuffer.write_append hend xs ys ▸ hR₂⟩

theorem Reads.pure (b : β) : Reads R (pure b : EStateM ε σ β) [] b := by
  intro s flat ys hR hrest
  exact ⟨s, rfl, (flat.skip_zero).symm ▸ hR⟩

theorem Reads.bind {x : EStateM ε σ β} {f : β → EStateM ε σ γ} {xs ys : List α} {b : β} {c : γ}
    (hx : Reads R x xs b) (hf : Reads R (f b) ys c) : Reads R (x >>= f) (xs ++ ys) c := by
  intro s flat zs hR hrest
  rw [List.append_assoc] at hrest
  obtain ⟨s₁, hs₁, hR₁⟩ := hx s flat _ hR hrest
  obtain ⟨s₂, hs₂, hR₂⟩ := hf s₁ _ zs hR₁ (by rw [flat.rest_skip, hrest, List.drop_left])
  rw [flat.skip_skip, ← List.length_append] at hR₂
  exact ⟨s₂, (bind_of_ok hs₁).trans hs₂, hR₂⟩

theorem Reads.map {x : EStateM ε σ β} {xs : List α} {b : β} (hx : Reads R x xs b) (f : β → γ) :
    Reads R (f <$> x) xs (f b) := by
  intro s flat ys hR hrest
  obtain ⟨s₁, hs₁, hR₁⟩ := hx s flat ys hR hrest
  refine ⟨s₁, ?_, hR₁⟩
  change EStateM.map f x s = _
  simp only [EStateM.map, hs₁]

end Programs

end FlatBuffer

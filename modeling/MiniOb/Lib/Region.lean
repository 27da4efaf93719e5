import Mathlib.Data.List.GetD

/-! Parts of a list that are read and overwritten at an offset. -/
namespace MiniOb.Region
open List
variable {α : Type}

def slice (offset length : Nat) (data : List α) : List α := (data.drop offset).take length

def put (offset : Nat) (part data : List α) : List α :=
  data.mapIdx fun i old => if offset ≤ i then part.getD (i - offset) old else old

variable {offset at_ length i : Nat} {part data other : List α}

@[simp] theorem putLength (offset : Nat) (part data : List α) : (put offset part data).length = data.length := length_mapIdx

theorem getPut (i : Nat) :
    (put offset part data)[i]? = data[i]?.map fun old => if offset ≤ i then part.getD (i - offset) old else old :=
  getElem?_mapIdx

theorem getSlice (i : Nat) : (slice offset length data)[i]? = if i < length then data[offset + i]? else none := by
  unfold slice
  rw [getElem?_take]
  split
  · rw [getElem?_drop]
  · rfl

theorem getPutInside (fits : offset + part.length ≤ data.length) (inside : i < part.length) :
    (put offset part data)[offset + i]? = part[i]? := by
  rw [getPut,getElem?_eq_getElem (by omega),getElem?_eq_getElem inside,Option.map_some,if_pos (Nat.le_add_right _ _),
    Nat.add_sub_cancel_left,getD_eq_getElem _ _ inside]

theorem slicePutInside (fits : offset + part.length ≤ data.length) (inside : i + length ≤ part.length) :
    slice (offset + i) length (put offset part data) = slice i length part := by
  apply ext_getElem?
  intro k
  rw [getSlice,getSlice]
  split
  · rw [Nat.add_assoc,getPutInside fits (by omega)]
  · rfl

theorem slicePut (fits : offset + part.length ≤ data.length) : slice offset part.length (put offset part data) = part := by
  have whole := slicePutInside (i := 0) fits (Nat.le_of_eq (Nat.zero_add part.length))
  rwa [Nat.add_zero,show slice 0 part.length part = part from take_length] at whole

theorem getPutOutside (outside : i < offset ∨ offset + part.length ≤ i) : (put offset part data)[i]? = data[i]? := by
  rw [getPut]
  have same : ∀ old, (if offset ≤ i then part.getD (i - offset) old else old) = old := by
    intro old
    split
    · rw [getD_eq_default _ _ (by omega)]
    · rfl
  simp only [same,Option.map_id']

theorem sliceCongr (same : ∀ i < length, data[offset + i]? = other[offset + i]?) :
    slice offset length data = slice offset length other := by
  apply ext_getElem?
  intro i
  rw [getSlice,getSlice]
  split
  · rename_i inside
    exact same i inside
  · rfl

theorem slicePutOutside (apart : at_ + length ≤ offset ∨ offset + part.length ≤ at_) :
    slice at_ length (put offset part data) = slice at_ length data :=
  sliceCongr fun _ _ => getPutOutside (by omega)

end MiniOb.Region

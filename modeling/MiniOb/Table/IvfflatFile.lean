import MiniOb.Lib.Bytes
import MiniOb.Table.IvfflatIndex

/-! The file of an IVF-Flat index (`save_to_file` and `load_from_file` in `storage/index/ivfflat_index.cpp`). -/
namespace MiniOb
open Bytes

structure VectorCodec (V : Type) where
  dim : Int32
  encode : V → Bytes
  decode : Bytes → V

namespace VectorCodec
variable {V : Type} (codec : VectorCodec V)

def itemBytes (item : V × RID) : Bytes := codec.encode item.1 ++ (ofInt32 item.2.pageNum ++ ofInt32 item.2.slotNum)

def listBytes (list : List (V × RID)) : Bytes := ofInt64 (Int64.ofNat list.length) ++ list.flatMap codec.itemBytes

def readVector (dim : Int32) (bytes : Bytes) : Option (V × Bytes) :=
  (read (4 * natOf dim) bytes).map fun parts => (codec.decode parts.1,parts.2)

def readItem (dim : Int32) (bytes : Bytes) : Option ((V × RID) × Bytes) := do
  let (vec,rest) ← codec.readVector dim bytes
  let (pageNum,rest) ← readInt32 rest
  let (slotNum,rest) ← readInt32 rest
  some ((vec,⟨pageNum,slotNum⟩),rest)

def readList (dim : Int32) (bytes : Bytes) : Option (List (V × RID) × Bytes) := do
  let (size,rest) ← readInt64 bytes
  readMany (codec.readItem dim) size.toInt.toNat rest

def Exact (vec : V) : Prop := (codec.encode vec).length = 4 * natOf codec.dim ∧ codec.decode (codec.encode vec) = vec

variable {codec}

theorem readVectorBytes (exactly : codec.Exact vec) (rest : Bytes) :
    codec.readVector codec.dim (codec.encode vec ++ rest) = some (vec,rest) := by
  rw [readVector,readAppend exactly.1]
  simp [exactly.2]

theorem readItemBytes (exactly : codec.Exact item.1) (rest : Bytes) :
    codec.readItem codec.dim (codec.itemBytes item ++ rest) = some (item,rest) := by
  simp [readItem,itemBytes,List.append_assoc,readVectorBytes exactly,readInt32Append]

theorem sizeBack (small : n < 2 ^ 63) : (Int64.ofNat n).toInt.toNat = n := by
  simp [Int64.toInt_ofNat_of_lt small]

theorem readListBytes (exactly : ∀ item ∈ list,codec.Exact item.1) (small : list.length < 2 ^ 63)
    (rest : Bytes) : codec.readList codec.dim (codec.listBytes list ++ rest) = some (list,rest) := by
  have items := readManyAppend (fun item inside rest => readItemBytes (exactly item inside) rest) rest
  simp only [readList,listBytes,List.append_assoc,readInt64Append,Option.bind_eq_bind,Option.bind_some,sizeBack small]
  exact items

end VectorCodec

def textBytes (s : String) : Bytes := s.toByteArray.data.toList

def readText (bytes : Bytes) : Option String := String.fromUTF8? ⟨bytes.toArray⟩

theorem readTextBytes (s : String) : readText (textBytes s) = some s := by
  have same : (⟨(textBytes s).toArray⟩ : ByteArray) = s.toByteArray := by simp [textBytes]
  rw [readText,same,String.fromUTF8?,dif_pos s.isValidUTF8]
  rfl

namespace IvfflatIndex
variable {V : Type} (codec : VectorCodec V)

def saveToFile (index : IvfflatIndex V) : Bytes :=
  ofInt32 codec.dim ++ (ofInt32 index.lists ++ (ofInt32 index.probes ++
    (ofInt64 (Int64.ofNat (textBytes index.distanceMethod).length) ++ (textBytes index.distanceMethod ++
      (index.centroids.flatMap codec.encode ++ index.invertedLists.flatMap codec.listBytes)))))

/- None where the file ends too early, which the code does not look at. `IvfflatIndex::open` takes everything from the file. -/
def loadFromFile (bytes : Bytes) : Option (IvfflatIndex V) := do
  let (dim,rest) ← readInt32 bytes
  let (lists,rest) ← readInt32 rest
  let (probes,rest) ← readInt32 rest
  let (methodLength,rest) ← readInt64 rest
  let (method,rest) ← read methodLength.toInt.toNat rest
  let distanceMethod ← readText method
  let (centroids,rest) ← readMany (codec.readVector dim) (natOf lists) rest
  let (invertedLists,_) ← readMany (codec.readList dim) (natOf lists) rest
  if formed : 0 < natOf lists ∧ centroids.length = natOf lists ∧ invertedLists.length = natOf lists then
    some ⟨distanceMethod,lists,probes,centroids,invertedLists,formed.1,formed.2.1,formed.2.2⟩
  else none

structure Fits (index : IvfflatIndex V) : Prop where
  centroids : ∀ vec ∈ index.centroids,codec.Exact vec
  entries : ∀ list ∈ index.invertedLists,∀ item ∈ list,codec.Exact item.1
  sizes : ∀ list ∈ index.invertedLists,list.length < 2 ^ 63
  method : (textBytes index.distanceMethod).length < 2 ^ 63

variable {codec}

theorem loadSaved (fits : Fits codec index) : loadFromFile codec (saveToFile codec index) = some index := by
  have centroids := readManyAppend (fun vec inside rest => VectorCodec.readVectorBytes (fits.centroids vec inside) rest)
  have lists := readManyAppend
    (fun list inside rest => VectorCodec.readListBytes (fits.entries list inside) (fits.sizes list inside) rest) []
  rw [index.trained] at centroids
  rw [index.listed,List.append_nil] at lists
  have formed : 0 < natOf index.lists ∧ index.centroids.length = natOf index.lists ∧ index.invertedLists.length = natOf index.lists :=
    ⟨index.positive,index.trained,index.listed⟩
  simp only [loadFromFile,saveToFile,readInt32Append,readInt64Append,Option.bind_eq_bind,Option.bind_some,
    VectorCodec.sizeBack fits.method,readAppend rfl,readTextBytes,centroids,lists,dif_pos formed]

end IvfflatIndex
end MiniOb

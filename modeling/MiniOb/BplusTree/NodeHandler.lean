import Mathlib.Logic.Function.Basic
import MiniOb.BplusTree.Page
import MiniOb.Common.LowerBound

/-! Page access, latches and the node handlers of `storage/index/bplus_tree.cpp`.
`append_log_entry` never fails, so a handler function fails only where it fetches a page;
the return codes that the source checks after logging are not repeated here. -/
namespace MiniOb.BplusTree
open Int32 (ofNat)
open Prog Function
open Buffer (maxPageNum)

variable {K : Type}

/-! ### Buffer pool and latch memo -/

def fault : TreeM K Unit := fun s => match s.mtr.faults with
  | [] => (.ok (),s)
  | none :: rest => (.ok (),{ s with mtr := { s.mtr with faults := rest } })
  | some code :: rest => (.error (.rc code),{ s with mtr := { s.mtr with faults := rest } })

def hold (item : MemoItem) : TreeM K Unit :=
  update fun s => { s with mtr := { s.mtr with held := item :: s.mtr.held } }

def dropHeld (item : MemoItem) (s : Handler K) : Handler K :=
  { s with mtr := { s.mtr with held := s.mtr.held.erase item } }

def letGo (item : MemoItem) : TreeM K Unit := update (dropHeld item)

def memoize (item : MemoItem) : TreeM K Unit :=
  update fun s => { s with mtr := { s.mtr with memo := s.mtr.memo ++ [item] } }

def latch (item : MemoItem) : TreeM K Unit := do
  hold item
  memoize item

def memoPoint : TreeM K Nat := read fun s => s.mtr.memo.length

def releaseTo (point : Nat) : TreeM K Unit :=
  update fun s => { s with mtr := { s.mtr with
    held := (s.mtr.memo.take point).reverse.foldl List.erase s.mtr.held
    memo := s.mtr.memo.drop point } }

def getPage (page : PageNum) : TreeM K Unit := do
  fault
  latch (.pin page)

def appendLog (record : LSN → LogRecord) : TreeM K LSN := fun s =>
  let lsn := s.currentLsn + 1
  (.ok lsn,{ s with currentLsn := lsn, log := s.log ++ [record lsn] })

def setBit (page : Nat) : TreeM K Unit :=
  update fun s => { s with disk := { s.disk with file := s.disk.file.setBit page } }

def extendFile (page : Nat) : TreeM K Unit :=
  update fun s => { s with disk := { s.disk with
    node := update s.disk.node (ofNat page) .cleared
    lsn := update s.disk.lsn (ofNat page) 0
    file := (s.disk.file.setBit page).extend } }

def allocatePage : TreeM K PageNum := do
  match ← read fun s => s.disk.file.freePage with
  | some page =>
      setBit page
      let _ ← appendLog (.allocatePage · (ofNat page))
      fault
      hold (.pin (ofNat page))
      pure (ofNat page)
  | none =>
      let page ← read fun s => s.disk.file.pageCount
      if maxPageNum ≤ page then exit (.rc .bufferpoolNobuf)
      else
        let _ ← appendLog (.allocatePage · (ofNat page))
        fault
        extendFile page
        hold (.pin (ofNat page))
        pure (ofNat page)

def memoAllocatePage : TreeM K PageNum := do
  let page ← allocatePage
  memoize (.pin page)
  pure page

def disposePage (page : PageNum) : TreeM K Unit :=
  update fun s => { s with mtr := { s.mtr with disposed := s.mtr.disposed ++ [page] } }

def markDirty (page : PageNum) : TreeM K Unit :=
  update fun s => { s with mtr := { s.mtr with dirty := page :: s.mtr.dirty } }

def ignoreRc (m : TreeM K Unit) : TreeM K Unit := ignore Exit.isCode m

/-- A call whose return code is dropped although the caller then uses a null pointer. -/
def insist {α : Type} (m : TreeM K α) : TreeM K α := fun s => match m s with
  | (.ok a,t) => (.ok a,t)
  | (.error _,t) => (.error .abort,t)

def attempt {α : Type} (m : TreeM K α) : TreeM K (Option α) := fun s => match m s with
  | (.ok a,t) => (.ok (some a),t)
  | (.error (.rc _),t) => (.ok none,t)
  | (.error .abort,t) => (.error .abort,t)

theorem takesAttempt
    (run : Takes sees m S (.ok a) T) : Takes sees (attempt m) S (.ok (some a)) T := by
  intro s h
  obtain ⟨value,seen⟩ := run s h
  have same : m s = (.ok a,(m s).2) := Prod.ext value rfl
  unfold attempt
  rw [same]
  exact ⟨rfl,seen⟩

def assert (c : Prop) [Decidable c] : TreeM K Unit := if c then pure () else exit .abort

/-! ### Nodes -/

def getNode (page : PageNum) : TreeM K (IndexNode K) := read fun s => s.disk.node page

def setNode (page : PageNum) (node : IndexNode K) : TreeM K Unit :=
  update fun s => { s with disk := { s.disk with node := update s.disk.node page node } }

def getHeader : TreeM K IndexFileHeader := read fun s => s.disk.header

def appendLogEntry (entry : LogEntry) : TreeM K Unit :=
  update fun s => if s.mtr.needLog then
    { s with mtr := { s.mtr with entries := s.mtr.entries ++ [entry] } } else s

def recoverInsertItems {α : Type} (index : Nat) (new items : List α) : List α :=
  items.take index ++ new ++ items.drop index

def recoverRemoveItems {α : Type} (index num : Nat) (items : List α) : List α :=
  if index + num < items.length then items.take index ++ items.drop (index + num)
  else items.take (items.length - num)

def ridBytes (rid : RID) : Bytes := Bytes.ofInt32 rid.pageNum ++ Bytes.ofInt32 rid.slotNum

def leafBytes (ops : KeyOps K) (items : List (K × RID)) : Bytes :=
  items.flatMap fun item => ops.encode item.1 ++ ridBytes item.2

def internalBytes (ops : KeyOps K) (items : List (K × PageNum)) : Bytes :=
  items.flatMap fun item => ops.encode item.1 ++ Bytes.ofInt32 item.2

namespace IndexNodeHandler

def setParentPageNum (page parent : PageNum) : TreeM K Unit := do
  let node ← getNode page
  appendLogEntry (.setParentPage page parent node.parent)
  setNode page (node.setParent parent)

end IndexNodeHandler

inductive OperationType where
  | read
  | insert
  | delete
  deriving DecidableEq, Repr

def isSafe (header : IndexFileHeader) (op : OperationType) (isRoot : Bool) (node : IndexNode K) : Bool :=
  match op with
  | .read => true
  | .insert => node.size < header.maxSize node
  | .delete =>
      if isRoot then
        if node.isLeaf then 1 < node.size else 2 < node.size
      else header.minSize node < node.size

namespace LeafIndexNodeHandler

def view (page : PageNum) : TreeM K (PageNum × PageNum × List (K × RID)) := do
  match ← getNode page with
  | .leaf parent next items => pure (parent,next,items)
  | .internal _ _ => exit .abort

def initEmpty (page : PageNum) : TreeM K Unit := do
  appendLogEntry (.leafInitEmpty page)
  setNode page (.leaf bpInvalidPageNum bpInvalidPageNum [])

def setNextPage (page next : PageNum) : TreeM K Unit := do
  let (parent,old,items) ← view page
  appendLogEntry (.leafSetNextPage page next old)
  setNode page (.leaf parent next items)

def lookup (ops : KeyOps K) (key : K) (items : List (K × RID)) : Nat × Bool :=
  lowerBound (fun item => ops.compare item.1 key) items

def insertItems (ops : KeyOps K) (page : PageNum) (index : Nat) (new : List (K × RID)) : TreeM K Unit := do
  let (parent,next,items) ← view page
  appendLogEntry (.nodeInsert page index (leafBytes ops new) new.length)
  setNode page (.leaf parent next (recoverInsertItems index new items))

def insert (ops : KeyOps K) (page : PageNum) (index : Nat) (key : K) (rid : RID) : TreeM K Unit :=
  insertItems ops page index [(key,rid)]

def append (ops : KeyOps K) (page : PageNum) (new : List (K × RID)) : TreeM K Unit := do
  let (_,_,items) ← view page
  insertItems ops page items.length new

def preappend (ops : KeyOps K) (page : PageNum) (item : K × RID) : TreeM K Unit :=
  insertItems ops page 0 [item]

def remove (ops : KeyOps K) (page : PageNum) (index : Nat) : TreeM K Unit := do
  let (parent,next,items) ← view page
  assert (index < items.length)
  appendLogEntry (.nodeRemove page index (leafBytes ops ((items.drop index).take 1)) 1)
  setNode page (.leaf parent next (recoverRemoveItems index 1 items))

def moveHalfTo (ops : KeyOps K) (page other : PageNum) : TreeM K Unit := do
  let (_,_,items) ← view page
  let moveIndex := items.length / 2
  append ops other (items.drop moveIndex)
  let (parent,next,items) ← view page
  appendLogEntry (.nodeRemove page moveIndex (leafBytes ops (items.drop moveIndex)) (items.length - moveIndex))
  setNode page (.leaf parent next (recoverRemoveItems moveIndex (items.length - moveIndex) items))

def moveFirstToEnd (ops : KeyOps K) (page other : PageNum) : TreeM K Unit := do
  let (_,_,items) ← view page
  append ops other (items.take 1)
  remove ops page 0

def moveLastToFront (ops : KeyOps K) (page other : PageNum) : TreeM K Unit := do
  let (_,_,items) ← view page
  match items.getLast? with
  | none => exit .abort
  | some item =>
      preappend ops other item
      remove ops page (items.length - 1)

def moveTo (ops : KeyOps K) (page other : PageNum) : TreeM K Unit := do
  let (_,next,items) ← view page
  append ops other items
  setNextPage other next
  let (parent,next,items) ← view page
  appendLogEntry (.nodeRemove page 0 (leafBytes ops items) items.length)
  setNode page (.leaf parent next [])

end LeafIndexNodeHandler

namespace InternalIndexNodeHandler

def view (page : PageNum) : TreeM K (PageNum × List (K × PageNum)) := do
  match ← getNode page with
  | .internal parent items => pure (parent,items)
  | .leaf _ _ _ => exit .abort

def initEmpty (page : PageNum) : TreeM K Unit := do
  appendLogEntry (.internalInitEmpty page)
  setNode page (.internal bpInvalidPageNum [])

/-- Called on an empty node only; the two items become its content. -/
def createNewRoot (ops : KeyOps K) (page first : PageNum) (key : K) (child : PageNum) : TreeM K Unit := do
  let (parent,items) ← view page
  appendLogEntry (.internalCreateNewRoot page first (ops.encode key) child)
  setNode page (.internal parent ((ops.zeroKey,first) :: (key,child) :: items))

/-- The child that a key belongs to, and the position at which the key can be inserted. The
search leaves out the first key. -/
def lookup (ops : KeyOps K) (key : K) (items : List (K × PageNum)) : Nat × Nat :=
  if items.length = 0 then (0,1)
  else
    let ret := (lowerBound (fun item => ops.compare item.1 key) items.tail).1 + 1
    match items[ret]? with
    | none => (ret - 1,ret)
    | some item => if ops.compare key item.1 < 0 then (ret - 1,ret) else (ret,ret)

def valueIndex (pageNum : PageNum) (items : List (K × PageNum)) : Option Nat :=
  items.findIdx? fun item => item.2 = pageNum

def keyAt (items : List (K × PageNum)) (index : Nat) : TreeM K K :=
  match items[index]? with
  | some item => pure item.1
  | none => exit .abort

def valueAt (items : List (K × PageNum)) (index : Nat) : TreeM K PageNum :=
  match items[index]? with
  | some item => pure item.2
  | none => exit .abort

def insert (ops : KeyOps K) (page : PageNum) (key : K) (child : PageNum) : TreeM K Unit := do
  let (parent,items) ← view page
  let position := (lookup ops key items).2
  appendLogEntry (.nodeInsert page position (internalBytes ops [(key,child)]) 1)
  setNode page (.internal parent (recoverInsertItems position [(key,child)] items))

def adoptChildren (page : PageNum) : List (K × PageNum) → TreeM K Unit
  | [] => pure ()
  | item :: rest => do
      getPage item.2
      IndexNodeHandler.setParentPageNum item.2 page
      markDirty item.2
      adoptChildren page rest

def insertItems (ops : KeyOps K) (page : PageNum) (index : Nat) (new : List (K × PageNum)) : TreeM K Unit := do
  let (parent,items) ← view page
  appendLogEntry (.nodeInsert page index (internalBytes ops new) new.length)
  setNode page (.internal parent (recoverInsertItems index new items))
  adoptChildren page new

def append (ops : KeyOps K) (page : PageNum) (new : List (K × PageNum)) : TreeM K Unit := do
  let (_,items) ← view page
  insertItems ops page items.length new

def preappend (ops : KeyOps K) (page : PageNum) (item : K × PageNum) : TreeM K Unit :=
  insertItems ops page 0 [item]

def setKeyAt (ops : KeyOps K) (page : PageNum) (index : Nat) (key : K) : TreeM K Unit := do
  let (parent,items) ← view page
  match items[index]? with
  | none => exit .abort
  | some item =>
      appendLogEntry (.internalUpdateKey page index (ops.encode key) (ops.encode item.1))
      setNode page (.internal parent (items.set index (key,item.2)))

def remove (ops : KeyOps K) (page : PageNum) (index : Nat) : TreeM K Unit := do
  let (parent,items) ← view page
  assert (index < items.length)
  appendLogEntry (.nodeRemove page index (internalBytes ops ((items.drop index).take 1)) 1)
  setNode page (.internal parent (recoverRemoveItems index 1 items))

def moveHalfTo (ops : KeyOps K) (page other : PageNum) : TreeM K Unit := do
  let (_,items) ← view page
  let moveIndex := items.length / 2
  append ops other (items.drop moveIndex)
  let (parent,items) ← view page
  appendLogEntry (.nodeRemove page moveIndex (internalBytes ops (items.drop moveIndex)) (items.length - moveIndex))
  setNode page (.internal parent (items.take moveIndex))

def moveTo (ops : KeyOps K) (page other : PageNum) : TreeM K Unit := do
  let (_,items) ← view page
  append ops other items
  let (parent,items) ← view page
  appendLogEntry (.nodeRemove page 0 (internalBytes ops items) items.length)
  setNode page (.internal parent (recoverRemoveItems 0 items.length items))

def moveFirstToEnd (ops : KeyOps K) (page other : PageNum) : TreeM K Unit := do
  let (_,items) ← view page
  append ops other (items.take 1)
  remove ops page 0

def moveLastToFront (ops : KeyOps K) (page other : PageNum) : TreeM K Unit := do
  let (_,items) ← view page
  match items.getLast? with
  | none => exit .abort
  | some item =>
      preappend ops other item
      let (parent,items) ← view page
      appendLogEntry (.nodeRemove page (items.length - 1) (internalBytes ops (items.drop (items.length - 1))) 1)
      setNode page (.internal parent (items.take (items.length - 1)))

end InternalIndexNodeHandler
end MiniOb.BplusTree

import MiniOb.BplusTree.NodeHandler

/-! `BplusTreeHandler`: descent, insertion with its splits, deletion with its merges and
redistributions, and the mini transaction that wraps each call. The loop of
`find_leaf_internal` and the recursions over the ancestors of a node are bounded by the
number of pages of the file; running out of it is an abort. -/
namespace MiniOb.BplusTree
open LeafIndexNodeHandler (insert setNextPage)
open Prog InternalIndexNodeHandler IndexNodeHandler

variable {K : Type}

inductive NodeKind where
  | leaf
  | internal
  deriving DecidableEq, Repr

def isEmpty : TreeM K Bool := do
  let header ← getHeader
  pure (header.rootPage = bpInvalidPageNum)

/-! ### Descent -/

def crabingProtocalFetchPage (op : OperationType) (page : PageNum) (isRoot : Bool) : TreeM K Unit := do
  let point ← memoPoint
  getPage page
  latch (if op = .read then .shared page else .exclusive page)
  let header ← getHeader
  let node ← getNode page
  if isSafe header op isRoot node then releaseTo point else pure ()

def descend (op : OperationType) (childPageGetter : List (K × PageNum) → TreeM K PageNum) :
    Nat → PageNum → TreeM K PageNum
  | 0,_ => exit .abort
  | fuel+1,page => do
      match ← getNode page with
      | .leaf _ _ _ => pure page
      | .internal _ items =>
          let next ← childPageGetter items
          crabingProtocalFetchPage op next false
          descend op childPageGetter fuel next

def findLeafInternal (op : OperationType) (childPageGetter : List (K × PageNum) → TreeM K PageNum) :
    TreeM K PageNum := do
  latch (if op = .read then .rootShared else .rootExclusive)
  if ← isEmpty then exit (.rc .empty)
  else
    let header ← getHeader
    crabingProtocalFetchPage op header.rootPage true
    let fuel ← read fun s => s.disk.file.pageCount
    descend op childPageGetter fuel header.rootPage

def findLeaf (ops : KeyOps K) (op : OperationType) (key : K) : TreeM K PageNum :=
  findLeafInternal op fun items =>
    valueAt items (lookup ops key items).1

def leftMostPage : TreeM K PageNum :=
  findLeafInternal .read fun items => valueAt items 0

/-! ### Insertion -/

def updateRootPageNumLocked (root : PageNum) : TreeM K Unit := do
  insist (getPage firstIndexPage)
  latch (.exclusive firstIndexPage)
  let header ← getHeader
  appendLogEntry (.updateRootPage firstIndexPage root header.rootPage)
  update fun s => { s with disk := { s.disk with header := { s.disk.header with rootPage := root } } }
  markDirty firstIndexPage

def createNewTree (ops : KeyOps K) (key : K) (rid : RID) : TreeM K Unit := do
  if ← isEmpty then
    let page ← memoAllocatePage
    LeafIndexNodeHandler.initEmpty page
    insert ops page 0 key rid
    updateRootPageNumLocked page
    markDirty page
  else exit (.rc .internal)

def initEmpty : NodeKind → PageNum → TreeM K Unit
  | .leaf => LeafIndexNodeHandler.initEmpty
  | .internal => InternalIndexNodeHandler.initEmpty

def moveHalfTo (ops : KeyOps K) : NodeKind → PageNum → PageNum → TreeM K Unit
  | .leaf => LeafIndexNodeHandler.moveHalfTo ops
  | .internal => InternalIndexNodeHandler.moveHalfTo ops

/-- `split`. The return code of `move_half_to` is dropped. -/
def split (ops : KeyOps K) (kind : NodeKind) (page : PageNum) : TreeM K PageNum := do
  let newPage ← memoAllocatePage
  latch (.exclusive newPage)
  initEmpty kind newPage
  let node ← getNode page
  setParentPageNum newPage node.parent
  ignoreRc (moveHalfTo ops kind page newPage)
  markDirty page
  markDirty newPage
  pure newPage

def createRoot (ops : KeyOps K) (page newPage : PageNum) (key : K) : TreeM K Unit := do
  let root ← allocatePage
  InternalIndexNodeHandler.initEmpty root
  createNewRoot ops root page key newPage
  setParentPageNum page root
  setParentPageNum newPage root
  markDirty page
  markDirty newPage
  hold (.exclusive root)
  updateRootPageNumLocked root
  markDirty root
  letGo (.exclusive root)
  letGo (.pin root)

def insertEntryIntoParent (ops : KeyOps K) : Nat → PageNum → PageNum → K → TreeM K Unit
  | 0,_,_,_ => exit .abort
  | fuel+1,page,newPage,key => do
      let node ← getNode page
      let parent := node.parent
      if parent = bpInvalidPageNum then createRoot ops page newPage key
      else
        getPage parent
        let header ← getHeader
        let parentNode ← getNode parent
        if parentNode.size < header.maxSize parentNode then
          insert ops parent key newPage
          setParentPageNum newPage parent
          markDirty page
          markDirty newPage
          markDirty parent
        else
          let newParent ← split ops .internal parent
          let (_,items) ← view newParent
          let separator ← keyAt items 0
          if 0 < ops.compare key separator then
            insert ops newParent key newPage
            setParentPageNum newPage newParent
          else
            insert ops parent key newPage
            setParentPageNum newPage parent
          let (_,items) ← view newParent
          let separator ← keyAt items 0
          insertEntryIntoParent ops fuel parent newParent separator

def firstLeafKey (page : PageNum) : TreeM K K := do
  let (_,_,items) ← LeafIndexNodeHandler.view page
  match items with
  | [] => exit .abort
  | item :: _ => pure item.1

def insertEntryIntoLeafNode (ops : KeyOps K) (page : PageNum) (key : K) (rid : RID) : TreeM K Unit := do
  let (_,_,items) ← LeafIndexNodeHandler.view page
  let (position,found) := LeafIndexNodeHandler.lookup ops key items
  if found then exit (.rc .recordDuplicateKey)
  else
    let header ← getHeader
    let node ← getNode page
    if items.length < header.maxSize node then
      insert ops page position key rid
      markDirty page
    else
      let newPage ← split ops .leaf page
      let (parent,next,items) ← LeafIndexNodeHandler.view page
      setNextPage newPage next
      setParentPageNum newPage parent
      setNextPage page newPage
      if position < items.length then insert ops page position key rid
      else insert ops newPage (position - items.length) key rid
      let first ← firstLeafKey newPage
      let fuel ← read fun s => s.disk.file.pageCount
      insertEntryIntoParent ops fuel page newPage first

def insertEntryBody (ops : KeyOps K) (key : K) (rid : RID) : TreeM K Unit := do
  if ← isEmpty then
    hold .rootExclusive
    ensure (createNewTree ops key rid) (dropHeld .rootExclusive)
  else
    let page ← findLeaf ops .insert key
    insertEntryIntoLeafNode ops page key rid

/-! ### Deletion -/

def adjustRoot (root : PageNum) : TreeM K Unit := do
  match ← getNode root with
  | .leaf _ _ (_ :: _) => markDirty root
  | .leaf _ _ [] =>
      updateRootPageNumLocked bpInvalidPageNum
      disposePage root
  | .internal _ items =>
      let child ← valueAt items 0
      getPage child
      setParentPageNum child bpInvalidPageNum
      updateRootPageNumLocked child
      disposePage root

def lastKey (page : PageNum) : TreeM K K := do
  match ← getNode page with
  | .leaf _ _ items => match items.getLast? with
      | some item => pure item.1
      | none => exit .abort
  | .internal _ items => match items.getLast? with
      | some item => pure item.1
      | none => exit .abort

def firstKey (page : PageNum) : TreeM K K := do
  match ← getNode page with
  | .leaf _ _ items => match items with
      | item :: _ => pure item.1
      | [] => exit .abort
  | .internal _ items => match items with
      | item :: _ => pure item.1
      | [] => exit .abort

def moveTo (ops : KeyOps K) : NodeKind → PageNum → PageNum → TreeM K Unit
  | .leaf => LeafIndexNodeHandler.moveTo ops
  | .internal => InternalIndexNodeHandler.moveTo ops

def moveFirstToEnd (ops : KeyOps K) : NodeKind → PageNum → PageNum → TreeM K Unit
  | .leaf => LeafIndexNodeHandler.moveFirstToEnd ops
  | .internal => InternalIndexNodeHandler.moveFirstToEnd ops

def moveLastToFront (ops : KeyOps K) : NodeKind → PageNum → PageNum → TreeM K Unit
  | .leaf => LeafIndexNodeHandler.moveLastToFront ops
  | .internal => InternalIndexNodeHandler.moveLastToFront ops

/-- `redistribute`. The return codes of the two moves are dropped. -/
def redistribute (ops : KeyOps K) (kind : NodeKind) (neighbor page parent : PageNum) (index : Nat) :
    TreeM K Unit := do
  if index = 0 then
    ignoreRc (moveFirstToEnd ops kind neighbor page)
    let key ← firstKey neighbor
    setKeyAt ops parent (index + 1) key
  else
    ignoreRc (moveLastToFront ops kind neighbor page)
    let key ← firstKey page
    setKeyAt ops parent index key
  markDirty neighbor
  markDirty page
  markDirty parent

def mergeNodes (ops : KeyOps K) (kind : NodeKind) (left right parent : PageNum) (index : Nat) : TreeM K Unit := do
  remove ops parent index
  moveTo ops kind right left
  match kind with
  | .leaf =>
      let (_,next,_) ← LeafIndexNodeHandler.view right
      setNextPage left next
  | .internal => pure ()
  disposePage right

def coalesceOrRedistribute (ops : KeyOps K) : Nat → NodeKind → PageNum → TreeM K Unit
  | 0,_,_ => exit .abort
  | fuel+1,kind,page => do
      let header ← getHeader
      let node ← getNode page
      if header.minSize node ≤ node.size then pure ()
      else if node.parent = bpInvalidPageNum then
        if 1 < node.size then pure () else ignoreRc (adjustRoot page)
      else
        let parent := node.parent
        getPage parent
        let (_,items) ← view parent
        let key ← lastKey page
        let index := (lookup ops key items).1
        let value ← valueAt items index
        assert (value = page)
        let neighbor ← valueAt items (if index = 0 then 1 else index - 1)
        getPage neighbor
        latch (.exclusive neighbor)
        let neighborNode ← getNode neighbor
        if header.maxSize node < node.size + neighborNode.size then
          redistribute ops kind neighbor page parent index
        else
          if index = 0 then mergeNodes ops kind page neighbor parent 1
          else mergeNodes ops kind neighbor page parent index
          coalesceOrRedistribute ops fuel .internal parent

def deleteEntryInternal (ops : KeyOps K) (page : PageNum) (key : K) : TreeM K Unit := do
  let (_,_,items) ← LeafIndexNodeHandler.view page
  let (index,found) := LeafIndexNodeHandler.lookup ops key items
  if found then
    LeafIndexNodeHandler.remove ops page index
    markDirty page
    let header ← getHeader
    let node ← getNode page
    if header.minSize node ≤ node.size then pure ()
    else
      let fuel ← read fun s => s.disk.file.pageCount
      coalesceOrRedistribute ops fuel .leaf page
  else exit (.rc .recordNotExist)

def deleteEntryBody (ops : KeyOps K) (key : K) : TreeM K Unit := fun s =>
  match findLeaf ops .delete key s with
  | (.ok page,t) => deleteEntryInternal ops page key t
  | (.error (.rc .empty),t) => (.error (.rc .recordNotExist),t)
  | (.error e,t) => (.error e,t)

end MiniOb.BplusTree

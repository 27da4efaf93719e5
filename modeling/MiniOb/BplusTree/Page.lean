import MiniOb.Buffer.FileHeader
import MiniOb.Lib.Bytes
import MiniOb.Lib.PagedTree.Basic
import MiniOb.Lib.Prog

/-! Data of the B+ tree index (`storage/index/bplus_tree.h`): node pages, the header
page, log entries, and the state that a `BplusTreeHandler` works on together with its mini
transaction. The page allocation header is the one of the buffer pool. -/
namespace MiniOb.BplusTree
open Buffer (BPFileHeader)

/-- What the tree uses of its keys: `KeyComparator`, the key length, and the bytes by which
a key stands in a page or a log entry. -/
structure KeyOps (K : Type) where
  compare : K → K → Int
  keyLength : Nat
  encode : K → Bytes
  decode : Bytes → K

def KeyOps.zeroKey {K : Type} (ops : KeyOps K) : K := ops.decode (List.replicate ops.keyLength 0)

structure IndexKey (A : Type) where
  attr : A
  rid : RID
  deriving DecidableEq, Repr

instance {A : Type} [LinearOrder A] : LinearOrder (IndexKey A) :=
  LinearOrder.lift' (fun key : IndexKey A => toLex (key.attr,key.rid)) (by
    intro a b same
    have parts := Prod.ext_iff.mp (toLex.injective same)
    cases a
    cases b
    simpa using parts)

/-- `IndexNode` with its items; `LeafIndexNode` and `InternalIndexNode` are told apart by the
`is_leaf` field. The first key of an internal node is stored and moved like the others. -/
abbrev IndexNode (K : Type) := PagedTree.Node PageNum K RID

def IndexNode.cleared {K : Type} : IndexNode K := .internal 0 []

structure IndexFileHeader where
  rootPage : PageNum
  internalMaxSize : Int32
  leafMaxSize : Int32
  attrLength : Int32
  keyLength : Int32
  attrType : Int32
  deriving DecidableEq, Repr

def firstIndexPage : PageNum := 1

namespace IndexFileHeader

def maxSize {K : Type} (header : IndexFileHeader) (node : IndexNode K) : Nat :=
  if node.isLeaf then natOf header.leafMaxSize else natOf header.internalMaxSize

def minSize {K : Type} (header : IndexFileHeader) (node : IndexNode K) : Nat :=
  header.maxSize node - header.maxSize node / 2

end IndexFileHeader

/-- `LogOperation` with the data of its `LogEntryHandler`. An index or a count is an `int` of either
sign there; a mini transaction makes entries with natural numbers only. The `old` fields are used
by rollback only and are not written to the log. -/
inductive LogEntry (I : Type := Nat) where
  | initHeaderPage (page : PageNum) (header : IndexFileHeader)
  | updateRootPage (page root old : PageNum)
  | setParentPage (page parent old : PageNum)
  | leafInitEmpty (page : PageNum)
  | leafSetNextPage (page next old : PageNum)
  | internalInitEmpty (page : PageNum)
  | internalCreateNewRoot (page first : PageNum) (key : Bytes) (child : PageNum)
  | internalUpdateKey (page : PageNum) (index : I) (key old : Bytes)
  | nodeInsert (page : PageNum) (index : I) (items : Bytes) (itemNum : I)
  | nodeRemove (page : PageNum) (index : I) (items : Bytes) (itemNum : I)
  deriving DecidableEq, Repr

def LogEntry.page {I : Type} : LogEntry I → PageNum
  | initHeaderPage page _ => page
  | updateRootPage page _ _ => page
  | setParentPage page _ _ => page
  | leafInitEmpty page => page
  | leafSetNextPage page _ _ => page
  | internalInitEmpty page => page
  | internalCreateNewRoot page _ _ _ => page
  | internalUpdateKey page _ _ _ => page
  | nodeInsert page _ _ _ => page
  | nodeRemove page _ _ _ => page

/-- A record of the write-ahead log: page allocations of the buffer pool, and the serialized
entries of one mini transaction. -/
inductive LogRecord where
  | allocatePage (lsn : LSN) (page : PageNum)
  | deallocatePage (lsn : LSN) (page : PageNum)
  | bplusTree (lsn : LSN) (payload : Bytes)
  deriving DecidableEq, Repr

inductive MemoItem where
  | pin (page : PageNum)
  | shared (page : PageNum)
  | exclusive (page : PageNum)
  | rootShared
  | rootExclusive
  deriving DecidableEq, Repr

/-- The pages of an index file. `header` is the content of page `FIRST_INDEX_PAGE`; the
handler's `file_header_` is written together with it and never differs. -/
structure IndexFile (K : Type) where
  header : IndexFileHeader
  node : PageNum → IndexNode K
  lsn : PageNum → LSN
  file : BPFileHeader

/-- `BplusTreeMiniTransaction`: its logger and its latch memo. `held` lists every pin, latch
and lock that is held, `dirty` the frames marked dirty. `faults` decides which of the coming
calls into the buffer pool and the log handler fail; once it is empty none does. -/
structure Mtr where
  entries : List LogEntry
  needLog : Bool
  memo : List MemoItem
  disposed : List PageNum
  held : List MemoItem
  dirty : List PageNum
  faults : List (Option RC)

structure Handler (K : Type) where
  disk : IndexFile K
  mtr : Mtr
  currentLsn : LSN
  log : List LogRecord

abbrev TreeM (K : Type) := Prog (Handler K) Exit

end MiniOb.BplusTree

import MiniOb.BplusTree.Search
import MiniOb.Lib.PagedTree.Leaves
import MiniOb.Lib.PagedTree.Reshape

/-! The invariant of an index file, page allocation under it, and runs that may stop because
the file is full. -/
namespace MiniOb.BplusTree
open Prog PagedTree PagedTree.Bound Function
open Buffer (BPFileHeader maxPageNum)

variable {K : Type}

/-! ### The file -/

def Allocated (file : BPFileHeader) (p : PageNum) : Prop :=
  2 ≤ natOf p ∧ natOf p < file.pageCount ∧ file.bitmap (natOf p) = true

structure FileOk (file : BPFileHeader) : Prop where
  few : file.pageCount ≤ maxPageNum
  two : 2 ≤ file.pageCount
  first : file.bitmap 0 = true
  header : file.bitmap 1 = true

structure Fresh (S T : Store K) (n : PageNum) : Prop where
  header : T.header = S.header
  disposed : T.disposed = S.disposed
  node : ∀ c, c ≠ n → T.node c = S.node c
  file : FileOk T.file
  allocated : Allocated T.file n
  before : ¬ Allocated S.file n
  keeps : ∀ p, Allocated S.file p → Allocated T.file p

variable {S T : Store K} {header : IndexFileHeader} {x : IndexNode K}

theorem Fresh.valid (fresh : Fresh S T n) : n ≠ bpInvalidPageNum := by
  rintro rfl
  exact absurd fresh.allocated.1 (by decide)

theorem freshBit (file : FileOk S.file) (large : 2 ≤ page) (small : page < maxPageNum)
    (header : T.header = S.header) (disposed : T.disposed = S.disposed)
    (node : ∀ c, c ≠ Int32.ofNat page → T.node c = S.node c)
    (count : S.file.pageCount ≤ T.file.pageCount) (inside : page < T.file.pageCount)
    (few : T.file.pageCount ≤ maxPageNum)
    (bitmap : T.file.bitmap = update S.file.bitmap page true)
    (before : page < S.file.pageCount → S.file.bitmap page = false) : Fresh S T (Int32.ofNat page) := by
  have number : natOf (Int32.ofNat page) = page :=
    natOfOfNat (small.trans (by decide))
  have bit : ∀ i, S.file.bitmap i = true → T.file.bitmap i = true := by
    intro i set
    rw [bitmap]
    by_cases same : i = page
    · subst same; simp
    · rw [update_of_ne same,set]
  refine ⟨header,disposed,node,⟨few,file.two.trans count,bit 0 file.first,bit 1 file.header⟩,?_,?_,?_⟩
  · rw [Allocated,number,bitmap]
    exact ⟨large,inside,by simp⟩
  · rintro ⟨-,within,set⟩
    rw [number] at within set
    rw [before within] at set
    cases set
  · rintro p ⟨two,within,set⟩
    exact ⟨two,within.trans_le count,bit _ set⟩

def Store.useFree (S : Store K) (page : Nat) : Store K :=
  { S with file := S.file.setBit page }

def Store.extend (S : Store K) : Store K :=
  { S with
    node := update S.node (Int32.ofNat S.file.pageCount) .cleared
    file := (S.file.setBit S.file.pageCount).extend }

theorem takesSetBit (page : Nat) : Takes Sees (setBit page : TreeM K Unit) S (.ok ()) (S.useFree page) :=
  takesUpdate fun _ h => ⟨h.faults,h.header,h.node,by simp only [Store.useFree,h.file],h.disposed⟩

theorem takesExtendFile : Takes Sees (extendFile S.file.pageCount : TreeM K Unit) S (.ok ()) S.extend :=
  takesUpdate fun _ h => ⟨h.faults,h.header,by simp only [Store.extend,h.node],
    by simp only [Store.extend,h.file],h.disposed⟩

theorem takesAllocatePage (file : FileOk S.file) :
    Takes Sees (allocatePage : TreeM K PageNum) S (.error (.rc .bufferpoolNobuf)) S ∨
    ∃ n T, Takes Sees (allocatePage : TreeM K PageNum) S (.ok n) T ∧ Fresh S T n := by
  have free : Takes Sees (read fun s : Handler K => s.disk.file.freePage : TreeM K (Option Nat)) S
      (.ok S.file.freePage) S := takesRead fun _ h => by rw [h.file]
  cases found : S.file.freePage with
  | some page =>
    rw [found] at free
    right
    have chosen := BPFileHeader.freePageClear found
    have large : 2 ≤ page := by
      by_contra low
      have : page = 0 ∨ page = 1 := by omega
      rcases this with rfl | rfl
      · rw [file.first] at chosen; cases chosen.2
      · rw [file.header] at chosen; cases chosen.2
    refine ⟨Int32.ofNat page,S.useFree page,?_,
      freshBit file large (chosen.1.trans_le file.few) rfl rfl (fun _ _ => rfl) (le_refl _) chosen.1 file.few rfl
        fun _ => chosen.2⟩
    refine takesBind free (takesBind (takesSetBit page) ?_)
    exact takesAppendLog _ fun _ => takesBind takesFault (takesBind takesHold takesPure)
  | none =>
    rw [found] at free
    by_cases full : maxPageNum ≤ S.file.pageCount
    · left
      refine takesBind free (takesBind takesPageCount ?_)
      rw [if_pos full]
      exact takesExit
    · right
      refine ⟨Int32.ofNat S.file.pageCount,S.extend,?_,
        freshBit file file.two (by omega) rfl rfl (fun c different => update_of_ne different _ _)
          (Nat.le_succ _) (Nat.lt_succ_self _) (by show S.file.pageCount + 1 ≤ maxPageNum; omega) rfl
          fun wrong => absurd wrong (lt_irrefl _)⟩
      refine takesBind free (takesBind takesPageCount ?_)
      rw [if_neg full]
      exact takesAppendLog _ fun _ => takesBind takesFault (takesBind takesExtendFile
        (takesBind takesHold takesPure))

def Yields {α : Type} (m : TreeM K α) (S : Store K) (post : α → Store K → Prop) : Prop :=
  (∃ T, Takes Sees m S (.error (.rc .bufferpoolNobuf)) T) ∨ ∃ a T, Takes Sees m S (.ok a) T ∧ post a T

section
variable {α β : Type} {m : TreeM K α} {f : α → TreeM K β} {S T : Store K} {a : α}
  {post : α → Store K → Prop} {post' : β → Store K → Prop}

theorem yieldsOk (run : Takes Sees m S (.ok a) T) (ok : post a T) : Yields m S post :=
  .inr ⟨a,T,run,ok⟩

theorem yieldsAfter (first : Takes Sees m S (.ok a) T) (rest : Yields (f a) T post') : Yields (m >>= f) S post' := by
  rcases rest with ⟨U,full⟩ | ⟨b,U,run,ok⟩
  · exact .inl ⟨U,takesBind first full⟩
  · exact .inr ⟨b,U,takesBind first run,ok⟩

theorem yieldsBind (first : Yields m S post) (rest : ∀ a T, post a T → Yields (f a) T post') :
    Yields (m >>= f) S post' := by
  rcases first with ⟨T,full⟩ | ⟨a,T,run,ok⟩
  · exact .inl ⟨T,takesBindError full⟩
  · exact yieldsAfter run (rest a T ok)

theorem yieldsWeaken (run : Yields m S post) (weaker : ∀ a T, post a T → other a T) :
    Yields m S other := by
  rcases run with full | ⟨a,T,run,ok⟩
  · exact .inl full
  · exact .inr ⟨a,T,run,weaker a T ok⟩

end

theorem yieldsAllocatePage (file : FileOk S.file) :
    Yields (allocatePage : TreeM K PageNum) S fun n T => Fresh S T n := by
  rcases takesAllocatePage file with full | ⟨n,T,run,fresh⟩
  · exact .inl ⟨S,full⟩
  · exact .inr ⟨n,T,run,fresh⟩

theorem yieldsMemoAllocatePage (file : FileOk S.file) :
    Yields (memoAllocatePage : TreeM K PageNum) S fun n T => Fresh S T n :=
  yieldsBind (yieldsAllocatePage file) fun _ _ fresh =>
    yieldsAfter (takesMemoize _) (yieldsOk takesPure fresh)

/-! ### The tree in the file -/

def fill (header : IndexFileHeader) (root p : PageNum) (x : IndexNode K) : Nat :=
  if p = root then if x.isLeaf then 1 else 2 else header.maxSize x / 2

def SizeOk (header : IndexFileHeader) (root p : PageNum) (x : IndexNode K) : Prop :=
  fill header root p x ≤ x.size ∧ x.size ≤ header.maxSize x

theorem maxSizeLeaf (header : IndexFileHeader) (parent next : PageNum) (items : List (K × RID)) :
    header.maxSize (.leaf parent next items : IndexNode K) = natOf header.leafMaxSize :=
  rfl

theorem maxSizeInternal (header : IndexFileHeader) (parent : PageNum) (items : List (K × PageNum)) :
    header.maxSize (.internal parent items : IndexNode K) = natOf header.internalMaxSize :=
  rfl

theorem maxSizeSetParent (header : IndexFileHeader) (q : PageNum) (x : IndexNode K) :
    header.maxSize (x.setParent q) = header.maxSize x := by
  simp [IndexFileHeader.maxSize]

theorem sizeOkSetParent : SizeOk header root p (x.setParent q) ↔ SizeOk header root p x := by
  simp [SizeOk,fill,maxSizeSetParent]

def HalfFull (header : IndexFileHeader) (x : IndexNode K) : Prop :=
  header.maxSize x / 2 ≤ x.size ∧ x.size ≤ header.maxSize x

theorem HalfFull.sizeOk
    (half : HalfFull header x) (notRoot : p ≠ root) : SizeOk header root p x := by
  rw [SizeOk,fill,if_neg notRoot]
  exact half

variable [LinearOrder K]

/-- The nodes `V` form a tree in the file of `S`; all but the exempt ones have a proper size.
`V` is what `S` holds, or what it would hold had a node not been split yet. -/
structure Good (S : Store K) (V : PageNum → IndexNode K) (lab : PageNum → Option (Label K)) (height : Nat)
    (exempt : PageNum → Prop) : Prop where
  tree : Tree bpInvalidPageNum V lab S.header.rootPage height
  sized : ∀ p label, lab p = some label → ¬ exempt p → SizeOk S.header S.header.rootPage p (V p)
  allocated : ∀ p label, lab p = some label → Allocated S.file p
  file : FileOk S.file
  gone : ∀ p ∈ S.disposed, lab p = none ∧ 2 ≤ natOf p
  leafMax : 6 ≤ natOf S.header.leafMaxSize
  internalMax : 6 ≤ natOf S.header.internalMaxSize

namespace Good
variable {S : Store K} {V : PageNum → IndexNode K} {lab : PageNum → Option (Label K)} {height : Nat}
  {exempt : PageNum → Prop}

theorem maxSize (good : Good S V lab height exempt) (x : IndexNode K) : 6 ≤ S.header.maxSize x := by
  unfold IndexFileHeader.maxSize
  split
  · exact good.leafMax
  · exact good.internalMax

theorem filled (good : Good S V lab height (fun _ => False))
    (found : lab p = some label) : (V p).size ≠ 0 := by
  have sized := (good.sized p label found id).1
  have six := good.maxSize (V p)
  have : 0 < fill S.header S.header.rootPage p (V p) := by
    unfold fill
    split
    · split <;> omega
    · omega
  omega

theorem heightLt (good : Good S V lab height exempt) : height < S.file.pageCount := by
  refine good.tree.heightLt natOf (fun p label found => (good.allocated p label found).2.1) ?_
  intro p q a b atP atQ same
  have := (good.allocated p a atP).1
  exact natOfInj (by omega) same

theorem notEmpty (good : Good S V lab height exempt) : S.header.rootPage ≠ bpInvalidPageNum := by
  exact labelNe good.tree.rootLabel good.tree.nilLabel

end Good

section
variable {S T : Store K} {V : PageNum → IndexNode K} {lab : PageNum → Option (Label K)} {height : Nat}
  {p q r : PageNum}

omit [LinearOrder K] in
theorem allocatedValid (ok : Allocated file p) : p ≠ bpInvalidPageNum := by
  rintro rfl
  exact absurd ok.1 (by decide)

variable {exempt : PageNum → Prop} {parent next : PageNum} {label : Label K}

theorem Good.transfer (good : Good S V lab height exempt) (header : T.header = S.header)
    (file : T.file = S.file) (disposed : T.disposed = S.disposed) : Good T V lab height exempt := by
  refine ⟨?_,?_,?_,?_,?_,?_,?_⟩
  · rw [header]; exact good.tree
  · rw [header]; exact good.sized
  · rw [file]; exact good.allocated
  · rw [file]; exact good.file
  · rw [disposed]; exact good.gone
  · rw [header]; exact good.leafMax
  · rw [header]; exact good.internalMax

theorem Good.unexempt (good : Good S V lab height (· = q))
    (sized : ∀ label, lab q = some label → SizeOk S.header S.header.rootPage q (V q)) :
    Good S V lab height (fun _ => False) := by
  refine ⟨good.tree,?_,good.allocated,good.file,good.gone,good.leafMax,good.internalMax⟩
  intro x label found _
  by_cases isQ : x = q
  · exact isQ ▸ sized label (isQ ▸ found)
  · exact good.sized x label found isQ

theorem Good.allocate (good : Good S V lab height exempt) (fresh : Fresh S T r) :
    Good T V lab height exempt ∧ lab r = none := by
  refine ⟨⟨?_,?_,?_,fresh.file,?_,?_,?_⟩,?_⟩
  · rw [fresh.header]; exact good.tree
  · rw [fresh.header]; exact good.sized
  · exact fun c label found => fresh.keeps c (good.allocated c label found)
  · rw [fresh.disposed]; exact good.gone
  · rw [fresh.header]; exact good.leafMax
  · rw [fresh.header]; exact good.internalMax
  · cases found : lab r with
    | none => rfl
    | some label => exact absurd (good.allocated r label found) fresh.before

theorem Good.setItems (good : Good S V lab height exempt)
    (items : List (K × RID)) (atP : lab p = some label)
    (leaf : V p = .leaf parent next old) (sorted : Sorted items) (within : Within label.lo label.hi items) :
    Good S (update V p (.leaf parent next items)) lab height (fun x => x = p ∨ exempt x) := by
  refine ⟨setLeaf good.tree atP leaf sorted within,?_,good.allocated,good.file,good.gone,good.leafMax,good.internalMax⟩
  intro x l found other
  rw [update_of_ne fun same => other (.inl same)]
  exact good.sized x l found fun h => other (.inr h)

theorem holdsSetItems (tree : Tree bpInvalidPageNum V lab q height)
    (atP : lab p = some label) (leaf : V p = .leaf parent next old)
    (item : K × RID) : Holds (update V p (.leaf parent next items)) lab item ↔
      item ∈ items ∨ (item ∉ old ∧ Holds V lab item) := by
  constructor
  · rintro ⟨x,l,found,inside⟩
    by_cases isP : x = p
    · rw [isP,update_self] at inside
      exact .inl inside
    · rw [update_of_ne isP] at inside
      refine .inr ⟨?_,x,l,found,inside⟩
      intro before
      have okP := tree.nodes p _ atP
      have okX := tree.nodes x _ found
      rw [leaf] at okP
      cases node : V x with
      | internal parent' items' => simp [node,Node.leafItems] at inside
      | leaf parent' next' items' =>
        rw [node] at okX inside
        exact isP (tree.unique found atP (okX.1.trans okP.1.symm) (okX.2.2.2.1 _ inside) (okP.2.2.2.1 _ before))
  · rintro (inside | ⟨absent,x,l,found,inside⟩)
    · exact ⟨p,label,atP,by rw [update_self]; exact inside⟩
    · have isP : x ≠ p := by
        rintro rfl
        rw [leaf] at inside
        exact absent inside
      exact ⟨x,l,found,by rw [update_of_ne isP]; exact inside⟩

/-! ### The tree read off its pages -/

def IndexFile.leafPages (disk : IndexFile K) : List PageNum :=
  if disk.header.rootPage = bpInvalidPageNum then []
  else leaves disk.node disk.file.pageCount disk.header.rootPage

def IndexFile.entries (disk : IndexFile K) : List (K × RID) := PagedTree.entries disk.node disk.leafPages

/-- No tree, or one in which keys increase in every node, every key of a subtree lies between
the separators around it, every child names its parent, all leaves lie at the same depth, and
the chain of the leaves visits them from left to right. -/
def IndexFile.Valid (disk : IndexFile K) : Prop :=
  disk.header.rootPage = bpInvalidPageNum ∨ ∃ level < disk.file.pageCount,
    Subtree disk.node level bpInvalidPageNum disk.header.rootPage ⊥ ⊤ ∧
    LeafChain bpInvalidPageNum disk.node disk.leafPages ∧ bpInvalidPageNum ∉ disk.leafPages

/-! ### Contents -/

def Settled (S : Store K) (E : K × RID → Prop) : Prop :=
  ∃ lab height, Good S S.node lab height (fun _ => False) ∧ ∀ item, Holds S.node lab item ↔ E item

structure Vacant (S : Store K) : Prop where
  root : S.header.rootPage = bpInvalidPageNum
  file : FileOk S.file
  gone : ∀ p ∈ S.disposed, 2 ≤ natOf p
  leafMax : 6 ≤ natOf S.header.leafMaxSize
  internalMax : 6 ≤ natOf S.header.internalMaxSize

def Content (S : Store K) (E : K × RID → Prop) : Prop :=
  (Vacant S ∧ ∀ item, ¬ E item) ∨ Settled S E

theorem Settled.congr (settled : Settled S E) (same : ∀ item, E item ↔ E' item) : Settled S E' := by
  obtain ⟨lab,height,good,holds⟩ := settled
  exact ⟨lab,height,good,fun item => (holds item).trans (same item)⟩

theorem Content.congr (content : Content S E) (same : ∀ item, E item ↔ E' item) :
    Content S E' := by
  rcases content with ⟨vacant,none⟩ | settled
  · exact .inl ⟨vacant,fun item inside => none item ((same item).mpr inside)⟩
  · exact .inr (settled.congr same)

def StopsAt (m : TreeM K Unit) (S : Store K) (code : RC) : Prop :=
  ∀ s, Sees s S → ∃ t, m s = (.error (.rc code),t) ∧ Sees t S ∧ t.mtr.entries = s.mtr.entries

end
end MiniOb.BplusTree

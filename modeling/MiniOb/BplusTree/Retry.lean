import MiniOb.BplusTree.Range

/-! A scan whose caller calls `next_entry` again after LOCKED_NEED_WAIT. When `try_slatch` fails,
`current_frame_` is already the next leaf and `iter_index_` still the end of the last one, so the next
call goes on in the middle of the leaf or passes it. -/
namespace MiniOb.BplusTree
open Prog PagedTree List KeyType

section
variable {K : Type}

def Scan.contended (s : Scan K) (attempts : List Bool) : Scan K :=
  { s with handler := { s.handler with mtr := { s.handler.mtr with faults := latchFaults attempts } } }

def collectRetrying (ops : KeyOps K) : Nat → ScanM K (List RID)
  | 0 => exit .abort
  | fuel+1 => fun s => match nextEntry ops s with
    | (.ok rid,t) => (do
        let rest ← collectRetrying ops fuel
        pure (rid :: rest) : ScanM K (List RID)) t
    | (.error (.rc .recordEof),t) => (.ok [],t)
    | (.error (.rc .lockedNeedWait),t) => collectRetrying ops fuel t
    | (.error e,t) => (.error e,t)

end

/-! ### Scans -/

section
variable {K : Type} [LinearOrder K] {ops : KeyOps K} {S : Store K} {right : Option K} {c : Scanner K} {list : List (K × RID)}
  {stored : K → Prop} {fuel : Nat}

omit [LinearOrder K] in
theorem retryingCollecting : Collecting ops (collectRetrying ops) where
  ended fuel eof := by
    simp only [collectRetrying]
    rw [eof]
  more fuel found := by
    simp only [collectRetrying]
    rw [found]

omit [LinearOrder K] in
theorem retryingRetries : Retries ops (collectRetrying ops) := by
  intro s t fuel busy
  simp only [collectRetrying]
  rw [busy]

theorem Opened.retrying (opened : Opened S (pastEnd right) right c list) (attempts : List Bool)
    (ordered : ∀ key, right = some key → ops.OrderedAt key stored) (sorted : Sorted list)
    (all : ∀ item ∈ list, stored item.1) (enough : 2 * list.length < fuel) (seen : SeesCursor s ((S,latchFaults attempts),c)) :
    (collectRetrying ops fuel s).1 = .ok ((list.takeWhile fun item => !pastEnd right item.1).map Prod.snd) ↔
      ∀ page rest, c.currentFrame = some page → Follow S.node page rest →
        ¬ Misses (fun item => pastEnd right item.1) attempts (rest.map fun q => (S.node q).leafItems) := by
  have calls : list.length + min attempts.length list.length < fuel := by omega
  rcases opened.collected retryingCollecting (.inr retryingRetries) (passedOrdered ordered) all calls seen with
    ⟨frame,none,ran⟩ | ⟨page,x,leaf,position,rest,frame,follow,filled,rfl,inRange,ran⟩
  · rw [none]
    refine ⟨fun _ page rest named => ?_,fun _ => ran⟩
    rw [frame] at named
    cases named
  · have closed := sortedClosed right (pairwise_cons.mp sorted).2
    obtain ⟨lost,kept⟩ := retriedIff attempts position closed filled
    rw [ran,takeWhile_cons_of_pos (by simp [inRange])]
    constructor
    · intro same page' rest' named follow' misses
      rw [frame] at named
      cases named
      rw [follow'.unique follow] at misses
      have sizes := congrArg (fun r : Except Exit (List RID) => (r.toOption.getD []).length) same
      simp only [Except.toOption,Option.getD_some,length_cons,length_map] at sizes
      have := lost misses
      omega
    · intro none
      rw [kept (none page rest frame follow)]

end

section
variable {t : KeyType} {s : Handler (IndexKey t.Attr)} {left right : Option (RangeBound t.UserKey)} {scan : Scan (IndexKey t.Attr)}

/-- The scan returns the entries between its keys exactly if the first attempt that fails, if there
is one, is made at a leaf that has no entry of the range. -/
theorem retriedScanIff (valid : s.disk.Valid) (faults : s.mtr.faults = []) (located : ∀ k ∈ s.disk.searchKeys, RID.Located k.rid)
    (opened : openScanner t left right (newScanner s) = (.ok (),scan)) (attempts : List Bool) {fuel : Nat}
    (enough : 2 * s.disk.entries.length < fuel) :
    (collectRetrying t.keyOps fuel (scan.contended attempts)).1 = .ok ((s.disk.entries.filter fun item =>
      fromStart (left.map (leftKey t)) item.1 && !pastEnd (right.map (rightKey t)) item.1).map Prod.snd) ↔
    ∀ page rest, scan.scanner.currentFrame = some page → Follow s.disk.node page rest →
      ¬ Misses (fun item => pastEnd (right.map (rightKey t)) item.1) attempts (rest.map fun q => (s.disk.node q).leafItems) := by
  have accepted : rangeInvalid t left right = false := by
    by_contra invalid
    obtain ⟨scan',refused⟩ := openRefused (s := s) (Bool.eq_false_iff.not_left.mp invalid)
    rw [opened] at refused
    cases refused
  have ordinary : ∀ k ∈ s.disk.searchKeys, RID.Ordinary k.rid := fun k inside => (located k inside).ordinary
  obtain ⟨scan',c,run,seen,standing⟩ := opensOrdered valid faults ordinary (leftKeyOrdered left) (rightKeyOrdered right)
  rw [openScanner,accepted,run] at opened
  cases opened
  have busy : SeesCursor (scan.contended attempts) ((scanStore s,latchFaults attempts),c) :=
    ⟨⟨rfl,seen.1.header,seen.1.node,seen.1.file,seen.1.disposed⟩,seen.2⟩
  have sublist : (s.disk.entries.filter fun item => fromStart (left.map (leftKey t)) item.1).Sublist s.disk.entries := filter_sublist
  rw [← betweenKeys valid,standing.retrying attempts (rightKeyOrdered right) ((entriesSorted valid).sublist sublist)
    (fun item inside => entriesStored ordinary item (sublist.subset inside)) (by have := sublist.length_le; omega) busy,seen.2]
  rfl

end

theorem twoLeavesValid [LinearOrder K] (disk : IndexFile K) (p q : PageNum) (k separator : K) (low high : List (K × RID))
    (counted : 1 < disk.file.pageCount) (root : disk.header.rootPage ≠ bpInvalidPageNum)
    (pages : p ≠ bpInvalidPageNum ∧ q ≠ bpInvalidPageNum)
    (node : disk.node disk.header.rootPage = .internal bpInvalidPageNum [(k,p),(separator,q)])
    (first : disk.node p = .leaf disk.header.rootPage q low) (second : disk.node q = .leaf disk.header.rootPage bpInvalidPageNum high)
    (filled : low ≠ [] ∧ high ≠ []) (sorted : Sorted low ∧ Sorted high)
    (parts : (∀ item ∈ low, item.1 < separator) ∧ ∀ item ∈ high, separator ≤ item.1) :
    disk.Valid ∧ disk.searchKeys = separator :: (low.map Prod.fst ++ high.map Prod.fst) := by
  obtain ⟨n,more⟩ : ∃ n, disk.file.pageCount = n + 2 := ⟨disk.file.pageCount - 2,by omega⟩
  have row : disk.leafPages = [p,q] := by simp [IndexFile.leafPages,root,more,leaves,node,first,second]
  refine ⟨.inr ⟨1,counted,⟨_,node,Bound.botLtKey _,Bound.keyLtTop _,?_,?_⟩,?_,?_⟩,?_⟩
  · exact ⟨q,low,first,filled.1,sorted.1,fun item inside => ⟨bot_le,Bound.keyLt.mpr (parts.1 item inside)⟩⟩
  · exact ⟨bpInvalidPageNum,high,second,filled.2,sorted.2,fun item inside => ⟨Bound.keyLe.mpr (parts.2 item inside),Bound.keyLtTop _⟩⟩
  · simp [row,LeafChain,Node.next?,first,second]
  · simpa [row] using ⟨pages.1.symm,pages.2.symm⟩
  · simp [IndexFile.searchKeys,root,more,keysBelow,node,first,second]

def letterKey (i : Fin 7) : IndexKey (chars 1).Attr := ⟨CharValue.ofBytes 1 [65 + UInt8.ofNat i],⟨1,Int32.ofNat i⟩⟩

def letterItems (letters : List (Fin 7)) : List (IndexKey (chars 1).Attr × RID) :=
  letters.map fun i => (letterKey i,(letterKey i).rid)

def lettersFile : Handler (IndexKey (chars 1).Attr) :=
  runCalls (chars 1).keyOps ((List.finRange 7).map fun i => .insert (letterKey i).attr (letterKey i).rid)
    (create (chars 1).keyOps 0 1 6 6 (emptyFile 1)).2

theorem lettersFileValid : lettersFile.disk.Valid ∧
    lettersFile.disk.searchKeys = letterKey 3 :: ((letterItems [0,1,2]).map Prod.fst ++ (letterItems [3,4,5,6]).map Prod.fst) :=
  twoLeavesValid lettersFile.disk 2 3 (chars 1).keyOps.zeroKey (letterKey 3) (letterItems [0,1,2]) (letterItems [3,4,5,6])
    (by decide +kernel) (by decide +kernel) (by decide) (by decide +kernel) (by decide +kernel) (by decide +kernel) (by decide +kernel)
    ⟨by unfold Sorted; decide +kernel,by unfold Sorted; decide +kernel⟩ (by decide +kernel)

theorem lettersFileLocated : ∀ k ∈ lettersFile.disk.searchKeys, RID.Located k.rid := by
  rw [lettersFileValid.2]
  decide +kernel

def wholeScan : Scan (IndexKey (chars 1).Attr) := (openScanner (.chars 1) none none (newScanner lettersFile)).2

/-- The latch of the second leaf is not free at the first attempt: its entries are lost. -/
theorem secondLeafLost : lettersFile.disk.Valid ∧ (openScanner (.chars 1) none none (newScanner lettersFile)).1 = .ok () ∧
    (collectRetrying (chars 1).keyOps 15 (wholeScan.contended [])).1 = .ok ((letterItems [0,1,2,3,4,5,6]).map Prod.snd) ∧
    (nextEntry (chars 1).keyOps (nextEntry (chars 1).keyOps (nextEntry (chars 1).keyOps
      (nextEntry (chars 1).keyOps (wholeScan.contended [false])).2).2).2).1 = .error (.rc .lockedNeedWait) ∧
    (collectRetrying (chars 1).keyOps 15 (wholeScan.contended [false])).1 = .ok ((letterItems [0,1,2]).map Prod.snd) :=
  ⟨lettersFileValid.1,by decide +kernel,by decide +kernel,by decide +kernel,by decide +kernel⟩

def upToC : RangeBound (chars 1).UserKey := ⟨⟨[67],by simp⟩,true⟩

def upToCScan : Scan (IndexKey (chars 1).Attr) := (openScanner (.chars 1) none (some upToC) (newScanner lettersFile)).2

theorem firstLeafScanned : lettersFile.disk.Valid ∧
    (collectRetrying (chars 1).keyOps 15 (upToCScan.contended [false,false])).1 = .ok ((lettersFile.disk.entries.filter fun item =>
      fromStart none item.1 && !pastEnd (some (rightKey (.chars 1) upToC)) item.1).map Prod.snd) := by
  have second : lettersFile.disk.node 2 = .leaf 4 3 (letterItems [0,1,2]) ∧
      lettersFile.disk.node 3 = .leaf 4 bpInvalidPageNum (letterItems [3,4,5,6]) := by decide +kernel
  have linked : (lettersFile.disk.node 3).next? = some bpInvalidPageNum := by rw [second.2]; rfl
  have follows : Follow lettersFile.disk.node 2 [3] := ⟨⟨linked,trivial⟩,by decide,4,letterItems [0,1,2],second.1⟩
  have opened : openScanner (.chars 1) none (some upToC) (newScanner lettersFile) = (.ok (),upToCScan) := by
    have value : (openScanner (.chars 1) none (some upToC) (newScanner lettersFile)).1 = .ok () := by decide +kernel
    rw [upToCScan,← value]
  refine ⟨lettersFileValid.1,(retriedScanIff lettersFileValid.1 (by decide +kernel) lettersFileLocated opened [false,false]
    (by decide +kernel)).mpr fun page rest named follow => ?_⟩
  have first : upToCScan.scanner.currentFrame = some 2 := by decide +kernel
  rw [first] at named
  cases named
  rw [follow.unique follows]
  have items : (lettersFile.disk.node 3).leafItems = letterItems [3,4,5,6] := by rw [second.2]; rfl
  have beyond : pastEnd (some (rightKey (.chars 1) upToC)) (letterKey 3) = true := by decide +kernel
  rw [map_cons,items]
  rintro ⟨item,head,inRange⟩
  cases head
  cases beyond.symm.trans inRange

end MiniOb.BplusTree

import Mathlib.Data.List.Basic
import Mathlib.Data.Set.Insert
import MiniOb.Buffer.DoubleWriteBuffer

/-! A crash in the middle of a write to the double-write buffer or to a data file, and what
`recover` makes of it. -/
namespace MiniOb.Buffer
open Option (some map_some)
open DiskDoubleWriteBuffer List Function Bytes DoubleWritePage

/-! Reading back what was written. -/

theorem readPageBytes (page : Page) : readPage page.bytes = some page := by
  have enough : bpPageDataSize ≤ page.data.length := page.size.ge
  have whole : page.data.take bpPageDataSize = page.data := take_of_length_le page.size.le
  simp only [readPage,Page.bytes,readInt64Append,readInt32Append,bind,Option.bind_some,dif_pos enough,whole,
    UInt32.toUInt32_toInt32]

theorem pageBytesInj {a b : Page} (same : a.bytes = b.bytes) : a = b := by
  have read := readPageBytes a
  rw [same,readPageBytes] at read
  exact (some.inj read).symm

variable {page : DoubleWritePage} {disk : Disk} {n : Nat} {key : DoubleWritePageKey}

theorem readSlotBytes (small : page.pageIndex < 2 ^ 31) : readSlot page.bytes = some page := by
  have index : (Int32.ofNat page.pageIndex).toInt.toNat = page.pageIndex := by
    rw [Int32.toInt_ofNat_of_lt small,Int.toNat_natCast]
  have valid : ((if page.valid then 1 else 0 : UInt8) != 0) = page.valid := by cases page.valid <;> rfl
  simp only [readSlot,bytes,readInt32Append,bind,Option.bind_some,head?_cons,map_some,
    tail_cons,readPageBytes,index,valid]

theorem untornInvalidated (page : DoubleWritePage) : Untorn page.bytes page.invalidated.bytes := by
  have split : ∀ valid, bytes { page with valid := valid } =
      (ofInt32 page.key.bufferPoolId ++ ofInt32 page.key.pageNum ++ ofInt32 (Int32.ofNat page.pageIndex)) ++
        (if valid then 1 else 0) :: page.page.bytes := by
    intro valid
    simp only [bytes,append_assoc]
  have old := split page.valid
  rw [show page.bytes = _ from old,show page.invalidated.bytes = _ from split false]
  exact untornAt _ _ _ _

theorem pageCntHeader (header : disk.header = headerBytes n) (small : n < 2 ^ 31) : disk.pageCnt = n := by
  have read := readInt32Append (Int32.ofNat n) []
  rw [append_nil] at read
  rw [Disk.pageCnt,header,headerBytes,read]
  simp only [map_some,Option.getD_some]
  rw [Int32.toInt_ofNat_of_lt small,Int.toNat_natCast]

/-! Loading and recovering. -/

def Accepts (disk : Disk) (i : Nat) (page : DoubleWritePage) : Prop := readSlot (disk.slots i) = some page ∧ page.page.Intact

def First (disk : Disk) (i : Nat) (page : DoubleWritePage) : Prop :=
  Accepts disk i page ∧ ∀ j < i, ∀ other, Accepts disk j other → other.key ≠ page.key

theorem firstOfAccepts {i} (found : Accepts disk i page) :
    ∃ j ≤ i, ∃ other, First disk j other ∧ other.key = page.key := by
  induction i using Nat.strong_induction_on generalizing page with
  | _ i ih =>
    by_cases first : ∀ j < i, ∀ other, Accepts disk j other → other.key ≠ page.key
    · exact ⟨i,Nat.le_refl i,page,⟨found,first⟩,rfl⟩
    · push Not at first
      obtain ⟨j,less,other,accepted,same⟩ := first
      obtain ⟨k,le,earliest,isFirst,key⟩ := ih j less accepted
      exact ⟨k,le.trans less.le,earliest,isFirst,key.trans same⟩

theorem loadedPages (readable : ∀ i < n, (readSlot (disk.slots i)).isSome) :
    ∃ loaded, (range n).foldlM (loadPage disk) [] = .ok loaded ∧ (loaded.map DoubleWritePage.key).Nodup ∧
      ∀ page, page ∈ loaded ↔ ∃ i < n, First disk i page := by
  induction n with
  | zero => exact ⟨[],rfl,nodup_nil,by simp⟩
  | succ n ih =>
    obtain ⟨loaded,run,distinct,members⟩ := ih fun i less => readable i (by omega)
    obtain ⟨page,read⟩ := Option.isSome_iff_exists.mp (readable n (by omega))
    have known : page.key ∈ loaded.map key ↔ ∃ j < n, ∃ other, Accepts disk j other ∧ other.key = page.key := by
      constructor
      · intro inside
        obtain ⟨other,member,same⟩ := mem_map.mp inside
        obtain ⟨j,less,first⟩ := (members other).mp member
        exact ⟨j,less,other,first.1,same⟩
      · rintro ⟨j,less,other,accepted,same⟩
        obtain ⟨k,le,first,isFirst,key⟩ := firstOfAccepts accepted
        exact mem_map.mpr ⟨first,(members first).mpr ⟨k,by omega,isFirst⟩,key.trans same⟩
    have step : ∀ other, (∃ i < n + 1, First disk i other) ↔ other ∈ loaded ∨ First disk n other := by
      intro other
      rw [members]
      constructor
      · rintro ⟨i,less,first⟩
        rcases Nat.lt_succ_iff_lt_or_eq.mp less with earlier | rfl
        · exact .inl ⟨i,earlier,first⟩
        · exact .inr first
      · rintro (⟨i,less,first⟩ | first)
        · exact ⟨i,by omega,first⟩
        · exact ⟨n,by omega,first⟩
    have last : (range (n + 1)).foldlM (loadPage disk) [] = .ok
        (if page.page.Intact ∧ page.key ∉ loaded.map key then loaded ++ [page] else loaded) := by
      rw [range_succ,foldlM_append,run]
      show (loadPage disk loaded n >>= pure) = _
      rw [loadPage,read]
      rfl
    rw [last]
    by_cases taken : page.page.Intact ∧ page.key ∉ loaded.map key
    · refine ⟨loaded ++ [page],by rw [if_pos taken],?_,fun other => ?_⟩
      · rw [map_append,map_singleton,nodup_append]
        refine ⟨distinct,by simp,fun a inside b only => ?_⟩
        rw [mem_singleton.mp only]
        rintro rfl
        exact taken.2 inside
      · rw [step,mem_append,mem_singleton]
        refine or_congr_right ⟨?_,fun first => ?_⟩
        · rintro rfl
          refine ⟨⟨read,taken.1⟩,fun j less q accepted same => taken.2 (known.mpr ⟨j,less,q,accepted,same⟩)⟩
        · exact some.inj (first.1.1.symm.trans read)
    · refine ⟨loaded,by rw [if_neg taken],distinct,fun other => ?_⟩
      · rw [step]
        refine ⟨.inl,fun either => either.resolve_right fun first => taken ?_⟩
        obtain rfl := some.inj (first.1.1.symm.trans read)
        refine ⟨first.1.2,fun inside => ?_⟩
        obtain ⟨j,less,q,accepted,same⟩ := known.mp inside
        exact first.2 j less q accepted same

def retireWrites (pages : List DoubleWritePage) : List Write :=
  pages.flatMap fun page => [.page page.key page.page.bytes,writePageInternal page.invalidated]

section
variable {disk : Disk} {pages : List DoubleWritePage} {key : DoubleWritePageKey}

theorem flushPageData (distinct : Distinct pages) (disk : Disk) :
    let after := disk.writeAll (pages.flatMap fun page => writePage page ++ [writePageInternal page.invalidated])
    (∀ page ∈ pages, page.valid = true → after.data page.key = page.page.bytes) ∧
      ∀ key, (∀ page ∈ pages, page.valid = true → page.key ≠ key) → after.data key = disk.data key := by
  induction pages generalizing disk with
  | nil => exact ⟨by simp,fun key _ => rfl⟩
  | cons first rest ih =>
    obtain ⟨fresh,others⟩ := nodup_cons.mp distinct
    obtain ⟨written,kept⟩ := ih others (disk.writeAll (writePage first ++ [writePageInternal first.invalidated]))
    simp only [flatMap_cons,Disk.writeAll,foldl_append] at written kept ⊢
    have here : ∀ key, (first.valid = true → first.key ≠ key) →
        (foldl Disk.write (foldl Disk.write disk (writePage first)) [writePageInternal first.invalidated]).data key =
          disk.data key := by
      intro key other
      cases valid : first.valid with
      | true => simp [writePage,valid,Disk.write,writePageInternal,update_of_ne (Ne.symm (other valid))]
      | false => simp [writePage,valid,Disk.write,writePageInternal]
    refine ⟨fun page inside valid => ?_,fun key none => ?_⟩
    · rcases mem_cons.mp inside with rfl | later
      · rw [kept page.key fun other member _ same => fresh (mem_map.mpr ⟨other,member,same⟩)]
        simp [writePage,valid,Disk.write,writePageInternal]
      · exact written page later valid
    · obtain ⟨noneHere,noneLater⟩ := forall_mem_cons.mp none
      rw [kept key noneLater,here key noneHere]

end

/-- The pages that live only in the buffer, each valid in its slot and found there first; every
other accepted slot is marked invalid, and the data file has the newest version of every other page. -/
structure Stored (live : Set DoubleWritePage) (disk : Disk) (newest : DoubleWritePageKey → Bytes) : Prop where
  keys : ∀ p ∈ live, ∀ q ∈ live, p.key = q.key → p = q
  indexes : ∀ p ∈ live, ∀ q ∈ live, p.pageIndex = q.pageIndex → p = q
  valid : ∀ p ∈ live, p.valid = true ∧ p.page.Intact
  slots : ∀ p ∈ live, disk.slots p.pageIndex = p.bytes
  counted : ∀ p ∈ live, p.pageIndex < disk.pageCnt ∧ p.pageIndex < 2 ^ 31
  readable : ∀ i < disk.pageCnt, (readSlot (disk.slots i)).isSome
  first : ∀ p ∈ live, ∀ j < p.pageIndex, ∀ q, Accepts disk j q → q.key ≠ p.key
  stale : ∀ i < disk.pageCnt, ∀ q, Accepts disk i q → q.valid = true → ∃ p ∈ live, p.pageIndex = i
  held : ∀ p ∈ live, newest p.key = p.page.bytes
  settled : ∀ key, (∀ p ∈ live, p.key ≠ key) → disk.data key = newest key

namespace Stored
variable {live : Set DoubleWritePage} {disk : Disk} {newest : DoubleWritePageKey → Bytes} {p : DoubleWritePage}

section
variable (stored : Stored live disk newest)
include stored

theorem accepts (inside : p ∈ live) : Accepts disk p.pageIndex p :=
  ⟨by rw [stored.slots p inside,readSlotBytes (stored.counted p inside).2],(stored.valid p inside).2⟩

theorem recovers (order : Order) (maxPages : Int32) :
    ∃ after, recover order maxPages disk = .ok after ∧ ∀ key, after.data key = newest key := by
  obtain ⟨loaded,run,distinct,members⟩ := loadedPages stored.readable
  have perm := order.2 loaded
  obtain ⟨written,kept⟩ := flushPageData ((perm.map DoubleWritePage.key).nodup_iff.mpr distinct) disk
  refine ⟨disk.writeAll (flushPage order ⟨maxPages,disk.pageCnt,loaded⟩).1,?_,fun key => ?_⟩
  · rw [recover,loadPages,run]
    rfl
  · by_cases buffered : ∃ p ∈ live, p.key = key
    · obtain ⟨p,inside,rfl⟩ := buffered
      rw [stored.held p inside]
      refine written p (perm.mem_iff.mpr ((members p).mpr ⟨p.pageIndex,(stored.counted p inside).1,?_⟩)) (stored.valid p inside).1
      exact ⟨stored.accepts inside,stored.first p inside⟩
    · push Not at buffered
      rw [← stored.settled key buffered]
      refine kept key fun q inside valid same => ?_
      obtain ⟨i,less,first⟩ := (members q).mp (perm.mem_iff.mp inside)
      obtain ⟨p,member,rfl⟩ := stored.stale i less q first.1 valid
      have equal := some.inj ((stored.accepts member).1.symm.trans first.1.1)
      exact buffered p member (equal ▸ same)

theorem touchData (inside : p ∈ live) (bytes : Bytes) :
    Stored live { disk with data := update disk.data p.key bytes } newest :=
  { stored with
    settled := fun key others => by
      dsimp only
      rw [update_of_ne (Ne.symm (others p inside)),stored.settled key others] }

theorem touchSlot {index bytes} (unused : ∀ p ∈ live, p.pageIndex ≠ index)
    (refused : index < disk.pageCnt → ∃ q, readSlot bytes = some q ∧ ¬ q.page.Intact) :
    Stored live { disk with slots := update disk.slots index bytes } newest := by
  have accepts : ∀ i < disk.pageCnt, ∀ q,
      Accepts { disk with slots := update disk.slots index bytes } i q → Accepts disk i q := by
    intro i less q accepted
    unfold Accepts at accepted
    dsimp only at accepted
    by_cases same : i = index
    · obtain ⟨other,read,damaged⟩ := refused (same ▸ less)
      rw [same,update_self,read] at accepted
      obtain ⟨⟨⟩,intact⟩ := accepted
      exact absurd intact damaged
    · rwa [update_of_ne same] at accepted
  refine { stored with slots := ?slots, readable := ?readable, first := ?first, stale := ?stale }
  case slots =>
    intro q inside
    dsimp only
    rw [update_of_ne (unused q inside),stored.slots q inside]
  case readable =>
    intro i less
    dsimp only
    by_cases same : i = index
    · obtain ⟨other,read,-⟩ := refused (same ▸ less)
      rw [same,update_self,read]
      rfl
    · rw [update_of_ne same]
      exact stored.readable i less
  case first =>
    intro q inside j less r accepted
    have counted := (stored.counted q inside).1
    exact stored.first q inside j less r (accepts j (by omega) r accepted)
  case stale =>
    intro i less q accepted
    exact stored.stale i less q (accepts i less q accepted)

/-- `new` is written to its slot; where it is marked invalid, its page is at home already. -/
theorem place (new : DoubleWritePage) (after : Disk) (newer : DoubleWritePageKey → Bytes)
    (intact : new.valid = true → new.page.Intact) (small : new.pageIndex < 2 ^ 31) (counted : new.pageIndex < after.pageCnt)
    (free : ∀ q ∈ live, q.key ≠ new.key → q.pageIndex ≠ new.pageIndex)
    (own : ∀ q ∈ live, q.key = new.key → q.pageIndex = new.pageIndex)
    (visible : new.valid = true → ∀ j < new.pageIndex, ∀ q, Accepts disk j q → q.key ≠ new.key)
    (elsewhere : ∀ j, j ≠ new.pageIndex → after.slots j = disk.slots j) (here : after.slots new.pageIndex = new.bytes)
    (data : after.data = disk.data) (fewer : ∀ j < after.pageCnt, j ≠ new.pageIndex → j < disk.pageCnt)
    (kept : ∀ q ∈ live, q.key ≠ new.key → q.pageIndex < after.pageCnt) (others : ∀ key, key ≠ new.key → newer key = newest key)
    (held : new.valid = true → newer new.key = new.page.bytes) (home : new.valid = false → disk.data new.key = newer new.key) :
    Stored { q | q = new ∧ new.valid = true ∨ q ∈ live ∧ q.key ≠ new.key } after newer := by
  have read : readSlot (after.slots new.pageIndex) = some new := by rw [here,readSlotBytes small]
  have accepts : ∀ i q, i ≠ new.pageIndex → Accepts after i q → Accepts disk i q := by
    intro i q different accepted
    unfold Accepts at accepted
    rwa [elsewhere i different] at accepted
  constructor
  case keys =>
    rintro q (⟨rfl,-⟩ | ⟨member,other⟩) r (⟨rfl,-⟩ | ⟨member',other'⟩) same
    · rfl
    · exact absurd same.symm other'
    · exact absurd same other
    · exact stored.keys q member r member' same
  case indexes =>
    rintro q (⟨rfl,-⟩ | ⟨member,other⟩) r (⟨rfl,-⟩ | ⟨member',other'⟩) same
    · rfl
    · exact absurd same.symm (free r member' other')
    · exact absurd same (free q member other)
    · exact stored.indexes q member r member' same
  case valid =>
    rintro q (⟨rfl,valid⟩ | ⟨member,-⟩)
    · exact ⟨valid,intact valid⟩
    · exact stored.valid q member
  case slots =>
    rintro q (⟨rfl,-⟩ | ⟨member,other⟩)
    · exact here
    · rw [elsewhere _ (free q member other),stored.slots q member]
  case counted =>
    rintro q (⟨rfl,-⟩ | ⟨member,other⟩)
    · exact ⟨counted,small⟩
    · exact ⟨kept q member other,(stored.counted q member).2⟩
  case readable =>
    intro i less
    by_cases same : i = new.pageIndex
    · rw [same,read]
      rfl
    · rw [elsewhere i same]
      exact stored.readable i (fewer i less same)
  case first =>
    rintro q (⟨rfl,valid⟩ | ⟨member,other⟩) j less r accepted
    · exact visible valid j less r (accepts j r (by omega) accepted)
    · by_cases same : j = new.pageIndex
      · rw [same] at accepted
        obtain rfl := some.inj (read.symm.trans accepted.1)
        exact Ne.symm other
      · exact stored.first q member j less r (accepts j r same accepted)
  case stale =>
    intro i less q accepted valid
    by_cases same : i = new.pageIndex
    · rw [same] at accepted
      obtain rfl := some.inj (read.symm.trans accepted.1)
      exact ⟨new,.inl ⟨rfl,valid⟩,same.symm⟩
    · obtain ⟨r,member,rfl⟩ := stored.stale i (fewer i less same) q (accepts i q same accepted) valid
      exact ⟨r,.inr ⟨member,fun key => same (own r member key)⟩,rfl⟩
  case held =>
    rintro q (⟨rfl,valid⟩ | ⟨member,other⟩)
    · exact held valid
    · rw [others q.key other,stored.held q member]
  case settled =>
    intro key none
    by_cases same : key = new.key
    · cases valid : new.valid with
      | true => exact absurd same.symm (none new (.inl ⟨rfl,valid⟩))
      | false => rw [same,data,home valid]
    · rw [others key same,data]
      exact stored.settled key fun q member equal => none q (.inr ⟨member,fun sameKey => same (equal.symm.trans sameKey)⟩) equal

theorem retire (inside : p ∈ live) (home : disk.data p.key = newest p.key) :
    Stored { q ∈ live | q.key ≠ p.key } (disk.write (writePageInternal p.invalidated)) newest := by
  have counted := stored.counted p inside
  have placed := stored.place p.invalidated (disk.write (writePageInternal p.invalidated)) newest nofun counted.2 counted.1
    (fun q member other same => other (by rw [stored.indexes q member p inside same]; rfl))
    (fun q member same => by rw [stored.keys q member p inside same]; rfl) nofun (fun j other => update_of_ne other _ _)
    (update_self ..) rfl (fun j less _ => less) (fun q member _ => (stored.counted q member).1) (fun _ _ => rfl) nofun fun _ => home
  have none : ∀ q, ¬ (q = p.invalidated ∧ p.invalidated.valid = true) := nofun
  simp only [none,false_or] at placed
  exact placed

end

end Stored

inductive Crash : List Write → Disk → Disk → Prop where
  | within (write : Write) (rest : List Write) (disk : Disk) (c : Nat) : Crash (write :: rest) disk (disk.put c write)
  | later {write : Write} {rest : List Write} {disk left : Disk} (crash : Crash rest (disk.write write) left) :
      Crash (write :: rest) disk left
  | after (disk : Disk) : Crash [] disk disk

theorem putSlot (untorn : Untorn (disk.slots page.pageIndex) page.bytes) (c : Nat) :
    disk.put c (writePageInternal page) = disk ∨ disk.put c (writePageInternal page) = disk.write (writePageInternal page) := by
  rcases untorn.cases c with old | new
  · left
    rw [writePageInternal,Disk.put,old,update_eq_self]
  · right
    rw [writePageInternal,Disk.put,new,Disk.write]

theorem putHere (disk : Disk) (page : DoubleWritePage) (c : Nat) :
    (disk.put c (writePageInternal page)).slots page.pageIndex = torn c page.bytes (disk.slots page.pageIndex) :=
  update_self ..

theorem putHeader {bytes : Bytes} (untorn : Untorn disk.header bytes) (c : Nat) :
    disk.put c (.header bytes) = disk ∨ disk.put c (.header bytes) = disk.write (.header bytes) := by
  rcases untorn.cases c with old | new
  · left
    rw [Disk.put,old]
  · right
    rw [Disk.put,new,Disk.write]

namespace Stored
variable {live : Set DoubleWritePage} {disk : Disk} {newest : DoubleWritePageKey → Bytes} {p : DoubleWritePage}

theorem retireAll {pages} (stored : Stored live disk newest) (inside : ∀ p ∈ pages, p ∈ live)
    (distinct : Distinct pages) :
    Stored { q ∈ live | q.key ∉ pages.map DoubleWritePage.key } (disk.writeAll (retireWrites pages)) newest ∧
      ∀ left, Crash (retireWrites pages) disk left → ∃ now, Stored now left newest := by
  induction pages generalizing live disk with
  | nil =>
    refine ⟨by simpa [retireWrites,Disk.writeAll] using stored,fun left crash => ?_⟩
    cases crash
    exact ⟨live,stored⟩
  | cons p rest ih =>
    obtain ⟨fresh,others⟩ := nodup_cons.mp distinct
    obtain ⟨here,later⟩ := forall_mem_cons.mp inside
    have shape : retireWrites (p :: rest) =
        .page p.key p.page.bytes :: writePageInternal p.invalidated :: retireWrites rest := rfl
    have home := stored.touchData here p.page.bytes
    have retired := home.retire here (by rw [stored.held p here]; exact update_self ..)
    have remain : ∀ q ∈ rest, q ∈ { q ∈ live | q.key ≠ p.key } := fun q member =>
      ⟨later q member,fun same => fresh (mem_map.mpr ⟨q,member,same⟩)⟩
    obtain ⟨done,crashes⟩ := ih retired remain others
    constructor
    · have set : { q ∈ live | q.key ∉ (p :: rest).map key } =
          { q ∈ { q ∈ live | q.key ≠ p.key } | q.key ∉ rest.map key } := by
        ext q
        simp [and_assoc]
      rw [set,shape]
      exact done
    · intro left crash
      cases crash with
      | within _ _ _ c => exact ⟨live,stored.touchData here _⟩
      | later crash =>
        cases crash with
        | within _ _ _ c =>
          have untorn : Untorn ((disk.write (.page p.key p.page.bytes)).slots p.invalidated.pageIndex) p.invalidated.bytes := by
            rw [show (disk.write (.page p.key p.page.bytes)).slots p.invalidated.pageIndex = _ from stored.slots p here]
            exact untornInvalidated p
          rcases putSlot untorn c with same | new
          · rw [same]
            exact ⟨live,home⟩
          · rw [new]
            exact ⟨_,retired⟩
        | later crash => exact crashes left crash

end Stored

structure Buffered (buffer : DiskDoubleWriteBuffer) (disk : Disk) (newest : DoubleWritePageKey → Bytes) : Prop where
  stored : Stored { p | p ∈ buffer.pages } disk newest
  keys : Distinct buffer.pages
  count : buffer.pageCnt = disk.pageCnt ∧ buffer.pages.length ≤ buffer.pageCnt ∨ buffer.pageCnt = 0 ∧ buffer.pages = []
  room : buffer.pages.length < 2 ^ 31 - 1

theorem retireHeader (pages : List DoubleWritePage) (disk : Disk) :
    (disk.writeAll (retireWrites pages)).header = disk.header := by
  induction pages generalizing disk with
  | nil => rfl
  | cons p rest ih => exact ih _

section
variable {buffer : DiskDoubleWriteBuffer} {disk : Disk} {newest : DoubleWritePageKey → Bytes}

variable (buffer) in
theorem flushStep (stored : Stored { p | p ∈ buffer.pages } disk newest) (keys : Distinct buffer.pages)
    (order : Order) :
    Buffered (buffer.flushPage order).2 (disk.writeAll (buffer.flushPage order).1) newest ∧
      ∀ left, Crash (buffer.flushPage order).1 disk left → ∃ now, Stored now left newest := by
  have perm := order.2 buffer.pages
  have writes : (buffer.flushPage order).1 = retireWrites (order.1 buffer.pages) := by
    refine flatMap_congr fun p inside => ?_
    rw [writePage,if_pos (stored.valid p (perm.mem_iff.mp inside)).1]
    rfl
  obtain ⟨done,crashes⟩ := stored.retireAll (fun p inside => perm.mem_iff.mp inside)
    ((perm.map DoubleWritePage.key).nodup_iff.mpr keys)
  have none : { q ∈ { p | p ∈ buffer.pages } | q.key ∉ (order.1 buffer.pages).map key } =
      { p | p ∈ (buffer.flushPage order).2.pages } := by
    ext q
    simp only [Set.mem_ofPred_eq,flushPage,not_mem_nil,iff_false,not_and,not_not]
    exact fun inside => mem_map.mpr ⟨q,perm.mem_iff.mpr inside,rfl⟩
  rw [writes]
  exact ⟨⟨none ▸ done,nodup_nil,.inr ⟨rfl,rfl⟩,by simp [flushPage]⟩,crashes⟩

theorem clearStep (buffered : Buffered buffer disk newest) (id : Int32) :
    Buffered (buffer.clearPages id).2 (disk.writeAll (buffer.clearPages id).1) newest ∧
      ∀ left, Crash (buffer.clearPages id).1 disk left → ∃ now, Stored now left newest := by
  have perm := mergeSort_perm (buffer.pages.filter fun page => page.key.bufferPoolId = id)
    fun a b => a.key.pageNum.toInt ≤ b.key.pageNum.toInt
  have members : ∀ p, p ∈ (buffer.pages.filter fun page => page.key.bufferPoolId = id).mergeSort
      (fun a b => a.key.pageNum.toInt ≤ b.key.pageNum.toInt) ↔ p ∈ buffer.pages ∧ p.key.bufferPoolId = id := by
    intro p
    rw [perm.mem_iff,mem_filter,decide_eq_true_eq]
  obtain ⟨done,crashes⟩ := buffered.stored.retireAll (fun p inside => ((members p).mp inside).1)
    ((perm.map DoubleWritePage.key).nodup_iff.mpr (buffered.keys.sublist (filter_sublist.map _)))
  have rest : { q ∈ { p | p ∈ buffer.pages } | q.key ∉ ((buffer.pages.filter fun page => page.key.bufferPoolId = id).mergeSort
      (fun a b => a.key.pageNum.toInt ≤ b.key.pageNum.toInt)).map key } =
      { p | p ∈ (buffer.clearPages id).2.pages } := by
    ext q
    simp only [Set.mem_ofPred_eq,clearPages,mem_filter,decide_not,Bool.not_eq_true',decide_eq_false_iff_not]
    refine and_congr_right fun inside => not_congr ?_
    constructor
    · intro member
      obtain ⟨r,sorted,same⟩ := mem_map.mp member
      rw [← same]
      exact ((members r).mp sorted).2
    · exact fun same => mem_map.mpr ⟨q,(members q).mpr ⟨inside,same⟩,rfl⟩
  have fewer : (buffer.clearPages id).2.pages.length ≤ buffer.pages.length := length_filter_le ..
  have room := buffered.room
  have header : (disk.writeAll (buffer.clearPages id).1).pageCnt = disk.pageCnt := by
    rw [Disk.pageCnt,Disk.pageCnt,show (disk.writeAll (buffer.clearPages id).1).header = _ from retireHeader _ disk]
  refine ⟨⟨rest ▸ done,buffered.keys.sublist (filter_sublist.map _),?_,by omega⟩,crashes⟩
  rcases buffered.count with ⟨same,le⟩ | ⟨zero,empty⟩
  · exact .inl ⟨same.trans header.symm,fewer.trans le⟩
  · refine .inr ⟨zero,?_⟩
    rw [clearPages,empty]
    rfl

/-- Wherever the write of `new` stops, its slot is as it was or as it should be, or it names the same
page with bytes that fail their checksum or are in the data file already. -/
def SlotSafe (new : DoubleWritePage) (disk : Disk) : Prop :=
  ∀ c < new.bytes.length, torn c new.bytes (disk.slots new.pageIndex) = disk.slots new.pageIndex ∨
    torn c new.bytes (disk.slots new.pageIndex) = new.bytes ∨
    ∃ q, torn c new.bytes (disk.slots new.pageIndex) = bytes q ∧ q.key = new.key ∧ q.pageIndex = new.pageIndex ∧
      (q.page.Intact → disk.data q.key = q.page.bytes)

/-- When `add_page` may be called: the page carries its checksum, and no write it makes to the
buffer's file can be torn into another version of a page, be hidden by an earlier slot or take away
the slot of another page. -/
def AddSafe (key : DoubleWritePageKey) (page : Page) (buffer : DiskDoubleWriteBuffer) (disk : Disk) : Prop :=
  page.Intact ∧ match buffer.find key with
    | some old => Untorn (disk.slots old.pageIndex) (bytes { old with page := page })
    | none =>
      (∀ p ∈ buffer.pages, p.pageIndex ≠ buffer.pages.length) ∧
      (∀ j < buffer.pages.length, ∀ q, Accepts disk j q → q.key ≠ key) ∧
      (buffer.pages.length < disk.pageCnt → SlotSafe ⟨key,buffer.pages.length,true,page⟩ disk) ∧
      (buffer.pageCnt < buffer.pages.length + 1 → Untorn disk.header (headerBytes (buffer.pages.length + 1)))

variable {key : DoubleWritePageKey} {old : DoubleWritePage} {page : Page}

def OldOrNew (newest newer : DoubleWritePageKey → Bytes) (left : Disk) : Prop :=
  (∃ now, Stored now left newest) ∨ ∃ now, Stored now left newer

def Added (buffer : DiskDoubleWriteBuffer) (disk : Disk) (newest : DoubleWritePageKey → Bytes) (order : Order)
    (key : DoubleWritePageKey) (page : Page) : Prop :=
  Buffered (buffer.addPage order key page).2 (disk.writeAll (buffer.addPage order key page).1) (update newest key page.bytes) ∧
    ∀ left, Crash (buffer.addPage order key page).1 disk left → OldOrNew newest (update newest key page.bytes) left

theorem hitStep (buffered : Buffered buffer disk newest) (found : buffer.find key = some old) (intact : page.Intact)
    (untorn : Untorn (disk.slots old.pageIndex) (DoubleWritePage.bytes { old with page := page })) (order : Order) :
    Added buffer disk newest order key page := by
  obtain ⟨inside,rfl⟩ := findSome found
  have stored := buffered.stored
  have counted := stored.counted old inside
  have valid := (stored.valid old inside).1
  have placed := stored.place { old with page := page } (disk.write (writePageInternal { old with page := page }))
    (update newest old.key page.bytes) (fun _ => intact) counted.2 counted.1
    (fun q member other same => other (by rw [stored.indexes q member old inside same]))
    (fun q member same => by rw [stored.keys q member old inside same]) (fun _ => stored.first old inside)
    (fun j other => update_of_ne other _ _) (update_self ..) rfl (fun j less _ => less)
    (fun q member _ => (stored.counted q member).1) (fun _ other => update_of_ne other _ _) (fun _ => update_self ..)
    fun invalid => absurd (invalid.symm.trans valid) Bool.false_ne_true
  rw [Added,addFoundPage found]
  refine ⟨⟨?_,?_,?_,?_⟩,fun left crash => ?_⟩
  · have set : { q | q = { old with page := page } ∧ old.valid = true ∨ q ∈ { p | p ∈ buffer.pages } ∧ q.key ≠ old.key } =
        { p | p ∈ buffer.pages.map fun other => if other.key = old.key then { old with page := page } else other } := by
      ext q
      simp only [Set.mem_ofPred_eq,mem_map]
      constructor
      · rintro (⟨rfl,-⟩ | ⟨member,other⟩)
        · exact ⟨old,inside,if_pos rfl⟩
        · exact ⟨q,member,if_neg other⟩
      · rintro ⟨r,member,rfl⟩
        split
        · exact .inl ⟨rfl,valid⟩
        · exact .inr ⟨member,‹_›⟩
    rw [← set]
    exact placed
  · exact replacedDistinct rfl page buffered.keys
  · rcases buffered.count with ⟨same,le⟩ | ⟨zero,empty⟩
    · exact .inl ⟨same,by rw [length_map]; exact le⟩
    · rw [empty] at inside
      cases inside
  · rw [length_map]
    exact buffered.room
  · cases crash with
    | within _ _ _ c =>
      rcases putSlot untorn c with same | new
      · rw [same]
        exact .inl ⟨_,stored⟩
      · rw [new]
        exact .inr ⟨_,placed⟩
    | later crash =>
      cases crash
      exact .inr ⟨_,placed⟩

theorem crashAppend {writes more left} (crash : Crash (writes ++ more) disk left) :
    Crash writes disk left ∨ Crash more (disk.writeAll writes) left := by
  induction writes generalizing disk with
  | nil => exact .inr crash
  | cons write rest ih =>
    cases crash with
    | within _ _ _ c => exact .inl (.within write rest disk c)
    | later crash =>
      rcases ih crash with early | late
      · exact .inl (.later early)
      · exact .inr late

/- A new page on its way into its slot. -/
structure Placing (buffer : DiskDoubleWriteBuffer) (disk : Disk) (newest : DoubleWritePageKey → Bytes) (new : DoubleWritePage) :
    Prop where
  stored : Stored { p | p ∈ buffer.pages } disk newest
  valid : new.valid = true
  intact : new.page.Intact
  small : new.pageIndex < 2 ^ 31
  others : ∀ p ∈ buffer.pages, p.key ≠ new.key
  free : ∀ p ∈ buffer.pages, p.pageIndex ≠ new.pageIndex
  visible : ∀ j < new.pageIndex, ∀ q, Accepts disk j q → q.key ≠ new.key

namespace Placing
variable {new : DoubleWritePage} (placing : Placing buffer disk newest new)
include placing

theorem placed {after : Disk} (slots : after.slots = update disk.slots new.pageIndex new.bytes) (data : after.data = disk.data)
    (counted : new.pageIndex < after.pageCnt) (fewer : ∀ j < after.pageCnt, j ≠ new.pageIndex → j < disk.pageCnt)
    (kept : ∀ q ∈ buffer.pages, q.pageIndex < after.pageCnt) :
    Stored { p | p ∈ buffer.pages ++ [new] } after (update newest new.key new.page.bytes) := by
  have set : { q | q = new ∧ new.valid = true ∨ q ∈ { p | p ∈ buffer.pages } ∧ q.key ≠ new.key } =
      { p | p ∈ buffer.pages ++ [new] } := by
    ext q
    simp only [Set.mem_ofPred_eq,mem_append,mem_singleton,and_iff_left placing.valid]
    rw [or_comm]
    exact or_congr_left ⟨And.left,fun inside => ⟨inside,placing.others q inside⟩⟩
  rw [← set]
  exact placing.stored.place new after _ (fun _ => placing.intact) placing.small counted
    (fun q inside _ => placing.free q inside) (fun q inside same => absurd same (placing.others q inside))
    (fun _ => placing.visible) (fun _ other => by rw [slots,update_of_ne other]) (by rw [slots,update_self]) data fewer
    (fun q inside _ => kept q inside)
    (fun _ other => update_of_ne other _ _) (fun _ => update_self ..)
    fun invalid => absurd (invalid.symm.trans placing.valid) Bool.false_ne_true

theorem slotWritten (counted : new.pageIndex < disk.pageCnt) :
    Stored { p | p ∈ buffer.pages ++ [new] } (disk.write (writePageInternal new)) (update newest new.key new.page.bytes) :=
  placing.placed rfl rfl counted (fun _ less _ => less) fun q inside => (placing.stored.counted q inside).1

variable (safe : new.pageIndex < disk.pageCnt → SlotSafe new disk)
include safe

theorem slotCrash (c : Nat) :
    OldOrNew newest (update newest new.key new.page.bytes) (disk.put c (writePageInternal new)) := by
  have written := placing.slotWritten
  obtain ⟨stored,-,-,small,others,free,visible⟩ := placing
  by_cases counted : new.pageIndex < disk.pageCnt
  · have put : disk.put c (writePageInternal new) =
        { disk with slots := update disk.slots new.pageIndex (torn c new.bytes (disk.slots new.pageIndex)) } := rfl
    have ends : new.bytes.length ≤ c ∨ _ := (Nat.lt_or_ge c new.bytes.length).symm.imp_right (safe counted c)
    rcases ends with whole | same | fresh | ⟨q,left,named,index,known⟩
    · rw [put,torn,if_pos whole]
      exact .inr ⟨_,written counted⟩
    · rw [put,same,update_eq_self]
      exact .inl ⟨_,stored⟩
    · rw [put,fresh]
      exact .inr ⟨_,written counted⟩
    · left
      rw [put,left]
      by_cases intact : q.page.Intact
      · have home : disk.data q.key = newest q.key := named ▸ stored.settled new.key others
        exact ⟨_,stored.place q _ newest (fun _ => intact) (index ▸ small) (index ▸ counted)
          (fun p inside _ => index ▸ free p inside) (fun p inside same => absurd (same.trans named) (others p inside))
          (fun _ => by rw [index,named]; exact visible) (fun j other => update_of_ne (index ▸ other) _ _)
          (by rw [index]; exact update_self ..) rfl (fun j less _ => less) (fun p inside _ => (stored.counted p inside).1)
          (fun _ _ => rfl) (fun _ => home.symm.trans (known intact)) fun _ => home⟩
      · exact ⟨_,stored.touchSlot free fun _ => ⟨q,readSlotBytes (index ▸ small),intact⟩⟩
  · exact .inl ⟨_,stored.touchSlot free fun inside => absurd inside counted⟩

theorem slotAfter : OldOrNew newest (update newest new.key new.page.bytes) (disk.write (writePageInternal new)) := by
  simpa [writePageInternal,Disk.put,Disk.write,torn] using placing.slotCrash safe new.bytes.length

end Placing

theorem placeStep (buffered : Buffered buffer disk newest)
    (absent : buffer.find key = none) (safe : AddSafe key page buffer disk) :
    let new : DoubleWritePage := ⟨key,buffer.pages.length,true,page⟩
    let writes := writePageInternal new ::
      if buffer.pageCnt < buffer.pages.length + 1 then [.header (headerBytes (buffer.pages.length + 1))] else []
    Stored { p | p ∈ buffer.pages ++ [new] } (disk.writeAll writes) (update newest key page.bytes) ∧
      max buffer.pageCnt (buffer.pages.length + 1) = (disk.writeAll writes).pageCnt ∧
      ∀ left, Crash writes disk left → OldOrNew newest (update newest key page.bytes) left := by
  intro new writes
  obtain ⟨intact,cond⟩ := safe
  rw [absent] at cond
  obtain ⟨free,visible,slot,header⟩ := cond
  have room := buffered.room
  have placing : Placing buffer disk newest new :=
    ⟨buffered.stored,rfl,intact,by simp only [new]; omega,findNone absent,free,visible⟩
  by_cases more : buffer.pageCnt < buffer.pages.length + 1
  · have shape : writes = [writePageInternal new,.header (headerBytes (buffer.pages.length + 1))] := by
      simp only [writes,if_pos more]
    let after := (disk.write (writePageInternal new)).write (.header (headerBytes (buffer.pages.length + 1)))
    have count : after.pageCnt = buffer.pages.length + 1 := pageCntHeader rfl (by omega)
    have done : Stored { p | p ∈ buffer.pages ++ [new] } after (update newest key page.bytes) := by
      refine placing.placed rfl rfl (by rw [count]; exact Nat.lt_succ_self _) (fun j less other => ?_) fun q inside => ?_
      · have before : j < buffer.pages.length := by
          rw [count] at less
          exact lt_of_le_of_ne (Nat.lt_succ_iff.mp less) other
        rcases buffered.count with ⟨same,le⟩ | ⟨-,empty⟩
        · omega
        · rw [empty] at before
          cases before
      · rw [count]
        have counted := (buffered.stored.counted q inside).1
        rcases buffered.count with ⟨same,le⟩ | ⟨-,empty⟩
        · omega
        · rw [empty] at inside
          cases inside
    have all : disk.writeAll writes = after := by
      rw [shape]
      rfl
    rw [all]
    refine ⟨done,by rw [count]; omega,fun left crash => ?_⟩
    rw [shape] at crash
    cases crash with
    | within _ _ _ c => exact placing.slotCrash slot c
    | later crash =>
      cases crash with
      | within _ _ _ c =>
        have untorn : Untorn (disk.write (writePageInternal new)).header (headerBytes (buffer.pages.length + 1)) := header more
        rcases putHeader untorn c with same | fresh
        · rw [same]
          exact placing.slotAfter slot
        · rw [fresh]
          exact .inr ⟨_,done⟩
      | later crash =>
        cases crash
        exact .inr ⟨_,done⟩
  · have shape : writes = [writePageInternal new] := by simp only [writes,if_neg more]
    have all : disk.writeAll writes = disk.write (writePageInternal new) := by
      rw [shape]
      rfl
    have same : buffer.pageCnt = disk.pageCnt := by
      rcases buffered.count with ⟨same,-⟩ | ⟨zero,-⟩
      · exact same
      · omega
    have counted : new.pageIndex < disk.pageCnt := by
      show buffer.pages.length < disk.pageCnt
      omega
    have unchanged : (disk.write (writePageInternal new)).pageCnt = disk.pageCnt := rfl
    rw [all]
    refine ⟨placing.slotWritten counted,by rw [unchanged]; omega,fun left crash => ?_⟩
    rw [shape] at crash
    cases crash with
    | within _ _ _ c => exact placing.slotCrash slot c
    | later crash =>
      cases crash
      exact placing.slotAfter slot

theorem addStep (buffered : Buffered buffer disk newest) (safe : AddSafe key page buffer disk) (order : Order) :
    Added buffer disk newest order key page := by
  cases found : buffer.find key with
  | some old =>
    obtain ⟨intact,untorn⟩ := safe
    rw [found] at untorn
    exact hitStep buffered found intact untorn order
  | none =>
    obtain ⟨stored,count,crashes⟩ := placeStep buffered found safe
    have keys := freshDistinct found buffered.keys ⟨key,buffer.pages.length,true,page⟩ rfl
    simp only [Added,addPage,found]
    split
    · -- the buffer is full and goes home at once
      obtain ⟨done,flushCrashes⟩ := flushStep { buffer with
        pageCnt := max buffer.pageCnt (buffer.pages.length + 1)
        pages := buffer.pages ++ [⟨key,buffer.pages.length,true,page⟩] } stored keys order
      refine ⟨by rw [Disk.writeAll,foldl_append]; exact done,fun left crash => ?_⟩
      rcases crashAppend crash with early | late
      · exact crashes left early
      · exact .inr (flushCrashes left late)
    · refine ⟨⟨stored,keys,.inl ⟨count,?_⟩,?_⟩,crashes⟩
      · simp only [length_append,length_singleton]
        omega
      · have bound := buffer.maxPages.toInt_lt
        dsimp only
        omega

end

/-! Whole runs. -/

inductive DoubleWriteCall where
  | addPage (order : Order) (key : DoubleWritePageKey) (page : Page)
  | clearPages (bufferPoolId : Int32)
  | flushPage (order : Order)

namespace DoubleWriteCall

def apply (buffer : DiskDoubleWriteBuffer) : DoubleWriteCall → List Write × DiskDoubleWriteBuffer
  | addPage order key page => buffer.addPage order key page
  | clearPages id => buffer.clearPages id
  | flushPage order => buffer.flushPage order

def run : List DoubleWriteCall → DiskDoubleWriteBuffer × Disk → DiskDoubleWriteBuffer × Disk
  | [],state => state
  | call :: rest,(buffer,disk) => run rest ((call.apply buffer).2,disk.writeAll (call.apply buffer).1)

def added : List DoubleWriteCall → (DoubleWritePageKey → Bytes) → DoubleWritePageKey → Bytes
  | [],versions => versions
  | addPage _ key page :: rest,versions => added rest (update versions key page.bytes)
  | clearPages _ :: rest,versions => added rest versions
  | flushPage _ :: rest,versions => added rest versions

def Safe (buffer : DiskDoubleWriteBuffer) (disk : Disk) : DoubleWriteCall → Prop
  | addPage _ key page => AddSafe key page buffer disk
  | _ => True

def AllSafe : List DoubleWriteCall → DiskDoubleWriteBuffer × Disk → Prop
  | [],_ => True
  | call :: rest,(buffer,disk) => call.Safe buffer disk ∧ AllSafe rest ((call.apply buffer).2,disk.writeAll (call.apply buffer).1)

end DoubleWriteCall

def opened (maxPages : Int32) (data : DoubleWritePageKey → Bytes) : DiskDoubleWriteBuffer × Disk :=
  (⟨maxPages,0,[]⟩,⟨[0,0,0,0],fun _ => [],data⟩)

open DoubleWriteCall

theorem openedCount (maxPages : Int32) (data : DoubleWritePageKey → Bytes) : (opened maxPages data).2.pageCnt = 0 := by
  have header : ([0,0,0,0] : Bytes) = headerBytes 0 := by decide
  exact pageCntHeader header (by decide)

theorem openedBuffered (maxPages : Int32) (data : DoubleWritePageKey → Bytes) :
    Buffered (opened maxPages data).1 (opened maxPages data).2 data := by
  have none := openedCount maxPages data
  refine ⟨?_,nodup_nil,.inr ⟨rfl,rfl⟩,by simp [opened]⟩
  constructor
  case readable =>
    rw [none]
    exact fun i less => absurd less (Nat.not_lt_zero i)
  case stale =>
    rw [none]
    exact fun i less => absurd less (Nat.not_lt_zero i)
  case settled => exact fun key _ => rfl
  all_goals
    intro p inside
    cases inside

section
variable {buffer : DiskDoubleWriteBuffer} {disk : Disk} {newest : DoubleWritePageKey → Bytes}

theorem callStep {call} (buffered : Buffered buffer disk newest) (safe : call.Safe buffer disk) :
    Buffered (call.apply buffer).2 (disk.writeAll (call.apply buffer).1) (added [call] newest) ∧
      ∀ left, Crash (call.apply buffer).1 disk left →
        OldOrNew newest (added [call] newest) left := by
  cases call with
  | addPage order key page => exact addStep buffered safe order
  | clearPages id =>
    obtain ⟨done,crashes⟩ := clearStep buffered id
    exact ⟨done,fun left crash => .inl (crashes left crash)⟩
  | flushPage order =>
    obtain ⟨done,crashes⟩ := flushStep buffer buffered.stored buffered.keys order
    exact ⟨done,fun left crash => .inl (crashes left crash)⟩

theorem addedCons (call : DoubleWriteCall) (calls : List DoubleWriteCall) (versions : DoubleWritePageKey → Bytes) :
    added (call :: calls) versions = added calls (added [call] versions) := by
  cases call <;> rfl

theorem runBuffered {calls} (buffered : Buffered buffer disk newest) (safe : AllSafe calls (buffer,disk)) :
    Buffered (run calls (buffer,disk)).1 (run calls (buffer,disk)).2 (added calls newest) := by
  induction calls generalizing buffer disk newest with
  | nil => exact buffered
  | cons call rest ih =>
    rw [addedCons]
    exact ih (callStep buffered safe.1).1 safe.2

theorem allSafeAppend {calls more state}
    (safe : AllSafe (calls ++ more) state) : AllSafe calls state ∧ AllSafe more (run calls state) := by
  induction calls generalizing state with
  | nil => exact ⟨trivial,safe⟩
  | cons call rest ih =>
    obtain ⟨first,later⟩ := ih safe.2
    exact ⟨⟨safe.1,first⟩,later⟩

end

/-- In a run of safe calls, a crash anywhere within the next one leaves what `recover` turns into
the version last added of every page; only the page being added may already be the new one. -/
theorem crashRecovers (maxPages : Int32) (data : DoubleWritePageKey → Bytes) (calls : List DoubleWriteCall)
    (call : DoubleWriteCall) (safe : AllSafe (calls ++ [call]) (opened maxPages data)) {left : Disk}
    (crash : Crash (call.apply (run calls (opened maxPages data)).1).1 (run calls (opened maxPages data)).2 left) (order : Order) :
    ∃ after, recover order maxPages left = .ok after ∧ ∀ key, after.data key = added calls data key ∨
      ∃ walk page, call = .addPage walk key page ∧ after.data key = page.bytes := by
  obtain ⟨before,last⟩ := allSafeAppend safe
  obtain ⟨-,crashes⟩ := callStep (runBuffered (openedBuffered maxPages data) before) last.1
  rcases crashes left crash with ⟨now,stored⟩ | ⟨now,stored⟩
  · obtain ⟨after,ok,same⟩ := stored.recovers order maxPages
    exact ⟨after,ok,fun key => .inl (same key)⟩
  · obtain ⟨after,ok,same⟩ := stored.recovers order maxPages
    refine ⟨after,ok,fun key => ?_⟩
    rw [same key]
    cases call with
    | addPage walk other page =>
      by_cases equal : key = other
      · subst equal
        exact .inr ⟨walk,page,rfl,update_self ..⟩
      · exact .inl (update_of_ne equal _ _)
    | clearPages id => exact .inl rfl
    | flushPage walk => exact .inl rfl

def inOrder : Order := ⟨id,fun _ => .refl _⟩

theorem addSafeNew {page buffer}
    (intact : page.Intact) (absent : buffer.find key = none) (free : ∀ p ∈ buffer.pages, p.pageIndex ≠ buffer.pages.length)
    (visible : ∀ j < buffer.pages.length, ∀ q, Accepts disk j q → q.key ≠ key) (beyond : disk.pageCnt ≤ buffer.pages.length)
    (header : Untorn disk.header (headerBytes (buffer.pages.length + 1))) : AddSafe key page buffer disk := by
  refine ⟨intact,?_⟩
  rw [absent]
  exact ⟨free,visible,fun counted => absurd counted (not_lt.mpr beyond),fun _ => header⟩

theorem addOnceSafe {maxPages data page}
    (intact : page.Intact) : AddSafe key page (opened maxPages data).1 (opened maxPages data).2 := by
  refine addSafeNew intact rfl (fun p inside => ?_) (fun j less => ?_) (openedCount maxPages data).le ?_
  · cases inside
  · exact absurd less (Nat.not_lt_zero j)
  · show Untorn [0,0,0,0] (headerBytes 1)
    decide

def filled (byte : UInt8) : Page where
  lsn := 0
  checkSum := crc32 (replicate bpPageDataSize byte)
  data := replicate bpPageDataSize byte
  size := length_replicate

theorem filledIntact (byte : UInt8) : (filled byte).Intact := by simp only [Page.Intact,filled]

theorem firstPageKept : ∃ after, recover inOrder 16 ((run [.addPage inOrder ⟨1,1⟩ (filled 7)] (opened 16 fun _ => [])).2.put 13
    (writePageInternal ⟨⟨1,2⟩,1,true,filled 8⟩)) = .ok after ∧ after.data ⟨1,1⟩ = (filled 7).bytes := by
  have second : AddSafe ⟨1,2⟩ (filled 8) ⟨16,1,[⟨⟨1,1⟩,0,true,filled 7⟩]⟩
      ⟨headerBytes 1,update (fun _ => []) 0 (bytes ⟨⟨1,1⟩,0,true,filled 7⟩),fun _ => []⟩ := by
    refine addSafeNew (filledIntact 8) rfl (by simp) (fun j less q accepted => ?_) (pageCntHeader rfl (by decide)).le ?_
    · obtain rfl : j = 0 := Nat.lt_one_iff.mp less
      have read := accepted.1
      dsimp only at read
      rw [update_self,readSlotBytes (by decide)] at read
      cases read
      decide
    · show Untorn (headerBytes 1) (headerBytes 2)
      decide
  have safe : AllSafe ([.addPage inOrder ⟨1,1⟩ (filled 7)] ++ [.addPage inOrder ⟨1,2⟩ (filled 8)]) (opened 16 fun _ => []) :=
    ⟨addOnceSafe (filledIntact 7),second,trivial⟩
  have crash : Crash (DoubleWriteCall.apply (run [.addPage inOrder ⟨1,1⟩ (filled 7)] (opened 16 fun _ => [])).1
      (.addPage inOrder ⟨1,2⟩ (filled 8))).1 (run [.addPage inOrder ⟨1,1⟩ (filled 7)] (opened 16 fun _ => [])).2
      ((run [.addPage inOrder ⟨1,1⟩ (filled 7)] (opened 16 fun _ => [])).2.put 13 (writePageInternal ⟨⟨1,2⟩,1,true,filled 8⟩)) :=
    .within _ _ _ 13
  obtain ⟨after,ok,pages⟩ := crashRecovers 16 (fun _ => []) _ _ safe crash inOrder
  refine ⟨after,ok,(pages ⟨1,1⟩).resolve_right ?_⟩
  rintro ⟨walk,page,same,-⟩
  cases same

def reused (page : Page) : DiskDoubleWriteBuffer × Disk :=
  run [.addPage inOrder ⟨1,1⟩ page,.flushPage inOrder] (opened 16 fun _ => [])

theorem bytesNonempty (page : Page) : page.bytes ≠ [] := by
  intro none
  have length := congrArg length none
  rw [Page.bytes,length_append,lengthOfInt64,length_nil] at length
  omega

/-- After the flush the first slot is used again while the header still counts it. Cut behind
`valid`, the write gives the old page the new key. -/
theorem reusedSlot {old} (new : Page) (intact : old.Intact) :
    ∃ after, recover inOrder 16 ((reused old).2.put 13 (writePageInternal ⟨⟨1,2⟩,0,true,new⟩)) = .ok after ∧
      after.data ⟨1,2⟩ = old.bytes := by
  have stored := (runBuffered (openedBuffered 16 fun _ => [])
    (show AllSafe [.addPage inOrder ⟨1,1⟩ old,.flushPage inOrder] (opened 16 fun _ => []) from
      ⟨addOnceSafe intact,trivial,trivial⟩)).stored
  have split : ∀ page : DoubleWritePage, page.bytes = (ofInt32 page.key.bufferPoolId ++ ofInt32 page.key.pageNum ++
      ofInt32 (Int32.ofNat page.pageIndex) ++ [if page.valid then 1 else 0]) ++ page.page.bytes := fun page => by
    simp [bytes]
  have slot : torn 13 (bytes ⟨⟨1,2⟩,0,true,new⟩) (bytes ⟨⟨1,1⟩,0,false,old⟩) =
      bytes ⟨⟨1,2⟩,0,true,old⟩ := by
    rw [split ⟨⟨1,2⟩,0,true,new⟩,split ⟨⟨1,1⟩,0,false,old⟩,split ⟨⟨1,2⟩,0,true,old⟩]
    exact tornBetween rfl (bytesNonempty new)
  have before : (reused old).2.slots 0 = bytes ⟨⟨1,1⟩,0,false,old⟩ := rfl
  have here : ((reused old).2.put 13 (writePageInternal ⟨⟨1,2⟩,0,true,new⟩)).slots 0 =
      bytes ⟨⟨1,2⟩,0,true,old⟩ := by
    rw [← slot,← before]
    exact putHere (reused old).2 ⟨⟨1,2⟩,0,true,new⟩ 13
  have count : ((reused old).2.put 13 (writePageInternal ⟨⟨1,2⟩,0,true,new⟩)).pageCnt = 1 := pageCntHeader rfl (by decide)
  have placed := stored.place ⟨⟨1,2⟩,0,true,old⟩ ((reused old).2.put 13 (writePageInternal ⟨⟨1,2⟩,0,true,new⟩))
    (update _ _ _) (fun _ => intact) (Nat.two_pow_pos 31) (count ▸ Nat.one_pos) (fun q inside => by cases inside)
    (fun q inside => by cases inside) (fun _ j less => absurd less (Nat.not_lt_zero j)) (fun j other => update_of_ne other _ _) here rfl
    (fun j less other => absurd (Nat.lt_one_iff.mp (count ▸ less)) other) (fun q inside => by cases inside)
    (fun _ other => update_of_ne other _ _) (fun _ => update_self ..) nofun
  obtain ⟨after,ok,pages⟩ := placed.recovers inOrder 16
  exact ⟨after,ok,by rw [pages,update_self]⟩

/-- The page (1,2) ends up with what was added as page (1,1), and neither with what it held nor
with what was added for it. -/
theorem oldPageNewKey : ∃ left after,
    Crash (DoubleWriteCall.apply (reused (filled 7)).1 (.addPage inOrder ⟨1,2⟩ (filled 8))).1 (reused (filled 7)).2 left ∧
    recover inOrder 16 left = .ok after ∧ after.data ⟨1,2⟩ = (filled 7).bytes ∧ (filled 7).bytes ≠ [] ∧
    (filled 7).bytes ≠ (filled 8).bytes := by
  obtain ⟨after,ok,page⟩ := reusedSlot (filled 8) (filledIntact 7)
  refine ⟨_,after,.within _ _ _ 13,ok,page,bytesNonempty _,fun same => ?_⟩
  have bytes : (filled 7).data = (filled 8).data := by rw [pageBytesInj same]
  simp only [filled] at bytes
  exact absurd bytes (by decide)

end MiniOb.Buffer
